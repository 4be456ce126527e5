import ACENetwork.Net.Connections

/-!
# Who closes a descriptor

A connection closes its descriptors once as long as only one call closes it: neither `abort`
nor `handle_close` invalidates the handle of the socket, so any other call closes the same
number again, which may by then be the number of another connection.
-/
namespace ACENetwork.Net
open BitTorrent (Fault)
open Library

/-- Every call of `shutdown` and `closesocket` is on a descriptor that the connection has opened,
and has not closed. -/
def OwnCalls (w : World) : Prop := ∀ call ∈ w.systemCalls, call.owner = some call.connection

namespace Connection

def closes (c : Connection) : Instruction → List ℕ
  | .closesocket handle => [handle]
  | .handleCloseState => c.stateHandle.toList ++ c.writeHandle.toList
  | .closeWrite => c.writeHandle.toList
  | .closePeer => c.handle.toList
  | _ => []

def closing (c : Connection) : List ℕ := c.calls.flatMap fun call => call.flatMap c.closes

/-- The descriptors that are open, until a call closes the connection. -/
def idle (c : Connection) : List ℕ :=
  if c.closings = 0 then c.handle.toList ++ c.writeHandle.toList else []

def pending (c : Connection) : List ℕ := c.idle ++ c.closing

def Fails (c : Connection) (w : World) (i : ℕ) (ok : Bool) : Prop :=
  c.phase = .register ∧ w.manager.register_ i = none ∨
    (c.phase = .stream ∨ c.phase = .read ∨ c.phase = .status) ∧ ok = false

end Connection

/-- The steps that close a connection once: after a call of `abort` or `handle_close` there is no
other one, no failing `open` of the proactor, and no destructor that closes the socket; and
`abort` of the proactor is called while the state has a handle. -/
def Once (w : World) : World.Event → Prop
  | .abort i => ∀ c ∈ w.connections i, c.closings = 0 ∧ (c.kind = .proactor → c.stateHandle ≠ none)
  | .handleClose i => ∀ c ∈ w.connections i, c.closings = 0
  | .opening i ok _ =>
    ∀ c ∈ w.connections i, c.kind = .proactor → c.Fails w i ok → c.closings = 0
  | .destroy i => ∀ c ∈ w.connections i, c.remaining ≠ none → c.closings = 0
  | _ => True

/-- The instructions that look neither at the handle of the state nor at `writeHandle_`. -/
def Instruction.Stateless : Instruction → Prop
  | .shutdownState => False
  | .shutdownWrite => False
  | .handleCloseState => False
  | .closeWrite => False
  | .clearWrite => False
  | _ => True

/-- A descriptor is shut down by the call that closes it next, and that of the state is valid. -/
def Ordered : Option ℕ → List Instruction → Prop
  | _, [] => True
  | _, .shutdown handle :: rest => rest = [.closesocket handle]
  | state, .shutdownState :: rest => rest = [.shutdownWrite, .handleCloseState] ∧ state ≠ none
  | _, .shutdownWrite :: rest => rest = [.handleCloseState]
  | _, .invalidate :: rest => Ordered none rest
  | state, _ :: rest => Ordered state rest

/-- The invariant of a connection: it owns the descriptors that are still to be closed, each of
which is closed once. -/
structure Own (descriptors : ℕ → Option ℕ) (i : ℕ) (c : Connection) : Prop where
  nodup : c.pending.Nodup
  owned : ∀ fd ∈ c.pending, descriptors fd = some i
  ordered : ∀ call ∈ c.calls, Ordered c.stateHandle call
  once : c.closings ≤ 1
  solo : c.kind = .proactor → c.calls.length ≤ c.closings
  stateless : c.kind = .reactor → ∀ call ∈ c.calls, ∀ x ∈ call, x.Stateless
  stateHandle : c.kind = .proactor → c.closings = 0 →
    c.stateHandle = none ∨ c.stateHandle = c.handle
  unset : c.phase = .duplicate ∨ c.phase = .handle →
    c.stateHandle = none ∧ (c.kind = .proactor → c.closings = 0)
  duplicate : c.phase = .duplicate → c.kind = .proactor ∧ c.writeHandle = none

section Ordered

theorem Ordered.tail {state : Option ℕ} {x : Instruction} {rest : List Instruction}
    (h : Ordered state (x :: rest)) (hx : x ≠ .invalidate) : Ordered state rest := by
  cases x with
  | shutdown handle =>
    obtain rfl : rest = _ := h
    trivial
  | shutdownState =>
    obtain ⟨rfl, -⟩ := h
    rfl
  | shutdownWrite =>
    obtain rfl : rest = _ := h
    trivial
  | invalidate => exact absurd rfl hx
  | _ => exact h

theorem Ordered.of_stateless {call : List Instruction} (hcall : ∀ x ∈ call, x.Stateless)
    {state : Option ℕ} (h : Ordered state call) (other : Option ℕ) : Ordered other call := by
  induction call generalizing state other with
  | nil => trivial
  | cons x rest ih =>
    rw [List.forall_mem_cons] at hcall
    obtain ⟨hx, hrest⟩ := hcall
    cases x with
    | shutdownState => exact hx.elim
    | shutdownWrite => exact hx.elim
    | shutdown handle => exact h
    | invalidate => exact ih hrest h none
    | _ => exact ih hrest h other

theorem ordered_socketHandleClose {state : Option ℕ} {rest : List Instruction}
    (h : Ordered state rest) (handle : Option ℕ) :
    Ordered state (socketHandleClose handle ++ rest) := by
  cases handle <;> exact h

end Ordered

namespace Connection

variable {c d : Connection} {k : ℕ} {x : Instruction} {rest call : List Instruction}

theorem mem_pending {y : Instruction} (hcall : call ∈ c.calls) (hy : y ∈ call) {fd : ℕ}
    (hfd : fd ∈ c.closes y) : fd ∈ c.pending :=
  List.mem_append_right _
    (List.mem_flatMap.mpr ⟨call, hcall, List.mem_flatMap.mpr ⟨y, hy, hfd⟩⟩)

theorem closes_socketHandleClose (handle : Option ℕ) :
    (socketHandleClose handle).flatMap c.closes = handle.toList ++ c.writeHandle.toList := by
  cases handle <;> simp [socketHandleClose, closes]

/-- A connection whose handles are those of another one, or invalid. -/
structure Keeps (c d : Connection) : Prop where
  kind : d.kind = c.kind
  closings : d.closings = c.closings
  phase : d.phase = c.phase
  handle : d.handle = c.handle ∨ d.handle = none
  stateHandle : d.stateHandle = c.stateHandle ∨ d.stateHandle = none
  writeHandle : d.writeHandle = c.writeHandle ∨ d.writeHandle = none

theorem toList_sublist {a b : Option ℕ} (h : a = b ∨ a = none) : a.toList.Sublist b.toList := by
  rcases h with rfl | rfl
  · exact List.Sublist.refl _
  · exact List.nil_sublist _

theorem Keeps.idle (h : Keeps c d) : d.idle.Sublist c.idle := by
  unfold Connection.idle
  rw [h.closings]
  split
  · exact (toList_sublist h.handle).append (toList_sublist h.writeHandle)
  · exact List.Sublist.refl _

theorem Keeps.closes (h : Keeps c d) (y : Instruction) : (d.closes y).Sublist (c.closes y) := by
  cases y with
  | handleCloseState =>
    exact (toList_sublist h.stateHandle).append (toList_sublist h.writeHandle)
  | closeWrite => exact toList_sublist h.writeHandle
  | closePeer => exact toList_sublist h.handle
  | _ => exact List.Sublist.refl _

/-- What is to be closed after an instruction of the `k`-th call, which closes the descriptors
`fds` itself, and leaves `call` to be executed. -/
theorem pending_sublist (fds : List ℕ) (hk : c.calls[k]? = some (x :: rest))
    (hcalls : d.calls = c.calls.set k call) (hkeeps : Keeps c d)
    (hcall : (fds ++ call.flatMap c.closes).Sublist (c.closes x ++ rest.flatMap c.closes)) :
    (fds ++ d.pending).Subperm c.pending := by
  obtain ⟨front, back, hsplit, hset, -⟩ := exists_around hk
  let f : List Instruction → List ℕ := fun call => call.flatMap c.closes
  have hclosing : d.closing.Sublist (front.flatMap f ++ (call.flatMap c.closes ++ back.flatMap f)) := by
    have hsub : d.closing.Sublist (d.calls.flatMap f) :=
      List.Sublist.flatMap_right _ fun call _ => List.Sublist.flatMap_right _ fun y _ =>
        hkeeps.closes y
    rw [hcalls, hset] at hsub
    simpa [f] using hsub
  have hpending : c.pending = c.idle ++ (front.flatMap f ++
      ((c.closes x ++ rest.flatMap c.closes) ++ back.flatMap f)) := by
    rw [pending, closing, hsplit]
    simp [f]
  have hperm : (fds ++ (c.idle ++ (front.flatMap f ++ (call.flatMap c.closes ++ back.flatMap f)))).Perm
      (c.idle ++ (front.flatMap f ++ ((fds ++ call.flatMap c.closes) ++ back.flatMap f))) := by
    rw [List.perm_iff_count]
    intro fd
    simp only [List.count_append]
    omega
  have hbefore := ((List.Sublist.refl fds).append (hkeeps.idle.append hclosing)).subperm
  have hafter := (List.Sublist.refl c.idle).append ((List.Sublist.refl (front.flatMap f)).append
    (hcall.append (List.Sublist.refl (back.flatMap f))))
  rw [hpending]
  exact (hbefore.trans hperm.subperm).trans hafter.subperm

end Connection

namespace Own

variable {descriptors after : ℕ → Option ℕ} {i : ℕ} {c d : Connection} {k : ℕ} {x : Instruction}
  {rest call : List Instruction}

/-- What is left to be closed is owned, and closed once, after some of it has been closed. -/
theorem remaining (h : Own descriptors i c) {fds : List ℕ}
    (hsub : (fds ++ d.pending).Subperm c.pending)
    (hafter : ∀ fd ∉ fds, descriptors fd = some i → after fd = some i) :
    d.pending.Nodup ∧ (∀ fd ∈ d.pending, after fd = some i) ∧
      ∀ fd ∈ fds, descriptors fd = some i := by
  obtain ⟨l, hperm, hsublist⟩ := hsub
  have hnodup : (fds ++ d.pending).Nodup := hperm.nodup_iff.mp (h.nodup.sublist hsublist)
  have howned : ∀ fd ∈ fds ++ d.pending, descriptors fd = some i := fun fd hfd =>
    h.owned fd (hsublist.subset (hperm.mem_iff.mpr hfd))
  rw [List.nodup_append] at hnodup
  refine ⟨hnodup.2.1, fun fd hfd => hafter fd (fun hmem => ?_) (howned fd (List.mem_append_right _ hfd)),
    fun fd hfd => howned fd (List.mem_append_left _ hfd)⟩
  exact hnodup.2.2 fd hmem fd hfd rfl

theorem proceed (h : Own descriptors i c) (hk : c.calls[k]? = some (x :: rest))
    (hcalls : d.calls = c.calls.set k call) (hkeeps : Connection.Keeps c d)
    (hpending : d.pending.Nodup ∧ ∀ fd ∈ d.pending, after fd = some i)
    (hcall : Ordered d.stateHandle call)
    (hstateless : c.kind = .reactor → ∀ y ∈ call, y.Stateless) : Own after i d := by
  have ⟨hkind, hclosings, hphase, _, hstate, hwrite⟩ := hkeeps
  have hlength : k < c.calls.length := (List.getElem?_eq_some_iff.mp hk).1
  have hmem : ∀ other ∈ d.calls, other = call ∨ other ∈ c.calls := fun other hother => by
    rw [hcalls] at hother
    exact (List.mem_or_eq_of_mem_set hother).symm
  refine ⟨hpending.1, hpending.2, fun other hother => ?_, hclosings ▸ h.once, fun hp => ?_,
    fun hr other hother => ?_, fun hp hzero => ?_, fun hp => ?_, fun hp => ?_⟩
  · cases hreactor : c.kind with
    | reactor =>
      rcases hmem other hother with rfl | hold
      · exact hcall
      · exact (h.ordered other hold).of_stateless (h.stateless hreactor other hold) _
    | proactor =>
      -- there is no other call
      have hsolo := h.solo hreactor
      have honce := h.once
      obtain ⟨only, hcallsc⟩ := List.length_eq_one_iff.mp (show c.calls.length = 1 by omega)
      obtain rfl : k = 0 := by
        rw [hcallsc] at hlength
        simpa using hlength
      rw [hcalls, hcallsc] at hother
      obtain rfl : other = call := by simpa using hother
      exact hcall
  · rw [hcalls, List.length_set, hclosings]
    exact h.solo (hkind ▸ hp)
  · rcases hmem other hother with rfl | hold
    · exact hstateless (hkind ▸ hr)
    · exact h.stateless (hkind ▸ hr) other hold
  · have hsolo := h.solo (hkind ▸ hp)
    omega
  · obtain ⟨hnone, hzero⟩ := h.unset (hphase ▸ hp)
    refine ⟨?_, fun hkindp => hclosings ▸ hzero (hkind ▸ hkindp)⟩
    rcases hstate with hs | hs
    · rw [hs, hnone]
    · exact hs
  · obtain ⟨hkindp, hnone⟩ := h.duplicate (hphase ▸ hp)
    refine ⟨hkind.trans hkindp, ?_⟩
    rcases hwrite with hw | hw
    · rw [hw, hnone]
    · exact hw

theorem quiet (h : Own descriptors i c) (hk : c.calls[k]? = some (x :: rest))
    (hcalls : d.calls = c.calls.set k call) (hkeeps : Connection.Keeps c d)
    (hcloses : (call.flatMap c.closes).Sublist (c.closes x ++ rest.flatMap c.closes))
    (hcall : Ordered d.stateHandle call)
    (hstateless : c.kind = .reactor → ∀ y ∈ call, y.Stateless) : Own descriptors i d := by
  have hsub := Connection.pending_sublist [] hk hcalls hkeeps hcloses
  have hpending := h.remaining hsub fun fd _ howned => howned
  exact h.proceed hk hcalls hkeeps ⟨hpending.1, hpending.2.1⟩ hcall hstateless

/-- An instruction that closes a descriptor, which the connection owns. -/
theorem closed (h : Own descriptors i c) (hk : c.calls[k]? = some (x :: rest)) {fd : ℕ}
    (hx : c.closes x = [fd]) (hcalls : d.calls = c.calls.set k rest)
    (hkeeps : Connection.Keeps c d) (hcall : Ordered d.stateHandle rest) :
    descriptors fd = some i ∧ Own (Function.update descriptors fd none) i d := by
  have hsub := Connection.pending_sublist [fd] hk hcalls hkeeps (by rw [hx])
  have hafter : ∀ other ∉ [fd], descriptors other = some i →
      Function.update descriptors fd none other = some i := fun other hother howned => by
    rwa [Function.update_of_ne (by simpa using hother)]
  have ⟨hnodup, howned, hfd⟩ := h.remaining hsub hafter
  refine ⟨hfd fd (List.mem_singleton_self fd),
    h.proceed hk hcalls hkeeps ⟨hnodup, howned⟩ hcall fun hr y hy => ?_⟩
  exact h.stateless hr _ (List.mem_of_getElem? hk) y (List.mem_cons_of_mem _ hy)

theorem opened (kind : Kind) (fd : ℕ) :
    Own (Function.update descriptors fd (some i)) i (.opened kind fd) := by
  have hpending : (Connection.opened kind fd).pending = [fd] := rfl
  refine ⟨?_, ?_, nofun, Nat.zero_le 1, fun _ => Nat.le_refl 0, nofun, fun _ _ => .inl rfl,
    fun _ => ⟨rfl, fun _ => rfl⟩, fun hphase => ⟨?_, rfl⟩⟩
  · rw [hpending]
    exact List.nodup_singleton fd
  · simp [hpending]
  · cases kind with
    | reactor => simp [Connection.opened] at hphase
    | proactor => rfl

/-- No call closes the connection yet, so none of the proactor is under way. -/
theorem calls_eq_nil (h : Own descriptors i c) (hzero : c.closings = 0)
    (hkind : c.kind = .proactor) : c.calls = [] := by
  have hsolo := h.solo hkind
  exact List.eq_nil_of_length_eq_zero (by omega)

theorem close (h : Own descriptors i c) (hzero : c.closings = 0)
    (hcloses : (call.flatMap c.closes).Sublist (c.handle.toList ++ c.writeHandle.toList))
    (hcall : Ordered c.stateHandle call)
    (hstateless : c.kind = .reactor → ∀ y ∈ call, y.Stateless)
    (hphase : c.kind = .proactor → c.phase ≠ .duplicate ∧ c.phase ≠ .handle) :
    Own descriptors i (c.close call) := by
  have hpending : ([] ++ (c.close call).pending).Subperm c.pending := by
    have hafter : (c.close call).pending = c.closing ++ call.flatMap c.closes := by
      simp only [Connection.pending, Connection.idle, Connection.close, Connection.closing,
        List.flatMap_append, List.flatMap_singleton]
      rfl
    have hbefore : c.pending = (c.handle.toList ++ c.writeHandle.toList) ++ c.closing := by
      rw [Connection.pending, Connection.idle, if_pos hzero]
    rw [List.nil_append, hafter, hbefore]
    exact ((List.Sublist.refl _).append hcloses).subperm.trans List.perm_append_comm.subperm
  have hleft := h.remaining hpending fun fd _ howned => howned
  have hmem : ∀ other ∈ (c.close call).calls, other ∈ c.calls ∨ other = call := fun other hother => by
    simpa [Connection.close] using hother
  refine ⟨hleft.1, hleft.2.1, fun other hother => ?_, ?_, fun hp => ?_, fun hr other hother => ?_,
    fun _ hone => ?_, fun hp => ⟨(h.unset hp).1, fun hkind => ?_⟩, h.duplicate⟩
  · rcases hmem other hother with hold | rfl
    · exact h.ordered other hold
    · exact hcall
  · simp [Connection.close, hzero]
  · simp [Connection.close, h.calls_eq_nil hzero hp]
  · rcases hmem other hother with hold | rfl
    · exact h.stateless hr other hold
    · exact hstateless hr
  · simp [Connection.close] at hone
  · have ⟨hduplicate, hhandle⟩ := hphase hkind
    rcases hp with hp | hp
    · exact absurd hp hduplicate
    · exact absurd hp hhandle

theorem advance (h : Own descriptors i c) {phase : Phase} (hphase : phase ≠ .duplicate)
    (hunset : phase = .handle → c.phase = .duplicate) : Own descriptors i { c with phase := phase } :=
  { h with
    unset := fun hp => h.unset (.inl (hunset (hp.resolve_left hphase)))
    duplicate := fun hp => absurd hp hphase }

theorem append (h : Own descriptors i c) (hkind : c.kind = .reactor)
    (hcloses : call.flatMap c.closes = []) (hcall : Ordered c.stateHandle call)
    (hstateless : ∀ y ∈ call, y.Stateless) :
    Own descriptors i { c with calls := c.calls ++ [call] } := by
  have hpending : Connection.pending { c with calls := c.calls ++ [call] } = c.pending := by
    have hclosing : Connection.closing { c with calls := c.calls ++ [call] } =
        c.closing ++ call.flatMap c.closes := by
      simp only [Connection.closing, List.flatMap_append, List.flatMap_singleton]
      rfl
    rw [Connection.pending, hclosing, hcloses, List.append_nil]
    rfl
  have hmem : ∀ other ∈ c.calls ++ [call], other ∈ c.calls ∨ other = call := by simp
  refine ⟨hpending ▸ h.nodup, hpending ▸ h.owned, fun other hother => ?_, h.once,
    fun hp => ?_, fun hr other hother => ?_, h.stateHandle, h.unset, h.duplicate⟩
  · rcases hmem other hother with hold | rfl
    · exact h.ordered other hold
    · exact hcall
  · simp [hkind] at hp
  · rcases hmem other hother with hold | rfl
    · exact h.stateless hr other hold
    · exact hstateless

theorem abort (h : Own descriptors i c) (hzero : c.closings = 0)
    (hvalid : c.kind = .proactor → c.stateHandle ≠ none) : Own descriptors i c.abort := by
  unfold Connection.abort
  cases hkind : c.kind with
  | reactor =>
    refine h.close hzero ?_ ?_ (fun _ => ?_) (by simp [hkind])
    · cases c.handle <;> simp [streamAbort, Connection.closes]
    · cases c.handle with
      | none => trivial
      | some fd => rfl
    · cases c.handle <;> simp [streamAbort, Instruction.Stateless]
  | proactor =>
    have hstate : c.stateHandle = c.handle :=
      (h.stateHandle hkind hzero).resolve_left (hvalid hkind)
    refine h.close hzero ?_ ⟨rfl, hvalid hkind⟩ (by simp [hkind]) fun _ => ⟨fun hp => ?_, fun hp => ?_⟩
    · simp [asynchAbort, Connection.closes, hstate]
    · exact hvalid hkind (h.unset (.inl hp)).1
    · exact hvalid hkind (h.unset (.inr hp)).1

theorem ordered_asynchHandleClose (state handle : Option ℕ) :
    Ordered state (asynchHandleClose handle) := by
  cases handle <;> trivial

theorem handleClose (h : Own descriptors i c) (hzero : c.closings = 0) (hread : c.Readable) :
    Own descriptors i c.handleClose := by
  unfold Connection.handleClose
  cases hkind : c.kind with
  | reactor =>
    refine h.close hzero ?_ trivial (fun _ => ?_) (by simp [hkind])
    · simp [streamHandleClose, Connection.closes]
    · simp [streamHandleClose, Instruction.Stateless]
  | proactor =>
    refine h.close hzero ?_ (ordered_asynchHandleClose _ _) (by simp [hkind]) fun _ => ?_
    · simp [asynchHandleClose, Connection.closes, Connection.closes_socketHandleClose]
    · rcases hread with hp | hp | hp <;> simp [hp]

theorem closes_undo (c d : Connection) : c.undo.flatMap d.closes = [] := by
  unfold Connection.undo
  split <;> rfl

theorem stateless_undo (c : Connection) : ∀ y ∈ c.undo, y.Stateless := by
  unfold Connection.undo
  split <;> simp [Instruction.Stateless]

theorem ordered_undo (c : Connection) {state : Option ℕ} (h : Ordered state rest) :
    Ordered state (c.undo ++ rest) := by
  unfold Connection.undo
  split <;> exact h

theorem fail (h : Own descriptors i c) (hphase : c.phase ≠ .duplicate ∧ c.phase ≠ .handle)
    (hzero : c.kind = .proactor → c.closings = 0) : Own descriptors i c.fail := by
  unfold Connection.fail
  cases hkind : c.kind with
  | reactor =>
    have happend : Own descriptors i
        { c with calls := c.calls ++ [c.undo ++ [Instruction.invalidate]] } := by
      refine h.append hkind ?_ (ordered_undo c trivial) fun y hy => ?_
      · rw [List.flatMap_append, closes_undo]
        rfl
      · rcases List.mem_append.mp hy with hundo | hlast
        · exact stateless_undo c y hundo
        · obtain rfl := List.mem_singleton.mp hlast
          trivial
    have hdone := happend.advance (show Phase.done ≠ .duplicate from nofun) nofun
    simpa only [hkind] using hdone
  | proactor =>
    refine (h.close (hzero hkind) ?_ ?_ (by simp [hkind]) fun _ => hphase).advance nofun nofun
    · simp [closes_undo, Connection.closes, asynchHandleClose, Connection.closes_socketHandleClose]
    · rw [List.append_assoc]
      exact ordered_undo c (ordered_asynchHandleClose none c.handle)

theorem returned (h : Own descriptors i c) (hk : c.calls[k]? = some []) :
    Own descriptors i { c with calls := c.calls.eraseIdx k } := by
  obtain ⟨front, back, hsplit, -, herase⟩ := exists_around hk
  have hpending : Connection.pending { c with calls := c.calls.eraseIdx k } = c.pending := by
    have hclosing : Connection.closing { c with calls := c.calls.eraseIdx k } = c.closing := by
      rw [Connection.closing, Connection.closing, herase, hsplit]
      simp only [List.flatMap_append, List.flatMap_cons, List.flatMap_nil, List.nil_append]
      rfl
    rw [Connection.pending, hclosing]
    rfl
  have hmem : ∀ call ∈ c.calls.eraseIdx k, call ∈ c.calls := fun _ => List.mem_of_mem_eraseIdx
  exact ⟨hpending ▸ h.nodup, hpending ▸ h.owned, fun call hcall => h.ordered call (hmem call hcall),
    h.once, fun hp => (List.length_eraseIdx_le ..).trans (h.solo hp),
    fun hr call hcall => h.stateless hr call (hmem call hcall), h.stateHandle, h.unset, h.duplicate⟩

theorem duplicated (h : Own descriptors i c) (hphase : c.phase = .duplicate) {fd : ℕ}
    (hfd : descriptors fd = none) :
    Own (Function.update descriptors fd (some i)) i
      { c with writeHandle := some fd, phase := .handle } := by
  obtain ⟨hkind, hwrite⟩ := h.duplicate hphase
  obtain ⟨hstate, hzero⟩ := h.unset (.inl hphase)
  have hcalls := h.calls_eq_nil (hzero hkind) hkind
  have hpending : c.pending = c.handle.toList := by
    simp [Connection.pending, Connection.idle, Connection.closing, hzero hkind, hwrite, hcalls]
  have howned := h.owned
  rw [hpending] at howned
  have hnot : fd ∉ c.handle.toList := fun hmem => by simpa [hfd] using howned fd hmem
  have hafter : Connection.pending { c with writeHandle := some fd, phase := .handle } =
      c.handle.toList ++ [fd] := by
    simp [Connection.pending, Connection.idle, Connection.closing, hzero hkind, hcalls]
  refine ⟨?_, fun other hother => ?_, by simp [hcalls], h.once, h.solo, by simp [hcalls],
    fun _ _ => .inl hstate, fun _ => ⟨hstate, hzero⟩, nofun⟩
  · rw [hafter]
    have hnodup := h.nodup
    rw [hpending] at hnodup
    exact List.nodup_append.mpr ⟨hnodup, List.nodup_singleton fd, fun a ha b hb heq =>
      hnot (List.mem_singleton.mp hb ▸ heq ▸ ha)⟩
  · rw [hafter] at hother
    by_cases heq : other = fd
    · rw [heq, Function.update_self]
    · rw [Function.update_of_ne heq]
      exact howned other (by simpa [heq] using hother)

/-- The calls that are under way do not look at the handle of the state, as long as it is not
set. -/
theorem stateSet (h : Own descriptors i c) (hphase : c.phase = .handle) :
    Own descriptors i { c with stateHandle := c.handle, phase := .register } := by
  obtain ⟨-, hzero⟩ := h.unset (.inr hphase)
  have hstateless : ∀ call ∈ c.calls, ∀ y ∈ call, y.Stateless := by
    cases hkind : c.kind with
    | reactor => exact h.stateless hkind
    | proactor => simp [h.calls_eq_nil (hzero hkind) hkind]
  have hcloses : ∀ y : Instruction, y.Stateless →
      Connection.closes { c with stateHandle := c.handle, phase := .register } y = c.closes y := by
    intro y hy
    cases y with
    | handleCloseState => exact hy.elim
    | _ => rfl
  have hpending : Connection.pending { c with stateHandle := c.handle, phase := .register } =
      c.pending := by
    refine congrArg (c.idle ++ ·) (List.flatMap_congr fun call hcall => ?_)
    exact List.flatMap_congr fun y hy => hcloses y (hstateless call hcall y hy)
  exact ⟨hpending ▸ h.nodup, hpending ▸ h.owned,
    fun call hcall => (h.ordered call hcall).of_stateless (hstateless call hcall) _, h.once, h.solo,
    h.stateless, fun _ _ => .inr rfl, by simp, nofun⟩

end Own

structure DescriptorInv (w : World) : Prop where
  own : ∀ i c, w.connections i = some c → Own w.descriptors i c
  calls : OwnCalls w

namespace DescriptorInv

variable {w v : World} {i k : ℕ} {c d : Connection} {x : Instruction} {rest : List Instruction}

/-- A step of one connection leaves the descriptors of the others alone. -/
theorem put (h : DescriptorInv w) (hconnections : v.connections = w.connections)
    (hframe : ∀ j fd, j ≠ i → w.descriptors fd = some j → v.descriptors fd = some j)
    (hcalls : OwnCalls v) (hown : Own v.descriptors i c) : DescriptorInv (v.put i c) where
  own j d hd := by
    by_cases hj : j = i
    · subst hj
      obtain rfl : c = d := by simpa [World.put] using hd
      exact hown
    · have hold : w.connections j = some d := by
        simpa [World.put, Function.update_of_ne hj, hconnections] using hd
      have hownj := h.own j d hold
      exact { hownj with owned := fun fd hfd => hframe j fd hj (hownj.owned fd hfd) }
  calls := hcalls

theorem shutdown (h : OwnCalls w) {fd : Option ℕ} (hfd : fd.bind w.descriptors = some i) :
    OwnCalls (w.shutdown i fd) := by
  intro call hcall
  rcases List.mem_append.mp hcall with hold | hnew
  · exact h call hold
  · obtain rfl := List.mem_singleton.mp hnew
    exact hfd

theorem closesocket (h : OwnCalls w) {fd : ℕ} (hfd : w.descriptors fd = some i) :
    OwnCalls (w.closesocket i fd) := by
  intro call hcall
  rcases List.mem_append.mp hcall with hold | hnew
  · exact h call hold
  · obtain rfl := List.mem_singleton.mp hnew
    exact hfd

theorem closesocket_frame {fd : ℕ} (hfd : w.descriptors fd = some i) (j other : ℕ) (hj : j ≠ i)
    (hother : w.descriptors other = some j) : (w.closesocket i fd).descriptors other = some j := by
  have hne : other ≠ fd := by
    rintro rfl
    exact hj (by simpa [hfd] using hother.symm)
  simpa [World.closesocket, Function.update_of_ne hne] using hother

theorem put_quiet (h : DescriptorInv w) (hv : v.connections = w.connections ∧
      v.descriptors = w.descriptors ∧ v.systemCalls = w.systemCalls)
    (hown : Own w.descriptors i c) : DescriptorInv (v.put i c) := by
  obtain ⟨hconnections, hdescriptors, hcalls⟩ := hv
  refine h.put hconnections (fun j fd _ hfd => hdescriptors ▸ hfd) ?_ (hdescriptors ▸ hown)
  intro call hcall
  exact h.calls call (hcalls ▸ hcall)

theorem put_closed (h : DescriptorInv w) {fd : ℕ} (hfd : w.descriptors fd = some i)
    (hown : Own (Function.update w.descriptors fd none) i c) :
    DescriptorInv ((w.closesocket i fd).put i c) :=
  h.put rfl (fun j other hj hother => closesocket_frame hfd j other hj hother)
    (closesocket h.calls hfd) hown

theorem exec (h : DescriptorInv w) (hc : w.connections i = some c)
    (hk : c.calls[k]? = some (x :: rest)) (hexec : w.exec i c k rest x = .ok v) :
    DescriptorInv v := by
  have hown := h.own i c hc
  have hmem := List.mem_of_getElem? hk
  have hordered := hown.ordered _ hmem
  have hstateless : c.kind = .reactor → ∀ y ∈ rest, y.Stateless := fun hr y hy =>
    hown.stateless hr _ hmem y (List.mem_cons_of_mem _ hy)
  have hrest : (rest.flatMap c.closes).Sublist (c.closes x ++ rest.flatMap c.closes) :=
    List.sublist_append_right _ _
  -- an instruction that changes nothing that matters here
  have hkeep : ∀ d : Connection, d.calls = c.calls.set k rest → Connection.Keeps c d →
      d.stateHandle = c.stateHandle → x ≠ .invalidate → Own w.descriptors i d :=
    fun d hcalls hkeeps hstate hx =>
      hown.quiet hk hcalls hkeeps hrest (hstate ▸ hordered.tail hx) hstateless
  have hcloses : ∀ y ∈ rest, ∀ fd ∈ c.closes y, w.descriptors fd = some i := fun y hy fd hfd =>
    hown.owned fd (Connection.mem_pending hmem (List.mem_cons_of_mem _ hy) hfd)
  have hsame : Connection.Keeps c { c with calls := c.calls.set k rest } :=
    ⟨rfl, rfl, rfl, .inl rfl, .inl rfl, .inl rfl⟩
  have hnext := hkeep _ rfl hsame rfl
  cases x with
  | shutdown handle =>
    cases hexec
    have howned := hcloses (.closesocket handle) (by simp [show rest = _ from hordered]) handle
      (List.mem_singleton_self handle)
    exact h.put rfl (fun _ _ _ hfd => hfd) (shutdown h.calls howned) (hnext nofun)
  | closesocket handle =>
    cases hexec
    have ⟨howned, hclosed⟩ := hown.closed hk rfl rfl hsame (hordered.tail nofun)
    exact h.put_closed howned hclosed
  | shutdownState =>
    cases hexec
    obtain ⟨hshape, hvalid⟩ := hordered
    obtain ⟨handle, hhandle⟩ := Option.ne_none_iff_exists'.mp hvalid
    have howned := hcloses .handleCloseState (by simp [hshape]) handle
      (by simp [Connection.closes, hhandle])
    refine h.put rfl (fun _ _ _ hfd => hfd) (shutdown h.calls ?_) (hnext nofun)
    rw [hhandle]
    exact howned
  | shutdownWrite =>
    unfold World.exec at hexec
    cases hwrite : c.writeHandle with
    | none =>
      simp only [hwrite] at hexec
      cases hexec
      exact h.put_quiet ⟨rfl, rfl, rfl⟩ (by simpa only [hwrite] using hnext nofun)
    | some fd =>
      simp only [hwrite] at hexec
      cases hexec
      have howned := hcloses .handleCloseState (by simp [show rest = _ from hordered]) fd
        (by simp [Connection.closes, hwrite])
      have hkept := hnext nofun
      simp only [hwrite] at hkept
      exact h.put rfl (fun _ _ _ hfd => hfd) (shutdown h.calls howned) hkept
  | handleCloseState =>
    cases hexec
    refine h.put_quiet ⟨rfl, rfl, rfl⟩ (hown.quiet hk rfl ⟨rfl, rfl, rfl, .inl rfl, .inl rfl, .inl rfl⟩
      ?_ (ordered_socketHandleClose (hordered.tail nofun) _) fun hr => ?_)
    · rw [List.flatMap_append, Connection.closes_socketHandleClose]
      exact List.Sublist.refl _
    · exact (hown.stateless hr _ hmem .handleCloseState List.mem_cons_self).elim
  | closeWrite =>
    unfold World.exec at hexec
    cases hwrite : c.writeHandle with
    | none =>
      simp only [hwrite] at hexec
      cases hexec
      exact h.put_quiet ⟨rfl, rfl, rfl⟩ (by simpa only [hwrite] using hnext nofun)
    | some fd =>
      simp only [hwrite] at hexec
      cases hexec
      have hcloses : c.closes .closeWrite = [fd] := by simp [Connection.closes, hwrite]
      have ⟨howned, hclosed⟩ := hown.closed hk hcloses rfl hsame (hordered.tail nofun)
      simp only [hwrite] at hclosed
      exact h.put_closed howned hclosed
  | clearWrite =>
    cases hexec
    exact h.put_quiet ⟨rfl, rfl, rfl⟩ (hkeep { c with calls := c.calls.set k rest, writeHandle := none }
      rfl ⟨rfl, rfl, rfl, .inl rfl, .inl rfl, .inr rfl⟩ rfl nofun)
  | lock =>
    cases hexec
    refine h.put_quiet ⟨rfl, rfl, rfl⟩ ?_
    cases hclosed : c.closed with
    | true =>
      exact hkeep { c with closed := true, calls := c.calls.set k rest } rfl
        ⟨rfl, rfl, rfl, .inl rfl, .inl rfl, .inl rfl⟩ rfl nofun
    | false =>
      have hstops : Ordered c.stateHandle (.stop :: rest) := hordered
      refine hown.quiet hk (d := { c with closed := true, calls := c.calls.set k (.stop :: rest) })
        rfl ⟨rfl, rfl, rfl, .inl rfl, .inl rfl, .inl rfl⟩ hrest hstops fun hr => ?_
      exact List.forall_mem_cons.mpr ⟨trivial, hstateless hr⟩
  | stop =>
    unfold World.exec at hexec
    by_cases hstreaming : c.streaming = false
    · simp only [if_pos hstreaming] at hexec
      cases hexec
      exact h.put_quiet ⟨rfl, rfl, rfl⟩ (hnext nofun)
    · by_cases hstate : c.stateHandle = none
      · simp [hstreaming, hstate] at hexec
      · simp only [if_neg hstreaming, if_neg hstate, World.sessionDisconnect] at hexec
        by_cases hid : c.stateHandle ∈ w.session
        · simp only [if_pos hid, Except.map] at hexec
          cases hexec
          exact h.put_quiet ⟨rfl, rfl, rfl⟩
            (hkeep { c with calls := c.calls.set k rest, streaming := false } rfl
              ⟨rfl, rfl, rfl, .inl rfl, .inl rfl, .inl rfl⟩ rfl nofun)
        · simp [if_neg hid, Except.map] at hexec
  | stopErased =>
    unfold World.exec at hexec
    by_cases hstreaming : c.streaming = true
    · simp [hstreaming] at hexec
    · simp only [if_neg hstreaming] at hexec
      cases hexec
      exact h.put_quiet ⟨rfl, rfl, rfl⟩ (hnext nofun)
  | closePeer =>
    unfold World.exec at hexec
    cases hhandle : c.handle with
    | none =>
      simp only [hhandle] at hexec
      cases hexec
      exact h.put_quiet ⟨rfl, rfl, rfl⟩ (by simpa only [hhandle] using hnext nofun)
    | some fd =>
      simp only [hhandle] at hexec
      cases hexec
      have hcloses : c.closes .closePeer = [fd] := by simp [Connection.closes, hhandle]
      have ⟨howned, hclosed⟩ := hown.closed hk hcloses
        (d := { c with calls := c.calls.set k rest, handle := none }) rfl
        ⟨rfl, rfl, rfl, .inr rfl, .inl rfl, .inl rfl⟩ (hordered.tail nofun)
      exact h.put_closed howned hclosed
  | deregister =>
    unfold World.exec at hexec
    by_cases hregistered : c.isRegistered = true
    · simp only [if_pos hregistered] at hexec
      cases hexec
      exact h.put_quiet ⟨rfl, rfl, rfl⟩
        (hkeep { c with calls := c.calls.set k rest, isRegistered := false } rfl
          ⟨rfl, rfl, rfl, .inl rfl, .inl rfl, .inl rfl⟩ rfl nofun)
    · simp only [if_neg hregistered] at hexec
      cases hexec
      exact h.put_quiet ⟨rfl, rfl, rfl⟩ (hnext nofun)
  | invalidate =>
    cases hexec
    refine h.put_quiet ⟨rfl, rfl, rfl⟩ (hown.quiet hk rfl
      ⟨rfl, rfl, rfl, .inl rfl, .inr rfl, .inl rfl⟩ hrest hordered hstateless)

theorem stepOpen (h : DescriptorInv w) (hc : w.connections i = some c) {ok : Bool}
    {fd : Option ℕ} (honce : c.kind = .proactor → c.Fails w i ok → c.closings = 0)
    (hstep : w.stepOpen i c ok fd = .ok v) : DescriptorInv v := by
  have hown := h.own i c hc
  unfold World.stepOpen at hstep
  cases hphase : c.phase <;> simp only [hphase] at hstep
  case duplicate =>
    cases fd with
    | none =>
      cases hstep
      exact h.put_quiet ⟨rfl, rfl, rfl⟩ (hown.advance nofun fun _ => hphase)
    | some fd =>
      by_cases hfree : w.descriptors fd = none
      · simp only [if_pos hfree] at hstep
        cases hstep
        refine h.put rfl (fun j other _ hother => ?_) h.calls (hown.duplicated hphase hfree)
        have hne : other ≠ fd := by
          rintro rfl
          simp [hfree] at hother
        simpa [World.allocate, Function.update_of_ne hne] using hother
      · simp [hfree] at hstep
  case handle =>
    cases hstep
    exact h.put_quiet ⟨rfl, rfl, rfl⟩ (hown.stateSet hphase)
  case register =>
    cases hregister : w.manager.register_ i with
    | none =>
      simp only [hregister] at hstep
      cases hstep
      exact h.put_quiet ⟨rfl, rfl, rfl⟩ (hown.fail (by simp [hphase]) fun hkind =>
        honce hkind (.inl ⟨hphase, hregister⟩))
    | some manager =>
      simp only [hregister] at hstep
      cases hstep
      have hstream := hown.advance (show Phase.stream ≠ .duplicate from nofun) nofun
      exact h.put_quiet ⟨rfl, rfl, rfl⟩ { hstream with }
  case stream =>
    cases hstep
    cases ok with
    | true => exact h.put_quiet ⟨rfl, rfl, rfl⟩ (hown.advance nofun nofun)
    | false =>
      exact h.put_quiet ⟨rfl, rfl, rfl⟩ (hown.fail (by simp [hphase]) fun hkind =>
        honce hkind (.inr ⟨.inl hphase, rfl⟩))
  case start =>
    by_cases hid : c.stateHandle ∈ w.session
    · simp [World.sessionConnect, hid, Except.map] at hstep
    · simp only [World.sessionConnect, if_neg hid, Except.map] at hstep
      cases hstep
      have hread := hown.advance (show Phase.read ≠ .duplicate from nofun) nofun
      exact h.put_quiet ⟨rfl, rfl, rfl⟩ { hread with }
  case read =>
    cases hstep
    cases ok with
    | true => exact h.put_quiet ⟨rfl, rfl, rfl⟩ (hown.advance nofun nofun)
    | false =>
      exact h.put_quiet ⟨rfl, rfl, rfl⟩ (hown.fail (by simp [hphase]) fun hkind =>
        honce hkind (.inr ⟨.inr (.inl hphase), rfl⟩))
  case status =>
    cases hstep
    refine h.put_quiet ⟨rfl, rfl, rfl⟩ (Own.advance ?_ nofun nofun)
    by_cases hopen : c.kind = .reactor ∨ ok = true
    · rw [if_pos hopen]
      exact hown
    · rw [if_neg hopen]
      have hproactor : c.kind = .proactor := by
        cases hkind : c.kind with
        | reactor => exact absurd (.inl hkind) hopen
        | proactor => rfl
      have hok : ok = false := by simpa using fun hok => hopen (.inr hok)
      exact hown.handleClose (honce hproactor (.inr ⟨.inr (.inr hphase), hok⟩)) (.inr (.inl hphase))
  case done => cases hstep

theorem remove (h : DescriptorInv w) (hconnections : v.connections = w.connections)
    (hframe : ∀ j fd, j ≠ i → w.descriptors fd = some j → v.descriptors fd = some j)
    (hcalls : OwnCalls v) :
    DescriptorInv { v with connections := Function.update v.connections i none } where
  own j d hd := by
    by_cases hj : j = i
    · subst hj
      simp at hd
    · have hold : w.connections j = some d := by
        simpa [Function.update_of_ne hj, hconnections] using hd
      have hownj := h.own j d hold
      exact { hownj with owned := fun fd hfd => hframe j fd hj (hownj.owned fd hfd) }
  calls := hcalls

theorem destroy (h : DescriptorInv w) (hc : w.connections i = some c)
    (honce : c.remaining ≠ none → c.closings = 0) : DescriptorInv (w.destroy i c) := by
  unfold World.destroy
  cases hremaining : c.remaining with
  | none => exact h.remove rfl (fun _ _ _ hfd => hfd) h.calls
  | some fd =>
    have hzero := honce (by simp [hremaining])
    have hpending : fd ∈ c.pending := by
      refine List.mem_append_left _ ?_
      rw [Connection.idle, if_pos hzero]
      unfold Connection.remaining at hremaining
      cases hkind : c.kind <;> rw [hkind] at hremaining
      · exact List.mem_append_left _ (Option.mem_toList.mpr hremaining)
      · exact List.mem_append_right _ (Option.mem_toList.mpr hremaining)
    have howned := (h.own i c hc).owned fd hpending
    exact h.remove rfl (closesocket_frame howned) (closesocket h.calls howned)

theorem step {e : World.Event} (h : DescriptorInv w) (honce : Once w e)
    (hstep : w.step e = .ok v) : DescriptorInv v := by
  unfold World.step at hstep
  cases e with
  | socket kind fd =>
    by_cases hfree : w.descriptors fd = none
    · simp only [if_pos hfree] at hstep
      cases hstep
      refine h.put rfl (fun j other _ hother => ?_) h.calls (Own.opened kind fd)
      have hne : other ≠ fd := by
        rintro rfl
        simp [hfree] at hother
      simpa [World.allocate, Function.update_of_ne hne] using hother
    · simp [hfree] at hstep
  | opening i ok fd =>
    cases hc : w.connections i with
    | none => simp [hc] at hstep
    | some c =>
      simp only [hc] at hstep
      exact h.stepOpen hc (honce c hc) hstep
  | abort i =>
    cases hc : w.connections i with
    | none => simp [hc] at hstep
    | some c =>
      simp only [hc] at hstep
      cases hstep
      have ⟨hzero, hvalid⟩ := honce c hc
      exact h.put_quiet ⟨rfl, rfl, rfl⟩ ((h.own i c hc).abort hzero hvalid)
  | handleClose i =>
    cases hc : w.connections i with
    | none => simp [hc] at hstep
    | some c =>
      by_cases hread : c.Readable
      · simp only [hc, if_pos hread] at hstep
        cases hstep
        exact h.put_quiet ⟨rfl, rfl, rfl⟩ ((h.own i c hc).handleClose (honce c hc) hread)
      · simp [hc, hread] at hstep
  | proceed i k =>
    cases hc : w.connections i with
    | none => simp [hc] at hstep
    | some c =>
      simp only [hc] at hstep
      cases hk : c.calls[k]? with
      | none => simp [hk] at hstep
      | some call =>
        cases call with
        | nil =>
          simp only [hk] at hstep
          cases hstep
          exact h.put_quiet ⟨rfl, rfl, rfl⟩ ((h.own i c hc).returned hk)
        | cons x rest =>
          simp only [hk] at hstep
          exact h.exec hc hk hstep
  | destroy i =>
    cases hc : w.connections i with
    | none => simp [hc] at hstep
    | some c =>
      simp only [hc] at hstep
      split at hstep
      · cases hstep
        exact h.destroy hc (honce c hc)
      · cases hstep
  | wait handle =>
    cases hget : w.manager.get w.id handle <;> simp only [hget] at hstep <;> cases hstep
    · exact h
    · exact ⟨h.own, h.calls⟩
  | wake k =>
    cases hk : w.waiters[k]? with
    | none => simp [hk] at hstep
    | some waiter =>
      simp only [hk] at hstep
      cases hget : w.manager.get w.id waiter.handle <;> simp only [hget] at hstep <;> cases hstep
      · exact ⟨h.own, h.calls⟩
      · exact ⟨h.own, h.calls⟩

end DescriptorInv

theorem descriptorInv_start (manager : ConnectionManager) : DescriptorInv (World.start manager) where
  own _ _ h := by simp [World.start] at h
  calls _ h := by simp [World.start] at h

/-- Connections that are closed once close their own descriptors only, in any order of their
steps. -/
theorem run_ownCalls (manager : ConnectionManager) (es : List World.Event) {w : World}
    (halong : Runs.Along World.step Once (World.start manager) es)
    (hrun : Runs.run World.step (World.start manager) es = .ok w) : OwnCalls w :=
  (Runs.run_invariant DescriptorInv (fun _ _ _ h honce hstep => h.step honce hstep)
    (descriptorInv_start manager) halong hrun).calls

instance (c : Connection) (w : World) (i : ℕ) (ok : Bool) : Decidable (c.Fails w i ok) :=
  inferInstanceAs (Decidable (_ ∨ _))

instance (w : World) : (e : World.Event) → Decidable (Once w e)
  | .abort i => inferInstanceAs (Decidable (∀ c ∈ w.connections i,
      c.closings = 0 ∧ (c.kind = .proactor → c.stateHandle ≠ none)))
  | .handleClose i => inferInstanceAs (Decidable (∀ c ∈ w.connections i, c.closings = 0))
  | .opening i ok _ => inferInstanceAs (Decidable (∀ c ∈ w.connections i,
      c.kind = .proactor → c.Fails w i ok → c.closings = 0))
  | .destroy i => inferInstanceAs (Decidable (∀ c ∈ w.connections i,
      c.remaining ≠ none → c.closings = 0))
  | .socket _ _ | .proceed _ _ | .wait _ | .wake _ => isTrue trivial

/-- A connection of the proactor is aborted, one of the reactor is closed by its peer, and a third
one gets the number of its descriptor. -/
def World.closedOnce : List World.Event :=
  [.socket .proactor 5] ++ World.opens 0 (some 6) ++ [.abort 0] ++
    List.replicate 7 (.proceed 0 0) ++ [.socket .reactor 7] ++ World.opens 1 none ++
    [.handleClose 1] ++ List.replicate 5 (.proceed 1 0) ++ [.socket .reactor 7]

theorem run_ownCalls_closedOnce :
    ∃ w, Runs.run World.step (World.start ⟨true, 10, []⟩) World.closedOnce = .ok w ∧
      w.systemCalls.map SystemCall.descriptor = [some 5, some 6, some 5, some 6, some 7] ∧
      OwnCalls w :=
  ⟨_, rfl, rfl, run_ownCalls ⟨true, 10, []⟩ World.closedOnce (by decide) rfl⟩

/-- A connection of the proactor is aborted, another one gets the number of its descriptor, and
the completion of its read closes this number again. -/
def World.closedTwice : List World.Event :=
  [.socket .proactor 5] ++ World.opens 0 (some 6) ++ [.abort 0] ++
    List.replicate 7 (.proceed 0 0) ++ [.socket .proactor 5, .handleClose 0] ++
    List.replicate 3 (.proceed 0 0)

theorem not_ownCalls :
    ¬ ∀ (manager : ConnectionManager) (es : List World.Event) (w : World),
      Runs.run World.step (World.start manager) es = .ok w → OwnCalls w := by
  intro h
  have hown := h ⟨true, 10, []⟩ World.closedTwice _ rfl
  exact absurd (hown ⟨0, some 5, some 1⟩ (by decide)) (by decide)

end ACENetwork.Net
