import ACENetwork.Net.Connections

/-!
# The ids of connections

The id of a connection is the handle of its socket. It says which connection is meant as long
as the operating system does not give the number of a socket away again before its
connection has been deregistered and is not listed in the session any more.
-/
namespace ACENetwork.Net
open BitTorrent (Fault)
open Library

namespace Connection

def Listed (c : Connection) : Prop := c.phase ≠ .done ∨ c.isRegistered = true ∨ c.streaming = true

instance (c : Connection) : Decidable c.Listed := inferInstanceAs (Decidable (_ ∨ _))

/-- The stream is stopped before the handle of the state is invalidated. -/
def Stops : List Instruction → Prop
  | [] => True
  | .stop :: _ => True
  | .stopErased :: _ => True
  | .invalidate :: _ => False
  | _ :: rest => Stops rest

/-- What is true of each connection: its handles are its number or invalid, and valid until the
steps that invalidate them. -/
structure Sound (c : Connection) : Prop where
  handle : c.handle = none ∨ c.handle = some c.number
  opening : ¬ c.Readable → c.handle = some c.number ∧ c.streaming = false ∧
    ∀ call ∈ c.calls, .closePeer ∉ call ∧ .invalidate ∉ call
  unregistered : c.phase = .duplicate ∨ c.phase = .handle ∨ c.phase = .register →
    c.isRegistered = false
  stateHandle : c.phase = .register ∨ c.phase = .stream ∨ c.phase = .start ∨ c.streaming = true →
    c.stateHandle = some c.number
  stops : c.streaming = true → ∀ call ∈ c.calls, Stops call

end Connection

/-- The number is that of a connection that is listed, or an id of the session, or someone waits
for it. -/
def InUse (w : World) (fd : ℕ) : Prop :=
  (∃ i < w.created, ∃ c ∈ w.connections i, c.number = fd ∧ c.Listed) ∨ some fd ∈ w.session ∨
    ∃ waiter ∈ w.waiters, waiter.handle = fd

instance (w : World) (fd : ℕ) : Decidable (InUse w fd) := inferInstanceAs (Decidable (_ ∨ _))

/-- The operating system gives no number away that is in use, and of the registered connections
of the reactor at most one has closed its socket. -/
def Reuses (w : World) : World.Event → Prop
  | .socket _ fd => ¬ InUse w fd
  | .opening _ _ (some fd) => ¬ InUse w fd
  | .proceed i k => ∀ c ∈ w.connections i, c.isRegistered = true →
      (∃ rest, c.calls[k]? = some (.closePeer :: rest)) →
      ∀ j ∈ w.manager.connections, j ≠ i → w.id j ≠ none
  | _ => True

/-- The ids of the registered connections are different; `get` returns the connection that owns
the handle, and the one that is registered under it; and `wait_2` waits for one connection. -/
structure Unambiguous (w : World) : Prop where
  ids : (w.manager.connections.map w.id).Nodup
  owner : ∀ handle i, w.manager.get w.id handle = some i →
    ∀ owner, w.descriptors handle = some owner → i = owner
  registered : ∀ i ∈ w.manager.connections, ∀ handle, w.id i = some handle →
    w.manager.get w.id handle = some i
  waiters : ∀ waiter ∈ w.waiters, waiter.last = waiter.first

/-- Numbers that are in use belong to one connection. -/
structure Numbers (w : World) : Prop where
  created : ∀ i c, w.connections i = some c → i < w.created
  unique : ∀ i j c d, w.connections i = some c → w.connections j = some d → c.Listed → d.Listed →
    c.number = d.number → i = j
  owner : ∀ i c, w.connections i = some c → c.Listed → ∀ owner,
    w.descriptors c.number = some owner → i = owner
  waiters : ∀ waiter ∈ w.waiters, waiter.last = waiter.first ∧
    ∀ i c, w.connections i = some c → c.Listed → c.number = waiter.handle → i = waiter.first

structure Registered (w : World) : Prop where
  mem : ∀ i, i ∈ w.manager.connections ↔ ∃ c ∈ w.connections i, c.isRegistered = true
  nodup : w.manager.connections.Nodup
  invalid : ∀ i ∈ w.manager.connections, ∀ j ∈ w.manager.connections,
    w.id i = none → w.id j = none → i = j

/-- Of the connections that are listed the session has those whose streams run. -/
def InSession (w : World) : Prop :=
  ∀ i c, w.connections i = some c → c.Listed → (some c.number ∈ w.session ↔ c.streaming = true)

structure IdInv (w : World) : Prop where
  numbers : Numbers w
  registered : Registered w
  session : InSession w
  each : ∀ i c, w.connections i = some c → c.Sound

namespace Numbers

variable {w v : World} {i : ℕ} {c d : Connection}

theorem put (h : Numbers w) (hc : w.connections i = some c)
    (hv : v.connections = w.connections ∧ v.created = w.created ∧ v.waiters = w.waiters)
    (hdescriptors : ∀ j e, w.connections j = some e → e.Listed → ∀ owner,
      v.descriptors e.number = some owner → w.descriptors e.number = some owner)
    (hnumber : d.number = c.number) (hlisted : d.Listed → c.Listed) : Numbers (v.put i d) := by
  obtain ⟨hconnections, hcreated, hwaiters⟩ := hv
  -- a connection that is listed now was listed before, under the same number
  have hbefore : ∀ j e, (v.put i d).connections j = some e → e.Listed →
      ∃ e', w.connections j = some e' ∧ e'.Listed ∧ e'.number = e.number := by
    intro j e he hlistede
    by_cases hj : j = i
    · subst hj
      obtain rfl : d = e := by simpa [World.put] using he
      exact ⟨c, hc, hlisted hlistede, hnumber.symm⟩
    · exact ⟨e, by simpa [World.put, Function.update_of_ne hj, hconnections] using he, hlistede, rfl⟩
  refine ⟨fun j e he => ?_, fun j k e f he hf hle hlf hnum => ?_, fun j e he hle owner howner => ?_,
    fun waiter hwaiter => ⟨?_, fun j e he hle hnum => ?_⟩⟩
  · show j < v.created
    rw [hcreated]
    by_cases hj : j = i
    · exact hj ▸ h.created i c hc
    · exact h.created j e (by simpa [World.put, Function.update_of_ne hj, hconnections] using he)
  · obtain ⟨e', he', hle', hnume⟩ := hbefore j e he hle
    obtain ⟨f', hf', hlf', hnumf⟩ := hbefore k f hf hlf
    exact h.unique j k e' f' he' hf' hle' hlf' (by rw [hnume, hnumf, hnum])
  · obtain ⟨e', he', hle', hnume⟩ := hbefore j e he hle
    exact h.owner j e' he' hle' owner (hdescriptors j e' he' hle' owner (hnume ▸ howner))
  · exact (h.waiters waiter (hwaiters ▸ hwaiter)).1
  · obtain ⟨e', he', hle', hnume⟩ := hbefore j e he hle
    exact (h.waiters waiter (hwaiters ▸ hwaiter)).2 j e' he' hle' (hnume.trans hnum)

theorem free (h : Numbers w) {fd : ℕ} (hfd : ¬ InUse w fd) :
    (∀ j e, w.connections j = some e → e.Listed → e.number ≠ fd) ∧
      ∀ waiter ∈ w.waiters, waiter.handle ≠ fd :=
  ⟨fun j e he hle hnum => hfd (.inl ⟨j, h.created j e he, e, he, hnum, hle⟩),
    fun waiter hwaiter hhandle => hfd (.inr (.inr ⟨waiter, hwaiter, hhandle⟩))⟩

/-- A new connection gets a number that no one uses. -/
theorem socket (h : Numbers w) {fd : ℕ} (hfd : ¬ InUse w fd) (kind : Kind) :
    Numbers ({ w.allocate w.created fd with created := w.created + 1 }.put w.created
      (.opened kind fd)) := by
  have ⟨hfree, hwait⟩ := h.free hfd
  have hcases : ∀ j e,
      (Function.update w.connections w.created (some (Connection.opened kind fd))) j = some e →
      j = w.created ∧ e = .opened kind fd ∨ j ≠ w.created ∧ w.connections j = some e := by
    intro j e he
    by_cases hj : j = w.created
    · subst hj
      exact .inl ⟨rfl, by simpa using he.symm⟩
    · exact .inr ⟨hj, by simpa [Function.update_of_ne hj] using he⟩
  refine ⟨fun j e he => ?_, fun j k e f he hf hle hlf hnum => ?_, fun j e he hle owner howner => ?_,
    fun waiter hwaiter => ⟨(h.waiters waiter hwaiter).1, fun j e he hle hnum => ?_⟩⟩
  · rcases hcases j e he with ⟨rfl, -⟩ | ⟨-, hold⟩
    · exact Nat.lt_succ_self _
    · exact (h.created j e hold).trans (Nat.lt_succ_self _)
  · rcases hcases j e he with ⟨rfl, rfl⟩ | ⟨-, hold⟩ <;>
      rcases hcases k f hf with ⟨rfl, rfl⟩ | ⟨-, hold'⟩
    · rfl
    · exact absurd hnum.symm (hfree k f hold' hlf)
    · exact absurd hnum (hfree j e hold hle)
    · exact h.unique j k e f hold hold' hle hlf hnum
  · rcases hcases j e he with ⟨rfl, rfl⟩ | ⟨-, hold⟩
    · have hself : Function.update w.descriptors fd (some w.created) fd = some owner := howner
      simpa using hself
    · have hne := hfree j e hold hle
      have hother : Function.update w.descriptors fd (some w.created) e.number = some owner := howner
      rw [Function.update_of_ne hne] at hother
      exact h.owner j e hold hle owner hother
  · rcases hcases j e he with ⟨rfl, rfl⟩ | ⟨-, hold⟩
    · exact absurd hnum.symm (hwait waiter hwaiter)
    · exact (h.waiters waiter hwaiter).2 j e hold hle hnum

theorem remove (h : Numbers w) (hv : v.connections = w.connections ∧ v.created = w.created ∧
      v.waiters = w.waiters)
    (hdescriptors : ∀ fd owner, v.descriptors fd = some owner → w.descriptors fd = some owner) :
    Numbers { v with connections := Function.update v.connections i none } := by
  obtain ⟨hconnections, hcreated, hwaiters⟩ := hv
  have hold : ∀ j e, Function.update v.connections i none j = some e →
      w.connections j = some e := by
    intro j e he
    by_cases hj : j = i
    · subst hj
      simp at he
    · simpa [Function.update_of_ne hj, hconnections] using he
  exact ⟨fun j e he => (h.created j e (hold j e he)).trans_eq hcreated.symm,
    fun j k e f he hf => h.unique j k e f (hold j e he) (hold k f hf),
    fun j e he hle owner howner => h.owner j e (hold j e he) hle owner (hdescriptors _ _ howner),
    fun waiter hwaiter => ⟨(h.waiters waiter (hwaiters ▸ hwaiter)).1, fun j e he =>
      (h.waiters waiter (hwaiters ▸ hwaiter)).2 j e (hold j e he)⟩⟩

end Numbers

namespace Registered

variable {w v : World} {i : ℕ} {c d : Connection}

theorem id_put (hconnections : v.connections = w.connections) (j : ℕ) :
    (v.put i d).id j = if j = i then d.handle else w.id j := by
  by_cases hj : j = i
  · simp [World.id, World.put, hj]
  · simp [World.id, World.put, hconnections, hj]

/-- A step of one connection that is neither registered nor deregistered. -/
theorem put (h : Registered w) (hc : w.connections i = some c)
    (hv : v.connections = w.connections ∧ v.manager = w.manager)
    (hregistered : d.isRegistered = c.isRegistered)
    (hinvalid : c.isRegistered = true → d.handle = none → c.handle = none ∨
      ∀ j ∈ w.manager.connections, j ≠ i → w.id j ≠ none) : Registered (v.put i d) := by
  obtain ⟨hconnections, hmanager⟩ := hv
  have hmember : i ∈ w.manager.connections → c.isRegistered = true := fun hi => by
    obtain ⟨e, he, hregistered⟩ := (h.mem i).mp hi
    obtain rfl : c = e := by simpa [hc] using he
    exact hregistered
  have hid : w.id i = c.handle := by simp [World.id, hc]
  refine ⟨fun j => ?_, hmanager ▸ h.nodup, fun j hj k hk hnone hnone' => ?_⟩
  · show j ∈ v.manager.connections ↔ _
    rw [hmanager, h.mem]
    by_cases hj : j = i
    · simp [World.put, hj, hc, hregistered]
    · simp [World.put, Function.update_of_ne hj, hconnections]
  · have hj' : j ∈ w.manager.connections := hmanager ▸ hj
    have hk' : k ∈ w.manager.connections := hmanager ▸ hk
    rw [id_put hconnections] at hnone hnone'
    by_cases hji : j = i <;> by_cases hki : k = i
    · rw [hji, hki]
    · rw [if_pos hji] at hnone
      rw [if_neg hki] at hnone'
      rcases hinvalid (hmember (hji ▸ hj')) hnone with hold | hothers
      · exact h.invalid j hj' k hk' (by rw [hji, hid, hold]) hnone'
      · exact absurd hnone' (hothers k hk' hki)
    · rw [if_neg hji] at hnone
      rw [if_pos hki] at hnone'
      rcases hinvalid (hmember (hki ▸ hk')) hnone' with hold | hothers
      · exact h.invalid j hj' k hk' hnone (by rw [hki, hid, hold])
      · exact absurd hnone (hothers j hj' hji)
    · rw [if_neg hji] at hnone
      rw [if_neg hki] at hnone'
      exact h.invalid j hj' k hk' hnone hnone'

theorem register (h : Registered w) (hc : w.connections i = some c) {manager : ConnectionManager}
    (hmanager : w.manager.register_ i = some manager) (hnot : c.isRegistered = false)
    (hregistered : d.isRegistered = true) (hhandle : d.handle ≠ none) :
    Registered ({ w with manager := manager }.put i d) := by
  have hlist := ConnectionManager.register_eq_some hmanager
  have hnew : i ∉ w.manager.connections := fun hi => by
    obtain ⟨e, he, hold⟩ := (h.mem i).mp hi
    obtain rfl : c = e := by simpa [hc] using he
    simp [hnot] at hold
  refine ⟨fun j => ?_, ?_, fun j hj k hk hnone hnone' => ?_⟩
  · show j ∈ manager.connections ↔ _
    rw [hlist, List.mem_append, h.mem, List.mem_singleton]
    by_cases hj : j = i
    · simp [World.put, hj, hregistered]
    · simp [World.put, hj]
  · show manager.connections.Nodup
    rw [hlist]
    exact List.nodup_append.mpr ⟨h.nodup, List.nodup_singleton i, fun a ha b hb heq =>
      hnew (List.mem_singleton.mp hb ▸ heq ▸ ha)⟩
  · have hold : ∀ l ∈ manager.connections,
        ({ w with manager := manager }.put i d).id l = none →
          l ∈ w.manager.connections ∧ w.id l = none := by
      intro l hl hlnone
      have hid : ({ w with manager := manager }.put i d).id l =
          if l = i then d.handle else w.id l := id_put rfl l
      rw [hid] at hlnone
      by_cases hli : l = i
      · rw [if_pos hli] at hlnone
        exact absurd hlnone hhandle
      · rw [hlist] at hl
        rw [if_neg hli] at hlnone
        exact ⟨by simpa [hli] using hl, hlnone⟩
    obtain ⟨hj', hjnone⟩ := hold j hj hnone
    obtain ⟨hk', hknone⟩ := hold k hk hnone'
    exact h.invalid j hj' k hk' hjnone hknone

theorem deregister (h : Registered w) (hregistered : d.isRegistered = false) :
    Registered ({ w with manager := w.manager.deregister i }.put i d) := by
  have hmem : ∀ j, j ∈ (w.manager.deregister i).connections ↔ j ≠ i ∧ j ∈ w.manager.connections :=
    fun j => h.nodup.mem_erase_iff
  refine ⟨fun j => ?_, h.nodup.erase i, fun j hj k hk hnone hnone' => ?_⟩
  · show j ∈ (w.manager.deregister i).connections ↔ _
    rw [hmem, h.mem]
    by_cases hj : j = i
    · simp [World.put, hj, hregistered]
    · simp [World.put, hj]
  · obtain ⟨hji, hj'⟩ := (hmem j).mp hj
    obtain ⟨hki, hk'⟩ := (hmem k).mp hk
    have hid : ∀ l, ({ w with manager := w.manager.deregister i }.put i d).id l =
        if l = i then d.handle else w.id l := id_put rfl
    rw [hid, if_neg hji] at hnone
    rw [hid, if_neg hki] at hnone'
    exact h.invalid j hj' k hk' hnone hnone'

theorem of_frame (h : Registered w) (hmanager : v.manager = w.manager)
    (hold : ∀ j ≠ i, v.connections j = w.connections j)
    (hw : ∀ c ∈ w.connections i, c.isRegistered = false)
    (hv : ∀ c ∈ v.connections i, c.isRegistered = false) : Registered v := by
  have hnot : i ∉ w.manager.connections := fun hi => by
    obtain ⟨e, he, hregistered⟩ := (h.mem i).mp hi
    simp [hw e he] at hregistered
  have hne : ∀ j ∈ w.manager.connections, j ≠ i := fun j hj hji => hnot (hji ▸ hj)
  have hid : ∀ j ∈ w.manager.connections, v.id j = w.id j := fun j hj => by
    rw [World.id, World.id, hold j (hne j hj)]
  refine ⟨fun j => ?_, hmanager ▸ h.nodup, fun j hj k hk hnone hnone' => ?_⟩
  · rw [hmanager]
    by_cases hj : j = i
    · subst hj
      refine ⟨fun hj => absurd hj hnot, fun ⟨e, he, hregistered⟩ => ?_⟩
      simp [hv e he] at hregistered
    · rw [h.mem, hold j hj]
  · rw [hmanager] at hj hk
    exact h.invalid j hj k hk (hid j hj ▸ hnone) (hid k hk ▸ hnone')

end Registered

namespace InSession

variable {w v : World} {i : ℕ} {c d : Connection}

/-- A step of one connection that does not change whether its stream runs. -/
theorem put (h : InSession w) (hc : w.connections i = some c)
    (hv : v.connections = w.connections ∧ v.session = w.session) (hnumber : d.number = c.number)
    (hstreaming : d.streaming = c.streaming) (hlisted : d.Listed → c.Listed) :
    InSession (v.put i d) := by
  obtain ⟨hconnections, hsession⟩ := hv
  intro j e he hle
  show some e.number ∈ v.session ↔ _
  rw [hsession]
  by_cases hj : j = i
  · subst hj
    obtain rfl : d = e := by simpa [World.put] using he
    rw [hnumber, hstreaming]
    exact h j c hc (hlisted hle)
  · exact h j e (by simpa [World.put, Function.update_of_ne hj, hconnections] using he) hle

/-- The stream of a connection is started; no other one that is listed has its number. -/
theorem connect (h : InSession w) (hnumbers : Numbers w) (hc : w.connections i = some c)
    (hlisted : c.Listed) (hnumber : d.number = c.number) (hstreaming : d.streaming = true) :
    InSession ({ w with session := insert (some c.number) w.session }.put i d) := by
  intro j e he hle
  show some e.number ∈ insert (some c.number) w.session ↔ _
  by_cases hj : j = i
  · subst hj
    obtain rfl : d = e := by simpa [World.put] using he
    simp [hnumber, hstreaming]
  · have hold : w.connections j = some e := by
      simpa [World.put, Function.update_of_ne hj] using he
    have hne : e.number ≠ c.number := fun heq => hj (hnumbers.unique j i e c hold hc hle hlisted heq)
    simpa [hne] using h j e hold hle

theorem disconnect (h : InSession w) (hnumbers : Numbers w) (hc : w.connections i = some c)
    (hlisted : c.Listed) (hnumber : d.number = c.number) (hstreaming : d.streaming = false) :
    InSession ({ w with session := w.session.erase (some c.number) }.put i d) := by
  intro j e he hle
  show some e.number ∈ w.session.erase (some c.number) ↔ _
  by_cases hj : j = i
  · subst hj
    obtain rfl : d = e := by simpa [World.put] using he
    simp [hnumber, hstreaming]
  · have hold : w.connections j = some e := by
      simpa [World.put, Function.update_of_ne hj] using he
    have hne : e.number ≠ c.number := fun heq => hj (hnumbers.unique j i e c hold hc hle hlisted heq)
    simpa [hne] using h j e hold hle

theorem socket (h : InSession w) {v : World} {fd : ℕ} (hfd : ¬ InUse w fd) (kind : Kind)
    (hv : v.connections = w.connections ∧ v.session = w.session) :
    InSession (v.put i (.opened kind fd)) := by
  obtain ⟨hconnections, hsession⟩ := hv
  intro j e he hle
  show some e.number ∈ v.session ↔ _
  rw [hsession]
  by_cases hj : j = i
  · subst hj
    obtain rfl : .opened kind fd = e := by simpa [World.put] using he
    have hnew : some fd ∉ w.session := fun hmem => hfd (.inr (.inl hmem))
    simpa [Connection.opened] using hnew
  · exact h j e (by simpa [World.put, Function.update_of_ne hj, hconnections] using he) hle

theorem remove (h : InSession w) (hv : v.connections = w.connections ∧ v.session = w.session) :
    InSession { v with connections := Function.update v.connections i none } := by
  obtain ⟨hconnections, hsession⟩ := hv
  intro j e he hle
  show some e.number ∈ v.session ↔ _
  rw [hsession]
  by_cases hj : j = i
  · subst hj
    simp at he
  · exact h j e (by simpa [Function.update_of_ne hj, hconnections] using he) hle

end InSession

namespace Connection

variable {c d : Connection} {k : ℕ} {x : Instruction} {rest call : List Instruction}

theorem stops_of_notMem (h : .invalidate ∉ call) : Stops call := by
  induction call with
  | nil => trivial
  | cons x rest ih =>
    obtain ⟨hx, hrest⟩ : _ ≠ x ∧ _ ∉ rest := by simpa using h
    cases x with
    | invalidate => exact (hx rfl).elim
    | stop => trivial
    | stopErased => trivial
    | _ => exact ih hrest

def Invalidates (call : List Instruction) : Prop := .closePeer ∈ call ∨ .invalidate ∈ call

/-- What does not concern the calls under way is the same. -/
structure Same (c d : Connection) : Prop where
  number : d.number = c.number
  handle : d.handle = c.handle
  stateHandle : d.stateHandle = c.stateHandle
  phase : d.phase = c.phase
  isRegistered : d.isRegistered = c.isRegistered
  streaming : d.streaming = c.streaming

theorem abort_same (c : Connection) : Same c c.abort := by
  unfold Connection.abort
  cases c.kind <;> exact ⟨rfl, rfl, rfl, rfl, rfl, rfl⟩

theorem handleClose_same (c : Connection) : Same c c.handleClose := by
  unfold Connection.handleClose
  cases c.kind <;> exact ⟨rfl, rfl, rfl, rfl, rfl, rfl⟩

namespace Sound

theorem opened (kind : Kind) (fd : ℕ) : (Connection.opened kind fd).Sound where
  handle := .inr rfl
  opening _ := ⟨rfl, rfl, nofun⟩
  unregistered _ := rfl
  stateHandle h := by cases kind <;> simp [Connection.opened] at h
  stops := nofun

theorem calls (h : c.Sound) (hsame : Same c d)
    (hcalls : ¬ c.Readable → ∀ call ∈ d.calls, call ∈ c.calls ∨ ¬ Invalidates call)
    (hstops : c.streaming = true → ∀ call ∈ d.calls, Stops call) : d.Sound := by
  obtain ⟨hnumber, hhandle, hstate, hphase, hregistered, hstreaming⟩ := hsame
  refine ⟨?_, fun hread => ?_, ?_, ?_, ?_⟩
  · rw [hhandle, hnumber]
    exact h.handle
  · rw [Readable, hphase] at hread
    obtain ⟨hvalid, hnot, hold⟩ := h.opening hread
    refine ⟨by rw [hhandle, hnumber, hvalid], by rw [hstreaming, hnot], fun call hcall => ?_⟩
    rcases hcalls hread call hcall with hmem | hkeeps
    · exact hold call hmem
    · exact not_or.mp hkeeps
  · rw [hphase, hregistered]
    exact h.unregistered
  · rw [hphase, hstreaming, hstate, hnumber]
    exact h.stateHandle
  · rw [hstreaming]
    exact hstops

theorem goOn (h : c.Sound) (hk : c.calls[k]? = some (x :: rest)) (hsame : Same c d)
    (hcalls : d.calls = c.calls.set k call) (hkeeps : Invalidates call → Invalidates (x :: rest))
    (hstops : c.streaming = true → Stops (x :: rest) → Stops call) : d.Sound := by
  have hmem := List.mem_of_getElem? hk
  refine h.calls hsame (fun hread other hother => ?_) fun hstreaming other hother => ?_
  · rw [hcalls] at hother
    rcases List.mem_or_eq_of_mem_set hother with hold | rfl
    · exact .inl hold
    · exact .inr fun hinvalid => not_or.mpr ((h.opening hread).2.2 _ hmem) (hkeeps hinvalid)
  · rw [hcalls] at hother
    rcases List.mem_or_eq_of_mem_set hother with hold | rfl
    · exact h.stops hstreaming other hold
    · exact hstops hstreaming (h.stops hstreaming _ hmem)

theorem returned (h : c.Sound) (k : ℕ) : Sound { c with calls := c.calls.eraseIdx k } :=
  h.calls ⟨rfl, rfl, rfl, rfl, rfl, rfl⟩ (fun _ _ hcall => .inl (List.mem_of_mem_eraseIdx hcall))
    fun hs _ hcall => h.stops hs _ (List.mem_of_mem_eraseIdx hcall)

theorem stopped (h : c.Sound) (hk : c.calls[k]? = some (x :: rest)) :
    Sound { c with calls := c.calls.set k rest, streaming := false } := by
  have hstopped : Sound { c with streaming := false } := by
    refine ⟨h.handle, fun hread => ⟨(h.opening hread).1, rfl, (h.opening hread).2.2⟩,
      h.unregistered, fun hset => ?_, nofun⟩
    rcases hset with hset | hset | hset | hset
    · exact h.stateHandle (.inl hset)
    · exact h.stateHandle (.inr (.inl hset))
    · exact h.stateHandle (.inr (.inr (.inl hset)))
    · cases hset
  exact hstopped.goOn hk ⟨rfl, rfl, rfl, rfl, rfl, rfl⟩ rfl
    (Or.imp (List.mem_cons_of_mem _) (List.mem_cons_of_mem _)) nofun

/-- The socket has been closed by the step that invalidates its handle. -/
theorem closedPeer (h : c.Sound) (hk : c.calls[k]? = some (.closePeer :: rest)) :
    Sound { c with calls := c.calls.set k rest, handle := none } := by
  have hnext : Sound { c with calls := c.calls.set k rest } :=
    h.goOn hk ⟨rfl, rfl, rfl, rfl, rfl, rfl⟩ rfl
      (Or.imp (List.mem_cons_of_mem _) (List.mem_cons_of_mem _)) fun _ hs => hs
  refine { hnext with handle := .inl rfl, opening := fun hread => ?_ }
  exact absurd List.mem_cons_self ((h.opening hread).2.2 _ (List.mem_of_getElem? hk)).1

theorem invalidated (h : c.Sound) (hk : c.calls[k]? = some (.invalidate :: rest)) :
    Sound { c with calls := c.calls.set k rest, stateHandle := none } := by
  have hmem := List.mem_of_getElem? hk
  have hnext : Sound { c with calls := c.calls.set k rest } :=
    h.goOn hk ⟨rfl, rfl, rfl, rfl, rfl, rfl⟩ rfl
      (Or.imp (List.mem_cons_of_mem _) (List.mem_cons_of_mem _)) fun _ hs => hs.elim
  refine { hnext with stateHandle := fun hset => ?_ }
  have hstreaming : c.streaming = true → False := fun hs => h.stops hs _ hmem
  have hread : c.Readable := by
    by_contra hnot
    exact absurd List.mem_cons_self ((h.opening hnot).2.2 _ hmem).2
  rcases hset with hp | hp | hp | hs
  · simp [Readable, show c.phase = _ from hp] at hread
  · simp [Readable, show c.phase = _ from hp] at hread
  · simp [Readable, show c.phase = _ from hp] at hread
  · exact (hstreaming hs).elim

theorem close (h : c.Sound) (hkeeps : ¬ c.Readable → ¬ Invalidates call) (hstops : Stops call) :
    (c.close call).Sound := by
  have hmem : ∀ other ∈ (c.close call).calls, other ∈ c.calls ∨ other = call := fun other hother => by
    simpa [Connection.close] using hother
  refine h.calls ⟨rfl, rfl, rfl, rfl, rfl, rfl⟩ (fun hread other hother => ?_) fun hs other hother => ?_
  · rcases hmem other hother with hold | rfl
    · exact .inl hold
    · exact .inr (hkeeps hread)
  · rcases hmem other hother with hold | rfl
    · exact h.stops hs other hold
    · exact hstops

theorem abort (h : c.Sound) : c.abort.Sound := by
  unfold Connection.abort
  cases c.kind with
  | reactor =>
    cases hhandle : c.handle with
    | none => exact h.close (by simp [streamAbort, Invalidates]) trivial
    | some fd => exact h.close (by simp [streamAbort, Invalidates]) trivial
  | proactor => exact h.close (by simp [asynchAbort, Invalidates]) trivial

theorem handleClose (h : c.Sound) (hread : c.Readable) : c.handleClose.Sound := by
  unfold Connection.handleClose
  cases c.kind with
  | reactor => exact h.close (fun hnot => absurd hread hnot) trivial
  | proactor => exact h.close (fun hnot => absurd hread hnot) trivial

theorem done (h : c.Sound) (hphase : d.phase = .done) (hhandle : d.handle = c.handle)
    (hstate : d.stateHandle = c.stateHandle ∧ d.number = c.number) (hstreaming : d.streaming = c.streaming)
    (hstops : c.streaming = true → ∀ call ∈ d.calls, Stops call) : d.Sound where
  handle := by
    rw [hhandle, hstate.2]
    exact h.handle
  opening hread := absurd (.inr (.inr hphase)) hread
  unregistered hearly := by simp [hphase] at hearly
  stateHandle hset := by
    rw [hstate.1, hstate.2]
    exact h.stateHandle (.inr (.inr (.inr (by simpa [hphase, hstreaming] using hset))))
  stops hs := hstops (hstreaming ▸ hs)

/-- The stream of a connection that runs is stopped before the handle is invalidated. -/
theorem stops_undo (h : c.Sound)
    (hphase : c.phase = .register ∨ c.phase = .stream ∨ c.phase = .read)
    (hstreaming : c.streaming = true) (rest : List Instruction) : Stops (c.undo ++ rest) := by
  have hread : c.phase = .read := by
    have hreadable : c.Readable := by
      by_contra hnot
      simp [(h.opening hnot).2.1] at hstreaming
    rcases hphase with hp | hp | hp
    · simp [Readable, hp] at hreadable
    · simp [Readable, hp] at hreadable
    · exact hp
  unfold Connection.undo
  rw [hread]
  cases c.kind <;> trivial

theorem fail (h : c.Sound)
    (hphase : c.phase = .register ∨ c.phase = .stream ∨ c.phase = .read) : c.fail.Sound := by
  have hmem : ∀ last, (c.streaming = true → Stops last) →
      c.streaming = true → ∀ call ∈ c.calls ++ [last], Stops call := by
    intro last hlast hstreaming call hcall
    rcases List.mem_append.mp hcall with hold | hnew
    · exact h.stops hstreaming call hold
    · obtain rfl := List.mem_singleton.mp hnew
      exact hlast hstreaming
  unfold Connection.fail
  cases hkind : c.kind with
  | reactor =>
    refine h.done rfl rfl ⟨rfl, rfl⟩ rfl (hmem _ fun hs => ?_)
    exact h.stops_undo hphase hs _
  | proactor =>
    refine h.done rfl rfl ⟨rfl, rfl⟩ rfl (hmem _ fun hs => ?_)
    rw [List.append_assoc]
    exact h.stops_undo hphase hs _

end Sound

end Connection

namespace IdInv

variable {w v : World} {i k : ℕ} {c d : Connection} {x : Instruction} {rest : List Instruction}

theorem of_parts (h : IdInv w) (hconnections : v.connections = w.connections)
    (hnumbers : Numbers (v.put i d)) (hregistered : Registered (v.put i d))
    (hsession : InSession (v.put i d)) (hsound : d.Sound) : IdInv (v.put i d) := by
  refine ⟨hnumbers, hregistered, hsession, fun j e he => ?_⟩
  by_cases hj : j = i
  · subst hj
    obtain rfl : d = e := by simpa [World.put] using he
    exact hsound
  · exact h.each j e (by simpa [World.put, Function.update_of_ne hj, hconnections] using he)

/-- A step of one connection that does not register it, nor start or stop its stream. -/
theorem put (h : IdInv w) (hc : w.connections i = some c)
    (hv : v.connections = w.connections ∧ v.created = w.created ∧ v.waiters = w.waiters)
    (hmanager : v.manager = w.manager ∧ v.session = w.session)
    (hdescriptors : ∀ j e, w.connections j = some e → e.Listed → ∀ owner,
      v.descriptors e.number = some owner → w.descriptors e.number = some owner)
    (hsame : d.number = c.number ∧ d.isRegistered = c.isRegistered ∧ d.streaming = c.streaming)
    (hphase : d.phase ≠ .done → c.phase ≠ .done)
    (hinvalid : c.isRegistered = true → d.handle = none → c.handle = none ∨
      ∀ j ∈ w.manager.connections, j ≠ i → w.id j ≠ none)
    (hsound : d.Sound) : IdInv (v.put i d) := by
  obtain ⟨hnumber, hregistered, hstreaming⟩ := hsame
  have hlisted : d.Listed → c.Listed := by
    intro hlisted
    rw [Connection.Listed, hregistered, hstreaming] at hlisted
    exact hlisted.imp_left hphase
  exact h.of_parts hv.1 (h.numbers.put hc hv hdescriptors hnumber hlisted)
    (h.registered.put hc ⟨hv.1, hmanager.1⟩ hregistered hinvalid)
    (h.session.put hc ⟨hv.1, hmanager.2⟩ hnumber hstreaming hlisted) hsound

theorem put_same (h : IdInv w) (hc : w.connections i = some c)
    (hv : v.connections = w.connections ∧ v.created = w.created ∧ v.waiters = w.waiters)
    (hmanager : v.manager = w.manager ∧ v.session = w.session)
    (hdescriptors : ∀ fd owner, v.descriptors fd = some owner → w.descriptors fd = some owner)
    (hsame : Connection.Same c d) (hsound : d.Sound) : IdInv (v.put i d) :=
  h.put hc hv hmanager (fun _ e _ _ => hdescriptors e.number)
    ⟨hsame.number, hsame.isRegistered, hsame.streaming⟩ (fun hd => hsame.phase ▸ hd)
    (fun _ hnone => .inl (hsame.handle ▸ hnone)) hsound

theorem closesocket_descriptors (w : World) (i fd other owner : ℕ)
    (h : (w.closesocket i fd).descriptors other = some owner) :
    w.descriptors other = some owner := by
  by_cases hother : other = fd
  · simp [World.closesocket, hother] at h
  · simpa [World.closesocket, Function.update_of_ne hother] using h

/-- A step that succeeds, or that fails at something else than an assertion. -/
def Settled (r : Except (Option Fault) World) : Prop :=
  (∀ v, r = .ok v → IdInv v) ∧ r ≠ .error (some .assertion)

theorem settled_ok (h : IdInv v) : Settled (.ok v) :=
  ⟨fun u hu => by
    obtain rfl : v = u := by simpa using hu
    exact h, nofun⟩

theorem settled_error {e : Option Fault} (h : e ≠ some .assertion) : Settled (.error e) :=
  ⟨nofun, fun he => h (by simpa using he)⟩

theorem settled_cases {o : Option ℕ} {a : Except (Option Fault) World}
    {b : ℕ → Except (Option Fault) World} (ha : Settled a) (hb : ∀ fd, Settled (b fd)) :
    Settled (match o with
      | none => a
      | some fd => b fd) := by
  cases o with
  | none => exact ha
  | some fd => exact hb fd

/-- The stream is stopped: the handle of the state is valid, and the session knows it. -/
theorem stop (h : IdInv w) (hc : w.connections i = some c) (hstreaming : c.streaming = true)
    (hsame : d.number = c.number ∧ d.isRegistered = c.isRegistered ∧ d.handle = c.handle)
    (hstopped : d.streaming = false) (hsound : d.Sound) :
    Settled ((w.sessionDisconnect c.stateHandle).map (World.put i d)) := by
  have hstate := (h.each i c hc).stateHandle (.inr (.inr (.inr hstreaming)))
  have hlisted : c.Listed := .inr (.inr hstreaming)
  have hmem : some c.number ∈ w.session := (h.session i c hc hlisted).mpr hstreaming
  rw [hstate, World.sessionDisconnect, if_pos hmem]
  exact settled_ok (h.of_parts rfl
    (h.numbers.put hc ⟨rfl, rfl, rfl⟩ (fun _ _ _ _ _ ho => ho) hsame.1 fun _ => hlisted)
    (h.registered.put hc ⟨rfl, rfl⟩ hsame.2.1 fun _ hnone => .inl (hsame.2.2 ▸ hnone))
    (h.session.disconnect h.numbers hc hlisted hsame.1 hstopped) hsound)

theorem exec (h : IdInv w) (hc : w.connections i = some c)
    (hk : c.calls[k]? = some (x :: rest))
    (hreuses : c.isRegistered = true → x = .closePeer →
      ∀ j ∈ w.manager.connections, j ≠ i → w.id j ≠ none) : Settled (w.exec i c k rest x) := by
  have hsound := h.each i c hc
  have hsame : Connection.Same c { c with calls := c.calls.set k rest } :=
    ⟨rfl, rfl, rfl, rfl, rfl, rfl⟩
  have hkeeps : Connection.Invalidates rest → Connection.Invalidates (x :: rest) :=
    Or.imp (List.mem_cons_of_mem _) (List.mem_cons_of_mem _)
  -- the next instruction of a call that has executed one that changes no handle
  have hnext : (c.streaming = true → Connection.Stops (x :: rest) → Connection.Stops rest) →
      ∀ v : World, v.connections = w.connections ∧ v.created = w.created ∧ v.waiters = w.waiters →
      v.manager = w.manager ∧ v.session = w.session →
      (∀ fd owner, v.descriptors fd = some owner → w.descriptors fd = some owner) →
      Settled (.ok (v.put i { c with calls := c.calls.set k rest })) :=
    fun hstops v hv hmanager hdescriptors => settled_ok (h.put_same hc hv hmanager hdescriptors hsame
      (hsound.goOn hk hsame rfl hkeeps hstops))
  have hshutdown : ∀ fd : Option ℕ, (c.streaming = true → Connection.Stops (x :: rest) →
      Connection.Stops rest) →
      Settled (.ok ((w.shutdown i fd).put i { c with calls := c.calls.set k rest })) :=
    fun fd hstops => hnext hstops _ ⟨rfl, rfl, rfl⟩ ⟨rfl, rfl⟩ fun _ _ ho => ho
  have hquiet : (c.streaming = true → Connection.Stops (x :: rest) → Connection.Stops rest) →
      Settled (.ok (w.put i { c with calls := c.calls.set k rest })) :=
    fun hstops => hnext hstops _ ⟨rfl, rfl, rfl⟩ ⟨rfl, rfl⟩ fun _ _ ho => ho
  unfold World.exec
  cases x with
  | shutdown handle => exact hshutdown _ fun _ hs => hs
  | closesocket handle =>
    exact hnext (fun _ hs => hs) _ ⟨rfl, rfl, rfl⟩ ⟨rfl, rfl⟩
      (closesocket_descriptors w i handle)
  | shutdownState => exact hshutdown _ fun _ hs => hs
  | shutdownWrite =>
    exact settled_cases (hquiet fun _ hs => hs) fun fd => hshutdown (some fd) fun _ hs => hs
  | handleCloseState =>
    refine settled_ok (h.put_same hc ⟨rfl, rfl, rfl⟩ ⟨rfl, rfl⟩ (fun _ _ ho => ho)
      ⟨rfl, rfl, rfl, rfl, rfl, rfl⟩ (hsound.goOn hk ⟨rfl, rfl, rfl, rfl, rfl, rfl⟩ rfl ?_ ?_))
    · cases c.stateHandle <;> simp [Connection.Invalidates, socketHandleClose]
    · intro _ hs
      cases c.stateHandle <;> exact hs
  | closeWrite =>
    exact settled_cases (hquiet fun _ hs => hs) fun fd =>
      hnext (fun _ hs => hs) _ ⟨rfl, rfl, rfl⟩ ⟨rfl, rfl⟩ (closesocket_descriptors w i fd)
  | clearWrite =>
    exact settled_ok (h.put_same hc ⟨rfl, rfl, rfl⟩ ⟨rfl, rfl⟩ (fun _ _ ho => ho)
      ⟨rfl, rfl, rfl, rfl, rfl, rfl⟩
      (hsound.goOn hk ⟨rfl, rfl, rfl, rfl, rfl, rfl⟩ rfl hkeeps fun _ hs => hs))
  | lock =>
    refine settled_ok (h.put_same hc ⟨rfl, rfl, rfl⟩ ⟨rfl, rfl⟩ (fun _ _ ho => ho)
      ⟨rfl, rfl, rfl, rfl, rfl, rfl⟩ ?_)
    cases hclosed : c.closed with
    | true =>
      exact hsound.goOn hk ⟨rfl, rfl, rfl, rfl, rfl, rfl⟩ rfl hkeeps fun _ hs => hs
    | false =>
      refine hsound.goOn hk (d := { c with closed := true, calls := c.calls.set k (.stop :: rest) })
        ⟨rfl, rfl, rfl, rfl, rfl, rfl⟩ rfl ?_ fun _ _ => trivial
      simp [Connection.Invalidates]
  | stop =>
    by_cases hstreaming : c.streaming = false
    · simp only [if_pos hstreaming]
      exact hquiet fun hs => by simp [hstreaming] at hs
    · have hrun : c.streaming = true := by simpa using hstreaming
      have hstate := hsound.stateHandle (.inr (.inr (.inr hrun)))
      simp only [if_neg hstreaming, if_neg (show c.stateHandle ≠ none by simp [hstate])]
      exact h.stop hc hrun ⟨rfl, rfl, rfl⟩ rfl (hsound.stopped hk)
  | stopErased =>
    by_cases hstreaming : c.streaming = true
    · simp only [if_pos hstreaming]
      exact settled_error nofun
    · simp only [if_neg hstreaming]
      exact hquiet fun hs => absurd hs hstreaming
  | closePeer =>
    refine settled_cases (hquiet fun _ hs => hs) fun fd => settled_ok ?_
    exact h.put hc ⟨rfl, rfl, rfl⟩ ⟨rfl, rfl⟩
      (fun _ e _ _ => closesocket_descriptors w i fd e.number) ⟨rfl, rfl, rfl⟩ (fun hd => hd)
      (fun hregistered _ => .inr (hreuses hregistered rfl)) (hsound.closedPeer hk)
  | deregister =>
    by_cases hregistered : c.isRegistered = true
    · simp only [if_pos hregistered]
      have hderegistered : Connection.Sound
          { c with calls := c.calls.set k rest, isRegistered := false } :=
        { hsound.goOn hk hsame rfl hkeeps fun _ hs => hs with unregistered := fun _ => rfl }
      have hlisted : c.Listed := .inr (.inl hregistered)
      exact settled_ok (h.of_parts rfl
        (h.numbers.put hc ⟨rfl, rfl, rfl⟩ (fun _ _ _ _ _ ho => ho) rfl fun _ => hlisted)
        (h.registered.deregister rfl) (h.session.put hc ⟨rfl, rfl⟩ rfl rfl fun _ => hlisted)
        hderegistered)
    · simp only [if_neg hregistered]
      exact hquiet fun _ hs => hs
  | invalidate =>
    exact settled_ok (h.put hc ⟨rfl, rfl, rfl⟩ ⟨rfl, rfl⟩ (fun _ _ _ _ _ ho => ho) ⟨rfl, rfl, rfl⟩
      (fun hd => hd) (fun _ hnone => .inl hnone) (hsound.invalidated hk))

theorem put_open (h : IdInv w) (hc : w.connections i = some c)
    (hsame : d.number = c.number ∧ d.isRegistered = c.isRegistered ∧ d.streaming = c.streaming)
    (hhandle : d.handle = c.handle) (hphase : d.phase ≠ .done → c.phase ≠ .done) (hsound : d.Sound) :
    IdInv (w.put i d) :=
  h.put hc ⟨rfl, rfl, rfl⟩ ⟨rfl, rfl⟩ (fun _ _ _ _ _ ho => ho) hsame hphase
    (fun _ hnone => .inl (hhandle ▸ hnone)) hsound

theorem fail (h : IdInv w) (hc : w.connections i = some c)
    (hphase : c.phase = .register ∨ c.phase = .stream ∨ c.phase = .read) :
    IdInv (w.put i c.fail) := by
  have hsound := (h.each i c hc).fail hphase
  unfold Connection.fail at hsound ⊢
  cases hkind : c.kind <;> simp only [hkind] at hsound ⊢
  · exact h.put_open hc ⟨rfl, rfl, rfl⟩ rfl (fun hd => absurd rfl hd) hsound
  · exact h.put_open hc ⟨rfl, rfl, rfl⟩ rfl (fun hd => absurd rfl hd) hsound

/-- The stream is started: the session does not know the handle of the state yet. -/
theorem start (h : IdInv w) (hc : w.connections i = some c) (hphase : c.phase = .start) :
    Settled ((w.sessionConnect c.stateHandle).map
      (World.put i { c with streaming := true, phase := .read })) := by
  have hsound := h.each i c hc
  have hstate := hsound.stateHandle (.inr (.inr (.inl hphase)))
  obtain ⟨-, hidle, hkeeps⟩ := hsound.opening (by simp [Connection.Readable, hphase])
  have hlisted : c.Listed := .inl (by simp [hphase])
  have hnew : some c.number ∉ w.session := fun hmem => by
    have hstreaming := (h.session i c hc hlisted).mp hmem
    simp [hidle] at hstreaming
  have hrunning : Connection.Sound { c with streaming := true, phase := .read } :=
    ⟨hsound.handle, fun hread => absurd (.inl rfl) hread, by simp, fun _ => hstate,
      fun _ call hcall => Connection.stops_of_notMem (hkeeps call hcall).2⟩
  rw [World.sessionConnect, if_neg (hstate ▸ hnew)]
  refine settled_ok (h.of_parts rfl
    (h.numbers.put hc ⟨rfl, rfl, rfl⟩ (fun _ _ _ _ _ ho => ho) rfl fun _ => hlisted)
    (h.registered.put hc ⟨rfl, rfl⟩ rfl fun _ hnone => .inl hnone) ?_ hrunning)
  have hsession := h.session.connect h.numbers hc hlisted
    (d := { c with streaming := true, phase := .read }) rfl rfl
  rwa [← hstate] at hsession

theorem stepOpen (h : IdInv w) (hc : w.connections i = some c) {ok : Bool} {fd : Option ℕ}
    (hfree : ∀ number ∈ fd, ¬ InUse w number) : Settled (w.stepOpen i c ok fd) := by
  have hsound := h.each i c hc
  unfold World.stepOpen
  cases hphase : c.phase with
  | duplicate =>
    have hopening := hsound.opening (by simp [Connection.Readable, hphase])
    have hnext : ∀ write, Connection.Sound { c with writeHandle := write, phase := .handle } :=
      fun write => ⟨hsound.handle, fun _ => hopening, fun _ => hsound.unregistered (.inl hphase),
        by simp [hopening.2.1], hsound.stops⟩
    cases fd with
    | none =>
      exact settled_ok (h.put_open hc ⟨rfl, rfl, rfl⟩ rfl (by simp [hphase]) (hnext c.writeHandle))
    | some fd =>
      by_cases hdescriptor : w.descriptors fd = none
      · simp only [if_pos hdescriptor]
        have hnot := (h.numbers.free (hfree fd rfl)).1
        refine settled_ok (h.put hc ⟨rfl, rfl, rfl⟩ ⟨rfl, rfl⟩ (fun j e he hlisted owner howner => ?_)
          ⟨rfl, rfl, rfl⟩ (by simp [hphase]) (fun _ hnone => .inl hnone) (hnext (some fd)))
        simpa [World.allocate, Function.update_of_ne (hnot j e he hlisted)] using howner
      · simp only [if_neg hdescriptor]
        exact settled_error nofun
  | handle =>
    have hopening := hsound.opening (by simp [Connection.Readable, hphase])
    have hnext : Connection.Sound { c with stateHandle := c.handle, phase := .register } :=
      ⟨hsound.handle, fun _ => hopening, fun _ => hsound.unregistered (.inr (.inl hphase)),
        fun _ => hopening.1, hsound.stops⟩
    exact settled_ok (h.put_open hc ⟨rfl, rfl, rfl⟩ rfl (by simp [hphase]) hnext)
  | register =>
    cases hmanager : w.manager.register_ i with
    | none => exact settled_ok (h.fail hc (.inl hphase))
    | some manager =>
      have hopening := hsound.opening (by simp [Connection.Readable, hphase])
      have hnot := hsound.unregistered (.inr (.inr hphase))
      have hlisted : c.Listed := .inl (by simp [hphase])
      have hnext : Connection.Sound { c with isRegistered := true, phase := .stream } :=
        ⟨hsound.handle, fun _ => hopening, by simp, fun _ => hsound.stateHandle (.inl hphase),
          hsound.stops⟩
      exact settled_ok (h.of_parts rfl
        (h.numbers.put hc ⟨rfl, rfl, rfl⟩ (fun _ _ _ _ _ ho => ho) rfl fun _ => hlisted)
        (h.registered.register hc hmanager hnot rfl (by simp [hopening.1]))
        (h.session.put hc ⟨rfl, rfl⟩ rfl rfl fun _ => hlisted) hnext)
  | stream =>
    cases ok with
    | false => exact settled_ok (h.fail hc (.inr (.inl hphase)))
    | true =>
      have hopening := hsound.opening (by simp [Connection.Readable, hphase])
      have hnext : Connection.Sound { c with phase := .start } :=
        ⟨hsound.handle, fun _ => hopening, by simp, fun _ => hsound.stateHandle (.inr (.inl hphase)),
          hsound.stops⟩
      exact settled_ok (h.put_open hc ⟨rfl, rfl, rfl⟩ rfl (by simp [hphase]) hnext)
  | start => exact h.start hc hphase
  | read =>
    cases ok with
    | false => exact settled_ok (h.fail hc (.inr (.inr hphase)))
    | true =>
      have hnext : Connection.Sound { c with phase := .status } :=
        ⟨hsound.handle, fun hread => absurd (.inr (.inl rfl)) hread, by simp,
          fun hset => hsound.stateHandle (.inr (.inr (.inr (by simpa using hset)))), hsound.stops⟩
      exact settled_ok (h.put_open hc ⟨rfl, rfl, rfl⟩ rfl (by simp [hphase]) hnext)
  | status =>
    have hread : c.Readable := .inr (.inl hphase)
    by_cases hreturns : c.kind = .reactor ∨ ok = true
    · simp only [if_pos hreturns]
      exact settled_ok (h.put_open hc ⟨rfl, rfl, rfl⟩ rfl (fun hd => absurd rfl hd)
        (hsound.done rfl rfl ⟨rfl, rfl⟩ rfl hsound.stops))
    · simp only [if_neg hreturns]
      have hsame := Connection.handleClose_same c
      have hclosed : Connection.Sound { c.handleClose with phase := .done } :=
        (hsound.handleClose hread).done rfl rfl ⟨rfl, rfl⟩ rfl (hsound.handleClose hread).stops
      exact settled_ok (h.put_open hc ⟨hsame.number, hsame.isRegistered, hsame.streaming⟩ hsame.handle
        (fun hd => absurd rfl hd) hclosed)
  | done => exact settled_error nofun

/-- A new connection gets a number that no one uses. -/
theorem socket (h : IdInv w) {fd : ℕ} (hfd : ¬ InUse w fd) (kind : Kind) :
    IdInv ({ w.allocate w.created fd with created := w.created + 1 }.put w.created
      (.opened kind fd)) := by
  have hnew : ∀ c, w.connections w.created ≠ some c := fun c hc =>
    absurd (h.numbers.created _ c hc) (lt_irrefl _)
  refine h.of_parts rfl (h.numbers.socket hfd kind) ?_ (h.session.socket hfd kind ⟨rfl, rfl⟩)
    (Connection.Sound.opened kind fd)
  refine h.registered.of_frame (i := w.created) rfl (fun j hj => ?_) (fun c hc => absurd hc (hnew c))
    fun c hc => ?_
  · simp [World.put, World.allocate, hj]
  · obtain rfl : .opened kind fd = c := by simpa [World.put] using hc
    rfl

theorem destroy (h : IdInv w) (hc : w.connections i = some c) (hnot : c.isRegistered = false) :
    IdInv (w.destroy i c) := by
  have hremove : ∀ v : World, v.connections = w.connections ∧ v.created = w.created ∧
      v.waiters = w.waiters → v.manager = w.manager ∧ v.session = w.session →
      (∀ fd owner, v.descriptors fd = some owner → w.descriptors fd = some owner) →
      IdInv { v with connections := Function.update v.connections i none } := by
    intro v hv hmanager hdescriptors
    refine ⟨h.numbers.remove hv hdescriptors,
      h.registered.of_frame (i := i) hmanager.1 (fun j hj => ?_) (fun e he => ?_) (fun e he => ?_),
      h.session.remove ⟨hv.1, hmanager.2⟩, fun j e he => ?_⟩
    · simp [Function.update_of_ne hj, hv.1]
    · obtain rfl : c = e := by simpa [hc] using he
      exact hnot
    · simp at he
    · by_cases hj : j = i
      · simp [hj] at he
      · exact h.each j e (by simpa [Function.update_of_ne hj, hv.1] using he)
  unfold World.destroy
  cases c.remaining with
  | none => exact hremove w ⟨rfl, rfl, rfl⟩ ⟨rfl, rfl⟩ fun _ _ ho => ho
  | some fd => exact hremove _ ⟨rfl, rfl, rfl⟩ ⟨rfl, rfl⟩ (closesocket_descriptors w i fd)

/-- What `get` returns is the connection that is listed under the number. -/
theorem get (h : IdInv w) {handle found : ℕ} (hget : w.manager.get w.id handle = some found) :
    ∃ c, w.connections found = some c ∧ c.isRegistered = true ∧ c.number = handle := by
  obtain ⟨hmem, hid⟩ := ConnectionManager.get_eq_some hget
  obtain ⟨c, hc, hregistered⟩ := (h.registered.mem found).mp hmem
  refine ⟨c, hc, hregistered, ?_⟩
  have hhandle : c.handle = some handle := by
    rw [World.id, show w.connections found = some c from hc] at hid
    exact hid
  rcases (h.each found c hc).handle with hnone | hnumber
  · simp [hnone] at hhandle
  · exact Option.some.inj (hnumber.symm.trans hhandle)

/-- Someone waits for the connection that `get` has found, or finds the same one again. -/
theorem wait (h : IdInv w) {waiters : List Waiter}
    (hwaiters : ∀ waiter ∈ waiters, waiter.last = waiter.first ∧
      ∀ i c, w.connections i = some c → c.Listed → c.number = waiter.handle → i = waiter.first) :
    IdInv { w with waiters := waiters } :=
  ⟨⟨h.numbers.created, h.numbers.unique, h.numbers.owner, hwaiters⟩,
    ⟨h.registered.mem, h.registered.nodup, h.registered.invalid⟩, h.session, h.each⟩

theorem step (h : IdInv w) {e : World.Event} (hreuses : Reuses w e) : Settled (w.step e) := by
  cases e with
  | socket kind fd =>
    by_cases hdescriptor : w.descriptors fd = none
    · simp only [World.step, if_pos hdescriptor]
      exact settled_ok (h.socket hreuses kind)
    · simp only [World.step, if_neg hdescriptor]
      exact settled_error nofun
  | opening i ok fd =>
    cases hc : w.connections i with
    | none =>
      simp only [World.step, hc]
      exact settled_error nofun
    | some c =>
      simp only [World.step, hc]
      refine h.stepOpen hc fun number hnumber => ?_
      obtain rfl : fd = some number := hnumber
      exact hreuses
  | abort i =>
    cases hc : w.connections i with
    | none =>
      simp only [World.step, hc]
      exact settled_error nofun
    | some c =>
      simp only [World.step, hc]
      exact settled_ok (h.put_same hc ⟨rfl, rfl, rfl⟩ ⟨rfl, rfl⟩ (fun _ _ ho => ho)
        c.abort_same (h.each i c hc).abort)
  | handleClose i =>
    cases hc : w.connections i with
    | none =>
      simp only [World.step, hc]
      exact settled_error nofun
    | some c =>
      simp only [World.step, hc]
      by_cases hread : c.Readable
      · simp only [if_pos hread]
        exact settled_ok (h.put_same hc ⟨rfl, rfl, rfl⟩ ⟨rfl, rfl⟩ (fun _ _ ho => ho)
          c.handleClose_same ((h.each i c hc).handleClose hread))
      · simp only [if_neg hread]
        exact settled_error nofun
  | proceed i k =>
    cases hc : w.connections i with
    | none =>
      simp only [World.step, hc]
      exact settled_error nofun
    | some c =>
      simp only [World.step, hc]
      cases hk : c.calls[k]? with
      | none =>
        dsimp only
        exact settled_error nofun
      | some call =>
        cases call with
        | nil =>
          dsimp only
          exact settled_ok (h.put_same hc ⟨rfl, rfl, rfl⟩ ⟨rfl, rfl⟩ (fun _ _ ho => ho)
            ⟨rfl, rfl, rfl, rfl, rfl, rfl⟩ ((h.each i c hc).returned k))
        | cons x rest =>
          dsimp only
          refine h.exec hc hk fun hregistered hx => hreuses c hc hregistered ⟨rest, ?_⟩
          rw [hk, hx]
  | destroy i =>
    cases hc : w.connections i with
    | none =>
      simp only [World.step, hc]
      exact settled_error nofun
    | some c =>
      simp only [World.step, hc]
      by_cases hready : c.phase = .done ∧ c.calls = [] ∧ c.isRegistered = false
      · simp only [if_pos hready]
        exact settled_ok (h.destroy hc hready.2.2)
      · simp only [if_neg hready]
        exact settled_error nofun
  | wait handle =>
    cases hget : w.manager.get w.id handle with
    | none =>
      simp only [World.step, hget]
      exact settled_ok h
    | some found =>
      simp only [World.step, hget]
      obtain ⟨c, hc, hregistered, hnumber⟩ := h.get hget
      refine settled_ok (h.wait fun waiter hwaiter => ?_)
      rcases List.mem_append.mp hwaiter with hold | hnew
      · exact h.numbers.waiters waiter hold
      · obtain rfl := List.mem_singleton.mp hnew
        exact ⟨rfl, fun j e he hlisted heq =>
          h.numbers.unique j found e c he hc hlisted (.inr (.inl hregistered)) (heq.trans hnumber.symm)⟩
  | wake k =>
    cases hk : w.waiters[k]? with
    | none =>
      simp only [World.step, hk]
      exact settled_error nofun
    | some waiter =>
      have hmem := List.mem_of_getElem? hk
      have hwaiter := h.numbers.waiters waiter hmem
      cases hget : w.manager.get w.id waiter.handle with
      | none =>
        simp only [World.step, hk, hget]
        exact settled_ok (h.wait fun other hother =>
          h.numbers.waiters other (List.mem_of_mem_eraseIdx hother))
      | some found =>
        obtain ⟨c, hc, hregistered, hnumber⟩ := h.get hget
        have hsame := hwaiter.2 found c hc (.inr (.inl hregistered)) hnumber
        simp only [World.step, hk, hget]
        refine settled_ok (h.wait fun other hother => ?_)
        rcases List.mem_or_eq_of_mem_set hother with hold | rfl
        · exact h.numbers.waiters other hold
        · exact ⟨hsame, hwaiter.2⟩

theorem unambiguous (h : IdInv w) : Unambiguous w := by
  -- of the registered connections no two have the same id
  have hids : ∀ i ∈ w.manager.connections, ∀ j ∈ w.manager.connections, w.id i = w.id j → i = j := by
    intro i hi j hj heq
    obtain ⟨c, hc, hregistered⟩ := (h.registered.mem i).mp hi
    obtain ⟨d, hd, hregistered'⟩ := (h.registered.mem j).mp hj
    have hidc : w.id i = c.handle := by simp [World.id, show w.connections i = some c from hc]
    have hidd : w.id j = d.handle := by simp [World.id, show w.connections j = some d from hd]
    rcases (h.each i c hc).handle with hnone | hnumber
    · exact h.registered.invalid i hi j hj (hidc.trans hnone) (heq ▸ hidc.trans hnone)
    · rcases (h.each j d hd).handle with hnone | hnumber'
      · exact h.registered.invalid i hi j hj (heq.trans (hidd.trans hnone)) (hidd.trans hnone)
      · have hsame : some c.number = some d.number := by
          rw [← hnumber, ← hnumber', ← hidc, ← hidd, heq]
        exact h.numbers.unique i j c d hc hd (.inr (.inl hregistered)) (.inr (.inl hregistered'))
          (Option.some.inj hsame)
  refine ⟨h.registered.nodup.map_on hids, fun handle i hget owner howner => ?_,
    fun i hi handle hid => ?_, fun waiter hwaiter => (h.numbers.waiters waiter hwaiter).1⟩
  · obtain ⟨c, hc, hregistered, rfl⟩ := h.get hget
    exact h.numbers.owner i c hc (.inr (.inl hregistered)) owner howner
  · obtain ⟨found, hget⟩ := ConnectionManager.exists_get hi hid
    obtain ⟨hmem, hfound⟩ := ConnectionManager.get_eq_some hget
    rw [hget, hids found hmem i hi (hfound.trans hid.symm)]

end IdInv

theorem idInv_start (manager : ConnectionManager) : IdInv (World.start manager) := by
  have hnone : ∀ i c, (World.start manager).connections i ≠ some c := by simp [World.start]
  refine ⟨⟨fun i c hc => absurd hc (hnone i c), fun i _ c _ hc => absurd hc (hnone i c),
    fun i c hc => absurd hc (hnone i c), by simp [World.start]⟩,
    ⟨by simp [World.start], List.nodup_nil, by simp [World.start]⟩,
    fun i c hc => absurd hc (hnone i c), fun i c hc => absurd hc (hnone i c)⟩

/-- As long as no number is given away that is in use, the ids are unambiguous, and no assertion of
the session fails. -/
theorem run_unambiguous (manager : ConnectionManager) (es : List World.Event)
    (halong : Runs.Along World.step Reuses (World.start manager) es) :
    (∀ w, Runs.run World.step (World.start manager) es = .ok w → Unambiguous w) ∧
      Runs.run World.step (World.start manager) es ≠ .error (some .assertion) := by
  have hstep : ∀ w e v, IdInv w → Reuses w e → w.step e = .ok v → IdInv v :=
    fun w e v h hreuses hv => (h.step hreuses).1 v hv
  have hfail : ∀ w e f, IdInv w → Reuses w e → w.step e = .error f → f ≠ some Fault.assertion := by
    rintro w e f h hreuses hf rfl
    exact (h.step hreuses).2 hf
  refine ⟨fun w hrun => ?_, fun hrun => ?_⟩
  · exact (Runs.run_invariant IdInv hstep (idInv_start manager) halong hrun).unambiguous
  · exact Runs.run_error IdInv hstep hfail (idInv_start manager) halong hrun rfl

theorem next_closePeer (c : Connection) (k : ℕ) :
    c.calls[k]?.bind List.head? = some .closePeer ↔
      ∃ rest, c.calls[k]? = some (.closePeer :: rest) := by
  cases c.calls[k]? with
  | none => simp
  | some call => cases call <;> simp

instance (c : Connection) (k : ℕ) : Decidable (∃ rest, c.calls[k]? = some (.closePeer :: rest)) :=
  decidable_of_iff _ (next_closePeer c k)

instance (w : World) (e : World.Event) : Decidable (Reuses w e) := by
  unfold Reuses
  cases e with
  | opening i ok fd => cases fd <;> infer_instance
  | _ => infer_instance

/-- The peer closes a connection that someone waits for; when it has been deregistered and
deleted, another connection gets the number of its socket. -/
def World.deregistered : List World.Event :=
  [.socket .reactor 5] ++ World.opens 0 none ++ [.wait 5, .handleClose 0] ++
    List.replicate 5 (.proceed 0 0) ++ [.wake 0, .destroy 0, .socket .reactor 5] ++
    World.opens 1 none

theorem run_unambiguous_deregistered :
    ∃ w, Runs.run World.step (World.start ⟨true, 10, []⟩) World.deregistered = .ok w ∧
      w.manager.get w.id 5 = some 1 ∧ Unambiguous w :=
  ⟨_, rfl, rfl, (run_unambiguous ⟨true, 10, []⟩ World.deregistered (by decide)).1 _ rfl⟩

/-- A connection is aborted: its socket is closed, and another connection gets the number while it
is still registered. -/
def World.reused : List World.Event :=
  [.socket .reactor 5] ++ World.opens 0 none ++ [.abort 0] ++ List.replicate 2 (.proceed 0 0) ++
    [.socket .reactor 5] ++ List.replicate 2 (.opening 1 true none)

theorem not_unambiguous :
    ¬ ∀ (manager : ConnectionManager) (es : List World.Event),
      (∀ w, Runs.run World.step (World.start manager) es = .ok w → Unambiguous w) ∧
        Runs.run World.step (World.start manager) es ≠ .error (some .assertion) := by
  intro h
  have hunambiguous := (h ⟨true, 10, []⟩ World.reused).1 _ rfl
  exact absurd hunambiguous.ids (by decide)

-- the session of the second connection cannot start
example : Runs.run World.step (World.start ⟨true, 10, []⟩)
    (World.reused ++ List.replicate 2 (.opening 1 true none)) = .error (some .assertion) := rfl

end ACENetwork.Net
