import ACENetwork.BitTorrent.Common
import ACENetwork.Library.Runs

/-!
# Waiting for an asynchronous connect

`Net_Client_AsynchConnector_T` keeps the results of its connects in a map from the handles of
their sockets, and `wait` waits once on one condition. Each scope of the lock is a step, and
so is each call of the system in between. A call of `connect` has a number, and a call of `wait`
its place among those that are under way.
-/
namespace ACENetwork.Net
open BitTorrent (Fault)
open Library

/-- Where a call of `connect` is: what it does next, until the connect has been started and
completes; or the error path. -/
inductive ConnectPhase where
  | insert
  | start
  | pending
  | broadcast
  | done
  | closesocket
  | erase
  | failed
  deriving DecidableEq, Repr

/-- A call of `connect`. The outcome is a record of what has happened: 0, or the error of the
completion, or what `connect` returns when it fails itself. -/
structure ConnectCall where
  handle : ℕ
  phase : ConnectPhase
  outcome : Option ℤ
  deriving DecidableEq, Repr

/-- Where a call of `wait` is: on the condition, woken but without the lock, or timed out or
failed on the condition. Whether the latest connect had completed by the deadline is a record
of what has happened. -/
inductive WaitStatus where
  | waiting
  | woken
  | expired (completed : Bool)
  | failed
  deriving DecidableEq, Repr

/-- A call of `wait` that has found its handle, and whether its iterator still points into the
map. -/
structure WaitCall where
  handle : ℕ
  timeout : Bool
  status : WaitStatus
  valid : Bool
  deriving DecidableEq, Repr

/-- What a call of `wait` has returned, with the outcome that the latest connect on the handle
had then, and whether that connect had not completed by the deadline. -/
structure WaitResult where
  handle : ℕ
  result : ℤ
  outcome : Option ℤ
  late : Bool
  deriving DecidableEq, Repr

/-- The connector, and the handles that are open. The latest connect on each handle and what
has been returned are a record of what has happened. -/
structure AsynchConnector where
  handles : ℕ → Option ℤ
  isOpen : ℕ → Bool
  connects : ℕ → Option ConnectCall
  created : ℕ
  latest : ℕ → Option ℕ
  waits : List WaitCall
  returned : List WaitResult

/-- The steps: `connect` opens a socket and sets its options; its next step; `validate_connection`
records a completion and broadcasts it; somebody closes a handle; a thread calls `wait`, and a
call of `wait` is woken for no reason, has waited until its deadline, fails on the condition, and
returns. -/
inductive ConnectorEvent where
  | socket (handle : ℕ) (setsockopt : Bool)
  | connect (call : ℕ) (started : Bool)
  | complete (call : ℕ) (success : Bool) (error : ℤ)
  | broadcast (call : ℕ)
  | close (handle : ℕ)
  | wait (handle : ℕ) (timeout : Bool)
  | wake (waiter : ℕ)
  | expire (waiter : ℕ)
  | fail (waiter : ℕ)
  | resume (waiter : ℕ)
  deriving DecidableEq, Repr

def ETIME : ℤ := 62

def mapInsert (m : ℕ → Option ℤ) (key : ℕ) (value : ℤ) : ℕ → Option ℤ :=
  if (m key).isSome then m else Function.update m key (some value)

def WaitCall.wake (x : WaitCall) : WaitCall :=
  if x.status = .waiting then { x with status := .woken } else x

def WaitCall.invalidate (handle : ℕ) (x : WaitCall) : WaitCall :=
  if x.handle = handle then { x with valid := false } else x

namespace AsynchConnector

variable (w : AsynchConnector)

def outcome (handle : ℕ) : Option ℤ :=
  ((w.latest handle).bind w.connects).bind ConnectCall.outcome

def setConnect (call : ℕ) (c : ConnectCall) : AsynchConnector :=
  { w with connects := Function.update w.connects call (some c) }

def return_ (handle : ℕ) (result : ℤ) (late : Bool) : AsynchConnector :=
  { w with returned := w.returned ++ [⟨handle, result, w.outcome handle, late⟩] }

def connect (call : ℕ) (started : Bool) : Except (Option Fault) AsynchConnector :=
  match w.connects call with
  | none => .error none
  | some c =>
    match c.phase with
    | .insert =>
      .ok { w.setConnect call { c with phase := .start } with
        handles := mapInsert w.handles c.handle (-1) }
    | .start =>
      if started then .ok (w.setConnect call { c with phase := .pending })
      else .ok (w.setConnect call { c with phase := .closesocket, outcome := some (-1) })
    | .closesocket =>
      .ok { w.setConnect call { c with phase := .erase } with
        isOpen := Function.update w.isOpen c.handle false }
    | .erase =>
      .ok { w.setConnect call { c with phase := .failed } with
        handles := Function.update w.handles c.handle none
        waits := w.waits.map (WaitCall.invalidate c.handle) }
    | .pending | .broadcast | .done | .failed => .error none

/-- `Net_Client_AsynchConnector_T::validate_connection`, up to the end of the scope of the lock.
A completion without success has an error. -/
def complete (call : ℕ) (success : Bool) (error : ℤ) : Except (Option Fault) AsynchConnector :=
  match w.connects call with
  | none => .error none
  | some c =>
    if c.phase ≠ .pending ∨ success = false ∧ error = 0 then .error none
    else
      let result := if success = false then error else 0
      .ok { w.setConnect call { c with phase := .broadcast, outcome := some result } with
        handles := if (w.handles c.handle).isSome then
          Function.update w.handles c.handle (some result) else w.handles }

/-- `Net_Client_AsynchConnector_T::validate_connection`: signal completion. -/
def broadcast (call : ℕ) : Except (Option Fault) AsynchConnector :=
  match w.connects call with
  | none => .error none
  | some c =>
    if c.phase ≠ .broadcast then .error none
    else .ok { w.setConnect call { c with phase := .done } with
      waits := w.waits.map WaitCall.wake }

def wait (handle : ℕ) (timeout : Bool) : AsynchConnector :=
  match w.handles handle with
  | none => w.return_ handle 0 false
  | some _ => { w with waits := w.waits ++ [⟨handle, timeout, .waiting, true⟩] }

def leave (waiter : ℕ) (isPossible : WaitCall → Bool) (status : WaitCall → WaitStatus) :
    Except (Option Fault) AsynchConnector :=
  match w.waits[waiter]? with
  | none => .error none
  | some x =>
    if x.status = .waiting ∧ isPossible x then
      .ok { w with waits := w.waits.set waiter { x with status := status x } }
    else .error none

def resume (waiter : ℕ) : Except (Option Fault) AsynchConnector :=
  match w.waits[waiter]? with
  | none => .error none
  | some x =>
    let w := { w with waits := w.waits.eraseIdx waiter }
    match x.status with
    | .waiting => .error none
    | .expired completed => .ok (w.return_ x.handle ETIME !completed)
    | .failed => .ok (w.return_ x.handle (-1) false)
    | .woken =>
      match x.valid, w.handles x.handle with
      | true, some value => .ok (w.return_ x.handle value false)
      | _, _ => .error (some .endIterator)

/-- A call of `connect` has returned the handle to its caller. -/
def returnedPhases : List ConnectPhase := [.pending, .broadcast, .done]

/-- A handle is closed only by those who know it: not while the call of `connect` is under way. -/
def step : ConnectorEvent → Except (Option Fault) AsynchConnector
  | .socket handle setsockopt =>
    if w.isOpen handle then .error none
    else .ok { w.setConnect w.created
        (if setsockopt then ⟨handle, .insert, none⟩ else ⟨handle, .closesocket, some (-1)⟩) with
      isOpen := Function.update w.isOpen handle true
      created := w.created + 1
      latest := Function.update w.latest handle (some w.created) }
  | .connect call started => w.connect call started
  | .complete call success error => w.complete call success error
  | .broadcast call => w.broadcast call
  | .close handle =>
    if w.isOpen handle ∧ ∀ c ∈ (w.latest handle).bind w.connects, c.phase ∈ returnedPhases then
      .ok { w with isOpen := Function.update w.isOpen handle false }
    else .error none
  | .wait handle timeout => .ok (w.wait handle timeout)
  | .wake waiter => w.leave waiter (fun _ => true) fun _ => .woken
  | .expire waiter =>
    w.leave waiter WaitCall.timeout fun x => .expired (w.outcome x.handle).isSome
  | .fail waiter => w.leave waiter (fun _ => true) fun _ => .failed
  | .resume waiter => w.resume waiter

def initial : AsynchConnector where
  handles _ := none
  isOpen _ := false
  connects _ := none
  created := 0
  latest _ := none
  waits := []
  returned := []

def At (handle : ℕ) (phases : List ConnectPhase) : Prop :=
  ∃ k ∈ w.latest handle, ∃ c ∈ w.connects k, c.handle = handle ∧ c.phase ∈ phases

/-- A connect is given a handle that is not in the map, and erases no entry but its own; `wait`
is called after the latest connect on the handle has been started and before its completion has
been broadcast; a call of `wait` is woken when that completion has been recorded, and has not
waited until its deadline then; and it does not fail on the condition. -/
def Orderly : ConnectorEvent → Prop
  | .socket handle _ => w.handles handle = none
  | .connect call _ => ∀ c ∈ w.connects call, c.phase = .erase →
    w.handles c.handle = none ∨ w.latest c.handle = some call
  | .wait handle _ => w.At handle [.pending, .broadcast]
  | .broadcast _ => ∀ x ∈ w.waits, x.status = .waiting → (w.outcome x.handle).isSome
  | .wake waiter => ∀ x ∈ w.waits[waiter]?, (w.outcome x.handle).isSome
  | .expire waiter => ∀ x ∈ w.waits[waiter]?, w.outcome x.handle = none
  | .fail waiter => w.waits[waiter]? = none
  | .complete _ _ _ | .close _ | .resume _ => True

end AsynchConnector

/-- `wait` has returned 0 only if the latest connect has succeeded, `ETIME` only if that connect
had not completed by the deadline, and anything else only if the connect has failed with it. -/
def WaitResult.Reliable (r : WaitResult) : Prop :=
  (r.result = 0 → r.outcome = some 0) ∧
    (r.result ≠ 0 → r.outcome = some r.result ∨ r.result = ETIME ∧ r.late = true)

namespace AsynchConnector

variable {w w' : AsynchConnector} {call handle : ℕ} {c c' : ConnectCall} {ps qs : List ConnectPhase}

def entered : List ConnectPhase := [.start, .pending, .broadcast, .done]

def Served (w : AsynchConnector) (x : WaitCall) : Prop :=
  match x.status with
  | .waiting => x.valid = true ∧ w.At x.handle [.pending, .broadcast]
  | .woken => x.valid = true ∧ w.At x.handle [.broadcast, .done]
  | .expired completed => completed = false
  | .failed => False

/-- What the map, the open handles and the outcome say of a connect. -/
structure Coherent (w : AsynchConnector) (k : ℕ) (c : ConnectCall) : Prop where
  opened : c.phase ∈ [.insert, .start, .closesocket] →
    w.isOpen c.handle = true ∧ w.latest c.handle = some k
  absent : c.phase = .insert → w.handles c.handle = none
  entry : c.phase ∈ entered →
    w.latest c.handle = some k ∧ w.handles c.handle = some (c.outcome.getD (-1))
  outstanding : c.phase ∈ [.insert, .start, .pending] → c.outcome = none
  completed : c.phase ∈ [.broadcast, .done] → c.outcome.isSome = true

/-- The entry of the map is that of the latest connect on the handle, which each call of `wait`
is served by. -/
structure Invariant (w : AsynchConnector) : Prop where
  fresh : ∀ k, w.created ≤ k → w.connects k = none
  connects : ∀ k c, w.connects k = some c → Coherent w k c
  waits : ∀ x ∈ w.waits, Served w x
  returned : ∀ r ∈ w.returned, r.Reliable

theorem Invariant.initial : Invariant initial where
  fresh _ _ := rfl
  connects := by simp [AsynchConnector.initial]
  waits := by simp [AsynchConnector.initial]
  returned := by simp [AsynchConnector.initial]

theorem At.mono (h : w.At handle ps) (hsub : ps ⊆ qs) : w.At handle qs := by
  obtain ⟨k, hk, c, hc, hhandle, hphase⟩ := h
  exact ⟨k, hk, c, hc, hhandle, hsub hphase⟩

theorem At.update (h : w.At handle ps) (hlatest : w'.latest = w.latest)
    (hconnects : w'.connects = Function.update w.connects call (some c'))
    (hcall : w.connects call = some c) (hhandle : c'.handle = c.handle)
    (hphase : c.phase ∈ ps → c'.phase ∈ qs) (hsub : ps ⊆ qs) : w'.At handle qs := by
  obtain ⟨k, hk, d, hd, hdhandle, hdphase⟩ := h
  by_cases hkcall : k = call
  · subst hkcall
    obtain rfl : d = c := by simpa [hcall] using hd.symm
    exact ⟨k, hlatest ▸ hk, c', by simp [hconnects], hhandle.trans hdhandle, hphase hdphase⟩
  · exact ⟨k, hlatest ▸ hk, d, by simpa [hconnects, hkcall] using hd, hdhandle, hsub hdphase⟩

theorem Served.congr {x : WaitCall} (h : Served w x)
    (hat : ∀ ps ∈ [[ConnectPhase.pending, .broadcast], [.broadcast, .done]],
      w.At x.handle ps → w'.At x.handle ps) : Served w' x := by
  unfold Served at h ⊢
  cases hstatus : x.status with
  | waiting =>
    rw [hstatus] at h
    exact ⟨h.1, hat _ (by simp) h.2⟩
  | woken =>
    rw [hstatus] at h
    exact ⟨h.1, hat _ (by simp) h.2⟩
  | expired completed =>
    rw [hstatus] at h
    exact h
  | failed =>
    rw [hstatus] at h
    exact h

theorem At.outcome (h : w.At handle ps) :
    ∃ k c, w.connects k = some c ∧ c.handle = handle ∧ c.phase ∈ ps ∧ w.outcome handle = c.outcome := by
  obtain ⟨k, hk, c, hc, hhandle, hphase⟩ := h
  refine ⟨k, c, hc, hhandle, hphase, ?_⟩
  rw [AsynchConnector.outcome, Option.mem_def.mp hk, Option.bind_some, Option.mem_def.mp hc,
    Option.bind_some]

/-- A woken call of `wait` finds the outcome of the latest connect in the map. -/
theorem Invariant.value (h : Invariant w) (hat : w.At handle [.broadcast, .done]) :
    ∃ value, w.outcome handle = some value ∧ w.handles handle = some value := by
  obtain ⟨k, c, hc, rfl, hphase, houtcome⟩ := hat.outcome
  obtain ⟨value, hvalue⟩ := Option.isSome_iff_exists.mp ((h.connects k c hc).completed hphase)
  have hentry := ((h.connects k c hc).entry (by simp at hphase; simp [entered]; tauto)).2
  exact ⟨value, houtcome.trans hvalue, by simpa [hvalue] using hentry⟩

/-- A call of `wait` whose connect has completed is served by the completion. -/
theorem Invariant.recorded (h : Invariant w) (hat : w.At handle [.pending, .broadcast])
    (houtcome : (w.outcome handle).isSome = true) : w.At handle [.broadcast] := by
  obtain ⟨k, hk, c, hc, hhandle, hphase⟩ := hat
  refine ⟨k, hk, c, hc, hhandle, ?_⟩
  rw [AsynchConnector.outcome, Option.mem_def.mp hk, Option.bind_some, Option.mem_def.mp hc,
    Option.bind_some] at houtcome
  have hnone := (h.connects k c hc).outstanding
  simp only [List.mem_cons, List.not_mem_nil, or_false] at hphase hnone ⊢
  rcases hphase with hpending | hbroadcast
  · simp [hnone (Or.inr (Or.inr hpending))] at houtcome
  · exact hbroadcast

/-- The map and the open handles have not changed for the connect. -/
theorem Coherent.frame {k : ℕ} (h : Coherent w k c)
    (hlatest : w'.latest c.handle = w.latest c.handle)
    (hframe : w.latest c.handle = some k →
      w'.handles c.handle = w.handles c.handle ∧ w'.isOpen c.handle = w.isOpen c.handle) :
    Coherent w' k c where
  opened hphase := by
    obtain ⟨hopen, hk⟩ := h.opened hphase
    exact ⟨(hframe hk).2.trans hopen, hlatest.trans hk⟩
  absent hphase := by
    obtain ⟨-, hk⟩ := h.opened (by simp [hphase])
    exact (hframe hk).1.trans (h.absent hphase)
  entry hphase := by
    obtain ⟨hk, hvalue⟩ := h.entry hphase
    exact ⟨hlatest.trans hk, (hframe hk).1.trans hvalue⟩
  outstanding := h.outstanding
  completed := h.completed

/-- One call of `connect` goes on, and nothing changes for those that are not the latest. -/
theorem Invariant.setConnect (h : Invariant w) (hcall : w.connects call = some c)
    (hconnects : w'.connects = Function.update w.connects call (some c'))
    (hlatest : w'.latest = w.latest) (hcreated : w'.created = w.created)
    (hreturned : w'.returned = w.returned)
    (hframe : ∀ handle, w.latest handle ≠ some call →
      w'.handles handle = w.handles handle ∧ w'.isOpen handle = w.isOpen handle)
    (hself : Coherent w' call c') (hwaits : ∀ x ∈ w'.waits, Served w' x) : Invariant w' where
  fresh k hk := by
    have hne : k ≠ call := by
      rintro rfl
      rw [h.fresh k (hcreated ▸ hk)] at hcall
      cases hcall
    rw [hconnects, Function.update_of_ne hne]
    exact h.fresh k (hcreated ▸ hk)
  connects k d hd := by
    by_cases hk : k = call
    · subst hk
      obtain rfl : c' = d := by simpa [hconnects] using hd
      exact hself
    · rw [hconnects, Function.update_of_ne hk] at hd
      refine (h.connects k d hd).frame (by rw [hlatest]) fun hlatestk => hframe d.handle ?_
      simpa [hlatestk] using hk
  waits := hwaits
  returned := hreturned ▸ h.returned

theorem Served.update {x : WaitCall} (h : Served w x) (hlatest : w'.latest = w.latest)
    (hconnects : w'.connects = Function.update w.connects call (some c'))
    (hcall : w.connects call = some c) (hhandle : c'.handle = c.handle)
    (hphase : c.phase ∈ [.pending, .broadcast, .done] → c.phase = .pending ∧ c'.phase = .broadcast) :
    Served w' x := by
  refine h.congr fun ps hps hat => hat.update hlatest hconnects hcall hhandle (fun hin => ?_)
    fun _ => id
  simp only [List.mem_cons, List.not_mem_nil, or_false] at hps
  rcases hps with rfl | rfl
  · simp only [List.mem_cons, List.not_mem_nil, or_false] at hin hphase ⊢
    tauto
  · simp only [List.mem_cons, List.not_mem_nil, or_false] at hin hphase
    obtain ⟨hpending, -⟩ := hphase (Or.inr hin)
    rw [hpending] at hin
    simp at hin

theorem Invariant.not_at (h : Invariant w) (hcall : w.connects call = some c)
    (hphase : c.phase = .erase)
    (hown : w.handles c.handle = none ∨ w.latest c.handle = some call) (hps : ps ⊆ entered) :
    ¬ w.At c.handle ps := by
  rintro ⟨k, hk, d, hd, hhandle, hdphase⟩
  rcases hown with hnone | hlatest
  · have hvalue := ((h.connects k d hd).entry (hps hdphase)).2
    rw [hhandle, hnone] at hvalue
    cases hvalue
  · obtain rfl : call = k := by simpa [hlatest] using hk
    obtain rfl : c = d := by simpa [hcall] using hd
    exact absurd (hps hdphase) (by simp [hphase, entered])

theorem Invariant.erase (h : Invariant w) (hcall : w.connects call = some c)
    (hphase : c.phase = .erase)
    (hown : w.handles c.handle = none ∨ w.latest c.handle = some call) :
    Invariant { w.setConnect call { c with phase := .failed } with
      handles := Function.update w.handles c.handle none
      waits := w.waits.map (WaitCall.invalidate c.handle) } := by
  refine h.setConnect hcall rfl rfl rfl rfl (fun handle hne => ⟨?_, rfl⟩) ⟨by simp, nofun, by simp [entered], by simp,
    by simp⟩ fun x hx => ?_
  · by_cases hhandle : handle = c.handle
    · subst hhandle
      rcases hown with hnone | hlatest
      · simp [hnone]
      · exact absurd hlatest hne
    · simp [hhandle]
  · obtain ⟨y, hy, rfl⟩ := List.mem_map.mp hx
    have hserved : Served { w.setConnect call { c with phase := .failed } with
        handles := Function.update w.handles c.handle none
        waits := w.waits.map (WaitCall.invalidate c.handle) } y :=
      (h.waits y hy).update rfl rfl hcall (by rfl) (by simp [hphase])
    unfold WaitCall.invalidate
    split
    · next hhandle =>
      -- the call of `wait` has left the condition
      have hnot : ∀ qs ⊆ entered, ¬ w.At y.handle qs := fun qs hqs =>
        hhandle ▸ h.not_at hcall hphase hown hqs
      have hwait := h.waits y hy
      unfold Served at hwait hserved ⊢
      cases hstatus : y.status with
      | waiting =>
        rw [hstatus] at hwait
        exact absurd hwait.2 (hnot _ (by simp [entered]))
      | woken =>
        rw [hstatus] at hwait
        exact absurd hwait.2 (hnot _ (by simp [entered]))
      | expired completed =>
        rw [hstatus] at hserved
        exact hserved
      | failed =>
        rw [hstatus] at hserved
        exact hserved
    · exact hserved

theorem Invariant.connect {started : Bool} (h : Invariant w)
    (horderly : w.Orderly (.connect call started)) (hstep : w.connect call started = .ok w') :
    Invariant w' := by
  unfold AsynchConnector.connect at hstep
  cases hcall : w.connects call with
  | none => simp [hcall] at hstep
  | some c =>
    simp only [hcall] at hstep
    have hself := h.connects call c hcall
    have hserved : ∀ c' : ConnectCall, c'.handle = c.handle → c.phase ∉ returnedPhases →
        ∀ w' : AsynchConnector, w'.latest = w.latest →
          w'.connects = Function.update w.connects call (some c') → ∀ x ∈ w.waits, Served w' x :=
      fun c' hhandle hphase w' hlatest hconnects x hx =>
        (h.waits x hx).update hlatest hconnects hcall hhandle fun hin => absurd hin hphase
    cases hphase : c.phase with
    | insert =>
      simp only [hphase] at hstep
      cases hstep
      have habsent := hself.absent hphase
      obtain ⟨hopen, hlatest⟩ := hself.opened (by simp [hphase])
      have houtcome := hself.outstanding (by simp [hphase])
      refine h.setConnect hcall rfl rfl rfl rfl (fun handle hne => ⟨?_, rfl⟩)
        ⟨fun _ => ⟨hopen, hlatest⟩, nofun, fun _ => ⟨hlatest, ?_⟩, fun _ => houtcome, by simp⟩
        (hserved { c with phase := .start } rfl
            (by simp [hphase, returnedPhases]) _ rfl rfl)
      · have : handle ≠ c.handle := by
          rintro rfl
          exact hne hlatest
        simp [mapInsert, habsent, this]
      · simp [mapInsert, habsent, houtcome]
    | start =>
      obtain ⟨hopen, hlatest⟩ := hself.opened (by simp [hphase])
      have houtcome := hself.outstanding (by simp [hphase])
      simp only [hphase] at hstep
      cases started with
      | false =>
        cases hstep
        exact h.setConnect hcall rfl rfl rfl rfl (fun handle hne => ⟨rfl, rfl⟩)
          ⟨fun _ => ⟨hopen, hlatest⟩, nofun, by simp [entered], by simp, by simp⟩
          (hserved { c with phase := .closesocket, outcome := some (-1) } rfl
            (by simp [hphase, returnedPhases]) _ rfl rfl)
      | true =>
        cases hstep
        exact h.setConnect hcall rfl rfl rfl rfl (fun handle hne => ⟨rfl, rfl⟩)
          ⟨by simp, nofun, fun _ => hself.entry (by simp [hphase, entered]), fun _ => houtcome,
            by simp⟩
          (hserved { c with phase := .pending } rfl
            (by simp [hphase, returnedPhases]) _ rfl rfl)
    | closesocket =>
      obtain ⟨-, hlatest⟩ := hself.opened (by simp [hphase])
      simp only [hphase] at hstep
      cases hstep
      refine h.setConnect hcall rfl rfl rfl rfl (fun handle hne => ⟨rfl, ?_⟩)
        ⟨by simp, nofun, by simp [entered], by simp, by simp⟩
        (hserved { c with phase := .erase } rfl
            (by simp [hphase, returnedPhases]) _ rfl rfl)
      have : handle ≠ c.handle := by
        rintro rfl
        exact hne hlatest
      simp [this]
    | erase =>
      simp only [hphase] at hstep
      cases hstep
      exact h.erase hcall hphase (horderly c hcall hphase)
    | pending => simp [hphase] at hstep
    | broadcast => simp [hphase] at hstep
    | done => simp [hphase] at hstep
    | failed => simp [hphase] at hstep

theorem Invariant.complete {success : Bool} {error : ℤ} (h : Invariant w)
    (hstep : w.complete call success error = .ok w') : Invariant w' := by
  unfold AsynchConnector.complete at hstep
  cases hcall : w.connects call with
  | none => simp [hcall] at hstep
  | some c =>
    by_cases hguard : c.phase ≠ .pending ∨ success = false ∧ error = 0
    · simp [hcall, hguard] at hstep
    · simp only [hcall, if_neg hguard] at hstep
      cases hstep
      have hphase : c.phase = .pending := by
        by_contra hne
        exact hguard (Or.inl hne)
      obtain ⟨hlatest, hvalue⟩ := (h.connects call c hcall).entry (by simp [hphase, entered])
      refine h.setConnect hcall rfl rfl rfl rfl (fun handle hne => ⟨?_, rfl⟩)
        ⟨by simp, nofun, fun _ => ⟨hlatest, ?_⟩, by simp, by simp⟩ fun x hx => ?_
      · have : handle ≠ c.handle := by
          rintro rfl
          exact hne hlatest
        simp [hvalue, this]
      · simp [hvalue]
      · exact (h.waits x hx).update rfl rfl hcall rfl fun _ => ⟨hphase, rfl⟩

theorem Invariant.broadcast (h : Invariant w) (horderly : w.Orderly (.broadcast call))
    (hstep : w.broadcast call = .ok w') : Invariant w' := by
  unfold AsynchConnector.broadcast at hstep
  cases hcall : w.connects call with
  | none => simp [hcall] at hstep
  | some c =>
    by_cases hguard : c.phase ≠ .broadcast
    · simp [hcall, hguard] at hstep
    · simp only [hcall, if_neg hguard] at hstep
      cases hstep
      have hphase : c.phase = .broadcast := not_not.mp hguard
      have hself := h.connects call c hcall
      have hat : ∀ handle, ∀ ps ⊆ [ConnectPhase.broadcast, .done], w.At handle ps →
          (w.setConnect call { c with phase := .done }).At handle [.broadcast, .done] :=
        fun handle ps hps hat => (hat.mono hps).update rfl rfl hcall rfl (by simp) fun _ => id
      refine h.setConnect hcall rfl rfl rfl rfl (fun handle hne => ⟨rfl, rfl⟩)
        ⟨by simp, nofun, fun _ => hself.entry (by simp [hphase, entered]), by simp,
          fun _ => hself.completed (by simp [hphase])⟩ fun x hx => ?_
      obtain ⟨y, hy, rfl⟩ := List.mem_map.mp hx
      have hserved := h.waits y hy
      unfold Served at hserved
      unfold WaitCall.wake
      cases hstatus : y.status with
      | waiting =>
        rw [hstatus] at hserved
        have hrecorded := h.recorded hserved.2 (horderly y hy hstatus)
        exact ⟨hserved.1, hat y.handle _ (by simp) hrecorded⟩
      | woken =>
        rw [hstatus] at hserved
        rw [if_neg (by simp)]
        unfold Served
        rw [hstatus]
        exact ⟨hserved.1, hat y.handle _ (by simp) hserved.2⟩
      | expired completed =>
        rw [hstatus] at hserved
        rw [if_neg (by simp)]
        unfold Served
        rw [hstatus]
        exact hserved
      | failed =>
        rw [hstatus] at hserved
        exact hserved.elim

theorem Invariant.withWaits (h : Invariant w) {waits : List WaitCall} {returned : List WaitResult}
    (hwaits : ∀ x ∈ waits, Served w x) (hreturned : ∀ r ∈ returned, r.Reliable) :
    Invariant { w with waits := waits, returned := returned } where
  fresh := h.fresh
  connects k c hc := (h.connects k c hc).frame rfl fun _ => ⟨rfl, rfl⟩
  waits x hx := (hwaits x hx).congr fun _ _ hat => hat
  returned := hreturned

theorem Invariant.wait {timeout : Bool} (h : Invariant w)
    (hat : w.At handle [.pending, .broadcast]) : Invariant (w.wait handle timeout) := by
  obtain ⟨k, c, hc, rfl, hphase, -⟩ := hat.outcome
  have hvalue := ((h.connects k c hc).entry (by simp at hphase; simp [entered]; tauto)).2
  unfold AsynchConnector.wait
  rw [hvalue]
  refine h.withWaits (fun x hx => ?_) h.returned
  rcases List.mem_append.mp hx with hold | hnew
  · exact h.waits x hold
  · obtain rfl := List.mem_singleton.mp hnew
    exact ⟨rfl, hat⟩

theorem Invariant.leave {waiter : ℕ} {isPossible : WaitCall → Bool}
    {status : WaitCall → WaitStatus} (h : Invariant w)
    (hserved : ∀ x ∈ w.waits[waiter]?, x.status = .waiting → Served w { x with status := status x })
    (hstep : w.leave waiter isPossible status = .ok w') : Invariant w' := by
  unfold AsynchConnector.leave at hstep
  cases hwaiter : w.waits[waiter]? with
  | none => simp [hwaiter] at hstep
  | some x =>
    by_cases hguard : x.status = .waiting ∧ isPossible x = true
    · simp only [hwaiter, if_pos hguard] at hstep
      cases hstep
      refine h.withWaits (fun y hy => ?_) h.returned
      rcases List.mem_or_eq_of_mem_set hy with hold | rfl
      · exact h.waits y hold
      · exact hserved x hwaiter hguard.1
    · simp [hwaiter, hguard] at hstep

theorem Invariant.wake {waiter : ℕ} (h : Invariant w) (horderly : w.Orderly (.wake waiter))
    (hstep : w.step (.wake waiter) = .ok w') : Invariant w' := by
  refine h.leave (fun x hx hstatus => ?_) hstep
  have hserved := h.waits x (List.mem_of_getElem? hx)
  unfold Served at hserved
  rw [hstatus] at hserved
  exact ⟨hserved.1, (h.recorded hserved.2 (horderly x hx)).mono (by simp)⟩

theorem Invariant.expire {waiter : ℕ} (h : Invariant w) (horderly : w.Orderly (.expire waiter))
    (hstep : w.step (.expire waiter) = .ok w') : Invariant w' := by
  refine h.leave (fun x hx _ => ?_) hstep
  change (w.outcome x.handle).isSome = false
  rw [horderly x hx]
  rfl

theorem Invariant.return_ (h : Invariant w) {waiter : ℕ} {result : ℤ} {late : Bool}
    (hreliable : WaitResult.Reliable ⟨handle, result, w.outcome handle, late⟩) :
    Invariant ({ w with waits := w.waits.eraseIdx waiter }.return_ handle result late) := by
  refine h.withWaits (fun x hx => h.waits x (List.mem_of_mem_eraseIdx hx)) fun r hr => ?_
  rcases List.mem_append.mp hr with hold | hnew
  · exact h.returned r hold
  · obtain rfl := List.mem_singleton.mp hnew
    exact hreliable

/-- A call of `wait` that returns is reliable, and reads no iterator that points nowhere. -/
theorem Invariant.resume (h : Invariant w) (waiter : ℕ) :
    w.resume waiter = .error none ∨ ∃ w', w.resume waiter = .ok w' ∧ Invariant w' := by
  unfold AsynchConnector.resume
  cases hwaiter : w.waits[waiter]? with
  | none => exact Or.inl rfl
  | some x =>
    have hserved := h.waits x (List.mem_of_getElem? hwaiter)
    unfold Served at hserved
    cases hstatus : x.status with
    | waiting => simp [hstatus]
    | expired completed =>
      rw [hstatus] at hserved
      subst hserved
      simp only [hstatus, reduceCtorEq, false_or]
      exact ⟨_, rfl, h.return_ ⟨by simp [ETIME], fun _ => Or.inr ⟨rfl, rfl⟩⟩⟩
    | failed =>
      rw [hstatus] at hserved
      exact hserved.elim
    | woken =>
      rw [hstatus] at hserved
      obtain ⟨value, houtcome, hvalue⟩ := h.value hserved.2
      simp only [hstatus, hserved.1, hvalue, reduceCtorEq, false_or]
      refine ⟨_, rfl, h.return_ ⟨fun hzero => ?_, fun _ => Or.inl houtcome⟩⟩
      rw [houtcome, show value = 0 from hzero]

theorem Invariant.entry_of_at (h : Invariant w) (hat : w.At handle ps) (hps : ps ⊆ entered) :
    (w.handles handle).isSome = true := by
  obtain ⟨k, -, c, hc, rfl, hphase⟩ := hat
  simp [((h.connects k c hc).entry (hps hphase)).2]

theorem Invariant.socket (h : Invariant w) (horderly : w.handles handle = none)
    (hc : c = ⟨handle, .insert, none⟩ ∨ c = ⟨handle, .closesocket, some (-1)⟩)
    (hclosed : w.isOpen handle = false) :
    Invariant { w.setConnect w.created c with
      isOpen := Function.update w.isOpen handle true
      created := w.created + 1
      latest := Function.update w.latest handle (some w.created) } := by
  have hconnect : ∀ k d, w.connects k = some d → k ≠ w.created := by
    rintro k d hd rfl
    rw [h.fresh _ (le_refl _)] at hd
    cases hd
  refine ⟨fun k hk => ?_, fun k d hd => ?_, fun x hx => ?_, h.returned⟩
  · have hne : k ≠ w.created := by
      dsimp only at hk
      omega
    simpa [AsynchConnector.setConnect, hne] using h.fresh k (Nat.le_of_succ_le hk)
  · by_cases hk : k = w.created
    · subst hk
      obtain rfl : c = d := by simpa [AsynchConnector.setConnect] using hd
      rcases hc with rfl | rfl
      · exact ⟨fun _ => by simp, fun _ => horderly, by simp [entered], fun _ => rfl, by simp⟩
      · exact ⟨fun _ => by simp, nofun, by simp [entered], by simp, by simp⟩
    · have hself := h.connects k d (by simpa [AsynchConnector.setConnect, hk] using hd)
      by_cases hhandle : d.handle = handle
      · -- an earlier connect has neither the handle nor an entry any more
        have hopened : d.phase ∉ [.insert, .start, .closesocket] := by
          intro hphase
          have hopen := (hself.opened hphase).1
          rw [hhandle, hclosed] at hopen
          cases hopen
        have hentry : d.phase ∉ entered := by
          intro hphase
          have hvalue := (hself.entry hphase).2
          rw [hhandle, horderly] at hvalue
          cases hvalue
        exact ⟨fun hphase => absurd hphase hopened, fun _ => hhandle ▸ horderly,
          fun hphase => absurd hphase hentry, hself.outstanding, hself.completed⟩
      · exact hself.frame (by simp [hhandle]) fun _ => ⟨rfl, by simp [hhandle]⟩
  · refine (h.waits x hx).congr fun ps hps hat => ?_
    have hentry := h.entry_of_at hat (by
      simp only [List.mem_cons, List.not_mem_nil, or_false] at hps
      rcases hps with rfl | rfl <;> simp [entered])
    have hhandle : x.handle ≠ handle := by
      intro hhandle
      simp [hhandle, horderly] at hentry
    obtain ⟨k, hk, d, hd, hdhandle, hphase⟩ := hat
    refine ⟨k, by simpa [hhandle] using hk, d, ?_, hdhandle, hphase⟩
    simpa [AsynchConnector.setConnect, hconnect k d hd] using hd

theorem Invariant.step {event : ConnectorEvent} (h : Invariant w) (horderly : w.Orderly event)
    (hstep : w.step event = .ok w') : Invariant w' := by
  cases event with
  | socket handle setsockopt =>
    by_cases hopen : w.isOpen handle = true
    · simp [AsynchConnector.step, hopen] at hstep
    · simp only [AsynchConnector.step, if_neg hopen] at hstep
      cases hstep
      exact h.socket horderly (by cases setsockopt <;> simp) (by simpa using hopen)
  | connect call started => exact h.connect horderly hstep
  | complete call success error => exact h.complete hstep
  | broadcast call => exact h.broadcast horderly hstep
  | close handle =>
    by_cases hknown : w.isOpen handle = true ∧
        ∀ c ∈ (w.latest handle).bind w.connects, c.phase ∈ returnedPhases
    · simp only [AsynchConnector.step, if_pos hknown] at hstep
      cases hstep
      refine ⟨h.fresh, fun k c hc => ?_, fun x hx => (h.waits x hx).congr fun _ _ hat => hat,
        h.returned⟩
      have hself := h.connects k c hc
      refine ⟨fun hphase => ?_, hself.absent, hself.entry, hself.outstanding, hself.completed⟩
      obtain ⟨hopen, hlatest⟩ := hself.opened hphase
      have hne : c.handle ≠ handle := by
        rintro rfl
        have hreturned := hknown.2 c (by rw [hlatest]; exact hc)
        simp only [List.mem_cons, List.not_mem_nil, or_false, returnedPhases] at hphase hreturned
        rcases hphase with hp | hp | hp <;> simp [hp] at hreturned
      exact ⟨by simpa [hne] using hopen, hlatest⟩
    · simp only [AsynchConnector.step, if_neg hknown] at hstep
      cases hstep
  | wait handle timeout =>
    cases hstep
    exact h.wait horderly
  | wake waiter => exact h.wake horderly hstep
  | expire waiter => exact h.expire horderly hstep
  | fail waiter =>
    simp only [AsynchConnector.step, AsynchConnector.leave] at hstep
    rw [horderly] at hstep
    cases hstep
  | resume waiter =>
    rcases h.resume waiter with hnone | ⟨v, hv, hinv⟩
    · rw [AsynchConnector.step, hnone] at hstep
      cases hstep
    · rw [AsynchConnector.step, hv] at hstep
      cases hstep
      exact hinv

/-- No step reads an iterator that points nowhere. -/
theorem Invariant.no_fault {event : ConnectorEvent} {fault : Fault} (h : Invariant w) :
    w.step event ≠ .error (some fault) := by
  intro hstep
  cases event with
  | socket handle setsockopt =>
    simp only [AsynchConnector.step] at hstep
    split at hstep <;> cases hstep
  | connect call started =>
    simp only [AsynchConnector.step, AsynchConnector.connect] at hstep
    split at hstep
    · cases hstep
    · split at hstep
      · cases hstep
      · split at hstep <;> cases hstep
      all_goals cases hstep
  | complete call success error =>
    simp only [AsynchConnector.step, AsynchConnector.complete] at hstep
    split at hstep
    · cases hstep
    · split at hstep <;> cases hstep
  | broadcast call =>
    simp only [AsynchConnector.step, AsynchConnector.broadcast] at hstep
    split at hstep
    · cases hstep
    · split at hstep <;> cases hstep
  | close handle =>
    simp only [AsynchConnector.step] at hstep
    split at hstep <;> cases hstep
  | wait handle timeout => cases hstep
  | wake waiter | expire waiter | fail waiter =>
    simp only [AsynchConnector.step, AsynchConnector.leave] at hstep
    split at hstep
    · cases hstep
    · split at hstep <;> cases hstep
  | resume waiter =>
    rcases h.resume waiter with hnone | ⟨v, hv, -⟩
    · rw [AsynchConnector.step, hnone] at hstep
      cases hstep
    · rw [AsynchConnector.step, hv] at hstep
      cases hstep

instance (handle : ℕ) (phases : List ConnectPhase) : Decidable (w.At handle phases) :=
  match hk : w.latest handle with
  | none => isFalse fun ⟨k, hk', _⟩ => by simp [hk] at hk'
  | some k =>
    match hc : w.connects k with
    | none => isFalse fun ⟨k', hk', c, hc', _⟩ => by
        obtain rfl : k = k' := by simpa [hk] using hk'
        simp [hc] at hc'
    | some c => decidable_of_iff (c.handle = handle ∧ c.phase ∈ phases)
        ⟨fun h => ⟨k, hk, c, hc, h⟩, fun ⟨k', hk', c', hc', h⟩ => by
          obtain rfl : k = k' := by simpa [hk] using hk'
          obtain rfl : c = c' := by simpa [hc] using hc'
          exact h⟩

instance (w : AsynchConnector) : (event : ConnectorEvent) → Decidable (w.Orderly event)
  | .socket handle _ => inferInstanceAs (Decidable (w.handles handle = none))
  | .connect call _ => inferInstanceAs (Decidable (∀ c ∈ w.connects call, c.phase = .erase →
      w.handles c.handle = none ∨ w.latest c.handle = some call))
  | .wait handle _ => inferInstanceAs (Decidable (w.At handle [.pending, .broadcast]))
  | .broadcast _ => inferInstanceAs (Decidable
      (∀ x ∈ w.waits, x.status = .waiting → (w.outcome x.handle).isSome = true))
  | .wake waiter => inferInstanceAs (Decidable
      (∀ x ∈ w.waits[waiter]?, (w.outcome x.handle).isSome = true))
  | .expire waiter => inferInstanceAs (Decidable (∀ x ∈ w.waits[waiter]?, w.outcome x.handle = none))
  | .fail waiter => inferInstanceAs (Decidable (w.waits[waiter]? = none))
  | .complete _ _ _ | .close _ | .resume _ => isTrue trivial

/-- In every run of orderly steps all that `wait` has returned is reliable, and `wait` reads no
iterator that points nowhere. -/
theorem run_reliable {events : List ConnectorEvent}
    (halong : Runs.Along step Orderly initial events)
    (hrun : Runs.run step initial events = .ok w) :
    (∀ r ∈ w.returned, r.Reliable) ∧ ∀ event fault, w.step event ≠ .error (some fault) := by
  have h : Invariant w := Runs.run_invariant Invariant
    (fun _ _ _ h horderly hstep => h.step horderly hstep) Invariant.initial halong hrun
  exact ⟨h.returned, fun _ _ => h.no_fault⟩

/-- Two connects; the first one is refused, and the thread that waits for it is told so; a wait
for the second one times out. -/
def refused : List ConnectorEvent :=
  [.socket 5 true, .connect 0 true, .connect 0 true, .wait 5 true, .complete 0 false 111,
    .broadcast 0, .resume 0, .close 5, .socket 6 true, .connect 1 true, .connect 1 true,
    .wait 6 true, .expire 0, .complete 1 true 0, .resume 0, .broadcast 1]

theorem run_reliable_refused :
    ∃ w, Runs.run step initial refused = .ok w ∧
      w.returned.map WaitResult.result = [111, ETIME] ∧ ∀ r ∈ w.returned, r.Reliable :=
  ⟨_, rfl, rfl, (@run_reliable _ refused (by decide) rfl).1⟩

/-- The handle of a connect is used again while the map has its result: the next connect has not
completed when `wait`, woken by the completion of another handle, returns 0. -/
def reused : List ConnectorEvent :=
  [.socket 5 true, .connect 0 true, .connect 0 true, .complete 0 true 0, .broadcast 0, .close 5,
    .socket 5 true, .connect 1 true, .connect 1 true, .socket 6 true, .connect 2 true,
    .connect 2 true, .wait 5 true, .complete 2 true 0, .broadcast 2, .resume 0]

theorem not_reliable : ¬ ∀ (events : List ConnectorEvent) (w : AsynchConnector),
    Runs.run step initial events = .ok w → ∀ r ∈ w.returned, r.Reliable := by
  intro h
  have hreliable := h reused _ rfl ⟨5, 0, none, false⟩ (by decide)
  exact absurd (hreliable.1 rfl) (by decide)

end AsynchConnector

end ACENetwork.Net
