import ACENetwork.Net.ConnectionManager
import ACENetwork.Library.Runs

/-!
# The connection configurations of a session

`Net_SessionBase_T::connect` makes a copy of the configurations for each connection, which is
freed when the connection fails, when another connection takes its place in the map, or when
the session closes. Calls of `connect` and the connections that they open have one number. The
connections come and go on their own, and so do those of others.
-/
namespace ACENetwork.Net
open BitTorrent (Fault)
open Library

/-- What has become of the connection that a call of `connect` opens: it has not begun, it may
still be opened, it is registered with the connection manager, or it is gone for good. -/
inductive Attempt where
  | none
  | outstanding
  | registered
  | gone
  deriving DecidableEq, Repr

/-- Whether the connection is being opened or registered. -/
def Attempt.isLive : Attempt → Bool
  | .outstanding | .registered => true
  | .none | .gone => false

/-- Where `Net_SessionBase_T::connect` is, in `Net_Client_Common_Tools::connect` first: the
connector connects, the connection is found, and its status is awaited. The connections of
others have a stage of their own. -/
inductive ConnectStage where
  | connect
  | find
  | status
  | get
  | store (id : ℕ)
  | error
  | done
  | other
  deriving DecidableEq, Repr

/-- A call of `Net_SessionBase_T::connect`, with the configurations that it has allocated, and
the connection that it opens. -/
structure SessionConnect (AddressType : Type) where
  address : AddressType
  handle : Option ℕ
  attempt : Attempt
  stage : ConnectStage
  deriving DecidableEq, Repr

/-- Where `close (true)` is: it waits for the session, and for each connection of those that it
has found; and it frees the configurations, with an iterator that may come to point nowhere. -/
inductive CloseStage where
  | drain (connection_ids_a : List ℕ)
  | wait (connection_ids_a : List ℕ)
  | free (iterator : Option ℕ) (valid : Bool)
  deriving DecidableEq, Repr

/-- The session and the connection manager. The configurations are those of the call with their
number; how often they have been freed is a record of what has happened. -/
structure SessionBase (AddressType : Type) where
  manager : ConnectionManager
  calls : ℕ → Option (SessionConnect AddressType)
  created : ℕ
  connections : List ℕ
  connectionConfigurations : List (ℕ × ℕ)
  closes : List CloseStage
  freed : ℕ → ℕ

/-- The steps: of a call of `connect` and of the connection that it opens, of the session's
notifications, and of a call of `close`. -/
inductive SessionEvent (AddressType : Type) where
  | connect (address : AddressType)
  | other (handle : ℕ) (address : AddressType)
  | begin_ (call : ℕ) (handle : ℕ)
  | giveUp (call : ℕ)
  | register_ (call : ℕ)
  | deregister (call : ℕ)
  | connected (call : ℕ) (valid : Bool)
  | find (call : ℕ) (deadline : Bool)
  | status (call : ℕ) (ok : Bool)
  | get (call : ℕ)
  | store (call : ℕ)
  | error (call : ℕ)
  | join (id : ℕ)
  | leave (id : ℕ)
  | close (waitForCompletion : Bool)
  | closing (close : ℕ)
  deriving DecidableEq, Repr

def SessionConnect.storing {AddressType : Type} (c : SessionConnect AddressType) : Option ℕ :=
  match c.stage with
  | .store id => some id
  | _ => none

def CloseStage.awaits (id : ℕ) : CloseStage → Bool
  | .drain connection_ids_a | .wait connection_ids_a => connection_ids_a.contains id
  | .free _ _ => false

def CloseStage.isFree : CloseStage → Bool
  | .free _ _ => true
  | .drain _ | .wait _ => false

def CloseStage.passed (id : ℕ) : CloseStage → Bool
  | .free (some position) _ => id < position
  | .free none _ => true
  | .drain _ | .wait _ => false

def CloseStage.invalidate (id : ℕ) : CloseStage → CloseStage
  | .free (some position) valid => .free (some position) (valid && position ≠ id)
  | stage => stage

def CloseStage.clear : CloseStage → CloseStage
  | .free (some position) _ => .free (some position) false
  | stage => stage

namespace SessionBase

variable {AddressType : Type} [DecidableEq AddressType] (useReactor : Bool)
  (w : SessionBase AddressType)

def id (i : ℕ) : Option ℕ := (w.calls i).bind SessionConnect.handle

def setCall (call : ℕ) (c : SessionConnect AddressType) : SessionBase AddressType :=
  { w with calls := Function.update w.calls call (some c) }

def entry (id : ℕ) : Option ℕ :=
  (w.connectionConfigurations.find? fun e => e.1 = id).map Prod.snd

/-- The first id of the map from here on: the ids are in order. -/
def first (isAfter : ℕ → Bool) : Option ℕ :=
  ((w.connectionConfigurations.map Prod.fst).filter isAfter).min?

def free (j : ℕ) : SessionBase AddressType :=
  { w with freed := Function.update w.freed j (w.freed j + 1) }

def find (c : SessionConnect AddressType) : Option ℕ :=
  if useReactor then c.handle.bind fun handle => w.manager.get w.id handle
  else w.manager.connections.find? fun i => (w.calls i).map SessionConnect.address = some c.address

def withCall (call : ℕ) (isPossible : SessionConnect AddressType → Bool)
    (f : SessionConnect AddressType → SessionBase AddressType) :
    Except (Option Fault) (SessionBase AddressType) :=
  match w.calls call with
  | none => .error none
  | some c => if isPossible c then .ok (f c) else .error none

/-- The connection is registered, unless the manager refuses it. -/
def register_ (call : ℕ) (c : SessionConnect AddressType) : SessionBase AddressType :=
  match w.manager.register_ call with
  | none => w.setCall call { c with attempt := .gone }
  | some manager => { w.setCall call { c with attempt := .registered } with manager }

/-- `Net_Client_Common_Tools::connect`, until it has found the connection: the reactor's connector
returns when it is there, and the proactor's is asked again until the deadline. -/
def findConnection (call : ℕ) (deadline : Bool) (c : SessionConnect AddressType) :
    SessionBase AddressType :=
  match w.find useReactor c with
  | some _ => w.setCall call { c with stage := .status }
  | none => if useReactor || deadline then w.setCall call { c with stage := .error } else w

/-- `connect`: the connection under the handle that has been returned. -/
def get (call : ℕ) (c : SessionConnect AddressType) : SessionBase AddressType :=
  match c.handle.bind fun handle => (w.manager.get w.id handle).bind w.id with
  | none => w.setCall call { c with stage := .error }
  | some id => w.setCall call { c with stage := .store id }

def store (call id : ℕ) (c : SessionConnect AddressType) : SessionBase AddressType :=
  let w := w.setCall call { c with stage := .done }
  match w.entry id with
  | none => { w with connectionConfigurations := w.connectionConfigurations ++ [(id, call)] }
  | some j =>
    { w.free j with
      connectionConfigurations :=
        (w.connectionConfigurations.filter fun e => e.1 ≠ id) ++ [(id, call)]
      closes := w.closes.map (CloseStage.invalidate id) }

/-- The next step of `close (true)`. -/
def closing (close : ℕ) : Except (Option Fault) (SessionBase AddressType) :=
  match w.closes[close]? with
  | none => .error none
  | some (.drain connection_ids_a) =>
    if w.connections = [] then .ok { w with closes := w.closes.set close (.wait connection_ids_a) }
    else .error none
  | some (.wait (id :: connection_ids_a)) =>
    if w.manager.connections.any fun i => w.id i = some id then .error none
    else .ok { w with closes := w.closes.set close (.wait connection_ids_a) }
  | some (.wait []) =>
    .ok { w with closes := w.closes.set close (.free (w.first fun _ => true) true) }
  | some (.free none _) =>
    .ok { w with
      connectionConfigurations := []
      closes := (w.closes.eraseIdx close).map CloseStage.clear }
  | some (.free (some id) valid) =>
    match valid, w.entry id with
    | true, some j =>
      .ok { w.free j with closes := w.closes.set close (.free (w.first fun key => id < key) true) }
    | _, _ => .error (some .endIterator)

def step : SessionEvent AddressType → Except (Option Fault) (SessionBase AddressType)
  | .connect address =>
    .ok { w.setCall w.created ⟨address, none, .none, .connect⟩ with created := w.created + 1 }
  | .other handle address =>
    .ok { w.setCall w.created ⟨address, some handle, .outstanding, .other⟩ with
      created := w.created + 1 }
  | .begin_ call handle =>
    w.withCall call (fun c => c.stage = .connect ∧ c.attempt = .none) fun c =>
      w.setCall call { c with attempt := .outstanding, handle := some handle }
  | .giveUp call =>
    w.withCall call (fun c => c.attempt = .outstanding) fun c =>
      w.setCall call { c with attempt := .gone }
  | .register_ call => w.withCall call (fun c => c.attempt = .outstanding) (w.register_ call)
  | .deregister call =>
    w.withCall call (fun c => c.attempt = .registered) fun c =>
      { w.setCall call { c with attempt := .gone } with manager := w.manager.deregister call }
  | .connected call valid =>
    w.withCall call (fun c => c.stage = .connect ∧ (valid = true → c.handle.isSome)) fun c =>
      w.setCall call { c with stage := if valid then .find else .error }
  | .find call deadline =>
    w.withCall call (fun c => c.stage = .find) (w.findConnection useReactor call deadline)
  | .status call ok =>
    w.withCall call (fun c => c.stage = .status) fun c =>
      w.setCall call { c with stage := if ok then .get else .error }
  | .get call => w.withCall call (fun c => c.stage = .get) (w.get call)
  | .store call =>
    match (w.calls call).map SessionConnect.stage with
    | some (.store id) => w.withCall call (fun _ => true) (w.store call id)
    | _ => .error none
  | .error call =>
    w.withCall call (fun c => c.stage = .error) fun c =>
      (w.setCall call { c with stage := .done }).free call
  | .join id =>
    if id ∈ w.connections then .error (some .assertion)
    else .ok { w with connections := w.connections ++ [id] }
  | .leave id =>
    if id ∈ w.connections then .ok { w with connections := w.connections.erase id }
    else .error (some .assertion)
  | .close waitForCompletion =>
    if waitForCompletion then .ok { w with closes := w.closes ++ [.drain w.connections] } else .ok w
  | .closing close => w.closing close

omit [DecidableEq AddressType] in
def initial (manager : ConnectionManager) : SessionBase AddressType where
  manager := { manager with connections := [] }
  calls _ := none
  created := 0
  connections := []
  connectionConfigurations := []
  closes := []
  freed _ := 0

/-- The connection that has been opened with the configurations is not registered. -/
def Settled (j : ℕ) : Prop :=
  ∀ c ∈ w.calls j, c.attempt ≠ .registered

/-- No connection with the handle is being opened or registered. -/
def Unused (handle : ℕ) : Prop :=
  ∀ k < w.created, ∀ c ∈ w.calls k, c.handle = some handle → c.attempt.isLive = false

/-- The entries of the map that no call of `close` has passed. -/
def unreleased : List (ℕ × ℕ) :=
  w.connectionConfigurations.filter fun e => !w.closes.any (CloseStage.passed e.1)

/-- Configurations are freed once at most, no connection is registered that has been opened with
configurations that are freed, and those that have not been freed are held by the call that has
allocated them or by an entry of the map that is yet to be released. -/
structure Released : Prop where
  once : ∀ k, w.freed k ≤ 1
  unused : ∀ k, w.freed k ≠ 0 → k ∉ w.manager.connections
  kept : ∀ k c, w.calls k = some c → c.stage = .done → w.freed k = 0 →
    k ∈ w.unreleased.map Prod.snd
  held : ∀ k c, w.calls k = some c → c.stage ≠ .done → w.freed k = 0

/-- A number is given out when nothing that has it is being opened or registered; `connect` fails
when its connection is not registered, which is not registered any more from then on; no other
connection has come under the number when `connect` stores its configurations, and each `close`
waits for this one, as for those of the entries that it finds, unless they are gone; and one call
of `close` at most frees them. -/
def Orderly : SessionEvent AddressType → Prop
  | .begin_ _ handle | .other handle _ => w.Unused handle
  | .connected call false | .status call false => w.Settled call
  | .register_ call => ∀ c ∈ w.calls call, c.stage ≠ .error ∧ c.stage ≠ .done
  | .store call => ∀ c ∈ w.calls call, ∀ id ∈ c.storing,
    (∀ i ∈ w.manager.get w.id id, i = call) ∧
      ∀ x ∈ w.closes, x.awaits id = true ∨ x.isFree = false ∧ w.Settled call
  | .close true => ∀ e ∈ w.connectionConfigurations, e.1 ∈ w.connections ∨ w.Settled e.2
  | .closing close => w.closes[close]? = some (.wait []) → ∀ x ∈ w.closes, x.isFree = false
  | _ => True

/-- What the steps find that free configurations, and that use them. -/
def Safe : SessionEvent AddressType → Prop
  | .register_ call => ∀ c ∈ w.calls call, c.stage ≠ .done
  | .error call => w.Settled call
  | .store call => (∀ x ∈ w.closes, x.isFree = false) ∧
    ∀ c ∈ w.calls call, ∀ id ∈ c.storing, ∀ j ∈ w.entry id, w.Settled j
  | .closing close =>
    match w.closes[close]? with
    | some (.wait []) => ∀ x ∈ w.closes, x.isFree = false
    | some (.free (some id) _) => ∀ j ∈ w.entry id, w.Settled j
    | _ => True
  | _ => True

structure Invariant (w : SessionBase AddressType) : Prop where
  fresh : ∀ k, w.created ≤ k → w.calls k = none
  listed : ∀ k ∈ w.manager.connections, ∃ c, w.calls k = some c ∧ c.attempt = .registered
  nodup : w.manager.connections.Nodup
  keys : (w.connectionConfigurations.map Prod.fst).Nodup
  single : w.closes.countP CloseStage.isFree ≤ 1
  iterators : ∀ id valid, .free (some id) valid ∈ w.closes →
    valid = true ∧ id ∈ w.connectionConfigurations.map Prod.fst
  once : ∀ k, w.freed k ≤ 1
  gone : ∀ k, w.freed k ≠ 0 → ∃ c, w.calls k = some c ∧ c.stage = .done ∧ c.attempt ≠ .registered
  stored : ∀ e ∈ w.unreleased, w.freed e.2 = 0 ∧ ∃ c, w.calls e.2 = some c ∧ c.stage = .done
  distinct : (w.unreleased.map Prod.snd).Nodup
  kept : ∀ k c, w.calls k = some c → c.stage = .done → w.freed k = 0 →
    k ∈ w.unreleased.map Prod.snd

/-- What is known of the connections: `connect` and `close` find those that are registered under
their handles, which are their own, and each `close` waits for those of the entries. -/
structure Tracked (w : SessionBase AddressType) : Prop where
  registered : ∀ k c, w.calls k = some c → c.attempt = .registered → k ∈ w.manager.connections
  numbered : ∀ k c, w.calls k = some c → c.attempt.isLive = true → c.handle.isSome = true
  unique : ∀ k c, w.calls k = some c → c.attempt.isLive = true → ∀ k' c', w.calls k' = some c' →
    c'.attempt.isLive = true → c'.handle = c.handle → k' = k
  failed : ∀ k c, w.calls k = some c → c.stage = .error → c.attempt ≠ .registered
  storing : ∀ k c, w.calls k = some c → ∀ id ∈ c.storing, c.handle = some id
  stored : ∀ e ∈ w.connectionConfigurations, ∃ c, w.calls e.2 = some c ∧ c.handle = some e.1 ∧
    c.stage = .done
  awaited : ∀ x ∈ w.closes, ∀ e ∈ w.connectionConfigurations, x.awaits e.1 = true ∨ w.Settled e.2

section Invariant

variable {w w' : SessionBase AddressType} {call id : ℕ} {c c' : SessionConnect AddressType}

omit [DecidableEq AddressType] in
theorem Invariant.initial (manager : ConnectionManager) :
    Invariant (initial manager : SessionBase AddressType) where
  fresh _ _ := rfl
  listed := by simp [SessionBase.initial]
  nodup := List.nodup_nil
  keys := List.nodup_nil
  single := Nat.zero_le _
  iterators := by simp [SessionBase.initial]
  once _ := Nat.zero_le _
  gone := by simp [SessionBase.initial]
  stored := by simp [SessionBase.initial, unreleased]
  distinct := List.nodup_nil
  kept := by simp [SessionBase.initial]

omit [DecidableEq AddressType] in
theorem Invariant.released (h : Invariant w) : w.Released where
  once := h.once
  unused k hfreed hlisted := by
    obtain ⟨c, hc, -, hattempt⟩ := h.gone k hfreed
    obtain ⟨d, hd, hregistered⟩ := h.listed k hlisted
    obtain rfl : c = d := by simpa [hc] using hd
    exact hattempt hregistered
  kept := h.kept
  held k c hc hstage := by
    by_contra hfreed
    obtain ⟨d, hd, hdone, -⟩ := h.gone k hfreed
    obtain rfl : c = d := by simpa [hc] using hd
    exact hstage hdone

omit [DecidableEq AddressType] in
/-- A call, or its connection, goes on, and nothing is stored or freed. -/
theorem Invariant.setCall (h : Invariant w) (hcall : w.calls call = some c)
    (hstage : c'.stage = .done ↔ c.stage = .done)
    (hattempt : c.stage = .done → c.attempt ≠ .registered → c'.attempt ≠ .registered)
    (manager : ConnectionManager) (hnodup : manager.connections.Nodup)
    (hlisted : ∀ k ∈ manager.connections,
      k = call ∧ c'.attempt = .registered ∨ k ≠ call ∧ k ∈ w.manager.connections) :
    Invariant { w.setCall call c' with manager := manager } where
  fresh k hk := by
    have hne : k ≠ call := by
      rintro rfl
      rw [h.fresh k hk] at hcall
      cases hcall
    simpa [SessionBase.setCall, hne] using h.fresh k hk
  listed k hk := by
    rcases hlisted k hk with ⟨rfl, hregistered⟩ | ⟨hne, hold⟩
    · exact ⟨c', by simp [SessionBase.setCall], hregistered⟩
    · simpa [SessionBase.setCall, hne] using h.listed k hold
  nodup := hnodup
  keys := h.keys
  single := h.single
  iterators := h.iterators
  once := h.once
  gone k hfreed := by
    obtain ⟨d, hd, hdone, hsettled⟩ := h.gone k hfreed
    by_cases hk : k = call
    · subst hk
      obtain rfl : c = d := by simpa [hcall] using hd
      exact ⟨c', by simp [SessionBase.setCall], hstage.mpr hdone, hattempt hdone hsettled⟩
    · exact ⟨d, by simpa [SessionBase.setCall, hk] using hd, hdone, hsettled⟩
  stored e he := by
    obtain ⟨hfreed, d, hd, hdone⟩ := h.stored e he
    refine ⟨hfreed, ?_⟩
    by_cases hk : e.2 = call
    · obtain rfl : c = d := by simpa [← hk, hd] using hcall.symm
      exact ⟨c', by simp [SessionBase.setCall, hk], hstage.mpr hdone⟩
    · exact ⟨d, by simpa [SessionBase.setCall, hk] using hd, hdone⟩
  distinct := h.distinct
  kept k d hd hdone hfreed := by
    by_cases hk : k = call
    · subst hk
      obtain rfl : c' = d := by simpa [SessionBase.setCall] using hd
      exact h.kept k c hcall (hstage.mp hdone) hfreed
    · exact h.kept k d (by simpa [SessionBase.setCall, hk] using hd) hdone hfreed

omit [DecidableEq AddressType] in
/-- Another call begins, or another connection. -/
theorem Invariant.create (h : Invariant w) (hstage : c.stage ≠ .done) :
    Invariant { w.setCall w.created c with created := w.created + 1 } where
  fresh k hk := by
    have hne : k ≠ w.created := by
      dsimp only at hk
      omega
    simpa [SessionBase.setCall, hne] using h.fresh k (Nat.le_of_succ_le hk)
  listed k hk := by
    obtain ⟨d, hd, hregistered⟩ := h.listed k hk
    have hne : k ≠ w.created := by
      rintro rfl
      rw [h.fresh _ (le_refl _)] at hd
      cases hd
    exact ⟨d, by simpa [SessionBase.setCall, hne] using hd, hregistered⟩
  nodup := h.nodup
  keys := h.keys
  single := h.single
  iterators := h.iterators
  once := h.once
  gone k hfreed := by
    obtain ⟨d, hd, hdone, hsettled⟩ := h.gone k hfreed
    have hne : k ≠ w.created := by
      rintro rfl
      rw [h.fresh _ (le_refl _)] at hd
      cases hd
    exact ⟨d, by simpa [SessionBase.setCall, hne] using hd, hdone, hsettled⟩
  stored e he := by
    obtain ⟨hfreed, d, hd, hdone⟩ := h.stored e he
    have hne : e.2 ≠ w.created := by
      intro heq
      rw [heq, h.fresh _ (le_refl _)] at hd
      cases hd
    exact ⟨hfreed, d, by simpa [SessionBase.setCall, hne] using hd, hdone⟩
  distinct := h.distinct
  kept k d hd hdone hfreed := by
    by_cases hk : k = w.created
    · subst hk
      obtain rfl : c = d := by simpa [SessionBase.setCall] using hd
      exact absurd hdone hstage
    · exact h.kept k d (by simpa [SessionBase.setCall, hk] using hd) hdone hfreed

omit [DecidableEq AddressType] in
theorem mem_of_entry {j : ℕ} (h : w.entry id = some j) : (id, j) ∈ w.connectionConfigurations := by
  obtain ⟨e, he, rfl⟩ := Option.map_eq_some_iff.mp h
  have hid := List.find?_some he
  obtain rfl : e.1 = id := by simpa using hid
  exact List.mem_of_find?_eq_some he

omit [DecidableEq AddressType] in
theorem filter_of_entry (h : w.entry id = none) :
    (w.connectionConfigurations.filter fun e => e.1 ≠ id) = w.connectionConfigurations := by
  refine List.filter_eq_self.mpr fun e he => ?_
  have hnone := List.find?_eq_none.mp (Option.map_eq_none_iff.mp h) e he
  simpa using hnone

omit [DecidableEq AddressType] in
theorem Invariant.entry_unique (h : Invariant w) {e e' : ℕ × ℕ}
    (he : e ∈ w.connectionConfigurations) (he' : e' ∈ w.connectionConfigurations)
    (hid : e.1 = e'.1) : e = e' :=
  List.inj_on_of_nodup_map h.keys he he' hid

theorem passed_of_not_free {x : CloseStage} (h : x.isFree = false) (id : ℕ) :
    x.passed id = false := by
  cases x with
  | free iterator valid => cases h
  | drain ids => rfl
  | wait ids => rfl

omit [DecidableEq AddressType] in
theorem unreleased_eq (h : ∀ x ∈ w.closes, x.isFree = false) :
    w.unreleased = w.connectionConfigurations := by
  refine List.filter_eq_self.mpr fun e _ => ?_
  rw [Bool.not_eq_true', List.any_eq_false]
  intro x hx
  simp [passed_of_not_free (h x hx) e.1]

omit [DecidableEq AddressType] in
theorem Invariant.freed_eq_zero (h : Invariant w) (hcall : w.calls call = some c)
    (hstage : c.stage ≠ .done) : w.freed call = 0 :=
  h.released.held call c hcall hstage

omit [DecidableEq AddressType] in
theorem Invariant.ne_call (h : Invariant w) (hcall : w.calls call = some c)
    (hstage : c.stage ≠ .done) {e : ℕ × ℕ} (he : e ∈ w.unreleased) : e.2 ≠ call := by
  intro heq
  obtain ⟨-, d, hd, hdone⟩ := h.stored e he
  obtain rfl : c = d := by simpa [heq, hcall] using hd
  exact hstage hdone

omit [DecidableEq AddressType] in
theorem Invariant.error (h : Invariant w) (hcall : w.calls call = some c)
    (hstage : c.stage = .error) (hsettled : w.Settled call) :
    Invariant ((w.setCall call { c with stage := .done }).free call) := by
  have hactive : c.stage ≠ .done := by simp [hstage]
  have hzero := h.freed_eq_zero hcall hactive
  refine ⟨fun k hk => ?_, fun k hk => ?_, h.nodup, h.keys, h.single, h.iterators, fun k => ?_,
    fun k hk => ?_, fun e he => ?_, h.distinct, fun k d hd hdone hfreed => ?_⟩
  · have hne : k ≠ call := by
      rintro rfl
      rw [h.fresh k hk] at hcall
      cases hcall
    simpa [SessionBase.setCall, SessionBase.free, hne] using h.fresh k hk
  · obtain ⟨d, hd, hregistered⟩ := h.listed k hk
    by_cases hkcall : k = call
    · subst hkcall
      obtain rfl : c = d := by simpa [hcall] using hd
      exact ⟨{ c with stage := .done }, by simp [SessionBase.setCall, SessionBase.free], hregistered⟩
    · exact ⟨d, by simpa [SessionBase.setCall, SessionBase.free, hkcall] using hd, hregistered⟩
  · by_cases hkcall : k = call
    · subst hkcall
      simp [SessionBase.setCall, SessionBase.free, hzero]
    · simpa [SessionBase.setCall, SessionBase.free, hkcall] using h.once k
  · by_cases hkcall : k = call
    · subst hkcall
      exact ⟨{ c with stage := .done }, by simp [SessionBase.setCall, SessionBase.free], rfl,
        hsettled c hcall⟩
    · obtain ⟨d, hd, hdone⟩ := h.gone k (by
        simpa [SessionBase.setCall, SessionBase.free, hkcall] using hk)
      exact ⟨d, by simpa [SessionBase.setCall, SessionBase.free, hkcall] using hd, hdone⟩
  · have hne := h.ne_call hcall hactive he
    obtain ⟨hfreed, d, hd, hdone⟩ := h.stored e he
    exact ⟨by simpa [SessionBase.setCall, SessionBase.free, hne] using hfreed, d,
      by simpa [SessionBase.setCall, SessionBase.free, hne] using hd, hdone⟩
  · have hne : k ≠ call := by
      rintro rfl
      simp [SessionBase.setCall, SessionBase.free] at hfreed
    exact h.kept k d (by simpa [SessionBase.setCall, SessionBase.free, hne] using hd) hdone
      (by simpa [SessionBase.setCall, SessionBase.free, hne] using hfreed)

omit [DecidableEq AddressType] in
/-- A call stores its configurations, and those in their place are freed. -/
theorem Invariant.replace (h : Invariant w) (hcall : w.calls call = some c)
    (hactive : c.stage ≠ .done) (hclosed : ∀ x ∈ w.closes, x.isFree = false)
    (hsettled : ∀ j ∈ w.entry id, w.Settled j) (hcreated : w'.created = w.created)
    (hmanager : w'.manager = w.manager)
    (hcalls : w'.calls = Function.update w.calls call (some { c with stage := .done }))
    (hstored : w'.connectionConfigurations =
      (w.connectionConfigurations.filter fun e => e.1 ≠ id) ++ [(id, call)])
    (hcloses : ∀ x ∈ w'.closes, x.isFree = false)
    (hfreed : ∀ k, w'.freed k = w.freed k + if w.entry id = some k then 1 else 0) :
    Invariant w' := by
  have hold := unreleased_eq hclosed
  have hnew := unreleased_eq hcloses
  have hne : ∀ e ∈ w.connectionConfigurations, e.2 ≠ call := fun e he =>
    h.ne_call hcall hactive (hold.symm ▸ he)
  have hzero := h.freed_eq_zero hcall hactive
  have hentry : ∀ j, w.entry id = some j → w.freed j = 0 ∧
      ∃ d, w.calls j = some d ∧ d.stage = .done := fun j hj =>
    h.stored (id, j) (hold.symm ▸ mem_of_entry hj)
  have hncall : w.entry id ≠ some call := fun hj => hne _ (mem_of_entry hj) rfl
  have hself : w'.calls call = some { c with stage := .done } := by simp [hcalls]
  have hother : ∀ k, k ≠ call → w'.calls k = w.calls k := fun k hk => by simp [hcalls, hk]
  refine ⟨fun k hk => ?_, fun k hk => ?_, hmanager ▸ h.nodup, ?_, ?_, fun i valid hi => ?_,
    fun k => ?_, fun k hk => ?_, fun e he => ?_, ?_, fun k d hd hdone hkfreed => ?_⟩
  · have hkcall : k ≠ call := by
      rintro rfl
      rw [h.fresh k (hcreated ▸ hk)] at hcall
      cases hcall
    rw [hother k hkcall]
    exact h.fresh k (hcreated ▸ hk)
  · obtain ⟨d, hd, hregistered⟩ := h.listed k (hmanager ▸ hk)
    by_cases hkcall : k = call
    · subst hkcall
      obtain rfl : c = d := by simpa [hcall] using hd
      exact ⟨_, hself, hregistered⟩
    · exact ⟨d, hother k hkcall ▸ hd, hregistered⟩
  · rw [hstored, List.map_append, List.nodup_append]
    refine ⟨h.keys.sublist (List.filter_sublist.map _), List.nodup_singleton _, ?_⟩
    rintro i hi i' hi' rfl
    obtain ⟨e, he, rfl⟩ := List.mem_map.mp hi
    exact of_decide_eq_true (List.mem_filter.mp he).2 (List.mem_singleton.mp hi')
  · rw [List.countP_eq_zero.mpr fun x hx => by simp [hcloses x hx]]
    exact Nat.zero_le _
  · have hfree := hcloses _ hi
    cases hfree
  · rw [hfreed k]
    split
    · next hk => rw [(hentry k hk).1]
    · exact h.once k
  · rw [hfreed k] at hk
    by_cases hkentry : w.entry id = some k
    · obtain ⟨-, d, hd, hdone⟩ := hentry k hkentry
      have hkcall : k ≠ call := by
        rintro rfl
        exact hncall hkentry
      exact ⟨d, hother k hkcall ▸ hd, hdone, hsettled k hkentry d hd⟩
    · obtain ⟨d, hd, hdone, hattempt⟩ := h.gone k (by simpa [hkentry] using hk)
      have hkcall : k ≠ call := by
        rintro rfl
        obtain rfl : c = d := by simpa [hcall] using hd
        exact hactive hdone
      exact ⟨d, hother k hkcall ▸ hd, hdone, hattempt⟩
  · rw [hnew, hstored] at he
    rw [hfreed e.2]
    rcases List.mem_append.mp he with hmem | hlast
    · obtain ⟨hin, hid⟩ := List.mem_filter.mp hmem
      obtain ⟨hzero', d, hd, hdone⟩ := h.stored e (hold.symm ▸ hin)
      have hnentry : w.entry id ≠ some e.2 := by
        intro hj
        have hdistinct := h.distinct
        rw [hold] at hdistinct
        have hsame := List.inj_on_of_nodup_map hdistinct hin (mem_of_entry hj) rfl
        exact of_decide_eq_true hid (congrArg Prod.fst hsame)
      exact ⟨by simp [hzero', hnentry], d, hother e.2 (hne e hin) ▸ hd, hdone⟩
    · obtain rfl := List.mem_singleton.mp hlast
      exact ⟨by simp [hzero, hncall], _, hself, rfl⟩
  · rw [hnew, hstored, List.map_append, List.nodup_append]
    have hdistinct := h.distinct
    rw [hold] at hdistinct
    refine ⟨hdistinct.sublist (List.filter_sublist.map _), List.nodup_singleton _, ?_⟩
    rintro k hk k' hk' rfl
    obtain ⟨e, he, rfl⟩ := List.mem_map.mp hk
    exact hne e (List.mem_filter.mp he).1 (by simpa using hk')
  · rw [hnew, hstored]
    rw [hfreed k] at hkfreed
    by_cases hkcall : k = call
    · subst hkcall
      simp
    · have hkept := h.kept k d (hother k hkcall ▸ hd) hdone (by omega)
      rw [hold] at hkept
      obtain ⟨e, he, rfl⟩ := List.mem_map.mp hkept
      refine List.mem_map.mpr ⟨e, List.mem_append_left _ (List.mem_filter.mpr ⟨he, ?_⟩), rfl⟩
      by_contra hid
      -- the entry under this id has been freed
      have hentry' : w.entry id = some e.2 := by
        obtain rfl : e.1 = id := by simpa using hid
        cases hfound : w.entry e.1 with
        | none =>
          have := filter_of_entry hfound
          rw [List.filter_eq_self] at this
          simpa using this e he
        | some j => rw [h.entry_unique he (mem_of_entry hfound) rfl]
      rw [if_pos hentry'] at hkfreed
      omega

omit [DecidableEq AddressType] in
theorem Invariant.store (h : Invariant w) (hcall : w.calls call = some c)
    (hactive : c.stage ≠ .done) (hclosed : ∀ x ∈ w.closes, x.isFree = false)
    (hsettled : ∀ j ∈ w.entry id, w.Settled j) : Invariant (w.store call id c) := by
  have hentry : (w.setCall call { c with stage := .done }).entry id = w.entry id := rfl
  unfold SessionBase.store
  dsimp only
  rw [hentry]
  cases hfound : w.entry id with
  | none =>
    refine h.replace hcall hactive hclosed hsettled rfl rfl rfl ?_ hclosed fun k => ?_
    · rw [filter_of_entry hfound]
      rfl
    · simp [hfound, SessionBase.setCall]
  | some j =>
    refine h.replace hcall hactive hclosed hsettled rfl rfl rfl rfl (fun x hx => ?_) fun k => ?_
    · obtain ⟨y, hy, rfl⟩ := List.mem_map.mp hx
      have hnot := hclosed y hy
      cases y with
      | free iterator valid => cases hnot
      | drain ids => rfl
      | wait ids => rfl
    · by_cases hk : k = j
      · subst hk
        simp [hfound, SessionBase.setCall, SessionBase.free]
      · simp [hfound, hk, Ne.symm hk, SessionBase.setCall, SessionBase.free]

omit [DecidableEq AddressType] in
theorem Invariant.withCloses (h : Invariant w) {closes : List CloseStage}
    (hpassed : ∀ e ∈ w.connectionConfigurations,
      closes.any (CloseStage.passed e.1) = w.closes.any (CloseStage.passed e.1))
    (hsingle : closes.countP CloseStage.isFree ≤ 1)
    (hiterators : ∀ id valid, .free (some id) valid ∈ closes →
      valid = true ∧ id ∈ w.connectionConfigurations.map Prod.fst) :
    Invariant { w with closes := closes } := by
  have hsame : SessionBase.unreleased { w with closes := closes } = w.unreleased :=
    List.filter_congr fun e he => congrArg Bool.not (hpassed e he)
  exact ⟨h.fresh, h.listed, h.nodup, h.keys, hsingle, hiterators, h.once, h.gone,
    fun e he => h.stored e (hsame ▸ he), hsame.symm ▸ h.distinct,
    fun k d hd hdone hfreed => hsame.symm ▸ h.kept k d hd hdone hfreed⟩

omit [DecidableEq AddressType] in
theorem passed_first {isAfter : ℕ → Bool} (hmono : ∀ i j, i ≤ j → isAfter i → isAfter j) {e : ℕ × ℕ}
    (he : e ∈ w.connectionConfigurations) (valid : Bool) :
    (CloseStage.free (w.first isAfter) valid).passed e.1 = !isAfter e.1 := by
  have hkey : e.1 ∈ w.connectionConfigurations.map Prod.fst := List.mem_map_of_mem he
  cases hfirst : w.first isAfter with
  | none =>
    have hnone := List.min?_eq_none_iff.mp hfirst
    have hbefore : isAfter e.1 = false := by
      by_contra hafter
      have hmem : e.1 ∈ (w.connectionConfigurations.map Prod.fst).filter isAfter :=
        List.mem_filter.mpr ⟨hkey, by simpa using hafter⟩
      rw [hnone] at hmem
      exact List.not_mem_nil hmem
    rw [hbefore]
    rfl
  | some first =>
    obtain ⟨hmem, hmin⟩ := List.min?_eq_some_iff.mp hfirst
    have hfirstafter := (List.mem_filter.mp hmem).2
    simp only [CloseStage.passed]
    by_cases hafter : isAfter e.1 = true
    · have hle := hmin e.1 (List.mem_filter.mpr ⟨hkey, hafter⟩)
      simpa [hafter] using hle
    · have hlt : e.1 < first := by
        by_contra hge
        exact hafter (hmono first e.1 (not_lt.mp hge) hfirstafter)
      simp [hlt, hafter]

omit [DecidableEq AddressType] in
theorem first_mem {isAfter : ℕ → Bool} {first : ℕ} (h : w.first isAfter = some first) :
    first ∈ w.connectionConfigurations.map Prod.fst :=
  (List.mem_filter.mp (List.min?_mem h)).1

omit [DecidableEq AddressType] in
theorem Invariant.setWaiting (h : Invariant w) {close : ℕ} {x y : CloseStage}
    (hclose : w.closes[close]? = some x) (hx : x.isFree = false) (hy : y.isFree = false) :
    Invariant { w with closes := w.closes.set close y } := by
  refine h.withCloses (fun e _ => ?_) ?_ fun id valid hin => ?_
  · obtain ⟨front, back, hcloses, hset, -⟩ := exists_around hclose
    rw [hset, hcloses]
    simp [passed_of_not_free hx, passed_of_not_free hy]
  · have hcount := countP_set (p := CloseStage.isFree) hclose y
    rw [hx, hy] at hcount
    have := h.single
    omega
  · rcases List.mem_or_eq_of_mem_set hin with hold | rfl
    · exact h.iterators id valid hold
    · cases hy

omit [DecidableEq AddressType] in
theorem Invariant.beginFree (h : Invariant w) {close : ℕ} {x : CloseStage}
    (hclose : w.closes[close]? = some x) (hclosed : ∀ x ∈ w.closes, x.isFree = false) :
    Invariant { w with closes := w.closes.set close (.free (w.first fun _ => true) true) } := by
  refine h.withCloses (fun e he => ?_) ?_ fun id valid hin => ?_
  · have hnone : w.closes.any (CloseStage.passed e.1) = false := by
      rw [List.any_eq_false]
      intro z hz
      simp [passed_of_not_free (hclosed z hz)]
    obtain ⟨front, back, hcloses, hset, -⟩ := exists_around hclose
    rw [hnone, hset]
    rw [hcloses] at hnone
    simp only [List.any_append, List.any_cons, Bool.or_eq_false_iff] at hnone ⊢
    exact ⟨hnone.1, passed_first (fun _ _ _ _ => rfl) he true, hnone.2.2⟩
  · have hcount := countP_set (p := CloseStage.isFree) hclose (.free (w.first fun _ => true) true)
    have hzero : w.closes.countP CloseStage.isFree = 0 :=
      List.countP_eq_zero.mpr fun z hz => by simp [hclosed z hz]
    rw [hzero, hclosed x (List.mem_of_getElem? hclose)] at hcount
    simp only [CloseStage.isFree, Bool.toNat_false, Bool.toNat_true] at hcount
    omega
  · rcases List.mem_or_eq_of_mem_set hin with hold | hnew
    · have hfree := hclosed _ hold
      cases hfree
    · simp only [CloseStage.free.injEq] at hnew
      exact ⟨hnew.2, first_mem hnew.1.symm⟩

omit [DecidableEq AddressType] in
theorem Invariant.only (h : Invariant w) {x : CloseStage} {front back : List CloseStage}
    (hcloses : w.closes = front ++ x :: back) (hx : x.isFree = true) :
    ∀ z ∈ front ++ back, z.isFree = false := by
  have hsingle := h.single
  rw [hcloses, List.countP_append, List.countP_cons, hx] at hsingle
  have hzero : (front ++ back).countP CloseStage.isFree = 0 := by
    rw [List.countP_append]
    simp only [if_true] at hsingle
    omega
  intro z hz
  simpa using List.countP_eq_zero.mp hzero z hz

omit [DecidableEq AddressType] in
theorem Invariant.clear (h : Invariant w) {close : ℕ} {valid : Bool}
    (hclose : w.closes[close]? = some (.free none valid)) :
    Invariant { w with
      connectionConfigurations := []
      closes := (w.closes.eraseIdx close).map CloseStage.clear } := by
  obtain ⟨front, back, hcloses, -, herase⟩ := exists_around hclose
  have hother := h.only hcloses rfl
  have hempty : w.unreleased = [] := by
    refine List.filter_eq_nil_iff.mpr fun e _ => ?_
    simp [hcloses, CloseStage.passed]
  have hclear : ∀ x ∈ (w.closes.eraseIdx close).map CloseStage.clear, x.isFree = false := by
    intro x hx
    obtain ⟨z, hz, rfl⟩ := List.mem_map.mp hx
    have hnot := hother z (herase ▸ hz)
    cases z with
    | free iterator valid => cases hnot
    | drain ids => rfl
    | wait ids => rfl
  refine ⟨h.fresh, h.listed, h.nodup, List.nodup_nil, ?_, fun id valid hin => ?_, h.once, h.gone,
    by simp [unreleased], by simp [unreleased], fun k c hc hdone hfreed => ?_⟩
  · rw [List.countP_eq_zero.mpr fun x hx => by simp [hclear x hx]]
    exact Nat.zero_le _
  · have hfree := hclear _ hin
    cases hfree
  · have hkept := h.kept k c hc hdone hfreed
    rw [hempty] at hkept
    exact absurd hkept List.not_mem_nil

omit [DecidableEq AddressType] in
/-- `close` frees the configurations of the entry of its iterator. -/
theorem Invariant.release (h : Invariant w) {close j : ℕ}
    (hclose : w.closes[close]? = some (.free (some id) true)) (hentry : w.entry id = some j)
    (hsettled : w.Settled j) :
    Invariant { w.free j with
      closes := w.closes.set close (.free (w.first fun key => id < key) true) } := by
  obtain ⟨front, back, hcloses, hset, -⟩ := exists_around hclose
  have hother := h.only hcloses rfl
  have hmem := mem_of_entry hentry
  have hnone : ∀ key, (front ++ back).any (CloseStage.passed key) = false := fun key => by
    rw [List.any_eq_false]
    intro z hz
    simp [passed_of_not_free (hother z hz)]
  have hbefore : w.unreleased = w.connectionConfigurations.filter fun e => decide (id ≤ e.1) := by
    refine List.filter_congr fun e _ => ?_
    have := hnone e.1
    simp only [List.any_append, Bool.or_eq_false_iff] at this
    simp only [hcloses, List.any_append, List.any_cons, CloseStage.passed, this.1, this.2,
      Bool.false_or, Bool.or_false, ← decide_not, not_lt]
  have hafter : unreleased { w.free j with
      closes := w.closes.set close (.free (w.first fun key => id < key) true) } =
      w.connectionConfigurations.filter fun e => decide (id < e.1) := by
    refine List.filter_congr fun e (he : e ∈ w.connectionConfigurations) => ?_
    dsimp only
    rw [hset]
    have := hnone e.1
    simp only [List.any_append, Bool.or_eq_false_iff] at this
    have hmono : ∀ i j, i ≤ j → decide (id < i) = true → decide (id < j) = true := by
      intro i j hij hi
      simp at hi ⊢
      omega
    have hpassed := passed_first hmono he true
    rw [List.any_append, List.any_cons, this.1, this.2, hpassed]
    simp
  have hj := h.stored (id, j) (hbefore ▸ List.mem_filter.mpr ⟨hmem, by simp⟩)
  have hdistinct := h.distinct
  rw [hbefore] at hdistinct
  -- what is left after this entry was left before it
  have hleft : ∀ e ∈ w.connectionConfigurations, id < e.1 → e ∈ w.unreleased ∧ e.2 ≠ j := by
    intro e he hlt
    have hin : e ∈ w.connectionConfigurations.filter fun e => decide (id ≤ e.1) :=
      List.mem_filter.mpr ⟨he, by simpa using hlt.le⟩
    refine ⟨hbefore ▸ hin, fun hej => ?_⟩
    have hsame := List.inj_on_of_nodup_map hdistinct hin
      (List.mem_filter.mpr ⟨hmem, by simp⟩) hej
    exact absurd (congrArg Prod.fst hsame) (by simpa using hlt.ne')
  refine ⟨h.fresh, h.listed, h.nodup, h.keys, ?_, fun i valid hin => ?_, fun k => ?_, fun k hk => ?_,
    fun e he => ?_, ?_, fun k c hc hdone hfreed => ?_⟩
  · have hcount := countP_set (p := CloseStage.isFree) hclose
      (.free (w.first fun key => id < key) true)
    have := h.single
    simp only [CloseStage.isFree, Bool.toNat_true] at hcount
    dsimp only
    omega
  · rcases List.mem_or_eq_of_mem_set hin with hold | hnew
    · exact h.iterators i valid hold
    · simp only [CloseStage.free.injEq] at hnew
      exact ⟨hnew.2, first_mem hnew.1.symm⟩
  · by_cases hk : k = j
    · subst hk
      simp [SessionBase.free, hj.1]
    · simpa [SessionBase.free, hk] using h.once k
  · by_cases hkj : k = j
    · subst hkj
      obtain ⟨-, c, hc, hdone⟩ := hj
      exact ⟨c, hc, hdone, hsettled c hc⟩
    · exact h.gone k (by simpa [SessionBase.free, hkj] using hk)
  · rw [hafter] at he
    obtain ⟨hin, hlt⟩ := List.mem_filter.mp he
    obtain ⟨hunreleased, hej⟩ := hleft e hin (by simpa using hlt)
    simpa [SessionBase.free, hej] using h.stored e hunreleased
  · rw [hafter]
    refine hdistinct.sublist (List.Sublist.map _ (List.monotone_filter_right _ fun e hlt => ?_))
    simp at hlt ⊢
    omega
  · have hkj : k ≠ j := by
      rintro rfl
      simp [SessionBase.free] at hfreed
    have hkept := h.kept k c hc hdone (by simpa [SessionBase.free, hkj] using hfreed)
    rw [hbefore] at hkept
    obtain ⟨e, he, rfl⟩ := List.mem_map.mp hkept
    obtain ⟨hin, hle⟩ := List.mem_filter.mp he
    rw [hafter]
    refine List.mem_map.mpr ⟨e, List.mem_filter.mpr ⟨hin, ?_⟩, rfl⟩
    have hne : id ≠ e.1 := fun heq => hkj (congrArg Prod.snd (h.entry_unique hin hmem heq.symm))
    simp at hle ⊢
    omega

omit [DecidableEq AddressType] in
theorem Invariant.closing (h : Invariant w) {close : ℕ}
    (hsafe : w.Safe (.closing close)) (hstep : w.closing close = .ok w') : Invariant w' := by
  unfold SessionBase.closing at hstep
  unfold Safe at hsafe
  cases hclose : w.closes[close]? with
  | none => simp [hclose] at hstep
  | some x =>
    rcases x with ids | (_ | ⟨id, ids⟩) | ⟨_ | id, valid⟩
    · simp only [hclose] at hstep
      by_cases hempty : w.connections = []
      · rw [if_pos hempty] at hstep
        cases hstep
        exact h.setWaiting hclose rfl rfl
      · rw [if_neg hempty] at hstep
        cases hstep
    · simp only [hclose] at hstep hsafe
      cases hstep
      exact h.beginFree hclose hsafe
    · simp only [hclose] at hstep
      split at hstep
      · cases hstep
      · cases hstep
        exact h.setWaiting hclose rfl rfl
    · simp only [hclose] at hstep
      cases hstep
      exact h.clear hclose
    · simp only [hclose] at hstep hsafe
      cases valid with
      | false => cases hstep
      | true =>
        cases hentry : w.entry id with
        | none =>
          simp only [hentry] at hstep
          cases hstep
        | some j =>
          simp only [hentry] at hstep
          cases hstep
          exact h.release hclose hentry (hsafe j hentry)

omit [DecidableEq AddressType] in
theorem withCall_ok {isPossible : SessionConnect AddressType → Bool}
    {f : SessionConnect AddressType → SessionBase AddressType}
    (h : w.withCall call isPossible f = .ok w') :
    ∃ c, w.calls call = some c ∧ isPossible c = true ∧ w' = f c := by
  unfold withCall at h
  cases hcall : w.calls call with
  | none => simp [hcall] at h
  | some c =>
    by_cases hpossible : isPossible c = true
    · simp only [hcall, if_pos hpossible, Except.ok.injEq] at h
      exact ⟨c, rfl, hpossible, h.symm⟩
    · simp [hcall, hpossible] at h

omit [DecidableEq AddressType] in
/-- A call goes on to another stage, and the manager knows what it has known. -/
theorem Invariant.setStage (h : Invariant w) (hcall : w.calls call = some c)
    (hactive : c.stage ≠ .done) {stage : ConnectStage} (hstage : stage ≠ .done) :
    Invariant (w.setCall call { c with stage := stage }) := by
  refine h.setCall hcall (by simp [hactive, hstage]) (fun hdone => absurd hdone hactive)
    w.manager h.nodup fun k hk => ?_
  by_cases hkcall : k = call
  · subst hkcall
    obtain ⟨d, hd, hregistered⟩ := h.listed k hk
    obtain rfl : c = d := by simpa [hcall] using hd
    exact Or.inl ⟨rfl, hregistered⟩
  · exact Or.inr ⟨hkcall, hk⟩

omit [DecidableEq AddressType] in
theorem Invariant.setAttempt (h : Invariant w) (hcall : w.calls call = some c)
    (hattempt : c.attempt ≠ .registered) (hstage : c'.stage = .done ↔ c.stage = .done)
    (hsettled : c.stage = .done → c'.attempt ≠ .registered) : Invariant (w.setCall call c') := by
  refine h.setCall hcall hstage (fun hdone _ => hsettled hdone) w.manager h.nodup fun k hk => ?_
  refine Or.inr ⟨?_, hk⟩
  rintro rfl
  obtain ⟨d, hd, hregistered⟩ := h.listed k hk
  obtain rfl : c = d := by simpa [hcall] using hd
  exact hattempt hregistered

omit [DecidableEq AddressType] in
theorem Invariant.register_ (h : Invariant w) (hcall : w.calls call = some c)
    (hattempt : c.attempt = .outstanding) (hactive : c.stage ≠ .done) :
    Invariant (w.register_ call c) := by
  unfold SessionBase.register_
  cases hmanager : w.manager.register_ call with
  | none =>
    exact h.setAttempt hcall (by simp [hattempt]) Iff.rfl fun hdone => absurd hdone hactive
  | some manager =>
    have hconnections := ConnectionManager.register_eq_some hmanager
    have hnot : call ∉ w.manager.connections := by
      intro hin
      obtain ⟨d, hd, hregistered⟩ := h.listed call hin
      obtain rfl : c = d := by simpa [hcall] using hd
      simp [hattempt] at hregistered
    refine h.setCall hcall (by rfl) (fun hdone _ => absurd hdone hactive) manager ?_ fun k hk => ?_
    · rw [hconnections, List.nodup_append]
      refine ⟨h.nodup, List.nodup_singleton _, ?_⟩
      rintro k hk k' hk' rfl
      obtain rfl := List.mem_singleton.mp hk'
      exact hnot hk
    · rw [hconnections] at hk
      rcases List.mem_append.mp hk with hold | hnew
      · exact Or.inr ⟨fun heq => hnot (heq ▸ hold), hold⟩
      · exact Or.inl ⟨List.mem_singleton.mp hnew, rfl⟩

omit [DecidableEq AddressType] in
theorem Invariant.deregister (h : Invariant w) (hcall : w.calls call = some c) :
    Invariant { w.setCall call { c with attempt := .gone } with
      manager := w.manager.deregister call } := by
  refine h.setCall hcall (by rfl) (fun _ _ => by simp) (w.manager.deregister call)
    (h.nodup.erase call) fun k hk => ?_
  obtain ⟨hne, hin⟩ := (h.nodup.mem_erase_iff).mp hk
  exact Or.inr ⟨hne, hin⟩

theorem Invariant.findConnection (h : Invariant w) {deadline : Bool} (hcall : w.calls call = some c)
    (hstage : c.stage = .find) : Invariant (w.findConnection useReactor call deadline c) := by
  have hactive : c.stage ≠ .done := by simp [hstage]
  unfold SessionBase.findConnection
  cases w.find useReactor c with
  | some found => exact h.setStage hcall hactive nofun
  | none =>
    dsimp only
    split
    · exact h.setStage hcall hactive nofun
    · exact h

omit [DecidableEq AddressType] in
theorem Invariant.get (h : Invariant w) (hcall : w.calls call = some c) (hstage : c.stage = .get) :
    Invariant (w.get call c) := by
  have hactive : c.stage ≠ .done := by simp [hstage]
  unfold SessionBase.get
  cases c.handle.bind fun handle => (w.manager.get w.id handle).bind w.id with
  | none => exact h.setStage hcall hactive nofun
  | some id => exact h.setStage hcall hactive nofun

omit [DecidableEq AddressType] in
theorem Invariant.withConnections (h : Invariant w) (connections : List ℕ) :
    Invariant { w with connections := connections } :=
  ⟨h.fresh, h.listed, h.nodup, h.keys, h.single, h.iterators, h.once, h.gone, h.stored, h.distinct,
    h.kept⟩

theorem Invariant.step {event : SessionEvent AddressType} (h : Invariant w)
    (hsafe : w.Safe event) (hstep : w.step useReactor event = .ok w') : Invariant w' := by
  cases event with
  | connect address =>
    cases hstep
    exact h.create nofun
  | other handle address =>
    cases hstep
    exact h.create nofun
  | begin_ call handle =>
    obtain ⟨c, hcall, hpossible, rfl⟩ := withCall_ok hstep
    simp only [decide_eq_true_eq] at hpossible
    have hactive : c.stage ≠ .done := by simp [hpossible.1]
    exact h.setAttempt hcall (by simp [hpossible.2]) Iff.rfl fun hdone => absurd hdone hactive
  | giveUp call =>
    obtain ⟨c, hcall, hpossible, rfl⟩ := withCall_ok hstep
    simp only [decide_eq_true_eq] at hpossible
    exact h.setAttempt hcall (by simp [hpossible]) Iff.rfl fun _ => by simp
  | register_ call =>
    obtain ⟨c, hcall, hpossible, rfl⟩ := withCall_ok hstep
    exact h.register_ hcall (by simpa using hpossible) (hsafe c hcall)
  | deregister call =>
    obtain ⟨c, hcall, hpossible, rfl⟩ := withCall_ok hstep
    exact h.deregister hcall
  | connected call valid =>
    obtain ⟨c, hcall, hpossible, rfl⟩ := withCall_ok hstep
    simp only [decide_eq_true_eq] at hpossible
    have hactive : c.stage ≠ .done := by simp [hpossible.1]
    exact h.setStage hcall hactive (by cases valid <;> simp)
  | find call deadline =>
    obtain ⟨c, hcall, hpossible, rfl⟩ := withCall_ok hstep
    exact h.findConnection useReactor hcall (by simpa using hpossible)
  | status call ok =>
    obtain ⟨c, hcall, hpossible, rfl⟩ := withCall_ok hstep
    have hactive : c.stage ≠ .done := by simp [of_decide_eq_true hpossible]
    exact h.setStage hcall hactive (by cases ok <;> simp)
  | get call =>
    obtain ⟨c, hcall, hpossible, rfl⟩ := withCall_ok hstep
    exact h.get hcall (by simpa using hpossible)
  | store call =>
    cases hcall : w.calls call with
    | none => simp [SessionBase.step, hcall] at hstep
    | some c =>
      cases hstage : c.stage with
      | store id =>
        simp only [SessionBase.step, hcall, Option.map_some, hstage] at hstep
        obtain ⟨d, hd, -, rfl⟩ := withCall_ok hstep
        obtain rfl : c = d := by simpa [hcall] using hd
        exact h.store hcall (by simp [hstage]) hsafe.1
          (hsafe.2 c hcall id (by simp [SessionConnect.storing, hstage]))
      | _ => simp [SessionBase.step, hcall, hstage] at hstep
  | error call =>
    obtain ⟨c, hcall, hpossible, rfl⟩ := withCall_ok hstep
    exact h.error hcall (by simpa using hpossible) hsafe
  | join id =>
    simp only [SessionBase.step] at hstep
    split at hstep
    · cases hstep
    · cases hstep
      exact h.withConnections _
  | leave id =>
    simp only [SessionBase.step] at hstep
    split at hstep
    · cases hstep
      exact h.withConnections _
    · cases hstep
  | close waitForCompletion =>
    cases waitForCompletion with
    | false =>
      cases hstep
      exact h
    | true =>
      cases hstep
      refine h.withCloses (fun e _ => ?_) ?_ fun id valid hin => ?_
      · simp [CloseStage.passed]
      · simpa [List.countP_append, CloseStage.isFree] using h.single
      · rcases List.mem_append.mp hin with hold | hnew
        · exact h.iterators id valid hold
        · cases List.mem_singleton.mp hnew
  | closing close => exact h.closing hsafe hstep

end Invariant

section Tracking

variable {w w' : SessionBase AddressType} {call id : ℕ} {c c' : SessionConnect AddressType}

omit [DecidableEq AddressType] in
theorem Tracked.initial (manager : ConnectionManager) :
    Tracked (initial manager : SessionBase AddressType) where
  registered _ _ hc := by cases hc
  numbered _ _ hc := by cases hc
  unique _ _ hc := by cases hc
  failed _ _ hc := by cases hc
  storing _ _ hc := by cases hc
  stored := by simp [SessionBase.initial]
  awaited := by simp [SessionBase.initial]

omit [DecidableEq AddressType] in
/-- A call begins or goes on, or its connection does, and the map stays as it is. -/
theorem Tracked.update (h : Tracked w)
    (hcalls : w'.calls = Function.update w.calls call (some c'))
    (hmap : w'.connectionConfigurations = w.connectionConfigurations)
    (hcloses : w'.closes = w.closes)
    (hlisted : ∀ k ∈ w.manager.connections, k ≠ call → k ∈ w'.manager.connections)
    (hregistered : c'.attempt = .registered → call ∈ w'.manager.connections)
    (hnumbered : c'.attempt.isLive = true → c'.handle.isSome = true)
    (hunique : c'.attempt.isLive = true → ∀ k c, k ≠ call → w.calls k = some c →
      c.attempt.isLive = true → c.handle ≠ c'.handle)
    (hfailed : c'.stage = .error → c'.attempt ≠ .registered)
    (hstoring : ∀ id ∈ c'.storing, c'.handle = some id)
    (hdone : ∀ c, w.calls call = some c → c.stage = .done → c'.stage = .done ∧
      c'.handle = c.handle ∧ (c.attempt ≠ .registered → c'.attempt ≠ .registered)) :
    Tracked w' := by
  have hself : w'.calls call = some c' := by simp [hcalls]
  have hother : ∀ k, k ≠ call → w'.calls k = w.calls k := fun k hk => by simp [hcalls, hk]
  -- a call is this one, as it is now, or another, as it was
  have hcases : ∀ k d, w'.calls k = some d → k = call ∧ d = c' ∨ k ≠ call ∧ w.calls k = some d := by
    intro k d hd
    by_cases hk : k = call
    · subst hk
      exact Or.inl ⟨rfl, Option.some.inj (hd.symm.trans hself)⟩
    · exact Or.inr ⟨hk, hother k hk ▸ hd⟩
  refine ⟨fun k d hd hattempt => ?_, fun k d hd hlive => ?_,
    fun k d hd hlive k' d' hd' hlive' heq => ?_, fun k d hd hstage => ?_, fun k d hd i hi => ?_,
    fun e he => ?_, fun x hx e he => ?_⟩
  · rcases hcases k d hd with ⟨rfl, rfl⟩ | ⟨hk, hold⟩
    · exact hregistered hattempt
    · exact hlisted k (h.registered k d hold hattempt) hk
  · rcases hcases k d hd with ⟨rfl, rfl⟩ | ⟨-, hold⟩
    · exact hnumbered hlive
    · exact h.numbered k d hold hlive
  · rcases hcases k d hd with ⟨rfl, rfl⟩ | ⟨hk, hold⟩
    · rcases hcases k' d' hd' with ⟨rfl, rfl⟩ | ⟨hk', hold'⟩
      · rfl
      · exact absurd heq (hunique hlive k' d' hk' hold' hlive')
    · rcases hcases k' d' hd' with ⟨rfl, rfl⟩ | ⟨-, hold'⟩
      · exact absurd heq.symm (hunique hlive' k d hk hold hlive)
      · exact h.unique k d hold hlive k' d' hold' hlive' heq
  · rcases hcases k d hd with ⟨rfl, rfl⟩ | ⟨-, hold⟩
    · exact hfailed hstage
    · exact h.failed k d hold hstage
  · rcases hcases k d hd with ⟨rfl, rfl⟩ | ⟨-, hold⟩
    · exact hstoring i hi
    · exact h.storing k d hold i hi
  · obtain ⟨d, hd, hhandle, hstage⟩ := h.stored e (hmap ▸ he)
    by_cases hk : e.2 = call
    · obtain ⟨hstage', hhandle', -⟩ := hdone d (hk ▸ hd) hstage
      exact ⟨c', hk ▸ hself, hhandle'.trans hhandle, hstage'⟩
    · exact ⟨d, hother _ hk ▸ hd, hhandle, hstage⟩
  · refine (h.awaited x (hcloses ▸ hx) e (hmap ▸ he)).imp_right fun hsettled => ?_
    obtain ⟨d, hd, -, hstage⟩ := h.stored e (hmap ▸ he)
    intro d' hd'
    rcases hcases e.2 d' hd' with ⟨hk, rfl⟩ | ⟨-, hold⟩
    · exact (hdone d (hk ▸ hd) hstage).2.2 (hsettled d hd)
    · exact hsettled d' hold

omit [DecidableEq AddressType] in
theorem Tracked.setStage (h : Tracked w) (hcall : w.calls call = some c)
    (hactive : c.stage ≠ .done) {stage : ConnectStage}
    (hfailed : stage = .error → c.attempt ≠ .registered)
    (hstoring : ∀ id, stage = .store id → c.handle = some id) :
    Tracked (w.setCall call { c with stage := stage }) := by
  refine h.update rfl rfl rfl (fun k hk _ => hk) (h.registered call c hcall)
    (h.numbered call c hcall) (fun hlive k d hk hd hlive' heq =>
      hk (h.unique call c hcall hlive k d hd hlive' heq)) hfailed ?_
    (fun d hd hstage => ?_)
  · intro i hi
    cases hstage : stage with
    | store id =>
      obtain rfl : id = i := Option.some.inj (by simpa [SessionConnect.storing, hstage] using hi)
      exact hstoring id hstage
    | _ => simp [SessionConnect.storing, hstage] at hi
  · obtain rfl : c = d := by simpa [hcall] using hd
    exact absurd hstage hactive

omit [DecidableEq AddressType] in
theorem Tracked.setGone (h : Tracked w) (hcall : w.calls call = some c)
    (manager : ConnectionManager)
    (hlisted : ∀ k ∈ w.manager.connections, k ≠ call → k ∈ manager.connections) :
    Tracked { w.setCall call { c with attempt := .gone } with manager := manager } := by
  refine h.update rfl rfl rfl hlisted nofun nofun nofun (fun _ => nofun) (h.storing call c hcall)
    (fun d hd hstage => ?_)
  obtain rfl : c = d := by simpa [hcall] using hd
  exact ⟨hstage, rfl, fun _ => nofun⟩

omit [DecidableEq AddressType] in
theorem Tracked.register_ (h : Tracked w) (hcall : w.calls call = some c)
    (hattempt : c.attempt = .outstanding) (hstage : c.stage ≠ .error ∧ c.stage ≠ .done) :
    Tracked (w.register_ call c) := by
  have hlive : c.attempt.isLive = true := by rw [hattempt]; rfl
  unfold SessionBase.register_
  cases hmanager : w.manager.register_ call with
  | none => exact h.setGone hcall w.manager fun k hk _ => hk
  | some manager =>
    have hconnections := ConnectionManager.register_eq_some hmanager
    refine h.update rfl rfl rfl (fun k hk _ => ?_) (fun _ => ?_)
      (fun _ => h.numbered call c hcall hlive) (fun _ k d hk hd hlive' heq =>
        hk (h.unique call c hcall hlive k d hd hlive' heq)) (fun herror => absurd herror hstage.1)
      (h.storing call c hcall) (fun d hd hdone => ?_)
    · dsimp only
      rw [hconnections]
      exact List.mem_append_left _ hk
    · dsimp only
      rw [hconnections]
      exact List.mem_append_right _ (List.mem_singleton_self call)
    · obtain rfl : c = d := by simpa [hcall] using hd
      exact absurd hdone hstage.2

omit [DecidableEq AddressType] in
/-- A connection begins, under a number that nothing uses. -/
theorem Tracked.setBegun (h : Tracked w) (hinvariant : Invariant w) {handle : ℕ}
    (hunused : w.Unused handle) (hcalls : w'.calls = Function.update w.calls call (some c'))
    (hmap : w'.connectionConfigurations = w.connectionConfigurations)
    (hcloses : w'.closes = w.closes) (hmanager : w'.manager = w.manager)
    (hhandle : c'.handle = some handle) (hattempt : c'.attempt = .outstanding)
    (hstoring : c'.storing = none) (hactive : ∀ c, w.calls call = some c → c.stage ≠ .done) :
    Tracked w' := by
  refine h.update hcalls hmap hcloses (fun k hk _ => hmanager ▸ hk) (fun hregistered => ?_)
    (fun _ => by rw [hhandle]; rfl) (fun _ k d hk hd hlive heq => ?_) (fun _ => ?_)
    (fun id hid => ?_) (fun d hd hdone => absurd hdone (hactive d hd))
  · rw [hattempt] at hregistered
    cases hregistered
  · have hcreated : k < w.created := by
      by_contra hk
      rw [hinvariant.fresh k (not_lt.mp hk)] at hd
      cases hd
    rw [hunused k hcreated d hd (heq.trans hhandle)] at hlive
    cases hlive
  · rw [hattempt]
    nofun
  · rw [hstoring] at hid
    cases hid

omit [DecidableEq AddressType] in
theorem Tracked.exists_get (h : Tracked w) (hcall : w.calls call = some c)
    (hregistered : c.attempt = .registered) :
    ∃ handle found, c.handle = some handle ∧ w.manager.get w.id handle = some found := by
  obtain ⟨handle, hhandle⟩ := Option.isSome_iff_exists.mp
    (h.numbered call c hcall (by rw [hregistered]; rfl))
  have hid : w.id call = some handle := by simp [SessionBase.id, hcall, hhandle]
  obtain ⟨found, hfound⟩ :=
    ConnectionManager.exists_get (h.registered call c hcall hregistered) hid
  exact ⟨handle, found, hhandle, hfound⟩

theorem Tracked.unregistered (h : Tracked w) (hcall : w.calls call = some c)
    (hnone : w.find useReactor c = none) : c.attempt ≠ .registered := by
  intro hregistered
  unfold SessionBase.find at hnone
  cases useReactor with
  | true =>
    obtain ⟨handle, found, hhandle, hfound⟩ := h.exists_get hcall hregistered
    simp [hhandle, hfound] at hnone
  | false =>
    have hother := List.find?_eq_none.mp hnone call (h.registered call c hcall hregistered)
    simp [hcall] at hother

theorem Tracked.findConnection (h : Tracked w) {deadline : Bool} (hcall : w.calls call = some c)
    (hstage : c.stage = .find) : Tracked (w.findConnection useReactor call deadline c) := by
  have hactive : c.stage ≠ .done := by simp [hstage]
  unfold SessionBase.findConnection
  cases hfind : w.find useReactor c with
  | some found => exact h.setStage hcall hactive nofun nofun
  | none =>
    dsimp only
    split
    · exact h.setStage hcall hactive (fun _ => h.unregistered useReactor hcall hfind) nofun
    · exact h

omit [DecidableEq AddressType] in
theorem Tracked.get (h : Tracked w) (hcall : w.calls call = some c) (hstage : c.stage = .get) :
    Tracked (w.get call c) := by
  have hactive : c.stage ≠ .done := by simp [hstage]
  unfold SessionBase.get
  cases hget : c.handle.bind fun handle => (w.manager.get w.id handle).bind w.id with
  | none =>
    refine h.setStage hcall hactive (fun _ hregistered => ?_) nofun
    obtain ⟨handle, found, hhandle, hfound⟩ := h.exists_get hcall hregistered
    have hid := (ConnectionManager.get_eq_some hfound).2
    simp [hhandle, hfound, hid] at hget
  | some id =>
    refine h.setStage hcall hactive nofun fun i hi => ?_
    obtain rfl : id = i := ConnectStage.store.inj hi
    obtain ⟨handle, hhandle, hbound⟩ := Option.bind_eq_some_iff.mp hget
    obtain ⟨found, hfound, hid⟩ := Option.bind_eq_some_iff.mp hbound
    rw [hhandle, ← hid, (ConnectionManager.get_eq_some hfound).2]

omit [DecidableEq AddressType] in
theorem Tracked.withMap (h : Tracked w) (hcalls : w'.calls = w.calls)
    (hmanager : w'.manager = w.manager)
    (hstored : ∀ e ∈ w'.connectionConfigurations, ∃ c, w.calls e.2 = some c ∧
      c.handle = some e.1 ∧ c.stage = .done)
    (hawaited : ∀ x ∈ w'.closes, ∀ e ∈ w'.connectionConfigurations,
      x.awaits e.1 = true ∨ w.Settled e.2) : Tracked w' := by
  refine ⟨fun k d hd => ?_, fun k d hd => h.numbered k d (hcalls ▸ hd),
    fun k d hd hlive k' d' hd' => h.unique k d (hcalls ▸ hd) hlive k' d' (hcalls ▸ hd'),
    fun k d hd => h.failed k d (hcalls ▸ hd), fun k d hd => h.storing k d (hcalls ▸ hd), fun e he => hcalls ▸ hstored e he,
    fun x hx e he => ?_⟩
  · rw [hmanager]
    exact h.registered k d (hcalls ▸ hd)
  · unfold Settled
    rw [hcalls]
    exact hawaited x hx e he

omit [DecidableEq AddressType] in
theorem Tracked.store (h : Tracked w) (hcall : w.calls call = some c) (hactive : c.stage ≠ .done)
    (hhandle : c.handle = some id)
    (hcloses : ∀ x ∈ w.closes, x.awaits id = true ∨ w.Settled call) :
    Tracked (w.store call id c) := by
  have hdone : Tracked (w.setCall call { c with stage := .done }) :=
    h.setStage hcall hactive nofun nofun
  -- the entries are those before, and the one that is stored
  have hstored : ∀ e, e ∈ w.connectionConfigurations ∨ e = (id, call) →
      ∃ d, (w.setCall call { c with stage := .done }).calls e.2 = some d ∧ d.handle = some e.1 ∧
        d.stage = .done := by
    rintro e (he | rfl)
    · exact hdone.stored e he
    · exact ⟨{ c with stage := .done }, by simp [SessionBase.setCall], hhandle, rfl⟩
  have hawaited : ∀ x ∈ w.closes, ∀ e, e ∈ w.connectionConfigurations ∨ e = (id, call) →
      x.awaits e.1 = true ∨ (w.setCall call { c with stage := .done }).Settled e.2 := by
    rintro x hx e (he | rfl)
    · exact hdone.awaited x hx e he
    · refine (hcloses x hx).imp_right fun hsettled d hd => ?_
      obtain rfl : { c with stage := .done } = d := by simpa [SessionBase.setCall] using hd
      exact hsettled c hcall
  unfold SessionBase.store
  dsimp only
  split
  · have hmem : ∀ e ∈ w.connectionConfigurations ++ [(id, call)],
        e ∈ w.connectionConfigurations ∨ e = (id, call) := by simp
    exact hdone.withMap rfl rfl (fun e he => hstored e (hmem e he))
      fun x hx e he => hawaited x hx e (hmem e he)
  · have hmem : ∀ e ∈ (w.connectionConfigurations.filter fun e => e.1 ≠ id) ++ [(id, call)],
        e ∈ w.connectionConfigurations ∨ e = (id, call) := fun e he =>
      (List.mem_append.mp he).imp (fun hold => (List.mem_filter.mp hold).1) List.mem_singleton.mp
    refine hdone.withMap rfl rfl (fun e he => hstored e (hmem e he)) fun x hx e he => ?_
    obtain ⟨y, hy, rfl⟩ := List.mem_map.mp hx
    have hsame : (y.invalidate id).awaits e.1 = y.awaits e.1 := by
      rcases y with ids | ids | ⟨_ | position, valid⟩ <;> rfl
    rw [hsame]
    exact hawaited y hy e (hmem e he)

omit [DecidableEq AddressType] in
/-- A call of `close` goes on, and waits for what it has waited for, unless this is gone. -/
theorem Tracked.setClose (h : Tracked w) {close : ℕ} {x y : CloseStage}
    (hclose : w.closes[close]? = some x) (hcalls : w'.calls = w.calls)
    (hmanager : w'.manager = w.manager)
    (hmap : w'.connectionConfigurations = w.connectionConfigurations)
    (hcloses : w'.closes = w.closes.set close y)
    (hkept : ∀ e ∈ w.connectionConfigurations, x.awaits e.1 = true →
      y.awaits e.1 = true ∨ w.Settled e.2) : Tracked w' := by
  refine h.withMap hcalls hmanager (hmap ▸ h.stored) fun z hz e he => ?_
  rw [hmap] at he
  rcases List.mem_or_eq_of_mem_set (hcloses ▸ hz) with hold | rfl
  · exact h.awaited z hold e he
  · exact (h.awaited x (List.mem_of_getElem? hclose) e he).elim (hkept e he) Or.inr

omit [DecidableEq AddressType] in
theorem Tracked.settled_of_any (h : Tracked w) {e : ℕ × ℕ} (he : e ∈ w.connectionConfigurations)
    (hnone : ¬ (w.manager.connections.any fun i => decide (w.id i = some e.1)) = true) :
    w.Settled e.2 := by
  intro d hd hregistered
  obtain ⟨d', hd', hhandle, -⟩ := h.stored e he
  obtain rfl : d = d' := Option.some.inj (hd.symm.trans hd')
  refine hnone (List.any_eq_true.mpr ⟨e.2, h.registered e.2 d hd hregistered, ?_⟩)
  simp [SessionBase.id, hd', hhandle]

omit [DecidableEq AddressType] in
theorem Tracked.closing (h : Tracked w) {close : ℕ} (hstep : w.closing close = .ok w') :
    Tracked w' := by
  unfold SessionBase.closing at hstep
  cases hclose : w.closes[close]? with
  | none => simp [hclose] at hstep
  | some x =>
    rcases x with ids | (_ | ⟨id, ids⟩) | ⟨_ | id, valid⟩
    · simp only [hclose] at hstep
      split at hstep
      · cases hstep
        exact h.setClose hclose rfl rfl rfl rfl fun _ _ hawaits => Or.inl hawaits
      · cases hstep
    · simp only [hclose] at hstep
      cases hstep
      exact h.setClose hclose rfl rfl rfl rfl fun _ _ hawaits => by cases hawaits
    · simp only [hclose] at hstep
      split at hstep
      · cases hstep
      · next hnone =>
        cases hstep
        refine h.setClose hclose rfl rfl rfl rfl fun e he hawaits => ?_
        -- the connection with this id is gone
        by_cases hid : e.1 = id
        · exact Or.inr (h.settled_of_any he (hid ▸ hnone))
        · left
          simpa [CloseStage.awaits, hid] using hawaits
    · simp only [hclose] at hstep
      cases hstep
      exact h.withMap rfl rfl (by simp) (by simp)
    · simp only [hclose] at hstep
      split at hstep
      · cases hstep
        exact h.setClose hclose rfl rfl rfl rfl fun _ _ hawaits => by cases hawaits
      · cases hstep

theorem Tracked.step {event : SessionEvent AddressType} (h : Tracked w) (hinvariant : Invariant w)
    (horderly : w.Orderly event) (hstep : w.step useReactor event = .ok w') : Tracked w' := by
  cases event with
  | connect address =>
    cases hstep
    refine h.update rfl rfl rfl (fun k hk _ => hk) nofun nofun nofun nofun nofun fun d hd => ?_
    rw [hinvariant.fresh _ (le_refl _)] at hd
    cases hd
  | other handle address =>
    cases hstep
    refine h.setBegun hinvariant horderly rfl rfl rfl rfl rfl rfl rfl fun d hd => ?_
    rw [hinvariant.fresh _ (le_refl _)] at hd
    cases hd
  | begin_ call handle =>
    obtain ⟨c, hcall, hpossible, rfl⟩ := withCall_ok hstep
    simp only [decide_eq_true_eq] at hpossible
    have hstoring : c.storing = none := by simp [SessionConnect.storing, hpossible.1]
    refine h.setBegun hinvariant horderly rfl rfl rfl rfl rfl rfl hstoring fun d hd => ?_
    obtain rfl : c = d := Option.some.inj (hcall.symm.trans hd)
    simp [hpossible.1]
  | giveUp call =>
    obtain ⟨c, hcall, -, rfl⟩ := withCall_ok hstep
    exact h.setGone hcall w.manager fun k hk _ => hk
  | register_ call =>
    obtain ⟨c, hcall, hpossible, rfl⟩ := withCall_ok hstep
    exact h.register_ hcall (by simpa using hpossible) (horderly c hcall)
  | deregister call =>
    obtain ⟨c, hcall, -, rfl⟩ := withCall_ok hstep
    exact h.setGone hcall _ fun k hk hne => (List.mem_erase_of_ne hne).mpr hk
  | connected call valid =>
    obtain ⟨c, hcall, hpossible, rfl⟩ := withCall_ok hstep
    simp only [decide_eq_true_eq] at hpossible
    have hactive : c.stage ≠ .done := by simp [hpossible.1]
    cases valid with
    | true => exact h.setStage hcall hactive nofun nofun
    | false => exact h.setStage hcall hactive (fun _ => horderly c hcall) nofun
  | find call deadline =>
    obtain ⟨c, hcall, hpossible, rfl⟩ := withCall_ok hstep
    exact h.findConnection useReactor hcall (by simpa using hpossible)
  | status call ok =>
    obtain ⟨c, hcall, hpossible, rfl⟩ := withCall_ok hstep
    have hactive : c.stage ≠ .done := by simp [of_decide_eq_true hpossible]
    cases ok with
    | true => exact h.setStage hcall hactive nofun nofun
    | false => exact h.setStage hcall hactive (fun _ => horderly c hcall) nofun
  | get call =>
    obtain ⟨c, hcall, hpossible, rfl⟩ := withCall_ok hstep
    exact h.get hcall (by simpa using hpossible)
  | store call =>
    cases hcall : w.calls call with
    | none => simp [SessionBase.step, hcall] at hstep
    | some c =>
      cases hstage : c.stage with
      | store id =>
        have hstoring : c.storing = some id := by simp [SessionConnect.storing, hstage]
        simp only [SessionBase.step, hcall, Option.map_some, hstage] at hstep
        obtain ⟨d, hd, -, rfl⟩ := withCall_ok hstep
        obtain rfl : c = d := Option.some.inj (hcall.symm.trans hd)
        exact h.store hcall (by simp [hstage]) (h.storing call c hcall id hstoring)
          fun x hx => ((horderly c hcall id hstoring).2 x hx).imp_right And.right
      | _ => simp [SessionBase.step, hcall, hstage] at hstep
  | error call =>
    obtain ⟨c, hcall, hpossible, rfl⟩ := withCall_ok hstep
    have hactive : c.stage ≠ .done := by simp [of_decide_eq_true hpossible]
    have hdone : Tracked (w.setCall call { c with stage := .done }) :=
      h.setStage hcall hactive nofun nofun
    exact hdone.withMap rfl rfl hdone.stored hdone.awaited
  | join id =>
    simp only [SessionBase.step] at hstep
    split at hstep
    · cases hstep
    · cases hstep
      exact h.withMap rfl rfl h.stored h.awaited
  | leave id =>
    simp only [SessionBase.step] at hstep
    split at hstep
    · cases hstep
      exact h.withMap rfl rfl h.stored h.awaited
    · cases hstep
  | close waitForCompletion =>
    cases waitForCompletion with
    | false =>
      cases hstep
      exact h
    | true =>
      cases hstep
      refine h.withMap rfl rfl h.stored fun x hx e he => ?_
      rcases List.mem_append.mp hx with hold | hnew
      · exact h.awaited x hold e he
      · obtain rfl := List.mem_singleton.mp hnew
        exact (horderly e he).imp_left fun hlisted => by simpa [CloseStage.awaits] using hlisted
  | closing close => exact h.closing hstep

end Tracking

instance (j : ℕ) : Decidable (w.Settled j) :=
  inferInstanceAs (Decidable (∀ c ∈ w.calls j, c.attempt ≠ .registered))

instance (handle : ℕ) : Decidable (w.Unused handle) :=
  inferInstanceAs (Decidable (∀ k < w.created, ∀ c ∈ w.calls k,
    c.handle = some handle → c.attempt.isLive = false))

instance (w : SessionBase AddressType) : (event : SessionEvent AddressType) →
    Decidable (w.Orderly event)
  | .begin_ _ handle | .other handle _ => inferInstanceAs (Decidable (w.Unused handle))
  | .connected call false | .status call false => inferInstanceAs (Decidable (w.Settled call))
  | .register_ call =>
    inferInstanceAs (Decidable (∀ c ∈ w.calls call, c.stage ≠ .error ∧ c.stage ≠ .done))
  | .store call => inferInstanceAs (Decidable (∀ c ∈ w.calls call, ∀ id ∈ c.storing,
      (∀ i ∈ w.manager.get w.id id, i = call) ∧
        ∀ x ∈ w.closes, x.awaits id = true ∨ x.isFree = false ∧ w.Settled call))
  | .close true => inferInstanceAs (Decidable
      (∀ e ∈ w.connectionConfigurations, e.1 ∈ w.connections ∨ w.Settled e.2))
  | .closing close => inferInstanceAs (Decidable
      (w.closes[close]? = some (.wait []) → ∀ x ∈ w.closes, x.isFree = false))
  | .connect _ | .giveUp _ | .deregister _ | .connected _ true | .find _ _ | .status _ true
  | .get _ | .error _ | .join _ | .leave _ | .close false => isTrue trivial

omit [DecidableEq AddressType] in
/-- When all calls are done and the map is empty, all configurations have been freed once. -/
theorem Released.freed {w : SessionBase AddressType} (h : w.Released)
    (hempty : w.connectionConfigurations = []) {k : ℕ} {c : SessionConnect AddressType}
    (hcall : w.calls k = some c) (hdone : c.stage = .done) : w.freed k = 1 := by
  have honce := h.once k
  by_contra hne
  have hkept := h.kept k c hcall hdone (by omega)
  simp [unreleased, hempty] at hkept

/-- Two connections are made, under one handle; the first one is gone when the other takes its
place, which the session closes. A third attempt is refused. -/
def closed : List (SessionEvent ℕ) :=
  [.connect 80, .begin_ 0 5, .register_ 0, .connected 0 true, .find 0 false, .status 0 true, .get 0,
    .store 0, .join 5, .leave 5, .deregister 0, .connect 81, .begin_ 1 5, .register_ 1,
    .connected 1 true, .find 1 false, .status 1 true, .get 1, .store 1, .join 5, .connect 82,
    .begin_ 2 6, .giveUp 2, .connected 2 true, .find 2 true, .error 2, .close true, .leave 5,
    .closing 0, .deregister 1, .closing 0, .closing 0, .closing 0, .closing 0]

/-- A connect outlasts its timeouts and completes when its configurations have been freed. -/
def late : List (SessionEvent ℕ) :=
  [.connect 80, .begin_ 0 5, .connected 0 true, .find 0 true, .error 0, .register_ 0]

end SessionBase

end ACENetwork.Net
