import ACENetwork.Net.Registry

/-!
# Connecting as a client

`Net_Client_Common_Tools::connect` lets the connector connect, looks the connection up, and polls
its status. An attempt that fails at some point is followed by another one while there are
retries left; what it has opened is not closed.
-/
namespace ACENetwork.Net.Client

section Model

/-- The connections of the manager at a moment, and what they say of themselves. -/
structure Registered (AddressType : Type) where
  connections : List ℕ
  infos : ℕ → ConnectionInfo AddressType

variable {AddressType : Type} [DecidableEq AddressType]

/-- `Net_Connection_Manager_T::get`; the reference that it hands out is recorded by the caller. -/
def Registered.get (handle : ℕ) (r : Registered AddressType) : Option ℕ :=
  r.connections.find? fun i => (r.infos i).handle = some handle

def Registered.getAddress (address : AddressType) (isPeerAddress : Bool)
    (r : Registered AddressType) : Option ℕ :=
  r.connections.find? fun i => Registry.isAt address isPeerAddress (r.infos i)

/-- What the connector, the manager, the connection and the clock say in an attempt. The lookups
and the polls are numbered, and so are the times: the first one is that of the deadline. -/
structure Attempt (AddressType : Type) where
  handle : Option ℕ
  useReactor : Bool
  waitResult : ℤ
  registered : ℕ → Registered AddressType
  lookupTimes : ℕ → ℕ
  status : ℕ → Status
  statusTimes : ℕ → ℕ

inductive Effect where
  | connect (handle : Option ℕ)
  | increase (connection : ℕ)
  | decrease (connection : ℕ)
  deriving DecidableEq, Repr

/-- What has been done, and the handle, if it is valid. -/
structure Result where
  effects : List Effect
  handle : Option ℕ
  deriving DecidableEq, Repr

/-- `NET_CONNECTION_ASYNCH_DEFAULT_ESTABLISHMENT_TIMEOUT_S`, in microseconds. -/
def establishmentTimeout : ℕ := 10 * 10 ^ 6

/-- `NET_CONNECTION_DEFAULT_INITIALIZATION_TIMEOUT_S`, in microseconds. -/
def initializationTimeout : ℕ := 5 * 10 ^ 6

variable (address : AddressType) (isPeerAddress : Bool)

/-- The loop that waits for the connection to register. `none`: it is still waiting after so many
lookups. -/
def lookupLoop (a : Attempt AddressType) : ℕ → ℕ → Option (Option ℕ)
  | 0, _ => none
  | fuel + 1, n =>
    match (a.registered n).getAddress address isPeerAddress with
    | some connection => some (some connection)
    | none =>
      if a.lookupTimes (n + 1) < a.lookupTimes 0 + establishmentTimeout then lookupLoop a fuel (n + 1)
      else some none

/-- `status > NET_CONNECTION_STATUS_INITIALIZING`. -/
def Initialized (status : Status) : Prop := status ≠ .invalid ∧ status ≠ .initializing

instance (status : Status) : Decidable (Initialized status) := inferInstanceAs (Decidable (_ ∧ _))

/-- The loop that waits for the connection to finish initializing, and the status then. -/
def statusLoop (a : Attempt AddressType) : ℕ → ℕ → Option Status
  | 0, _ => none
  | fuel + 1, n =>
    if Initialized (a.status n) then some (a.status n)
    else if a.statusTimes (n + 1) < a.statusTimes 0 + initializationTimeout then
      statusLoop a fuel (n + 1)
    else some (a.status n)

/-- From the connection that has been found to the label `continue_`. The connection's stream is
waited for if the status is good. -/
def await (fuel : ℕ) (a : Attempt AddressType) (handle : ℕ) : Option ℕ → Option Result
  | none => some ⟨[.connect (some handle)], none⟩
  | some connection => do
    let status ← statusLoop a fuel 0
    some ⟨[.connect (some handle), .increase connection, .decrease connection],
      if status = .ok then some handle else none⟩

/-- From the label `retry` to where the next retry, or the end, is decided. With no retries left
a connector that has not connected in time is no reason to give up. -/
def attempt (wait : Bool) (fuel : ℕ) (retries : ℤ) (a : Attempt AddressType) : Option Result :=
  match a.handle with
  | none => some ⟨[.connect none], none⟩
  | some handle =>
    if !wait then some ⟨[.connect (some handle)], some handle⟩
    else if a.useReactor then await fuel a handle ((a.registered 0).get handle)
    else if a.waitResult ≠ 0 ∧ 0 < retries then some ⟨[.connect (some handle)], none⟩
    else do await fuel a handle (← lookupLoop address isPeerAddress a fuel 0)

def retry (wait : Bool) (fuel : ℕ) (attempts : ℕ → Attempt AddressType) (k : ℕ) (retries : ℤ) :
    Option Result := do
  let result ← attempt address isPeerAddress wait fuel retries (attempts k)
  if result.handle = none ∧ 0 < retries then
    let rest ← retry wait fuel attempts (k + 1) (retries - 1)
    some { rest with effects := result.effects ++ rest.effects }
  else some result
  termination_by retries.toNat
  decreasing_by omega

def connect (wait : Bool) (fuel : ℕ) (initialized : Bool) (attempts : ℕ → Attempt AddressType)
    (retries : ℤ) : Option Result :=
  if initialized then retry address isPeerAddress wait fuel attempts 0 retries else some ⟨[], none⟩

end Model

section Outcome

variable {AddressType : Type}

def LastStatus (a : Attempt AddressType) (status : Status) : Prop :=
  ∃ n, a.status n = status ∧ (∀ m < n, ¬ Initialized (a.status m)) ∧
    (Initialized status ∨ a.statusTimes 0 + initializationTimeout ≤ a.statusTimes (n + 1))

theorem statusLoop_some {a : Attempt AddressType} {fuel n : ℕ} {status : Status}
    (hbefore : ∀ m < n, ¬ Initialized (a.status m)) (h : statusLoop a fuel n = some status) :
    LastStatus a status := by
  induction fuel generalizing n with
  | zero => cases h
  | succ fuel ih =>
    rw [statusLoop] at h
    split at h
    · rename_i hinitialized
      cases h
      exact ⟨n, rfl, hbefore, Or.inl hinitialized⟩
    · rename_i hinitialized
      split at h
      · exact ih (Nat.forall_lt_succ_right.mpr ⟨hbefore, hinitialized⟩) h
      · rename_i hdeadline
        cases h
        exact ⟨n, rfl, hbefore, Or.inr (Nat.le_of_not_lt hdeadline)⟩

theorem mem_of_get {r : Registered AddressType} {handle connection : ℕ}
    (h : r.get handle = some connection) :
    connection ∈ r.connections ∧ (r.infos connection).handle = some handle :=
  ⟨List.mem_of_find?_eq_some h, by simpa using List.find?_some h⟩

variable [DecidableEq AddressType] {address : AddressType} {isPeerAddress : Bool}

/-- The lookups find the connection: in the reactor under the handle, in the proactor under the
address, whichever handle it has. -/
def Finds (address : AddressType) (isPeerAddress : Bool) (a : Attempt AddressType) (handle : ℕ)
    (connection : ℕ) : Prop :=
  if a.useReactor then
    connection ∈ (a.registered 0).connections ∧
      ((a.registered 0).infos connection).handle = some handle
  else ∃ n, connection ∈ (a.registered n).connections ∧
    Registry.isAt address isPeerAddress ((a.registered n).infos connection) = true

/-- The attempt has the handle, and the connection that it has found is initialized. -/
def Connects (address : AddressType) (isPeerAddress : Bool) (a : Attempt AddressType)
    (handle : ℕ) : Prop :=
  a.handle = some handle ∧ ∃ connection, Finds address isPeerAddress a handle connection ∧
    LastStatus a .ok

/-- Why an attempt fails: the connector does not connect, or not in time, no connection is found,
or its status is not good. -/
inductive Fails (address : AddressType) (isPeerAddress : Bool) (a : Attempt AddressType) : Prop where
  | connect (h : a.handle = none)
  | wait (hasynch : a.useReactor = false) (h : a.waitResult ≠ 0)
  | get (handle : ℕ) (hreactor : a.useReactor = true) (hhandle : a.handle = some handle)
    (h : (a.registered 0).get handle = none)
  | getAddress (n : ℕ) (hasynch : a.useReactor = false)
    (h : ∀ m ≤ n, (a.registered m).getAddress address isPeerAddress = none)
    (hdeadline : a.lookupTimes 0 + establishmentTimeout ≤ a.lookupTimes (n + 1))
  | status (status : Status) (h : LastStatus a status) (hstatus : status ≠ .ok)

theorem lookupLoop_some {a : Attempt AddressType} {fuel n connection : ℕ}
    (h : lookupLoop address isPeerAddress a fuel n = some (some connection)) :
    ∃ m, (a.registered m).getAddress address isPeerAddress = some connection := by
  induction fuel generalizing n with
  | zero => cases h
  | succ fuel ih =>
    rw [lookupLoop] at h
    split at h
    · rename_i found hfound
      cases h
      exact ⟨n, hfound⟩
    · split at h
      · exact ih h
      · cases h

theorem lookupLoop_none {a : Attempt AddressType} {fuel n : ℕ}
    (hbefore : ∀ m < n, (a.registered m).getAddress address isPeerAddress = none)
    (h : lookupLoop address isPeerAddress a fuel n = some none) :
    ∃ m, (∀ k ≤ m, (a.registered k).getAddress address isPeerAddress = none) ∧
      a.lookupTimes 0 + establishmentTimeout ≤ a.lookupTimes (m + 1) := by
  induction fuel generalizing n with
  | zero => cases h
  | succ fuel ih =>
    rw [lookupLoop] at h
    split at h
    · cases h
    · rename_i hnone
      have hnext : ∀ m < n + 1, (a.registered m).getAddress address isPeerAddress = none :=
        Nat.forall_lt_succ_right.mpr ⟨hbefore, hnone⟩
      split at h
      · exact ih hnext h
      · rename_i hdeadline
        exact ⟨n, fun k hk => hnext k (Nat.lt_succ_of_le hk), Nat.le_of_not_lt hdeadline⟩

theorem mem_of_getAddress {r : Registered AddressType} {connection : ℕ}
    (h : r.getAddress address isPeerAddress = some connection) :
    connection ∈ r.connections ∧
      Registry.isAt address isPeerAddress (r.infos connection) = true := by
  have hat := List.find?_some h
  exact ⟨List.mem_of_find?_eq_some h, hat⟩

/-- An attempt connects once, gives back the reference that it has got, and returns the handle
when it connects; otherwise it fails. -/
structure Attempted (address : AddressType) (isPeerAddress : Bool) (a : Attempt AddressType)
    (result : Result) : Prop where
  effects : result.effects = [.connect a.handle] ∨ ∃ connection,
    result.effects = [.connect a.handle, .increase connection, .decrease connection]
  connected : ∀ handle, result.handle = some handle → Connects address isPeerAddress a handle
  failed : result.handle = none → Fails address isPeerAddress a

theorem await_some {fuel : ℕ} {a : Attempt AddressType} {handle connection : ℕ} {result : Result}
    (hhandle : a.handle = some handle) (hfound : Finds address isPeerAddress a handle connection)
    (h : await fuel a handle (some connection) = some result) :
    Attempted address isPeerAddress a result := by
  obtain ⟨status, hstatus, h⟩ := Option.bind_eq_some_iff.mp h
  have hlast := statusLoop_some (fun m hm => absurd hm (Nat.not_lt_zero m)) hstatus
  cases h
  refine ⟨Or.inr ⟨connection, by rw [hhandle]⟩, fun handle' hresult => ?_, fun hresult => ?_⟩
  · dsimp only at hresult
    split at hresult
    · rename_i hok
      cases hresult
      exact ⟨hhandle, connection, hfound, hok ▸ hlast⟩
    · cases hresult
  · dsimp only at hresult
    split at hresult
    · cases hresult
    · rename_i hbad
      exact .status status hlast hbad

theorem attempt_some {fuel : ℕ} {retries : ℤ} {a : Attempt AddressType} {result : Result}
    (h : attempt address isPeerAddress true fuel retries a = some result) :
    Attempted address isPeerAddress a result := by
  cases hhandle : a.handle with
  | none =>
    rw [attempt, hhandle] at h
    cases h
    refine ⟨Or.inl (by rw [hhandle]), ?_, fun _ => Fails.connect hhandle⟩
    intro handle hresult
    cases hresult
  | some handle =>
    have hfailed (hfails : Fails address isPeerAddress a) :
        Attempted address isPeerAddress a ⟨[.connect (some handle)], none⟩ := by
      refine ⟨Or.inl (by rw [hhandle]), ?_, fun _ => hfails⟩
      intro handle hresult
      cases hresult
    rw [attempt, hhandle] at h
    dsimp only at h
    rw [if_neg (by decide)] at h
    split at h
    · rename_i hreactor
      cases hget : (a.registered 0).get handle with
      | none =>
        rw [hget] at h
        cases h
        exact hfailed (.get handle hreactor hhandle hget)
      | some connection =>
        rw [hget] at h
        have hfinds : Finds address isPeerAddress a handle connection := by
          rw [Finds, if_pos hreactor]
          exact mem_of_get hget
        exact await_some hhandle hfinds h
    · rename_i hasynch
      split at h
      · rename_i hwait
        cases h
        exact hfailed (.wait (Bool.eq_false_of_not_eq_true hasynch) hwait.1)
      · obtain ⟨found, hfound, h⟩ := Option.bind_eq_some_iff.mp h
        cases found with
        | none =>
          cases h
          obtain ⟨n, hnone, hdeadline⟩ :=
            lookupLoop_none (fun m hm => absurd hm (Nat.not_lt_zero m)) hfound
          exact hfailed (.getAddress n (Bool.eq_false_of_not_eq_true hasynch) hnone hdeadline)
        | some connection =>
          obtain ⟨n, hget⟩ := lookupLoop_some hfound
          have hfinds : Finds address isPeerAddress a handle connection := by
            rw [Finds, if_neg hasynch]
            exact ⟨n, mem_of_getAddress hget⟩
          exact await_some hhandle hfinds h

def IsConnect : Effect → Bool
  | .connect _ => true
  | _ => false

def Result.attempts (result : Result) : ℕ := result.effects.countP IsConnect

theorem Attempted.attempts {a : Attempt AddressType} {result : Result}
    (h : Attempted address isPeerAddress a result) : result.attempts = 1 := by
  rcases h.effects with heffects | ⟨connection, heffects⟩
  · rw [Result.attempts, heffects]
    rfl
  · rw [Result.attempts, heffects]
    rfl

theorem Attempted.balanced {a : Attempt AddressType} {result : Result}
    (h : Attempted address isPeerAddress a result) (connection : ℕ) :
    result.effects.count (.increase connection) = result.effects.count (.decrease connection) := by
  rcases h.effects with heffects | ⟨found, heffects⟩
  · rw [heffects]
    rfl
  · rw [heffects]
    by_cases hfound : found = connection
    · subst hfound
      simp
    · simp [hfound]

structure Outcome (address : AddressType) (isPeerAddress : Bool) (attempts : ℕ → Attempt AddressType)
    (k : ℕ) (retries : ℤ) (result : Result) : Prop where
  attempts_le : (result.attempts : ℤ) ≤ max retries 0 + 1
  balanced : ∀ connection,
    result.effects.count (.increase connection) = result.effects.count (.decrease connection)
  connected : ∀ handle, result.handle = some handle → ∃ n, result.attempts = n + 1 ∧
    Connects address isPeerAddress (attempts (k + n)) handle ∧
    ∀ m < n, Fails address isPeerAddress (attempts (k + m))
  failed : result.handle = none → (result.attempts : ℤ) = max retries 0 + 1 ∧
    ∀ m < result.attempts, Fails address isPeerAddress (attempts (k + m))

theorem Attempted.outcome {attempts : ℕ → Attempt AddressType} {k : ℕ} {retries : ℤ} {result : Result}
    (h : Attempted address isPeerAddress (attempts k) result)
    (hlast : ¬ (result.handle = none ∧ 0 < retries)) :
    Outcome address isPeerAddress attempts k retries result := by
  have hcount := h.attempts
  refine ⟨by omega, h.balanced, fun handle hhandle => ?_, fun hhandle => ⟨?_, ?_⟩⟩
  · exact ⟨0, hcount, h.connected handle hhandle, fun m hm => absurd hm (Nat.not_lt_zero m)⟩
  · have hretries : ¬ 0 < retries := fun hpos => hlast ⟨hhandle, hpos⟩
    omega
  · intro m hm
    obtain rfl : m = 0 := by omega
    exact h.failed hhandle

theorem Outcome.cons {attempts : ℕ → Attempt AddressType} {k : ℕ} {retries : ℤ} {first rest : Result}
    (hpos : 0 < retries) (hfirst : Attempted address isPeerAddress (attempts k) first)
    (hfailed : first.handle = none)
    (h : Outcome address isPeerAddress attempts (k + 1) (retries - 1) rest) :
    Outcome address isPeerAddress attempts k retries
      { rest with effects := first.effects ++ rest.effects } := by
  have hfails : Fails address isPeerAddress (attempts k) := hfirst.failed hfailed
  have hcount : ({ rest with effects := first.effects ++ rest.effects } : Result).attempts =
      rest.attempts + 1 := by
    have hone := hfirst.attempts
    rw [Result.attempts] at hone ⊢
    rw [List.countP_append, hone, Nat.add_comm]
    rfl
  have hnext (n : ℕ) : k + (n + 1) = k + 1 + n := by omega
  have hle := h.attempts_le
  refine ⟨by omega, fun connection => ?_, fun handle hhandle => ?_, fun hhandle => ?_⟩
  · rw [List.count_append, List.count_append, hfirst.balanced, h.balanced]
  · obtain ⟨n, hn, hconnects, hearlier⟩ := h.connected handle hhandle
    refine ⟨n + 1, by rw [hcount, hn], ?_, Nat.forall_lt_succ_left.mpr ⟨hfails, fun m hm => ?_⟩⟩
    · rw [hnext]
      exact hconnects
    · rw [hnext]
      exact hearlier m hm
  · obtain ⟨hall, hlater⟩ := h.failed hhandle
    refine ⟨by omega, ?_⟩
    rw [hcount, Nat.forall_lt_succ_left]
    refine ⟨hfails, fun m hm => ?_⟩
    rw [hnext]
    exact hlater m hm

theorem retry_outcome {fuel : ℕ} {attempts : ℕ → Attempt AddressType} (k : ℕ) (retries : ℤ)
    {result : Result}
    (h : retry address isPeerAddress true fuel attempts k retries = some result) :
    Outcome address isPeerAddress attempts k retries result := by
  induction k, retries using retry.induct generalizing result with
  | case1 k retries ih =>
    rw [retry] at h
    obtain ⟨first, hfirst, h⟩ := Option.bind_eq_some_iff.mp h
    have hattempted := attempt_some hfirst
    split at h
    · rename_i hretry
      obtain ⟨rest, hrest, h⟩ := Option.bind_eq_some_iff.mp h
      cases h
      exact Outcome.cons hretry.2 hattempted hretry.1 (ih first hretry hrest)
    · rename_i hlast
      cases h
      exact hattempted.outcome hlast

/-- There is an attempt more than there are retries, at most, and every reference is given back. A
handle is that of the last attempt, which has connected, and no handle is returned only when
the connector cannot be initialized, or all attempts have failed. -/
theorem connect_outcome (address : AddressType) (isPeerAddress : Bool) (fuel : ℕ) (initialized : Bool)
    (attempts : ℕ → Attempt AddressType) (retries : ℤ) (result : Result)
    (h : connect address isPeerAddress true fuel initialized attempts retries = some result) :
    initialized = false ∧ result = ⟨[], none⟩ ∨
      initialized = true ∧ Outcome address isPeerAddress attempts 0 retries result := by
  cases initialized with
  | false =>
    cases h
    exact Or.inl ⟨rfl, rfl⟩
  | true => exact Or.inr ⟨rfl, retry_outcome 0 retries h⟩

/-- That the call leaves nothing behind unless it succeeds; `after` is what is registered then. -/
structure AllOrNothing (attempts : ℕ → Attempt AddressType) (retries : ℤ)
    (after : Registered AddressType) (result : Result) : Prop where
  attempts_le : (result.attempts : ℤ) ≤ retries + 1
  balanced : ∀ connection,
    result.effects.count (.increase connection) = result.effects.count (.decrease connection)
  connected : ∀ handle, result.handle = some handle → ∃ k < result.attempts, ∃ n connection,
    (attempts k).handle = some handle ∧ connection ∈ ((attempts k).registered n).connections ∧
      (((attempts k).registered n).infos connection).handle = some handle ∧
      LastStatus (attempts k) .ok
  failed : result.handle = none → ∀ k < result.attempts, ∀ handle, (attempts k).handle = some handle →
    ∀ connection ∈ after.connections, (after.infos connection).handle ≠ some handle

/-- A manager whose connection has a handle and this peer address, for good. -/
def steady (handle : ℕ) : ℕ → Registered ℕ := fun _ => ⟨[0], fun _ => ⟨some handle, 10, 20⟩⟩

def opening (handle : ℕ) (useReactor : Bool) (status : Status) : Attempt ℕ where
  handle := some 5
  useReactor := useReactor
  waitResult := 0
  registered := steady handle
  lookupTimes := fun n => n * 10 ^ 7
  status := fun _ => status
  statusTimes := fun n => n * 10 ^ 7

theorem connect_opening (handle : ℕ) (useReactor : Bool) (status : Status) {retries : ℤ}
    (h : ¬ 0 < retries) :
    connect 20 true true 1 true (fun _ => opening handle useReactor status) retries =
      attempt 20 true true 1 retries (opening handle useReactor status) := by
  rw [connect, if_pos rfl, retry]
  cases attempt 20 true true 1 retries (opening handle useReactor status) with
  | none => rfl
  | some result => exact if_neg fun hretry => h hretry.2

theorem connect_outcome_opening : ∃ result,
    connect 20 true true 1 true (fun _ => opening 5 true .ok) 0 = some result ∧
      (true = false ∧ result = ⟨[], none⟩ ∨
        true = true ∧ Outcome 20 true (fun _ => opening 5 true .ok) 0 0 result) := by
  have hrun : connect 20 true true 1 true (fun _ => opening 5 true .ok) 0 =
      some ⟨[.connect (some 5), .increase 0, .decrease 0], some 5⟩ := connect_opening 5 true .ok (by decide)
  exact ⟨_, hrun, connect_outcome 20 true 1 true _ 0 _ hrun⟩

/-- An attempt is made with -1 retries, the handle is returned where the connection at the address
is another one, and a connection that has not been initialized in time stays registered. -/
theorem connect_not_allOrNothing :
    (∃ result, connect 20 true true 1 true (fun _ => opening 5 true .ok) (-1) = some result ∧
      ¬ AllOrNothing (fun _ => opening 5 true .ok) (-1) (steady 5 0) result) ∧
    (∃ result, connect 20 true true 1 true (fun _ => opening 9 false .ok) 0 = some result ∧
      ¬ AllOrNothing (fun _ => opening 9 false .ok) 0 (steady 9 0) result) ∧
    ∃ result, connect 20 true true 1 true (fun _ => opening 5 true .initializing) 0 = some result ∧
      ¬ AllOrNothing (fun _ => opening 5 true .initializing) 0 (steady 5 0) result := by
  refine ⟨⟨⟨[.connect (some 5), .increase 0, .decrease 0], some 5⟩, ?_, fun h => ?_⟩,
    ⟨⟨[.connect (some 5), .increase 0, .decrease 0], some 5⟩, ?_, fun h => ?_⟩,
    ⟨⟨[.connect (some 5), .increase 0, .decrease 0], none⟩, ?_, fun h => ?_⟩⟩
  · exact connect_opening 5 true .ok (by decide)
  · exact absurd h.attempts_le (by decide)
  · exact connect_opening 9 false .ok (by decide)
  · -- the handle of the only connection is 9
    obtain ⟨k, -, n, connection, -, -, hhandle, -⟩ := h.connected 5 rfl
    cases hhandle
  · exact connect_opening 5 true .initializing (by decide)
  · exact h.failed rfl 0 (by decide) 5 rfl 0 (by decide) rfl

end Outcome

end ACENetwork.Net.Client
