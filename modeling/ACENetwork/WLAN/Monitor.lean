import ACENetwork.Library.Text
import ACENetwork.WLAN.StateMachine

/-!
# What the WLAN monitor does in each state

`Net_WLAN_Monitor_Base_T::onChange` for Linux: what it asserts on entering a state and which state
it requests next, whatever the radio does meanwhile. A request has to be in the row that the table
has for `state_` as `onChange` has set it.
-/
namespace ACENetwork.WLAN
open Library

/-- The macros `WEXT_USE`, `NL80211_SUPPORT` and `DHCLIENT_USE`. -/
structure Build where
  wext : Bool
  nl80211 : Bool
  dhclient : Bool
  deriving DecidableEq, Repr

/-- What `onChange` reads of the configuration. -/
structure Configuration where
  SSID : Bytes
  autoAssociate : Bool
  enableBackgroundScans : Bool
  deriving DecidableEq, Repr

/-- How waiting for the interface ends. -/
inductive Polled where
  | reached
  | shutDown
  | gaveUp
  deriving DecidableEq, Repr

/-- What a call of `onChange` finds: the network that the interface is connected to, the SSIDs in
the cache, whether the monitor is active and not shutting down, how waiting for the interface ends,
and whether dhclient can be connected to and answers. -/
structure Environment where
  SSID : Bytes := []
  cache : List Bytes := []
  isActive : Bool := true
  polled : Polled := .reached
  connects : Bool := true
  answers : Bool := true
  deriving DecidableEq, Repr

/-- What `onChange` reads and writes of the monitor, `connection` where the connection to dhclient is
not null. -/
structure Monitor where
  state : State := .invalid
  queue : List Message := []
  isConnectionNotified : Bool := false
  isFirstConnect : Bool := true
  connection : Bool := false
  deriving DecidableEq, Repr

inductive Failure where
  | assertion
  | notAdmitted (state new : State)
  deriving DecidableEq, Repr

def assert (holds : Bool) : Except Failure Unit :=
  if holds then .ok () else .error .assertion

/-- `strcmp` of two strings that may hold a null octet is not 0. -/
def differ (s t : Bytes) : Bool := s.takeWhile (· != 0) != t.takeWhile (· != 0)

/-- The states that other code for Linux changes to: the start, what D-Bus, nl80211 and dhclient
report, and with nl80211 another try of an authentication or association that has failed, whichever
process has asked for it. -/
inductive Report where
  | initialized
  | idle
  | scanned
  | authenticate
  | authenticated
  | associate
  | associated
  | connect
  | connected
  deriving DecidableEq, Repr

def Report.state : Report → State
  | .initialized => .initialized
  | .idle => .idle
  | .scanned => .scanned
  | .authenticate => .authenticate
  | .authenticated => .authenticated
  | .associate => .associate
  | .associated => .associated
  | .connect => .connect
  | .connected => .connected

section Step

variable (c : Configuration) (b : Build)

namespace Environment

variable (env : Environment)

def cached : Bool := env.cache.contains c.SSID

def elsewhere : Bool := !env.SSID.isEmpty && differ c.SSID env.SSID

/-- Connected to another network than the one that shall be associated with. -/
def roams : Bool := !c.SSID.isEmpty && env.elsewhere c && c.autoAssociate

def lost : Bool := !c.SSID.isEmpty && differ c.SSID env.SSID

end Environment

/-- With the wireless extensions the interface is polled; otherwise the end of an operation is
reported. -/
def polledState (reached : State) (env : Environment) : Option State :=
  if b.wext then
    match env.polled with
    | .reached => some reached
    | .shutDown => none
    | .gaveUp => some .idle
  else none

/-- A scan that is polled is fetched until data or an error comes. -/
def scanState (env : Environment) : Option State :=
  if b.wext && env.polled != .shutDown then some .scanned else none

def leftState (env : Environment) : Option State :=
  if b.wext then some (if c.SSID.isEmpty || !env.cached c then .idle else .scanned) else none

/-- `previous_state_e` of a completed scan. -/
def Monitor.previous (m : Monitor) (env : Environment) : State :=
  if env.SSID.isEmpty then m.state else .connected

/-- What becomes of a completed scan where the previous state was `previous` and the next one of a
network to be left is `next`. -/
def Monitor.rescanned (m : Monitor) (env : Environment) (previous next : State) :
    Except Failure (Monitor × Option State) := do
  let reset := { m with state := previous }
  if env.lost c then
    assert m.isConnectionNotified
    .ok ({ reset with isConnectionNotified := false },
      some (if env.cached c && c.autoAssociate then next else .idle))
  else .ok (reset, some .idle)

def Monitor.onChange (m : Monitor) (env : Environment) (new : State) :
    Except Failure (Monitor × Option State) :=
  let entered := { m with state := new }
  match new with
  | .invalid => .error .assertion
  -- the caller sets the state
  | .initialized => .ok (entered, none)
  | .idle =>
    if !env.isActive then .ok (entered, some .initialized)
    else if !env.SSID.isEmpty then
      .ok (entered, some (if m.isFirstConnect then .authenticated else .scan))
    else if c.SSID.isEmpty || !env.cached c || !c.autoAssociate then .ok (entered, some .scan)
    else do
      assert (env.SSID.isEmpty && !c.SSID.isEmpty && env.cached c && c.autoAssociate)
      .ok (entered, some .authenticate)
  | .scan => .ok (entered, scanState b env)
  | .authenticate => do
    assert !c.SSID.isEmpty
    assert (env.cached c)
    if env.roams c then .ok (entered, some .disconnect)
    else .ok (entered, polledState b .authenticated env)
  | .deauthenticate => do
    assert !env.SSID.isEmpty
    .ok (entered, leftState c b env)
  | .associate => do
    assert !c.SSID.isEmpty
    assert (env.cached c)
    if env.elsewhere c then .ok (entered, some .disconnect)
    else .ok (entered, polledState b .associated env)
  | .disassociate => do
    assert !env.SSID.isEmpty
    .ok (entered, leftState c b env)
  | .connect => do
    assert !c.SSID.isEmpty
    if env.elsewhere c then .ok (entered, some .disconnect)
    else if b.dhclient then
      assert !m.connection
      -- an interface whose state cannot be asked for is disconnected again
      .ok ({ entered with connection := env.connects && env.answers }, none)
    else .ok (entered, none)
  | .disconnect => do
    assert !c.SSID.isEmpty
    assert (env.cached c)
    assert !env.SSID.isEmpty
    if b.dhclient then
      assert !m.connection
      .ok (entered, if env.connects && env.answers then some .disassociate else none)
    else .ok (entered, some .disassociate)
  | .scanned =>
    match m.previous env with
    | .idle | .scan => .ok (entered, some .idle)
    | .authenticate => .ok ({ m with state := .authenticate }, none)
    | .associate => .ok ({ m with state := .associate }, none)
    | .connect => .ok ({ m with state := .connect }, none)
    | .authenticated => m.rescanned c env .authenticated .deauthenticate
    | .associated => m.rescanned c env .associated .disassociate
    | .connected => m.rescanned c env .connected .disconnect
    -- an unknown state switch
    | _ => .ok (entered, none)
  | .authenticated =>
    .ok (entered, some (
      if env.roams c then .deauthenticate
      else if c.SSID.isEmpty || env.SSID == c.SSID then .associated else .associate))
  | .associated =>
    .ok (entered, some (
      if env.roams c then .disassociate
      else if c.SSID.isEmpty || env.SSID == c.SSID then .connected else .connect))
  | .connected =>
    .ok ({ entered with isConnectionNotified := true, isFirstConnect := false },
      if c.enableBackgroundScans then some .scan else none)

def Monitor.change (m : Monitor) (new : State) : Monitor :=
  if new ∈ successors b.nl80211 (readState m.state m.queue) then
    { m with queue := m.queue ++ [.transition new] }
  else m

def Monitor.request (m : Monitor) : Option State → Except Failure Monitor
  | none => .ok m
  | some new =>
    if new ∈ successors b.nl80211 m.state then .ok (m.change b new)
    else .error (.notAdmitted m.state new)

def Monitor.enter (m : Monitor) (env : Environment) (new : State) : Except Failure Monitor :=
  m.onChange c b env new >>= fun changed => changed.1.request b changed.2

/-- What happens to a monitor: something is reported, it is stopped, dhclient answers to a connect
with an interface that is up or not, and a message is taken from the queue. -/
inductive Occurrence where
  | report (report : Report)
  | stop
  | answer (up : Bool)
  | dispatch (env : Environment)
  deriving DecidableEq, Repr

def Monitor.step (m : Monitor) : Occurrence → Except Failure Monitor
  | .report report => .ok (m.change b report.state)
  | .stop => .ok { m with queue := m.queue ++ [.stop] }
  | .answer up =>
    -- the callback disconnects, which resets the connection
    .ok (if m.connection then
      { m with connection := false }.change b (if up then .connected else .connect)
    else m)
  | .dispatch env =>
    match m.queue with
    | [] => .ok m
    | .stop :: queue => .ok { m with queue := queue }
    | .transition new :: queue => { m with queue := queue }.enter c b env new

def Monitor.Passes (m : Monitor) (env : Environment) : State → Prop
  | .authenticate => c.SSID ≠ [] ∧ env.cached c ∧ ¬ env.roams c
  | .associate => c.SSID ≠ [] ∧ env.cached c ∧ ¬ env.elsewhere c
  | .deauthenticate | .disassociate => env.SSID ≠ []
  | .connect => c.SSID ≠ [] ∧ ¬ env.elsewhere c ∧ (b.dhclient → ¬ m.connection)
  | .disconnect => env.cached c ∧ env.SSID ≠ [] ∧ (b.dhclient → ¬ m.connection)
  | .scanned =>
    match m.previous env with
    | .authenticated => env.lost c ∧ m.isConnectionNotified ∧ env.cached c ∧ c.autoAssociate
    | .associated =>
      (env.lost c → m.isConnectionNotified) ∧
        (b.nl80211 ∨ env.lost c ∧ env.cached c ∧ c.autoAssociate)
    | .connected => env.lost c → m.isConnectionNotified
    | _ => True
  | _ => True

def Monitor.Regular (m : Monitor) : Occurrence → Prop
  | .dispatch env =>
    match m.queue with
    | .transition new :: _ => m.Passes c b env new
    | _ => True
  | _ => True

end Step

def Succeeds {α : Type} (x : Except Failure α) : Prop := ∃ y, x = .ok y

section Succeeds

variable {α : Type} {f : Unit → Except Failure α}

@[simp] theorem succeeds_ok (y : α) : Succeeds (.ok y) := ⟨y, rfl⟩

@[simp] theorem not_succeeds_error (failure : Failure) :
    ¬ Succeeds (.error failure : Except Failure α) := fun ⟨_, h⟩ => nomatch h

@[simp] theorem ok_bind {β : Type} (y : β) (g : β → Except Failure α) :
    ((.ok y : Except Failure β) >>= g) = g y := rfl

@[simp] theorem succeeds_assert {holds : Bool} :
    Succeeds (assert holds >>= f) ↔ holds ∧ Succeeds (f ()) := by
  cases holds with
  | false => simp [assert, bind, Except.bind]
  | true => simp [assert, bind, Except.bind]

@[simp] theorem succeeds_request {b : Build} {m : Monitor} {new : State} :
    Succeeds (m.request b (some new)) ↔ new ∈ successors b.nl80211 m.state := by
  rw [Monitor.request]
  split_ifs with h
  · simp [h]
  · simp [h]

@[simp] theorem succeeds_request_none {b : Build} {m : Monitor} :
    Succeeds (m.request b none) := ⟨m, rfl⟩

end Succeeds

section Enter

variable {c : Configuration} {b : Build} {m : Monitor} {env : Environment} {new : State}

/-- What the configuration has to be for a state to wait in the queue: only `onChange` asks for a
disconnect, and it looks for a configured network before. -/
def Askable (c : Configuration) : State → Prop
  | .invalid => False
  | .disconnect => c.SSID ≠ []
  | _ => True

theorem succeeds_idle : Succeeds (m.enter c b env .idle) := by
  rw [Monitor.enter, Monitor.onChange]
  split_ifs with hactive hssid hfirst hwait
  · simp [successors]
  · simp [successors]
  · simp [successors]
  · simp [successors]
  · simp only [Bool.or_eq_true, Bool.not_eq_true', not_or, Bool.not_eq_false, Bool.not_eq_true] at hssid hwait
    simp [bind_assoc, hssid, hwait, successors]

theorem succeeds_polled {reached state : State} (hreached : reached ∈ successors b.nl80211 state)
    (hidle : .idle ∈ successors b.nl80211 state) (hstate : m.state = state) :
    Succeeds (m.request b (polledState b reached env)) := by
  subst hstate
  rw [polledState]
  cases b.wext with
  | false => exact succeeds_request_none
  | true => cases env.polled <;> simp [hreached, hidle]

theorem succeeds_left (hidle : .idle ∈ successors b.nl80211 m.state)
    (hscanned : .scanned ∈ successors b.nl80211 m.state) :
    Succeeds (m.request b (leftState c b env)) := by
  rw [leftState]
  split_ifs <;> simp [hidle, hscanned]

/-- A state that looks for the configured network, and gives up where the interface is connected
elsewhere: it cannot be left by a disconnect. -/
theorem succeeds_search {reached : State} {away : Bool}
    (hreached : reached ∈ successors b.nl80211 m.state)
    (hidle : .idle ∈ successors b.nl80211 m.state)
    (hdisconnect : .disconnect ∉ successors b.nl80211 m.state) :
    Succeeds ((assert !c.SSID.isEmpty) >>= fun _ => assert (env.cached c) >>= fun _ =>
      (if away then .ok (m, some .disconnect) else .ok (m, polledState b reached env)) >>=
        fun changed : Monitor × Option State => changed.1.request b changed.2) ↔
      c.SSID ≠ [] ∧ env.cached c ∧ ¬ away := by
  have hset : (!c.SSID.isEmpty) = true ↔ c.SSID ≠ [] := by simp
  have hpolled : Succeeds (m.request b (polledState b reached env)) :=
    succeeds_polled hreached hidle rfl
  simp only [succeeds_assert, hset]
  refine and_congr_right fun _ => and_congr_right fun _ => ?_
  cases away with
  | true => simp [hdisconnect]
  | false => simpa using hpolled

theorem succeeds_authenticate :
    Succeeds (m.enter c b env .authenticate) ↔ m.Passes c b env .authenticate := by
  rw [Monitor.enter, Monitor.onChange, Monitor.Passes]
  simp only [bind_assoc]
  apply succeeds_search <;> simp [successors]

theorem succeeds_associate :
    Succeeds (m.enter c b env .associate) ↔ m.Passes c b env .associate := by
  rw [Monitor.enter, Monitor.onChange, Monitor.Passes]
  simp only [bind_assoc]
  apply succeeds_search <;> simp [successors]

theorem succeeds_leave (hidle : .idle ∈ successors b.nl80211 m.state)
    (hscanned : .scanned ∈ successors b.nl80211 m.state) :
    Succeeds ((assert !env.SSID.isEmpty) >>= fun _ => m.request b (leftState c b env)) ↔
      env.SSID ≠ [] := by
  have hleft : Succeeds (m.request b (leftState c b env)) := succeeds_left hidle hscanned
  simp [hleft]

theorem succeeds_deauthenticate :
    Succeeds (m.enter c b env .deauthenticate) ↔ m.Passes c b env .deauthenticate := by
  rw [Monitor.enter, Monitor.onChange, Monitor.Passes]
  simp only [bind_assoc, ok_bind]
  apply succeeds_leave <;> simp [successors]

theorem succeeds_disassociate :
    Succeeds (m.enter c b env .disassociate) ↔ m.Passes c b env .disassociate := by
  rw [Monitor.enter, Monitor.onChange, Monitor.Passes]
  simp only [bind_assoc, ok_bind]
  apply succeeds_leave <;> simp [successors]

theorem succeeds_connect : Succeeds (m.enter c b env .connect) ↔ m.Passes c b env .connect := by
  rw [Monitor.enter, Monitor.onChange, Monitor.Passes]
  simp only [bind_assoc, succeeds_assert]
  by_cases haway : env.elsewhere c = true
  · simp [haway, successors]
  · cases b.dhclient <;> simp [haway, bind_assoc]

theorem succeeds_disconnect (h : c.SSID ≠ []) :
    Succeeds (m.enter c b env .disconnect) ↔ m.Passes c b env .disconnect := by
  have hset : (!c.SSID.isEmpty) = true := by simpa using h
  rw [Monitor.enter, Monitor.onChange, Monitor.Passes]
  simp only [bind_assoc, succeeds_assert, hset, true_and]
  refine and_congr_right fun _ => ?_
  cases b.dhclient with
  | false => simp [successors]
  | true =>
    simp only [if_true, bind_assoc, succeeds_assert, ok_bind]
    split_ifs <;> simp [successors]

theorem succeeds_rescanned {previous next : State}
    (hnext : next ∈ successors b.nl80211 previous) :
    Succeeds (m.rescanned c env previous next >>= fun changed => changed.1.request b changed.2) ↔
      (env.lost c → m.isConnectionNotified) ∧
        (.idle ∈ successors b.nl80211 previous ∨ env.lost c ∧ env.cached c ∧ c.autoAssociate) := by
  rw [Monitor.rescanned]
  by_cases hlost : env.lost c = true
  · simp only [hlost, if_true, bind_assoc, succeeds_assert, ok_bind, succeeds_request, true_and,
      forall_const]
    refine and_congr_right fun _ => ?_
    by_cases hassociate : env.cached c = true ∧ c.autoAssociate = true
    · simp [hassociate, hnext]
    · simp only [Bool.and_eq_true, hassociate, if_false, or_false]
  · simp [hlost]

theorem succeeds_scanned : Succeeds (m.enter c b env .scanned) ↔ m.Passes c b env .scanned := by
  rw [Monitor.enter, Monitor.onChange, Monitor.Passes]
  cases m.previous env with
  | authenticated =>
    rw [succeeds_rescanned (by simp [successors])]
    have hrow : .idle ∉ successors b.nl80211 .authenticated := by simp [successors]
    simp only [hrow, false_or]
    tauto
  | associated =>
    rw [succeeds_rescanned (by simp [successors])]
    have hrow : .idle ∈ successors b.nl80211 .associated ↔ b.nl80211 = true := by
      simp [successors]
    rw [hrow]
  | connected =>
    rw [succeeds_rescanned (by simp [successors])]
    simp [successors]
  | _ => simp [successors]

theorem succeeds_enter (h : Askable c new) :
    Succeeds (m.enter c b env new) ↔ m.Passes c b env new := by
  cases new with
  | invalid => exact absurd h id
  | idle => exact iff_of_true succeeds_idle trivial
  | authenticate => exact succeeds_authenticate
  | associate => exact succeeds_associate
  | connect => exact succeeds_connect
  | disconnect => exact succeeds_disconnect h
  | disassociate => exact succeeds_disassociate
  | deauthenticate => exact succeeds_deauthenticate
  | scanned => exact succeeds_scanned
  | initialized => exact iff_of_true ⟨_, rfl⟩ trivial
  | scan =>
    refine iff_of_true ?_ trivial
    rw [Monitor.enter, Monitor.onChange, scanState]
    split_ifs <;> simp [successors]
  | authenticated =>
    refine iff_of_true ?_ trivial
    rw [Monitor.enter, Monitor.onChange]
    split_ifs <;> simp [successors]
  | associated =>
    refine iff_of_true ?_ trivial
    rw [Monitor.enter, Monitor.onChange]
    split_ifs <;> simp [successors]
  | connected =>
    refine iff_of_true ?_ trivial
    rw [Monitor.enter, Monitor.onChange]
    split_ifs <;> simp [successors]

def Gives {α : Type} (P : α → Prop) (x : Except Failure α) : Prop := ∀ y, x = .ok y → P y

section Gives

variable {α : Type} {P : α → Prop} {f : Unit → Except Failure α}

@[simp] theorem gives_ok {y : α} : Gives P (.ok y) ↔ P y :=
  ⟨fun h => h y rfl, fun h _ hz => Except.ok.inj hz ▸ h⟩

@[simp] theorem gives_error (failure : Failure) : Gives P (.error failure) :=
  fun _ h => nomatch h

@[simp] theorem gives_assert {holds : Bool} :
    Gives P (assert holds >>= f) ↔ (holds → Gives P (f ())) := by
  cases holds with
  | false => simp [assert, bind, Except.bind]
  | true => simp [assert, bind, Except.bind]

end Gives

/-- A change of state leaves the queue to its request, which the configuration allows. -/
def Sound (c : Configuration) (m : Monitor) (changed : Monitor × Option State) : Prop :=
  changed.1.queue = m.queue ∧ ∀ new ∈ changed.2, Askable c new

theorem sound_rescanned {previous next : State} (hnext : c.SSID ≠ [] → Askable c next) :
    Gives (Sound c m) (m.rescanned c env previous next) := by
  rw [Monitor.rescanned]
  by_cases hlost : env.lost c = true
  · have hset : c.SSID ≠ [] := by
      have hparts := hlost
      rw [Environment.lost, Bool.and_eq_true] at hparts
      simpa using hparts.1
    simp only [hlost, if_true, gives_assert, gives_ok]
    refine fun _ => ⟨rfl, ?_⟩
    split_ifs
    · simpa using hnext hset
    · simp [Askable]
  · simp [hlost, Sound, Askable]

theorem sound_polled {reached : State} (hreached : Askable c reached) :
    ∀ new ∈ polledState b reached env, Askable c new := by
  rw [polledState]
  cases b.wext with
  | false => simp
  | true =>
    have hidle : Askable c .idle := trivial
    cases env.polled <;> simp [hreached, hidle]

theorem sound_left : ∀ new ∈ leftState c b env, Askable c new := by
  rw [leftState]
  split_ifs <;> simp [Askable]

theorem sound_onChange : Gives (Sound c m) (m.onChange c b env new) := by
  cases new with
  | invalid => exact gives_error _
  | initialized => simp [Monitor.onChange, Sound]
  | idle =>
    rw [Monitor.onChange]
    split_ifs with hactive hssid hfirst hwait
    · simp [Sound, Askable]
    · simp [Sound, Askable]
    · simp [Sound, Askable]
    · simp [Sound, Askable]
    · simp only [gives_assert, gives_ok]
      exact fun hall => ⟨rfl, by simp_all [Askable]⟩
  | scan =>
    rw [Monitor.onChange, scanState]
    split_ifs <;> simp [Sound, Askable]
  | authenticate =>
    simp only [Monitor.onChange, gives_assert]
    intro hset _
    split_ifs
    · simpa [Sound, Askable] using hset
    · exact gives_ok.2 ⟨rfl, sound_polled trivial⟩
  | associate =>
    simp only [Monitor.onChange, gives_assert]
    intro hset _
    split_ifs
    · simpa [Sound, Askable] using hset
    · exact gives_ok.2 ⟨rfl, sound_polled trivial⟩
  | deauthenticate => exact gives_assert.2 fun _ => gives_ok.2 ⟨rfl, sound_left⟩
  | disassociate => exact gives_assert.2 fun _ => gives_ok.2 ⟨rfl, sound_left⟩
  | connect =>
    simp only [Monitor.onChange, gives_assert]
    intro hset
    split_ifs
    · simpa [Sound, Askable] using hset
    · simp [Sound]
    · simp [Sound]
  | disconnect =>
    simp only [Monitor.onChange, gives_assert]
    intro _ _ _
    split_ifs <;> simp [Sound, Askable]
  | scanned =>
    rw [Monitor.onChange]
    cases m.previous env with
    | authenticated => exact sound_rescanned fun _ => trivial
    | associated => exact sound_rescanned fun _ => trivial
    | connected => exact sound_rescanned fun hset => hset
    | _ => simp [Sound, Askable]
  | authenticated =>
    rw [Monitor.onChange]
    split_ifs with hroams hother <;> simp_all [Sound, Askable]
  | associated =>
    rw [Monitor.onChange]
    split_ifs <;> simp [Sound, Askable]
  | connected =>
    rw [Monitor.onChange]
    split_ifs <;> simp [Sound, Askable]

end Enter

section Run

variable {c : Configuration} {b : Build} {m m' : Monitor}

/-- Only states that the configuration allows wait in the queue. -/
def Monitor.Kept (c : Configuration) (m : Monitor) : Prop :=
  ∀ new ∈ transitions m.queue, Askable c new

theorem Monitor.Kept.append {queue : List Message} {message : Message}
    (h : ∀ new ∈ transitions queue, Askable c new)
    (hmessage : ∀ new ∈ message.state, Askable c new) :
    ∀ new ∈ transitions (queue ++ [message]), Askable c new := by
  intro new hin
  rw [transitions, List.filterMap_append, List.mem_append] at hin
  rcases hin with hin | hin
  · exact h new hin
  · refine hmessage new ?_
    cases message with
    | stop => simp [Message.state] at hin
    | transition state => simpa [Message.state, eq_comm] using hin

theorem Monitor.Kept.change {new : State} (h : m.Kept c) (hnew : Askable c new) :
    (m.change b new).Kept c := by
  rw [Monitor.change]
  split_ifs with hadmits
  · exact Monitor.Kept.append h (by simpa [Message.state] using hnew)
  · exact h

theorem Monitor.Kept.request {state : Option State} (h : m.Kept c)
    (hstate : ∀ new ∈ state, Askable c new) (hrequest : m.request b state = .ok m') :
    m'.Kept c := by
  cases state with
  | none =>
    cases hrequest
    exact h
  | some new =>
    rw [Monitor.request] at hrequest
    split_ifs at hrequest with hadmits
    cases hrequest
    exact h.change (hstate new rfl)

theorem Report.askable (c : Configuration) (report : Report) : Askable c report.state := by
  cases report <;> trivial

theorem Monitor.Kept.enter {env : Environment} {new : State} (h : m.Kept c)
    (henter : m.enter c b env new = .ok m') : m'.Kept c := by
  rw [Monitor.enter] at henter
  cases hchanged : m.onChange c b env new with
  | error failure =>
    rw [hchanged] at henter
    cases henter
  | ok changed =>
    rw [hchanged] at henter
    obtain ⟨hqueue, hasked⟩ := sound_onChange changed hchanged
    have hkept : changed.1.Kept c := by
      rw [Monitor.Kept, hqueue]
      exact h
    exact hkept.request hasked henter

theorem Monitor.Kept.step {e : Occurrence} (h : m.Kept c) (hstep : m.step c b e = .ok m') :
    m'.Kept c := by
  obtain ⟨state, queue, isConnectionNotified, isFirstConnect, connection⟩ := m
  cases e with
  | report report =>
    cases hstep
    exact h.change (report.askable c)
  | stop =>
    cases hstep
    exact Monitor.Kept.append h (by simp [Message.state])
  | answer up =>
    cases hstep
    dsimp only
    split_ifs
    · exact Monitor.Kept.change h trivial
    · exact Monitor.Kept.change h trivial
    · exact h
  | dispatch env =>
    cases queue with
    | nil =>
      cases hstep
      exact h
    | cons message queue =>
      cases message with
      | stop =>
        cases hstep
        exact h
      | transition new =>
        refine Monitor.Kept.enter (fun state hin => ?_) hstep
        exact h state (List.mem_cons_of_mem new hin)

theorem succeeds_step {e : Occurrence} (h : m.Kept c) :
    Succeeds (m.step c b e) ↔ m.Regular c b e := by
  obtain ⟨state, queue, isConnectionNotified, isFirstConnect, connection⟩ := m
  cases e with
  | report report => exact iff_of_true (succeeds_ok _) trivial
  | stop => exact iff_of_true (succeeds_ok _) trivial
  | answer up => exact iff_of_true (succeeds_ok _) trivial
  | dispatch env =>
    cases queue with
    | nil => exact iff_of_true (succeeds_ok _) trivial
    | cons message queue =>
      cases message with
      | stop => exact iff_of_true (succeeds_ok _) trivial
      | transition new => exact succeeds_enter (h new List.mem_cons_self)

end Run

/-- A run of the monitor fails no assertion and requests only what the table admits exactly where
every state is entered as it needs it. -/
theorem passes_iff (c : Configuration) (b : Build) (occurrences : List Occurrence) :
    (∃ m, Runs.run (Monitor.step c b) {} occurrences = .ok m) ↔
      Runs.Along (Monitor.step c b) (Monitor.Regular c b) {} occurrences := by
  refine Runs.run_ok_iff (Monitor.Kept c) (fun m e h => succeeds_step h)
    (fun m e m' h hstep => h.step hstep) ?_
  intro new hin
  cases hin

/-- With the wireless extensions: the configured network is found and connected to. -/
example : (Runs.run (Monitor.step ⟨[65], true, false⟩ ⟨true, false, false⟩) {}
    [.report .initialized, .dispatch {}, .report .idle, .dispatch { cache := [[65]] },
      .dispatch { cache := [[65]] }, .dispatch { SSID := [65] }, .dispatch { SSID := [65] },
      .dispatch { SSID := [65] }]).toOption.map Monitor.state = some .connected := by decide

/-- The configured network comes into reach; before the monitor authenticates, the interface has
been connected to another one. -/
def overtaken : List Occurrence :=
  [.report .initialized, .dispatch {}, .report .idle, .dispatch { cache := [[65]] },
    .dispatch { SSID := [66], cache := [[65]] }]

theorem overtaken_not_admitted :
    ¬ ∀ c b occurrences, ∃ m, Runs.run (Monitor.step c b) {} occurrences = .ok m := by
  intro h
  obtain ⟨m, hrun⟩ := h ⟨[65], true, false⟩ ⟨false, true, false⟩ overtaken
  have hfails : Runs.run (Monitor.step ⟨[65], true, false⟩ ⟨false, true, false⟩) {} overtaken =
      .error (.notAdmitted .authenticate .disconnect) := by decide
  rw [hfails] at hrun
  cases hrun

end ACENetwork.WLAN
