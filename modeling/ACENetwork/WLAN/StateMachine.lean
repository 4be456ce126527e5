import ACENetwork.Library.Runs

/-!
# The state machine of the WLAN monitor

`Net_WLAN_MonitorStateMachine` as it is built for Linux: the table of transitions, the state that
`change` reads off the queue, and the interleavings of changes with the dispatch of what has been
queued.
-/
namespace ACENetwork.WLAN
open Library

inductive State where
  | invalid
  | idle
  | scan
  | authenticate
  | associate
  | connect
  | disconnect
  | disassociate
  | deauthenticate
  | initialized
  | scanned
  | authenticated
  | associated
  | connected
  deriving DecidableEq, Repr

/-- The transitions that `change` admits from a state; some of them with nl80211 only. -/
def successors (nl80211 : Bool) : State → List State
  | .invalid => [.initialized]
  | .idle =>
    [.invalid, .idle, .scan, .authenticate, .initialized, .scanned, .authenticated, .connected] ++
      if nl80211 then
        [.deauthenticate, .associate, .disassociate, .connect, .disconnect, .associated]
      else []
  | .scan =>
    [.invalid, .idle, .scan, .initialized, .scanned] ++ if nl80211 then [.associate] else []
  | .authenticate =>
    [.invalid, .idle, .authenticate, .deauthenticate, .initialized, .scanned, .authenticated]
  | .associate =>
    [.invalid, .idle, .associate, .disassociate, .initialized, .scanned, .associated] ++
      if nl80211 then [.scan] else []
  | .deauthenticate => [.invalid, .idle, .initialized, .scanned]
  | .disassociate => [.invalid, .authenticated, .idle, .initialized, .scanned]
  | .connect =>
    [.invalid, .initialized, .scanned, .associated, .connected] ++ if nl80211 then [.idle] else []
  | .disconnect => [.invalid, .disassociate, .initialized, .scanned]
  | .initialized => [.invalid, .idle, .initialized, .connected]
  | .scanned =>
    [.invalid, .idle, .authenticate, .initialized, .scanned, .authenticated, .associated,
      .connected]
  | .authenticated =>
    [.invalid, .scan, .associate, .deauthenticate, .initialized, .scanned, .associated]
  | .associated =>
    [.invalid, .scan, .connect, .disassociate, .initialized, .scanned, .authenticated,
      .connected] ++ if nl80211 then [.idle] else []
  | .connected => [.invalid, .idle, .scan, .connect, .disconnect, .initialized, .scanned]

/-- A message of the queue: a transition, or `MB_STOP`. -/
inductive Message where
  | transition (state : State)
  | stop
  deriving DecidableEq, Repr

def Message.state : Message → Option State
  | .transition state => some state
  | .stop => none

/-- The state that `change` starts from: the loop over the queue leaves before it reads the last
message. -/
def readState (state : State) : List Message → State
  | [] => state
  | [_] => state
  | .stop :: queue => readState state queue
  | .transition state :: queue => readState state queue

/-- The state machine. A change that has been admitted is appended to the queue behind the lock of
the queue; a transition that has been taken from it is applied, or not. -/
structure Machine where
  state : State := .invalid
  queue : List Message := []
  changing : Option State := none
  dispatched : Option State := none
  accepted : List State := []
  passed : List State := []
  deriving DecidableEq, Repr

/-- What any thread does: a change up to the lock of the queue and behind it, a stop; and what the
dispatcher does: it takes a message, and `state_` is set by `onChange` or when that returns true, or
it is not. -/
inductive Event where
  | change (new : State)
  | append
  | stop
  | dispatch
  | apply
  | refuse
  deriving DecidableEq, Repr

section Step

variable (nl80211 : Bool)

def Machine.next (m : Machine) : Event → Machine
  | .change new =>
    -- another change holds the lock of the state
    if m.changing ≠ none then m
    else if new ∈ successors nl80211 (readState m.state m.queue) then
      { m with changing := some new, accepted := m.accepted ++ [new] }
    else m
  | .append =>
    { m with
      queue := m.queue ++ m.changing.toList.map Message.transition
      changing := none }
  | .stop => { m with queue := m.queue ++ [.stop] }
  | .dispatch =>
    match m.dispatched, m.queue with
    | none, .stop :: queue => { m with queue := queue }
    | none, .transition state :: queue => { m with queue := queue, dispatched := some state }
    | _, _ => m
  | .apply =>
    match m.dispatched with
    | none => m
    | some state =>
      { m with state := state, dispatched := none, passed := m.passed ++ [state] }
  | .refuse => { m with dispatched := none }

def Machine.step (m : Machine) (e : Event) : Except Empty Machine := .ok (m.next nl80211 e)

def Path (start : State) (states : List State) : Prop :=
  (start :: states).IsChain fun s t => t ∈ successors nl80211 s

/-- The states that have been accepted and those that have been passed are paths of the table. -/
structure Machine.Lawful (m : Machine) : Prop where
  accepted : Path nl80211 .invalid m.accepted
  passed : Path nl80211 .invalid m.passed

end Step

def endOf (start : State) (states : List State) : State := states.foldl (fun _ t => t) start

def transitions (queue : List Message) : List State := queue.filterMap Message.state

/-- A change finds no transition at the end of the queue, and the last accepted state as the current
one where it finds none at all; a transition is not refused while others wait behind it. -/
def Machine.Regular (m : Machine) : Event → Prop
  | .change _ =>
    m.changing = none → m.queue.getLast?.bind Message.state = none ∧
      (transitions m.queue = [] → m.state = endOf .invalid m.accepted)
  | .refuse => m.dispatched ≠ none → transitions m.queue = [] ∧ m.changing = none
  | _ => True

section Path

variable {nl80211 : Bool} {start s t : State} {states states' : List State}

@[simp] theorem endOf_nil (start : State) : endOf start [] = start := rfl

theorem endOf_append (start : State) (states states' : List State) :
    endOf start (states ++ states') = endOf (endOf start states) states' := List.foldl_append

theorem endOf_eq (h : states ≠ []) (s t : State) : endOf s states = endOf t states := by
  obtain ⟨u, states, rfl⟩ := List.exists_cons_of_ne_nil h
  rfl

theorem path_nil (start : State) : Path nl80211 start [] := List.isChain_singleton start

theorem path_cons :
    Path nl80211 start (t :: states) ↔ t ∈ successors nl80211 start ∧ Path nl80211 t states :=
  List.isChain_cons_cons

theorem Path.concat (h : Path nl80211 start states)
    (ht : t ∈ successors nl80211 (endOf start states)) : Path nl80211 start (states ++ [t]) := by
  induction states generalizing start with
  | nil => exact path_cons.2 ⟨ht, path_nil t⟩
  | cons u states ih =>
    obtain ⟨hu, hrest⟩ := path_cons.1 h
    exact path_cons.2 ⟨hu, ih hrest ht⟩

theorem readState_eq {queue : List Message} (h : queue.getLast?.bind Message.state = none)
    (state : State) : readState state queue = endOf state (transitions queue) := by
  induction queue generalizing state with
  | nil => rfl
  | cons message queue ih =>
    cases queue with
    | nil =>
      cases message with
      | transition t => cases h
      | stop => rfl
    | cons next queue =>
      rw [List.getLast?_cons_cons] at h
      cases message with
      | transition t => exact ih h t
      | stop => exact ih h state

end Path

section Run

variable {nl80211 : Bool} {m m' : Machine}

def Machine.waiting (m : Machine) : List State :=
  m.dispatched.toList ++ transitions m.queue ++ m.changing.toList

/-- What holds of a machine whose changes have been regular: what waits goes on from the current
state, and up to the last accepted one. -/
structure Machine.Kept (nl80211 : Bool) (m : Machine) : Prop where
  lawful : m.Lawful nl80211
  state : endOf .invalid m.passed = m.state
  path : Path nl80211 m.state m.waiting
  last : m.waiting ≠ [] → endOf m.state m.waiting = endOf .invalid m.accepted

/-- A step that neither applies nor accepts a transition. -/
theorem Machine.Kept.of_waiting (h : m.Kept nl80211) (hstate : m'.state = m.state)
    (hwaiting : m'.waiting = m.waiting) (haccepted : m'.accepted = m.accepted)
    (hpassed : m'.passed = m.passed) : m'.Kept nl80211 := by
  refine ⟨⟨?_, ?_⟩, ?_, ?_, ?_⟩
  · rw [haccepted]
    exact h.lawful.accepted
  · rw [hpassed]
    exact h.lawful.passed
  · rw [hpassed, hstate]
    exact h.state
  · rw [hstate, hwaiting]
    exact h.path
  · rw [hwaiting, hstate, haccepted]
    exact h.last

/-- A regular change reads the last accepted state, and where nothing waits the current one. -/
theorem Machine.Kept.readState_eq (h : m.Kept nl80211) (hchanging : m.changing = none)
    (hregular : m.Regular (.change t)) :
    readState m.state m.queue = endOf .invalid m.accepted ∧
      endOf m.state m.waiting = endOf .invalid m.accepted := by
  obtain ⟨hlast, hcurrent⟩ := hregular hchanging
  have hread := WLAN.readState_eq hlast m.state
  have hwaiting : m.waiting = m.dispatched.toList ++ transitions m.queue := by
    rw [Machine.waiting, hchanging, Option.toList_none, List.append_nil]
  by_cases hnone : transitions m.queue = []
  · rw [hnone, endOf_nil] at hread
    refine ⟨hread.trans (hcurrent hnone), ?_⟩
    by_cases hall : m.waiting = []
    · rw [hall, endOf_nil]
      exact hcurrent hnone
    · exact h.last hall
  · have hne : m.waiting ≠ [] := by
      rw [hwaiting]
      exact List.append_ne_nil_of_right_ne_nil _ hnone
    refine ⟨?_, h.last hne⟩
    rw [hread, ← h.last hne, hwaiting, endOf_append]
    exact endOf_eq hnone _ _

theorem kept_change {new : State} (h : m.Kept nl80211) (hregular : m.Regular (.change new)) :
    (m.next nl80211 (.change new)).Kept nl80211 := by
  rw [Machine.next]
  split_ifs with hchanging hadmits
  · exact h
  · obtain ⟨hread, hend⟩ := h.readState_eq (not_not.mp hchanging) hregular
    have hwaiting : Machine.waiting { m with changing := some new, accepted := m.accepted ++ [new] } =
        m.waiting ++ [new] := by
      rw [Machine.waiting, Machine.waiting, not_not.mp hchanging, Option.toList_none,
        List.append_nil]
      rfl
    refine ⟨⟨h.lawful.accepted.concat (hread ▸ hadmits), h.lawful.passed⟩, h.state, ?_, fun _ => ?_⟩
    · rw [hwaiting]
      refine h.path.concat ?_
      rw [hend, ← hread]
      exact hadmits
    · rw [hwaiting, endOf_append, endOf_append]
      rfl
  · exact h

theorem kept_dispatch (h : m.Kept nl80211) : (m.next nl80211 .dispatch).Kept nl80211 := by
  obtain ⟨state, queue, changing, dispatched, accepted, passed⟩ := m
  cases dispatched with
  | some t => exact h
  | none =>
    cases queue with
    | nil => exact h
    | cons message queue =>
      cases message with
      | stop => exact h.of_waiting rfl rfl rfl rfl
      | transition t => exact h.of_waiting rfl rfl rfl rfl

theorem kept_apply (h : m.Kept nl80211) : (m.next nl80211 .apply).Kept nl80211 := by
  obtain ⟨state, queue, changing, dispatched, accepted, passed⟩ := m
  cases dispatched with
  | none => exact h
  | some t =>
    obtain ⟨⟨haccepted, hpassed⟩, hstate, hpath, hlast⟩ := h
    obtain ⟨hadmits, hrest⟩ := path_cons.1 hpath
    refine ⟨⟨haccepted, hpassed.concat (hstate ▸ hadmits)⟩, ?_, hrest, fun _ => ?_⟩
    · show endOf .invalid (passed ++ [t]) = t
      rw [endOf_append]
      rfl
    · exact hlast (List.cons_ne_nil _ _)

theorem kept_refuse (h : m.Kept nl80211) (hregular : m.Regular .refuse) :
    (m.next nl80211 .refuse).Kept nl80211 := by
  obtain ⟨state, queue, changing, dispatched, accepted, passed⟩ := m
  cases dispatched with
  | none => exact h
  | some t =>
    have hbehind : transitions queue = [] ∧ changing = none := hregular (Option.some_ne_none t)
    obtain ⟨hnone, rfl⟩ := hbehind
    have hwaiting : Machine.waiting ⟨state, queue, none, none, accepted, passed⟩ = [] := by
      rw [Machine.waiting, hnone]
      rfl
    refine ⟨⟨h.lawful.accepted, h.lawful.passed⟩, h.state, ?_, fun hne => absurd hwaiting hne⟩
    show Path nl80211 state (Machine.waiting ⟨state, queue, none, none, accepted, passed⟩)
    rw [hwaiting]
    exact path_nil state

theorem kept_step {e : Event} (h : m.Kept nl80211) (hregular : m.Regular e)
    (hstep : m.step nl80211 e = .ok m') : m'.Kept nl80211 := by
  cases hstep
  cases e with
  | change new => exact kept_change h hregular
  | append =>
    refine h.of_waiting rfl ?_ rfl rfl
    obtain ⟨state, queue, changing, dispatched, accepted, passed⟩ := m
    cases changing with
    | none => simp [Machine.next, Machine.waiting]
    | some t => simp [Machine.next, Machine.waiting, transitions, Message.state]
  | stop =>
    refine h.of_waiting rfl ?_ rfl rfl
    simp [Machine.next, Machine.waiting, transitions, Message.state]
  | dispatch => exact kept_dispatch h
  | apply => exact kept_apply h
  | refuse => exact kept_refuse h hregular

end Run

/-- Where the last message is no transition when a change walks the queue, and a change that finds
none finds the last accepted state, the machine is lawful in every state it reaches. -/
theorem lawful_of_regular (nl80211 : Bool) {m : Machine} {events : List Event}
    (h : Runs.Along (Machine.step nl80211) Machine.Regular {} events)
    (hrun : Runs.run (Machine.step nl80211) {} events = .ok m) : m.Lawful nl80211 := by
  have hstart : Machine.Kept nl80211 {} :=
    ⟨⟨path_nil _, path_nil _⟩, rfl, path_nil _, fun hne => absurd rfl hne⟩
  exact (Runs.run_invariant (Machine.Kept nl80211) (fun _ _ _ => kept_step) hstart h hrun).lawful

instance Machine.Regular.decidable (m : Machine) (e : Event) : Decidable (m.Regular e) :=
  match e with
  | .change _ => inferInstanceAs (Decidable (_ → _ ∧ (_ → _)))
  | .refuse => inferInstanceAs (Decidable (_ → _ ∧ _))
  | .append | .stop | .dispatch | .apply => isTrue trivial

instance Path.decidable (nl80211 : Bool) (start : State) (states : List State) :
    Decidable (Path nl80211 start states) :=
  inferInstanceAs (Decidable (List.IsChain _ _))

def oneByOne : List Event :=
  [.change .initialized, .append, .dispatch, .apply, .change .idle, .append, .stop, .change .scan,
    .append, .dispatch, .apply]

theorem one_by_one_lawful :
    (Runs.run (Machine.step false) {} oneByOne).toOption.any
      (fun m => m.accepted == [.initialized, .idle, .scan]) = true ∧
    ∀ m, Runs.run (Machine.step false) {} oneByOne = .ok m → m.Lawful false :=
  ⟨by decide, fun _ hrun => lawful_of_regular false (by decide) hrun⟩

def twoChanges : List Event :=
  [.change .initialized, .append, .dispatch, .apply, .change .idle, .append, .dispatch, .apply,
    .change .scan, .append, .change .authenticate, .append]

/-- The second change is checked against IDLE, not against SCAN. -/
theorem two_changes_not_lawful :
    ¬ ∀ m, Runs.run (Machine.step false) {} twoChanges = .ok m → m.Lawful false := by
  intro h
  have haccepted : (Runs.run (Machine.step false) {} twoChanges).toOption.any
      (fun m => m.accepted == [.initialized, .idle, .scan, .authenticate]) = true := by decide
  cases hrun : Runs.run (Machine.step false) {} twoChanges with
  | error f => cases f
  | ok m =>
    rw [hrun] at haccepted
    have hlawful := (h m hrun).accepted
    rw [beq_iff_eq.mp haccepted] at hlawful
    exact absurd hlawful (by decide)

end ACENetwork.WLAN
