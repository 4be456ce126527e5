import ACENetwork.BitTorrent.Session.Handlers
import ACENetwork.Library.Runs

/-!
# The connection threads of a session

Every reply of the tracker with peers spawns a group of threads. Each thread takes an address,
connects to it and waits for the others; the one that has taken the last address then resets
`connecting`, also while the threads of another reply are connecting.
-/
namespace ACENetwork.BitTorrent.Session.Connecting
open Library

/-- Where a thread is in `net_bittorrent_session_setup_function`: what it has taken, and whether it
has to delete the data of its group. -/
inductive Stage where
  | spawned
  | connecting (peer : InetAddr) (deletes : Bool)
  /-- at the barrier or behind it -/
  | waiting (peer : InetAddr) (deletes : Bool)
  /-- `connecting` has been reset -/
  | reset (peer : InetAddr)
  /-- the data of the group has been deleted -/
  | freed (peer : InetAddr)
  deriving DecidableEq, Repr

namespace Stage

def peer? : Stage → Option InetAddr
  | .spawned => none
  | .connecting peer _ | .waiting peer _ | .reset peer | .freed peer => some peer

def deletes : Stage → Bool
  | .spawned => false
  | .connecting _ deletes | .waiting _ deletes => deletes
  | .reset _ | .freed _ => true

def arrived : Stage → Bool
  | .spawned | .connecting _ _ => false
  | .waiting _ _ | .reset _ | .freed _ => true

def hasReset : Stage → Bool
  | .reset _ | .freed _ => true
  | _ => false

end Stage

/-- `BitTorrent_SessionInitiationThreadData` for the peers of a reply, and the threads that share
it. -/
structure Group where
  peers : List InetAddr
  addresses : List InetAddr
  unspawned : ℕ
  threads : List Stage
  deriving DecidableEq, Repr

def Group.Open (g : Group) : Prop := g.threads.countP Stage.arrived = g.peers.length

instance (g : Group) : Decidable g.Open := inferInstanceAs (Decidable (_ = _))

/-- A spawned thread has not passed its barrier. -/
def Group.Outstanding (g : Group) : Prop := g.threads ≠ [] ∧ ¬ g.Open

instance (g : Group) : Decidable g.Outstanding := inferInstanceAs (Decidable (_ ∧ _))

def Group.spawned (g : Group) : Group :=
  { g with unspawned := g.unspawned - 1, threads := g.threads ++ [.spawned] }

def Group.moved (g : Group) (j : ℕ) (addresses : List InetAddr) (stage : Stage) : Group :=
  { g with addresses := addresses, threads := g.threads.set j stage }

/-- A step that its thread cannot take now, or one that faults. -/
inductive Stop where
  | blocked
  | fault (f : Fault)
  deriving DecidableEq, Repr

/-- The steps of a thread: it pops an address, comes to the barrier, resets `connecting` and
deletes the data. -/
inductive Act where
  | take
  | arrive
  | reset
  | free
  deriving DecidableEq, Repr

/-- What a step leaves of the addresses, and where its thread is then. -/
def Group.act (g : Group) : Act → Stage → Except Stop (List InetAddr × Stage)
  | .take, .spawned =>
    match g.addresses.getLast? with
    | none => .error (.fault .outOfRange)
    | some peer =>
      .ok (g.addresses.dropLast, .connecting peer (decide (g.addresses.dropLast = [])))
  | .arrive, .connecting peer deletes => .ok (g.addresses, .waiting peer deletes)
  | .reset, .waiting peer true =>
    if g.Open then .ok (g.addresses, .reset peer) else .error .blocked
  | .free, .reset peer => .ok (g.addresses, .freed peer)
  | _, _ => .error .blocked

/-- The session with the groups of all replies, the notifications that have been decided on and not
been made, and how many groups were outstanding when `BITTORRENT_EVENT_NO_MORE_PEERS` was raised. -/
structure System where
  session : SessionState
  groups : List Group
  decided : ℕ
  raised : List ℕ

inductive Event where
  /-- `notify` with the peers of a reply -/
  | reply (peers : List InetAddr)
  /-- `spawn_n` starts one more thread of a group -/
  | spawn (i : ℕ)
  | thread (i j : ℕ) (act : Act)
  /-- the scope of `disconnect` -/
  | leave (id : ConnectionId)
  /-- the scope of `trackerDisconnect` -/
  | leaveTracker (id : ConnectionId)
  /-- the call of the controller behind one of these scopes -/
  | raise
  /-- a scope of another handler, none of which writes `connecting` -/
  | other (session : SessionState)

/-- A reply: without peers it is ignored. -/
def System.reply (s : System) (peers : List InetAddr) : System :=
  if peers = [] then s
  else { s with
    session := { s.session with connecting := true }
    groups := s.groups ++ [⟨peers, peers, peers.length, []⟩] }

def System.setGroup (s : System) (i : ℕ) (g : Group) : System :=
  { s with groups := s.groups.set i g }

def System.spawn (s : System) (i : ℕ) : Except Stop System :=
  match s.groups[i]? with
  | none => .error .blocked
  | some g =>
    if g.unspawned = 0 then .error .blocked else .ok (s.setGroup i g.spawned)

def System.thread (s : System) (i j : ℕ) (act : Act) : Except Stop System :=
  match s.groups[i]? with
  | none => .error .blocked
  | some g =>
    match g.threads[j]? with
    | none => .error .blocked
    | some stage => do
      let (addresses, stage) ← g.act act stage
      let s := s.setGroup i (g.moved j addresses stage)
      return if act = .reset then { s with session := { s.session with connecting := false } } else s

def System.scope (s : System) : Except Fault (Bool × SessionState) → Except Stop System
  | .error f => .error (.fault f)
  | .ok (notify, session) =>
    .ok { s with session := session, decided := if notify then s.decided + 1 else s.decided }

variable (cfg : Configuration)

def System.step (s : System) : Event → Except Stop System
  | .reply peers => .ok (s.reply peers)
  | .spawn i => s.spawn i
  | .thread i j act => s.thread i j act
  | .leave id => s.scope ((leavePeer cfg (connectionIdToPeerAddress cfg id) id s.session).map
      fun result => (result.1, result.2.1))
  | .leaveTracker id => s.scope (.ok (trackerEvent s.session = some .noMorePeers,
      { s.session with trackerConnectionId :=
        if s.session.trackerConnectionId = some id then none
        else s.session.trackerConnectionId }))
  | .raise =>
    if s.decided = 0 then .error .blocked
    else .ok { s with
      decided := s.decided - 1
      raised := s.raised ++ [s.groups.countP fun g => g.Outstanding] }
  | .other session =>
    if session.connecting = s.session.connecting then .ok { s with session := session }
    else .error .blocked

def initial (session : SessionState) : System := ⟨session, [], 0, []⟩

/-- Every address is taken by one thread, and one thread deletes the data, behind the barrier. -/
structure Group.Shared (g : Group) : Prop where
  taken : (g.addresses ++ g.threads.filterMap Stage.peer?).Perm g.peers
  all_taken : g.Open → g.addresses = []
  deletes : g.threads.countP Stage.deletes = if g.addresses = [] then 1 else 0
  behind : ∀ stage ∈ g.threads, stage.hasReset = true → g.Open

/-- `connecting` is set while a spawned thread has not passed its barrier, every group shares its
addresses, and no event was raised while a connection attempt was outstanding. -/
structure Accurate (s : System) : Prop where
  connecting : ∀ g ∈ s.groups, g.Outstanding → s.session.connecting = true
  shared : ∀ g ∈ s.groups, g.Shared
  raised : ∀ n ∈ s.raised, n = 0

/-- `connecting` is reset while no other group is in front of its barrier, and a reply comes while
no notification is to be made. -/
def Serial (s : System) : Event → Prop
  | .thread i _ act => act = .reset → ∀ g ∈ s.groups.eraseIdx i, g.Open
  | .reply peers => peers ≠ [] → s.decided = 0
  | _ => True

instance decidableSerial (s : System) : (e : Event) → Decidable (Serial s e)
  | .reply _ => inferInstanceAs (Decidable (_ → _))
  | .thread _ _ _ => inferInstanceAs (Decidable (_ → _))
  | .spawn _ => isTrue trivial
  | .leave _ => isTrue trivial
  | .leaveTracker _ => isTrue trivial
  | .raise => isTrue trivial
  | .other _ => isTrue trivial

section Group

variable {g : Group} {j : ℕ} {stage stage' : Stage} {addresses : List InetAddr}

theorem exists_split {α : Type} {as : List α} {a : α} (h : as[j]? = some a) :
    ∃ front back, as = front ++ a :: back ∧ as.eraseIdx j = front ++ back ∧
      ∀ b, as.set j b = front ++ b :: back := by
  induction as generalizing j with
  | nil => cases h
  | cons c as ih =>
    cases j with
    | zero =>
      obtain rfl : c = a := by simpa using h
      exact ⟨[], as, rfl, rfl, fun b => rfl⟩
    | succ j =>
      obtain ⟨front, back, rfl, herase, hset⟩ := ih (by simpa using h)
      refine ⟨c :: front, back, rfl, ?_, fun b => ?_⟩
      · rw [List.eraseIdx_cons_succ, herase]
        rfl
      · rw [List.set_cons_succ, hset]
        rfl

theorem act_cases {act : Act} (h : g.act act stage = .ok (addresses, stage')) :
    (act = .take ∧ stage = .spawned ∧ ∃ peer, g.addresses = addresses ++ [peer] ∧
      stage' = .connecting peer (decide (addresses = []))) ∨
    (act = .arrive ∧ addresses = g.addresses ∧ ∃ peer deletes, stage = .connecting peer deletes ∧
      stage' = .waiting peer deletes) ∨
    (act = .reset ∧ addresses = g.addresses ∧ g.Open ∧ ∃ peer, stage = .waiting peer true ∧
      stage' = .reset peer) ∨
    (act = .free ∧ addresses = g.addresses ∧ ∃ peer, stage = .reset peer ∧
      stage' = .freed peer) := by
  unfold Group.act at h
  split at h
  · split at h
    · cases h
    · rename_i peer hlast
      cases h
      exact .inl ⟨rfl, rfl, peer, (List.dropLast_append_getLast? peer hlast).symm, rfl⟩
  · cases h
    exact .inr (.inl ⟨rfl, rfl, _, _, rfl, rfl⟩)
  · split_ifs at h with hopen
    cases h
    exact .inr (.inr (.inl ⟨rfl, rfl, hopen, _, rfl, rfl⟩))
  · cases h
    exact .inr (.inr (.inr ⟨rfl, rfl, _, rfl, rfl⟩))
  · cases h

/-- What the steps of the threads keep of a group. -/
structure Group.Kept (g : Group) : Prop where
  taken : (g.addresses ++ g.threads.filterMap Stage.peer?).Perm g.peers
  threads : g.unspawned + g.threads.length = g.peers.length
  deletes : g.threads.countP Stage.deletes = if g.addresses = [] then 1 else 0
  behind : ∀ stage ∈ g.threads, stage.hasReset = true → g.Open

theorem kept_of {peers : List InetAddr} (h : peers ≠ []) :
    Group.Kept ⟨peers, peers, peers.length, []⟩ where
  taken := by simp
  threads := rfl
  deletes := by simp [h]
  behind := by simp

theorem Group.Kept.length_addresses (h : g.Kept) :
    g.addresses.length + g.threads.countP (fun stage => stage.peer?.isSome) = g.peers.length := by
  have hlen := h.taken.length_eq
  rwa [List.length_append, List.length_filterMap_eq_countP] at hlen

theorem Group.Kept.all_taken (h : g.Kept) (hopen : g.Open) : g.addresses = [] := by
  have hsome : g.threads.countP Stage.arrived ≤
      g.threads.countP (fun stage => stage.peer?.isSome) := by
    apply List.countP_mono_left
    intro stage _ harrived
    cases stage <;> simp_all [Stage.arrived, Stage.peer?]
  have hlen := h.length_addresses
  rw [Group.Open] at hopen
  apply List.eq_nil_of_length_eq_zero
  omega

theorem Group.Kept.all_arrived (h : g.Kept) (hopen : g.Open) :
    ∀ stage ∈ g.threads, stage.arrived = true := by
  apply List.countP_eq_length.mp
  have hle := List.countP_le_length (p := Stage.arrived) (l := g.threads)
  have hthreads := h.threads
  rw [Group.Open] at hopen
  omega

theorem Group.Kept.addresses_ne_nil (h : g.Kept) (hstage : g.threads[j]? = some .spawned) :
    g.addresses ≠ [] := by
  intro hnil
  have hlen := h.length_addresses
  have hthreads := h.threads
  have hle := List.countP_le_length (p := fun stage : Stage => stage.peer?.isSome) (l := g.threads)
  rw [hnil, List.length_nil] at hlen
  have hall := List.countP_eq_length.mp (show
    g.threads.countP (fun stage => stage.peer?.isSome) = g.threads.length by omega)
  have := hall _ (List.mem_of_getElem? hstage)
  simp [Stage.peer?] at this

variable {act : Act}

theorem act_arrived (hact : g.act act stage = .ok (addresses, stage'))
    (h : stage.arrived = true) : stage'.arrived = true := by
  rcases act_cases hact with ⟨-, rfl, -⟩ | ⟨-, -, peer, deletes, rfl, rfl⟩ |
    ⟨-, -, -, peer, rfl, rfl⟩ | ⟨-, -, peer, rfl, rfl⟩
  · cases h
  · rfl
  · rfl
  · rfl

theorem Group.Kept.open_moved (h : g.Kept) (hstage : g.threads[j]? = some stage)
    (hact : g.act act stage = .ok (addresses, stage')) (hopen : g.Open) :
    (g.moved j addresses stage').Open := by
  have hall := h.all_arrived hopen
  have hstage' := act_arrived hact (hall stage (List.mem_of_getElem? hstage))
  have hset : (g.threads.set j stage').countP Stage.arrived = (g.threads.set j stage').length := by
    apply List.countP_eq_length.mpr
    intro other hother
    rcases List.mem_or_eq_of_mem_set hother with hother | rfl
    · exact hall other hother
    · exact hstage'
  show (g.threads.set j stage').countP Stage.arrived = g.peers.length
  rw [hset, List.length_set, ← List.countP_eq_length.mpr hall]
  exact hopen

theorem Group.Kept.moved (h : g.Kept) (hstage : g.threads[j]? = some stage)
    (hact : g.act act stage = .ok (addresses, stage')) : (g.moved j addresses stage').Kept := by
  obtain ⟨front, back, hthreads, -, hset⟩ := exists_split hstage
  have hopen := h.open_moved hstage hact
  have htaken := h.taken
  have hdeletes := h.deletes
  have hbehind (other : Stage) (hother : other ∈ front ++ back) (hreset : other.hasReset = true) :
      (g.moved j addresses stage').Open := by
    apply hopen (h.behind other _ hreset)
    rw [hthreads]
    simp only [List.mem_append, List.mem_cons] at hother ⊢
    tauto
  have hlength : g.unspawned + (g.threads.set j stage').length = g.peers.length := by
    rw [List.length_set]
    exact h.threads
  rw [hthreads, List.filterMap_append, List.filterMap_cons] at htaken
  rw [hthreads, List.countP_append, List.countP_cons] at hdeletes
  have hkept (htaken' : (addresses ++ (front ++ stage' :: back).filterMap Stage.peer?).Perm g.peers)
      (hdeletes' : (front ++ stage' :: back).countP Stage.deletes =
        if addresses = [] then 1 else 0)
      (hreset : stage'.hasReset = true → g.Open) : (g.moved j addresses stage').Kept := by
    refine ⟨?_, hlength, ?_, ?_⟩
    · show (addresses ++ (g.threads.set j stage').filterMap Stage.peer?).Perm g.peers
      rwa [hset]
    · show (g.threads.set j stage').countP Stage.deletes = _
      rwa [hset]
    · show ∀ other ∈ g.threads.set j stage', _
      rw [hset]
      intro other hother
      rcases List.mem_append.mp hother with hother | hother
      · exact hbehind other (List.mem_append_left _ hother)
      · rcases List.mem_cons.mp hother with rfl | hother
        · exact fun h => hopen (hreset h)
        · exact hbehind other (List.mem_append_right _ hother)
  rcases act_cases hact with ⟨-, rfl, peer, haddresses, rfl⟩ |
    ⟨-, rfl, peer, deletes, rfl, rfl⟩ | ⟨-, rfl, hpassed, peer, rfl, rfl⟩ |
    ⟨-, rfl, peer, rfl, rfl⟩
  · -- the address goes from the back of the vector to the thread
    refine hkept (List.Perm.trans ?_ htaken) ?_ nofun
    · simp only [haddresses, Stage.peer?, List.filterMap_append, List.filterMap_cons,
        List.append_assoc]
      exact List.Perm.append_left _ List.perm_middle
    · rw [haddresses] at hdeletes
      simp only [Stage.deletes, List.countP_append, List.countP_cons, List.append_eq_nil_iff,
        List.cons_ne_nil, and_false, if_false, decide_eq_true_eq] at hdeletes ⊢
      split_ifs <;> omega
  · refine hkept ?_ ?_ nofun
    · rw [List.filterMap_append, List.filterMap_cons]
      exact htaken
    · rw [List.countP_append, List.countP_cons]
      exact hdeletes
  · refine hkept ?_ ?_ fun _ => hpassed
    · rw [List.filterMap_append, List.filterMap_cons]
      exact htaken
    · rw [List.countP_append, List.countP_cons]
      exact hdeletes
  · refine hkept ?_ ?_ fun _ => h.behind _ (List.mem_of_getElem? hstage) rfl
    · rw [List.filterMap_append, List.filterMap_cons]
      exact htaken
    · rw [List.countP_append, List.countP_cons]
      exact hdeletes

theorem open_spawned : g.spawned.Open ↔ g.Open := by
  simp [Group.Open, Group.spawned, List.countP_append, Stage.arrived]

theorem Group.Kept.spawned (h : g.Kept) (hmore : g.unspawned ≠ 0) : g.spawned.Kept where
  taken := by
    have hnone : [Stage.spawned].filterMap Stage.peer? = [] := rfl
    rw [Group.spawned, List.filterMap_append, hnone, List.append_nil]
    exact h.taken
  threads := by
    have := h.threads
    simp only [Group.spawned, List.length_append, List.length_singleton]
    omega
  deletes := by
    rw [Group.spawned, List.countP_append]
    exact h.deletes
  behind := by
    intro stage hstage hreset
    rw [open_spawned]
    rcases List.mem_append.mp hstage with hstage | hstage
    · exact h.behind stage hstage hreset
    · cases List.mem_singleton.mp hstage
      cases hreset

theorem Group.Kept.shared (h : g.Kept) : g.Shared :=
  ⟨h.taken, h.all_taken, h.deletes, h.behind⟩

end Group

section System

variable {cfg : Configuration} {s s' : System} {i j : ℕ} {g g' : Group}

/-- The invariant of a session: `connecting` is set while a barrier is closed, and a notification
is to be made only while all are open. -/
structure Inv (s : System) : Prop where
  kept : ∀ g ∈ s.groups, g.Kept
  connecting : ∀ g ∈ s.groups, ¬ g.Open → s.session.connecting = true
  decided : s.decided ≠ 0 → ∀ g ∈ s.groups, g.Open
  raised : ∀ n ∈ s.raised, n = 0

theorem Inv.accurate (h : Inv s) : Accurate s :=
  ⟨fun g hg hout => h.connecting g hg hout.2, fun g hg => (h.kept g hg).shared, h.raised⟩

theorem inv_initial (session : SessionState) : Inv (initial session) :=
  ⟨nofun, nofun, fun h => absurd rfl h, nofun⟩

theorem Inv.open_of_not_connecting (h : Inv s) (hconnecting : s.session.connecting = false) :
    ∀ g ∈ s.groups, g.Open := by
  intro g hg
  by_contra hclosed
  exact absurd (h.connecting g hg hclosed) (by simp [hconnecting])

theorem Inv.reply (h : Inv s) {peers : List InetAddr} (hdecided : peers ≠ [] → s.decided = 0) :
    Inv (s.reply peers) := by
  rw [System.reply]
  split_ifs with hpeers
  · exact h
  · refine ⟨fun g hg => ?_, fun _ _ _ => rfl, fun hne => absurd (hdecided hpeers) hne, h.raised⟩
    rcases List.mem_append.mp hg with hg | hg
    · exact h.kept g hg
    · cases List.mem_singleton.mp hg
      exact kept_of hpeers

theorem Inv.setGroup (h : Inv s) (hgroup : s.groups[i]? = some g) (hkept : g'.Kept)
    (hopen : g.Open → g'.Open) : Inv (s.setGroup i g') := by
  have hmem := List.mem_of_getElem? hgroup
  refine ⟨fun other hother => ?_, fun other hother hclosed => ?_, fun hdecided other hother => ?_,
    h.raised⟩
  · rcases List.mem_or_eq_of_mem_set hother with hother | rfl
    · exact h.kept other hother
    · exact hkept
  · rcases List.mem_or_eq_of_mem_set hother with hother | rfl
    · exact h.connecting other hother hclosed
    · exact h.connecting g hmem fun h => hclosed (hopen h)
  · rcases List.mem_or_eq_of_mem_set hother with hother | rfl
    · exact h.decided hdecided other hother
    · exact hopen (h.decided hdecided g hmem)

theorem Inv.reset (h : Inv s) (hall : ∀ g ∈ s.groups, g.Open) :
    Inv { s with session := { s.session with connecting := false } } :=
  ⟨h.kept, fun g hg hclosed => absurd (hall g hg) hclosed, h.decided, h.raised⟩

theorem open_of_reset (hgroup : s.groups[i]? = some g) (hopen : g'.Open)
    (hother : ∀ g ∈ s.groups.eraseIdx i, g.Open) : ∀ g ∈ (s.setGroup i g').groups, g.Open := by
  obtain ⟨front, back, -, herase, hset⟩ := exists_split hgroup
  show ∀ g ∈ s.groups.set i g', g.Open
  rw [hset]
  rw [herase] at hother
  intro other hmem
  rcases List.mem_append.mp hmem with hmem | hmem
  · exact hother other (List.mem_append_left _ hmem)
  · rcases List.mem_cons.mp hmem with rfl | hmem
    · exact hopen
    · exact hother other (List.mem_append_right _ hmem)

theorem thread_cases {act : Act} (h : s.thread i j act = .ok s') :
    ∃ g stage addresses stage', s.groups[i]? = some g ∧ g.threads[j]? = some stage ∧
      g.act act stage = .ok (addresses, stage') ∧
      (act ≠ .reset ∧ s' = s.setGroup i (g.moved j addresses stage') ∨
        act = .reset ∧ s' = { s.setGroup i (g.moved j addresses stage') with
          session := { s.session with connecting := false } }) := by
  rw [System.thread] at h
  split at h
  · cases h
  · rename_i g hgroup
    split at h
    · cases h
    · rename_i stage hstage
      cases hact : g.act act stage with
      | error e =>
        rw [hact] at h
        cases h
      | ok result =>
        rw [hact] at h
        refine ⟨g, stage, result.1, result.2, hgroup, hstage, hact, ?_⟩
        by_cases hreset : act = .reset
        · subst hreset
          exact .inr ⟨rfl, (Except.ok.inj h).symm⟩
        · refine .inl ⟨hreset, ?_⟩
          obtain rfl : _ = s' := Except.ok.inj h
          exact if_neg hreset

theorem Inv.thread (h : Inv s) {act : Act}
    (hserial : act = .reset → ∀ g ∈ s.groups.eraseIdx i, g.Open)
    (hstep : s.thread i j act = .ok s') : Inv s' := by
  obtain ⟨g, stage, addresses, stage', hgroup, hstage, hact, hs'⟩ := thread_cases hstep
  have hkept := h.kept g (List.mem_of_getElem? hgroup)
  have hopen := hkept.open_moved hstage hact
  have hmoved := h.setGroup hgroup (hkept.moved hstage hact) hopen
  rcases hs' with ⟨-, rfl⟩ | ⟨rfl, rfl⟩
  · exact hmoved
  · rcases act_cases hact with ⟨hne, -⟩ | ⟨hne, -⟩ | ⟨-, -, hpassed, -⟩ | ⟨hne, -⟩
    · cases hne
    · cases hne
    · exact hmoved.reset (open_of_reset hgroup (hopen hpassed) (hserial rfl))
    · cases hne

/-- A scope that decides to notify the controller only while `connecting` is not set. -/
theorem Inv.scope (h : Inv s) {notify : Bool} {session : SessionState}
    (hconnecting : session.connecting = s.session.connecting)
    (hnotify : notify = true → s.session.connecting = false)
    (hstep : s.scope (.ok (notify, session)) = .ok s') : Inv s' := by
  obtain rfl : _ = s' := Except.ok.inj hstep
  refine ⟨h.kept, fun g hg hclosed => ?_, fun hdecided => ?_, h.raised⟩
  · exact hconnecting.trans (h.connecting g hg hclosed)
  · cases notify with
    | false => exact h.decided hdecided
    | true => exact h.open_of_not_connecting (hnotify rfl)

/-- The scope of `disconnect` notifies only while `connecting` is not set, and leaves it. -/
theorem leavePeer_connecting {key : UInt32} {id : ConnectionId} {t u : SessionState} {b : Bool}
    {out : List Effect} (h : leavePeer cfg key id t = .ok (b, u, out)) :
    u.connecting = t.connecting ∧ (b = true → t.connecting = false) := by
  rw [leavePeer] at h
  obtain ⟨peer, -, h⟩ := fault_bind_ok.mp h
  obtain ⟨connection, -, h⟩ := fault_bind_ok.mp h
  simp only [Except.ok.injEq, Prod.mk.injEq] at h
  obtain ⟨rfl, rfl, -⟩ := h
  refine ⟨?_, fun h => by simp_all⟩
  split_ifs <;> rfl

theorem trackerEvent_connecting {t : SessionState} (h : trackerEvent t = some .noMorePeers) :
    t.connecting = false := by
  rw [trackerEvent] at h
  split_ifs at h with haborted hmissing
  · cases h
  · simpa using (Bool.and_eq_true_iff.mp hmissing).2

theorem Inv.step (h : Inv s) {e : Event} (hserial : Serial s e) (hstep : s.step cfg e = .ok s') :
    Inv s' := by
  cases e with
  | reply peers =>
    obtain rfl : _ = s' := Except.ok.inj hstep
    exact h.reply hserial
  | spawn i =>
    simp only [System.step, System.spawn] at hstep
    split at hstep
    · cases hstep
    · rename_i g hgroup
      split_ifs at hstep with hmore
      obtain rfl : _ = s' := Except.ok.inj hstep
      have hkept := h.kept g (List.mem_of_getElem? hgroup)
      exact h.setGroup hgroup (hkept.spawned hmore) open_spawned.2
  | thread i j act => exact h.thread hserial hstep
  | leave id =>
    cases hleave : leavePeer cfg (connectionIdToPeerAddress cfg id) id s.session with
    | error e =>
      rw [System.step, hleave] at hstep
      cases hstep
    | ok result =>
      obtain ⟨hconnecting, hnotify⟩ := leavePeer_connecting hleave
      rw [System.step, hleave] at hstep
      exact h.scope hconnecting hnotify hstep
  | leaveTracker id =>
    rw [System.step] at hstep
    refine h.scope ?_ (fun hnotify => ?_) hstep
    · rfl
    · exact trackerEvent_connecting (of_decide_eq_true hnotify)
  | raise =>
    rw [System.step] at hstep
    split_ifs at hstep with hdecided
    obtain rfl : _ = s' := Except.ok.inj hstep
    have hall := h.decided hdecided
    refine ⟨h.kept, h.connecting, fun _ => hall, fun n hn => ?_⟩
    rcases List.mem_append.mp hn with hn | hn
    · exact h.raised n hn
    · rw [List.mem_singleton.mp hn]
      apply List.countP_eq_zero.mpr
      intro g hg hout
      exact (of_decide_eq_true hout).2 (hall g hg)
  | other session =>
    rw [System.step] at hstep
    split_ifs at hstep with hconnecting
    obtain rfl : _ = s' := Except.ok.inj hstep
    exact ⟨h.kept, fun g hg hclosed => hconnecting.trans (h.connecting g hg hclosed), h.decided,
      h.raised⟩

theorem leavePeer_ne_outOfRange {key : UInt32} {id : ConnectionId} {t : SessionState} :
    leavePeer cfg key id t ≠ .error .outOfRange := by
  intro h
  rcases fault_bind_error.mp h with hpeer | ⟨peer, -, h⟩
  · exact assertFound_error hpeer rfl
  · rcases fault_bind_error.mp h with hid | ⟨connection, -, h⟩
    · exact assertFound_error hid rfl
    · cases h

/-- No thread pops an address from an empty vector. -/
theorem Inv.step_ne_outOfRange (h : Inv s) (e : Event) :
    s.step cfg e ≠ .error (.fault .outOfRange) := by
  intro hstep
  cases e with
  | reply peers => cases hstep
  | spawn i =>
    simp only [System.step, System.spawn] at hstep
    split at hstep
    · cases hstep
    · split_ifs at hstep
      cases hstep
  | thread i j act =>
    simp only [System.step, System.thread] at hstep
    split at hstep
    · cases hstep
    · rename_i g hgroup
      split at hstep
      · cases hstep
      · rename_i stage hstage
        cases hact : g.act act stage with
        | ok result =>
          rw [hact] at hstep
          cases hstep
        | error stop =>
          rw [hact] at hstep
          obtain rfl : stop = .fault .outOfRange := Except.error.inj hstep
          unfold Group.act at hact
          split at hact
          · split at hact
            · rename_i hlast
              exact (h.kept g (List.mem_of_getElem? hgroup)).addresses_ne_nil hstage
                (List.getLast?_eq_none_iff.mp hlast)
            · cases hact
          · cases hact
          · split_ifs at hact
            cases hact
          · cases hact
          · cases hact
  | leave id =>
    rw [System.step] at hstep
    cases hleave : leavePeer cfg (connectionIdToPeerAddress cfg id) id s.session with
    | ok result =>
      rw [hleave] at hstep
      cases hstep
    | error f =>
      rw [hleave] at hstep
      obtain rfl : f = .outOfRange := Stop.fault.inj (Except.error.inj hstep)
      exact leavePeer_ne_outOfRange hleave
  | leaveTracker id => cases hstep
  | raise =>
    rw [System.step] at hstep
    split_ifs at hstep
    cases hstep
  | other session =>
    rw [System.step] at hstep
    split_ifs at hstep
    cases hstep

/-- While `connecting` is reset only when no other group is connecting, it is accurate in every
state that a run reaches, and no thread finds the addresses empty. -/
theorem run_accurate (session : SessionState) {events : List Event}
    (hserial : Runs.Along (System.step cfg) Serial (initial session) events) :
    (∀ t, Runs.run (System.step cfg) (initial session) events = .ok t → Accurate t) ∧
      Runs.run (System.step cfg) (initial session) events ≠ .error (.fault .outOfRange) := by
  constructor
  · intro t hrun
    exact (Runs.run_invariant Inv (fun s e s' h => h.step) (inv_initial session) hserial
      hrun).accurate
  · intro hrun
    exact Runs.run_error Inv (fun s e s' h => h.step)
      (fun s e f h _ hstep (hf : f = _) => h.step_ne_outOfRange e (hf ▸ hstep))
      (inv_initial session) hserial hrun rfl

end System

def replyWith (i : ℕ) (peer : InetAddr) : List Event :=
  [.reply [peer], .spawn i, .thread i 0 .take]

def finish (i : ℕ) : List Event := [.thread i 0 .arrive, .thread i 0 .reset]

/-- Two replies, one after the other. -/
theorem run_accurate_two : ∃ t, Runs.run (System.step (sampleConfiguration false))
    (initial (sampleSession [] []))
      (replyWith 0 (.ipv4 1 80) ++ finish 0 ++ (replyWith 1 (.ipv4 2 80) ++ finish 1)) = .ok t ∧
    Accurate t :=
  ⟨_, rfl, (@run_accurate (sampleConfiguration false) (sampleSession [] [])
    (replyWith 0 (.ipv4 1 80) ++ finish 0 ++ (replyWith 1 (.ipv4 2 80) ++ finish 1))
    (by decide)).1 _ rfl⟩

/-- The thread of the first reply resets `connecting` while that of the second one connects. -/
theorem not_accurate : ¬ ∀ (cfg : Configuration) (session : SessionState) (events : List Event)
    (t : System), Runs.run (System.step cfg) (initial session) events = .ok t → Accurate t := by
  intro h
  have haccurate := h (sampleConfiguration false) (sampleSession [] [])
    (replyWith 0 (.ipv4 1 80) ++ replyWith 1 (.ipv4 2 80) ++ finish 0) _ rfl
  have hconnecting := haccurate.connecting _ (List.mem_cons_of_mem _ List.mem_cons_self)
    (by decide)
  cases hconnecting

end ACENetwork.BitTorrent.Session.Connecting
