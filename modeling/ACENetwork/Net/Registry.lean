import ACENetwork.Net.ConnectionManager
import ACENetwork.Library.Runs

/-!
# The registry of the connection manager

The calls of `Net_Connection_Manager_T` by any number of connections, with the reference
counts that they raise and release. A call of `abort` raises the counts of the connections
under the lock, and closes and releases them one by one when it has left it.
-/
namespace ACENetwork.Net
open BitTorrent (Fault)
open Library

/-- What `info` says of a connection. Its id is the handle. -/
structure ConnectionInfo (AddressType : Type) where
  handle : Option ℕ
  localAddress : AddressType
  peerAddress : AddressType

inductive AbortStrategy where
  | recentLeast
  | recentMost
  | max
  | invalid
  deriving DecidableEq, Repr

/-- A call of `abort` that has left the lock, with the connections that it has yet to close
and to release. -/
structure AbortCall where
  waitForCompletion : Bool
  connections : List ℕ
  deriving DecidableEq, Repr

/-- The manager and its connections. `held` is how many references of a connection its owner
and those who have looked it up hold; `since` is when the connection has been registered, if
it has not been deregistered since then. Both are a record of what has happened. -/
structure Registry (κ : Counter) (AddressType : Type) where
  manager : ConnectionManager
  infos : ℕ → ConnectionInfo AddressType
  isRegistered : ℕ → Bool
  references : ℕ → References κ
  aborts : List AbortCall
  held : ℕ → ℕ
  since : ℕ → Option ℕ
  clock : ℕ

/-- The calls, with what the system says to them: whether `insert_tail` finds the memory for
another place of the list (`abort` fails to insert the connection in the place `failure`), and
whether the timer is scheduled. -/
inductive RegistryEvent (AddressType : Type) where
  | register_ (connection : ℕ) (inserted : Bool)
  | deregister (connection : ℕ)
  | get (handle : Option ℕ)
  | getAddress (address : AddressType) (isPeerAddress : Bool)
  | operatorIndex (index : ℕ)
  | abort (waitForCompletion : Bool) (failure : Option ℕ)
  | abortAddress (address : AddressType) (matchPort : Bool) (failure : Option ℕ)
  | abortStrategy (strategy : AbortStrategy)
  | closeNext (call : ℕ) (failure : Option ℕ)
  | start (scheduled : Bool)
  | stop
  | release (connection : ℕ)
  | inform (connection : ℕ) (info : ConnectionInfo AddressType)

inductive Answer where
  | done
  | accepted (accepted : Bool)
  | found (connection : Option ℕ)
  deriving DecidableEq, Repr

/-- The loop of `operator[]`. `connection_p` is the connection that the loop has come to last. -/
def operatorIndexLoop (connection_p : Option ℕ) : List ℕ → ℕ → Option ℕ
  | [], _ => connection_p
  | connection :: _, 0 => some connection
  | connection :: connections, index + 1 => operatorIndexLoop (some connection) connections index

namespace Registry

variable {κ : Counter} {AddressType : Type}

/-- The loop of `abort` under the lock, over the connections that match: the counts, and the
list of the connections unless one of them could not be inserted. -/
def gather (isMatch : ℕ → Bool) (failure : Option ℕ) (connections_a : List ℕ)
    (references : ℕ → References κ) : List ℕ → (ℕ → References κ) × Option (List ℕ)
  | [] => (references, some connections_a)
  | connection :: connections =>
    if isMatch connection then
      match failure with
      | some 0 =>
        (Function.update references connection (references connection).increase.decrease, none)
      | failure =>
        gather isMatch (failure.map Nat.pred) (connections_a ++ [connection])
          (Function.update references connection (references connection).increase) connections
    else gather isMatch failure connections_a references connections

variable [DecidableEq AddressType] (isIpEqual : AddressType → AddressType → Bool)
  (w : Registry κ AddressType)

def lend (connection : ℕ) : Registry κ AddressType :=
  { w with
    references := Function.update w.references connection (w.references connection).increase
    held := Function.update w.held connection (w.held connection + 1) }

def lookup (found : Option ℕ) : Registry κ AddressType × Answer :=
  match found with
  | none => (w, .found none)
  | some connection => (w.lend connection, .found (some connection))

def beginAbort (waitForCompletion : Bool) (isMatch : ℕ → Bool) (failure : Option ℕ) :
    Registry κ AddressType :=
  match gather isMatch failure [] w.references w.manager.connections with
  | (references, some (connection :: connections)) =>
    { w with
      references
      aborts := w.aborts ++ [⟨waitForCompletion, connection :: connections⟩] }
  | (references, _) => { w with references }

def closeConnection (call : ℕ) (waitForCompletion : Bool) (connection : ℕ)
    (connections : List ℕ) : Registry κ AddressType :=
  { w with
    references := Function.update w.references connection (w.references connection).decrease
    aborts := w.aborts.set call ⟨waitForCompletion, connections⟩ }

def register_ (connection : ℕ) (inserted : Bool) :
    Except (Option Fault) (Registry κ AddressType × Answer) :=
  if (w.references connection).destroyed ≠ 0 then .error none
  else if w.isRegistered connection then .error (some .assertion)
  else match w.manager.register_ connection with
    | none => .ok (w, .accepted false)
    | some manager =>
      if inserted then
        .ok ({ w with
          manager
          isRegistered := Function.update w.isRegistered connection true
          references := Function.update w.references connection (w.references connection).increase
          since := Function.update w.since connection (some w.clock)
          clock := w.clock + 1 }, .accepted true)
      else
        .ok ({ w with
          references := Function.update w.references connection
            (w.references connection).increase.decrease }, .accepted false)

def deregister (connection : ℕ) : Except (Option Fault) (Registry κ AddressType × Answer) :=
  if (w.references connection).destroyed ≠ 0 then .error none
  else if w.isRegistered connection = false then .ok (w, .done)
  else
    let w := { w with
      isRegistered := Function.update w.isRegistered connection false
      since := Function.update w.since connection none }
    if connection ∈ w.manager.connections then
      .ok ({ w with
        manager := w.manager.deregister connection
        references := Function.update w.references connection
          (w.references connection).decrease }, .done)
    else .ok (w, .done)

/-- The next step of a call of `abort` that has left the lock. When it has released all
connections, it may begin again. -/
def closeNext (call : ℕ) (failure : Option ℕ) :
    Except (Option Fault) (Registry κ AddressType × Answer) :=
  match w.aborts[call]? with
  | none => .error none
  | some ⟨waitForCompletion, connection :: connections⟩ =>
    .ok (w.closeConnection call waitForCompletion connection connections, .done)
  | some ⟨waitForCompletion, []⟩ =>
    let w := { w with aborts := w.aborts.eraseIdx call }
    if waitForCompletion then .ok (w.beginAbort true (fun _ => true) failure, .done)
    else .ok (w, .done)

/-- Whether a connection has the address, with or without its port. -/
def hasAddress (address : AddressType) (matchPort : Bool)
    (info : ConnectionInfo AddressType) : Bool :=
  if matchPort then !(info.peerAddress ≠ address && info.localAddress ≠ address)
  else !(!isIpEqual address info.peerAddress && !isIpEqual address info.localAddress)

/-- Whether `get` looks for the connection: it has the address at this end. -/
def isAt (address : AddressType) (isPeerAddress : Bool)
    (info : ConnectionInfo AddressType) : Bool :=
  (isPeerAddress && info.peerAddress = address) || (!isPeerAddress && info.localAddress = address)

def abortOne : Option ℕ → Registry κ AddressType
  | none => w
  | some connection =>
    { w with
      references := Function.update w.references connection (w.references connection).increase
      aborts := w.aborts ++ [⟨false, [connection]⟩] }

def abortStrategy : AbortStrategy → Registry κ AddressType
  | .recentLeast => w.abortOne w.manager.connections.head?
  | .recentMost => w.abortOne w.manager.connections.getLast?
  | .max | .invalid => w

/-- A call, and what it returns. A call is not possible on a connection that has been deleted,
nor a release of a reference that nobody holds. -/
def call : RegistryEvent AddressType → Except (Option Fault) (Registry κ AddressType × Answer)
  | .register_ connection inserted => w.register_ connection inserted
  | .deregister connection => w.deregister connection
  | .get handle =>
    .ok (w.lookup (w.manager.connections.find? fun i => (w.infos i).handle = handle))
  | .getAddress address isPeerAddress =>
    .ok (w.lookup (w.manager.connections.find? fun i => isAt address isPeerAddress (w.infos i)))
  | .operatorIndex index => .ok (w.lookup (operatorIndexLoop none w.manager.connections index))
  | .abort waitForCompletion failure =>
    .ok (w.beginAbort waitForCompletion (fun _ => true) failure, .done)
  | .abortAddress address matchPort failure =>
    .ok (w.beginAbort false (fun i => hasAddress isIpEqual address matchPort (w.infos i)) failure,
      .done)
  | .abortStrategy strategy => .ok (w.abortStrategy strategy, .done)
  | .closeNext call failure => w.closeNext call failure
  | .start scheduled =>
    if scheduled then .ok ({ w with manager := { w.manager with isActive := true } }, .accepted true)
    else .ok (w, .accepted false)
  | .stop => .ok ({ w with manager := { w.manager with isActive := false } }, .done)
  | .release connection =>
    if w.held connection = 0 then .error none
    else .ok ({ w with
      references := Function.update w.references connection (w.references connection).decrease
      held := Function.update w.held connection (w.held connection - 1) }, .done)
  | .inform connection info => .ok ({ w with infos := Function.update w.infos connection info }, .done)

def step (event : RegistryEvent AddressType) : Except (Option Fault) (Registry κ AddressType) :=
  (w.call isIpEqual event).map Prod.fst

omit [DecidableEq AddressType] in
def initial (maximumNumberOfConnections : ℕ) (infos : ℕ → ConnectionInfo AddressType) :
    Registry κ AddressType where
  manager := ⟨true, maximumNumberOfConnections, []⟩
  infos
  isRegistered _ := false
  references _ := .create
  aborts := []
  held _ := 1
  since _ := none
  clock := 0

omit [DecidableEq AddressType] in
/-- Who holds a reference of the connection: its owner and those who have looked it up, the
list, and the calls of `abort` that are under way. -/
def holders (i : ℕ) : ℕ :=
  w.held i + w.manager.connections.count i + (w.aborts.flatMap AbortCall.connections).count i

omit [DecidableEq AddressType] in
/-- The list holds the connections that have been registered and not been deregistered since
then, once and in the order of their registration, and every reference is held by somebody. -/
structure Accounted : Prop where
  listed : ∀ i, i ∈ w.manager.connections ↔ (w.since i).isSome
  once : w.manager.connections.Nodup
  ordered : w.manager.connections.Pairwise fun i j =>
    ∀ s ∈ w.since i, ∀ t ∈ w.since j, s < t
  bounded : w.manager.connections.length ≤ w.manager.maximumNumberOfConnections
  counted : ∀ i, (w.references i).Holds (w.holders i)

def Raised (found : Option ℕ) (w w' : Registry κ AddressType) : Prop :=
  ∀ i, (w'.references i).count = (w.references i).count + if found = some i then 1 else 0

/-- A lookup has found nothing, or a listed connection that matches, whose count it raises. -/
def Finds (isMatch : ℕ → Prop) (w w' : Registry κ AddressType) (answer : Answer) : Prop :=
  ∃ found, answer = .found found ∧ w'.manager = w.manager ∧ Raised found w w' ∧
    (∀ i, found = some i → i ∈ w.manager.connections ∧ isMatch i) ∧
      (found = none → ∀ i ∈ w.manager.connections, ¬ isMatch i)

omit [DecidableEq AddressType] in
def Answers (w w' : Registry κ AddressType) (answer : Answer) : RegistryEvent AddressType → Prop
  | .register_ connection _ =>
    (w.manager.isActive = false ∨
        w.manager.maximumNumberOfConnections ≤ w.manager.connections.length →
      answer = .accepted false) ∧
    (answer = .accepted false → w'.manager = w.manager ∧ Raised none w w') ∧
    (answer = .accepted true → w'.manager.connections = w.manager.connections ++ [connection] ∧
      Raised (some connection) w w')
  | .get handle => Finds (fun i => (w.infos i).handle = handle) w w' answer
  | .getAddress address true => Finds (fun i => (w.infos i).peerAddress = address) w w' answer
  | .getAddress address false => Finds (fun i => (w.infos i).localAddress = address) w w' answer
  | .operatorIndex index =>
    answer = .found w.manager.connections[index]? ∧ w'.manager = w.manager ∧
      Raised w.manager.connections[index]? w w'
  | _ => True

omit [DecidableEq AddressType] in
/-- `insert_tail` does not fail in `abort` once a connection has been inserted. -/
def Gathers (isMatch : ℕ → Bool) (failure : Option ℕ) : Prop :=
  ∀ n ∈ failure, n = 0 ∨ (w.manager.connections.filter isMatch).length ≤ n

/-- `operator[]` is called for a place of the list, or the list is empty, and the calls of
`abort` keep the connections that they have found. -/
def Sound : RegistryEvent AddressType → Prop
  | .operatorIndex index =>
    w.manager.connections = [] ∨ index < w.manager.connections.length
  | .abort _ failure => w.Gathers (fun _ => true) failure
  | .abortAddress address matchPort failure =>
    w.Gathers (fun i => hasAddress isIpEqual address matchPort (w.infos i)) failure
  | .closeNext call failure =>
    w.aborts[call]? = some ⟨true, []⟩ → w.Gathers (fun _ => true) failure
  | _ => True

section Gather

variable {references : ℕ → References κ} {f g : ℕ → ℕ} {i : ℕ}

omit [DecidableEq AddressType] in
theorem holds_update {r : References κ} (h : ∀ j, (references j).Holds (f j)) (hi : r.Holds (g i))
    (hne : ∀ j, j ≠ i → g j = f j) (j : ℕ) : (Function.update references i r j).Holds (g j) := by
  by_cases hj : j = i
  · subst hj
    rwa [Function.update_self]
  · rw [Function.update_of_ne hj, hne j hj]
    exact h j

def kept (failure : Option ℕ) (connections : List ℕ) : List ℕ :=
  failure.elim connections connections.take

omit [DecidableEq AddressType] in
theorem gather_holds (isMatch : ℕ → Bool) {connections : List ℕ} (failure : Option ℕ)
    (connections_a : List ℕ) (h : ∀ j, (references j).Holds (f j))
    (hpos : ∀ j ∈ connections, 0 < f j) (j : ℕ) :
    ((gather isMatch failure connections_a references connections).1 j).Holds
      (f j + (kept failure (connections.filter isMatch)).count j) := by
  induction connections generalizing failure connections_a references f with
  | nil => cases failure <;> simpa [gather, kept] using h j
  | cons connection connections ih =>
    have hrest : ∀ j ∈ connections, 0 < f j := fun j hj => hpos j (List.mem_cons_of_mem _ hj)
    have hraised := (h connection).increase (hpos connection List.mem_cons_self) rfl
    simp only [gather]
    by_cases hmatch : isMatch connection = true
    · have hmore : ∀ j, (Function.update references connection (references connection).increase j).Holds
          (f j + [connection].count j) :=
        holds_update h (hraised.of_eq (by simp)) fun j hj => by simp [Ne.symm hj]
      have hpos' : ∀ j ∈ connections, 0 < f j + [connection].count j := fun j hj =>
        Nat.add_pos_left (hrest j hj) _
      rw [if_pos hmatch, List.filter_cons_of_pos hmatch]
      rcases failure with _ | _ | n
      · have := ih none (connections_a ++ [connection]) hmore hpos'
        refine this.of_eq ?_
        simp only [kept, Option.elim, List.count_cons, List.count_nil]
        omega
      · simpa [kept] using holds_update h (hraised.decrease rfl) (fun _ _ => rfl) j
      · have := ih (some n) (connections_a ++ [connection]) hmore hpos'
        refine this.of_eq ?_
        simp only [kept, Option.elim, List.take_succ_cons, List.count_cons, List.count_nil]
        omega
    · rw [if_neg hmatch, List.filter_cons_of_neg hmatch]
      exact ih failure connections_a h hrest

omit [DecidableEq AddressType] in
theorem gather_connections (isMatch : ℕ → Bool) {connections : List ℕ} (failure : Option ℕ)
    (connections_a : List ℕ) :
    (gather isMatch failure connections_a references connections).2 =
      if ∀ n ∈ failure, (connections.filter isMatch).length ≤ n then
        some (connections_a ++ connections.filter isMatch) else none := by
  induction connections generalizing failure connections_a references with
  | nil => simp [gather]
  | cons connection connections ih =>
    simp only [gather]
    by_cases hmatch : isMatch connection = true
    · rw [if_pos hmatch, List.filter_cons_of_pos hmatch]
      rcases failure with _ | _ | n
      · rw [ih]
        simp
      · simp
      · refine (ih (some n) (connections_a ++ [connection])).trans ?_
        simp
    · rw [if_neg hmatch, List.filter_cons_of_neg hmatch, ih]

end Gather

/-- The registry is accounted for, and the connections know whether they are registered. -/
structure Invariant (w : Registry κ AddressType) : Prop extends Accounted w where
  flag : ∀ i, w.isRegistered i = (w.since i).isSome
  recent : ∀ i, ∀ s ∈ w.since i, s < w.clock

section Invariant

variable {w} {i : ℕ}

omit [DecidableEq AddressType] in
theorem Invariant.initial (maximumNumberOfConnections : ℕ)
    (infos : ℕ → ConnectionInfo AddressType) :
    Invariant (initial maximumNumberOfConnections infos : Registry κ AddressType) where
  listed := by simp [Registry.initial]
  once := List.nodup_nil
  ordered := List.Pairwise.nil
  bounded := Nat.zero_le _
  counted _ := References.Holds.create
  flag _ := rfl
  recent := by simp [Registry.initial]

omit [DecidableEq AddressType] in
theorem holders_pos (hi : i ∈ w.manager.connections) : 0 < w.holders i := by
  have := List.count_pos_iff.mpr hi
  unfold holders
  omega

omit [DecidableEq AddressType] in
/-- References, calls of `abort` and who holds the references may change when all references are
held by somebody. -/
theorem Invariant.withReferences (h : Invariant w) {references : ℕ → References κ}
    {aborts : List AbortCall} {held : ℕ → ℕ}
    (hcounted : ∀ i, (references i).Holds
      (held i + w.manager.connections.count i + (aborts.flatMap AbortCall.connections).count i)) :
    Invariant { w with references := references, aborts := aborts, held := held } :=
  ⟨⟨h.listed, h.once, h.ordered, h.bounded, hcounted⟩, h.flag, h.recent⟩

omit [DecidableEq AddressType] in
theorem Invariant.beginAbort (h : Invariant w) {waitForCompletion : Bool} {isMatch : ℕ → Bool}
    {failure : Option ℕ} (hgathers : w.Gathers isMatch failure) :
    Invariant (w.beginAbort waitForCompletion isMatch failure) := by
  have hholds := gather_holds isMatch failure [] h.counted fun _ => holders_pos
  have hconnections := @gather_connections κ w.references isMatch w.manager.connections failure []
  generalize hgather : gather isMatch failure [] w.references w.manager.connections = gathered
    at hholds hconnections
  obtain ⟨references, found⟩ := gathered
  dsimp only at hholds hconnections
  -- what has been kept is in the list of the call
  have hkept : kept failure (w.manager.connections.filter isMatch) = found.getD [] := by
    rw [hconnections]
    cases failure with
    | none => simp [kept]
    | some n =>
      rcases hgathers n rfl with rfl | hle
      · by_cases hnone : w.manager.connections.filter isMatch = []
        · simp [kept, hnone]
        · simp [kept, hnone]
      · simp [kept, hle]
  rw [hkept] at hholds
  unfold Registry.beginAbort
  rw [hgather]
  rcases found with _ | _ | ⟨connection, connections⟩
  · exact h.withReferences fun i => (hholds i).of_eq (by simp [holders])
  · exact h.withReferences fun i => (hholds i).of_eq (by simp [holders])
  · exact h.withReferences fun i => (hholds i).of_eq (by simp [holders, Nat.add_assoc])

omit [DecidableEq AddressType] in
theorem Invariant.abortOne (h : Invariant w) {found : Option ℕ}
    (hfound : ∀ i ∈ found, i ∈ w.manager.connections) : Invariant (w.abortOne found) := by
  cases found with
  | none => exact h
  | some connection =>
    have hpos := holders_pos (hfound connection rfl)
    refine h.withReferences (holds_update h.counted (((h.counted connection).increase hpos rfl).of_eq ?_)
      fun j hj => ?_)
    · simp [holders, Nat.add_assoc]
    · simp [holders, Ne.symm hj]

omit [DecidableEq AddressType] in
theorem Invariant.abortStrategy (h : Invariant w) (strategy : AbortStrategy) :
    Invariant (w.abortStrategy strategy) := by
  cases strategy with
  | recentLeast => exact h.abortOne fun i hi => List.mem_of_head? hi
  | recentMost => exact h.abortOne fun i hi => List.mem_of_getLast? hi
  | max => exact h
  | invalid => exact h

omit [DecidableEq AddressType] in
theorem Invariant.lookup (h : Invariant w) {found : Option ℕ}
    (hfound : ∀ i ∈ found, i ∈ w.manager.connections) : Invariant (w.lookup found).1 := by
  cases found with
  | none => exact h
  | some connection =>
    have hpos := holders_pos (hfound connection rfl)
    refine h.withReferences (holds_update h.counted (((h.counted connection).increase hpos rfl).of_eq ?_)
      fun j hj => ?_)
    · simp [holders, Nat.add_right_comm]
    · simp [holders, hj]

omit [DecidableEq AddressType] in
theorem Invariant.register_ (h : Invariant w) {w' : Registry κ AddressType} {inserted : Bool}
    {answer : Answer} (hcall : w.register_ i inserted = .ok (w', answer)) : Invariant w' := by
  unfold Registry.register_ at hcall
  by_cases hdestroyed : (w.references i).destroyed ≠ 0
  · simp [hdestroyed] at hcall
  by_cases hflag : w.isRegistered i = true
  · simp [hdestroyed, hflag] at hcall
  have hpos := (h.counted i).pos (not_not.mp hdestroyed)
  have hraised := (h.counted i).increase hpos rfl
  rw [if_neg hdestroyed, if_neg hflag] at hcall
  unfold ConnectionManager.register_ at hcall
  by_cases hrefuse : w.manager.isActive = false ∨
      w.manager.maximumNumberOfConnections ≤ w.manager.connections.length
  · rw [if_pos hrefuse] at hcall
    cases hcall
    exact h
  rw [if_neg hrefuse] at hcall
  cases inserted with
  | false =>
    cases hcall
    exact h.withReferences (holds_update h.counted (hraised.decrease rfl) fun _ _ => rfl)
  | true =>
    cases hcall
    have hunlisted : i ∉ w.manager.connections := by
      rw [h.listed, ← h.flag]
      exact hflag
    have hother : ∀ j ∈ w.manager.connections, j ≠ i := fun j hj hji => hunlisted (hji ▸ hj)
    refine ⟨⟨fun j => ?_, ?_, ?_, ?_, holds_update h.counted (hraised.of_eq ?_) fun j hj => ?_⟩,
      fun j => ?_, fun j s hs => ?_⟩
    · by_cases hj : j = i
      · simp [hj]
      · simp [hj, h.listed]
    · simpa [List.nodup_append] using ⟨h.once, hother⟩
    · refine List.pairwise_append.mpr ⟨h.ordered.imp_of_mem fun ha hb hab => ?_, by simp, ?_⟩
      · dsimp only
        rwa [Function.update_of_ne (hother _ ha), Function.update_of_ne (hother _ hb)]
      · rintro a ha b hb s hs t ht
        obtain rfl := List.mem_singleton.mp hb
        dsimp only at hs
        rw [Function.update_of_ne (hother _ ha)] at hs
        obtain rfl : w.clock = t := by simpa using ht
        exact h.recent a s hs
    · have := not_or.mp hrefuse
      simp only [List.length_append, List.length_singleton]
      omega
    · simp [holders, Nat.add_right_comm, ← Nat.add_assoc]
    · simp [holders, Ne.symm hj]
    · by_cases hj : j = i
      · simp [hj]
      · simp [hj, h.flag]
    · by_cases hj : j = i
      · subst hj
        obtain rfl : w.clock = s := by simpa using hs
        exact Nat.lt_succ_self _
      · exact (h.recent j s (by simpa [hj] using hs)).trans (Nat.lt_succ_self _)

omit [DecidableEq AddressType] in
theorem Invariant.deregister (h : Invariant w) {w' : Registry κ AddressType} {answer : Answer}
    (hcall : w.deregister i = .ok (w', answer)) : Invariant w' := by
  unfold Registry.deregister at hcall
  by_cases hdestroyed : (w.references i).destroyed ≠ 0
  · simp [hdestroyed] at hcall
  by_cases hflag : w.isRegistered i = false
  · simp only [hdestroyed, hflag, if_true, if_false] at hcall
    cases hcall
    exact h
  have hlisted : i ∈ w.manager.connections := by
    rw [h.listed, ← h.flag]
    simpa using hflag
  rw [if_neg hdestroyed, if_neg hflag] at hcall
  dsimp only at hcall
  rw [if_pos hlisted] at hcall
  cases hcall
  have hsince : ∀ j, ∀ s ∈ Function.update w.since i none j, s ∈ w.since j := by
    intro j s hs
    by_cases hj : j = i
    · simp [hj] at hs
    · simpa [hj] using hs
  have hcount := List.count_pos_iff.mpr hlisted
  refine ⟨⟨fun j => ?_, h.once.erase i, ?_, ?_, holds_update h.counted
    ((h.counted i).decrease ?_) fun j hj => ?_⟩, fun j => ?_, fun j s hs => h.recent j s (hsince j s hs)⟩
  · by_cases hj : j = i
    · simp [hj, ConnectionManager.deregister, h.once.mem_erase_iff]
    · simp [hj, ConnectionManager.deregister, h.once.mem_erase_iff, h.listed]
  · exact (h.ordered.sublist List.erase_sublist).imp fun hab s hs t ht =>
      hab s (hsince _ s hs) t (hsince _ t ht)
  · exact List.length_erase_le.trans h.bounded
  · simp only [holders, ConnectionManager.deregister, List.count_erase_self]
    omega
  · simp [holders, ConnectionManager.deregister, List.count_erase_of_ne hj]
  · by_cases hj : j = i
    · simp [hj]
    · simp [hj, h.flag]

omit [DecidableEq AddressType] in
theorem Invariant.endAbort (h : Invariant w) {call : ℕ} {waitForCompletion : Bool}
    (hcall : w.aborts[call]? = some ⟨waitForCompletion, []⟩) :
    Invariant { w with aborts := w.aborts.eraseIdx call } := by
  obtain ⟨front, back, haborts, -, herase⟩ := exists_around hcall
  refine h.withReferences fun j => (h.counted j).of_eq ?_
  rw [herase]
  simp [holders, haborts]

omit [DecidableEq AddressType] in
theorem Invariant.closeNext (h : Invariant w) {call : ℕ} {failure : Option ℕ}
    {w' : Registry κ AddressType} {answer : Answer}
    (hgathers : w.aborts[call]? = some ⟨true, []⟩ → w.Gathers (fun _ => true) failure)
    (hcall : w.closeNext call failure = .ok (w', answer)) : Invariant w' := by
  unfold Registry.closeNext at hcall
  rcases haborts : w.aborts[call]? with _ | ⟨waitForCompletion, _ | ⟨connection, connections⟩⟩
  · simp [haborts] at hcall
  · simp only [haborts] at hcall
    cases waitForCompletion with
    | false =>
      cases hcall
      exact h.endAbort haborts
    | true =>
      cases hcall
      exact (h.endAbort haborts).beginAbort (hgathers haborts)
  · simp only [haborts] at hcall
    cases hcall
    obtain ⟨front, back, hfront, hset, -⟩ := exists_around haborts
    refine h.withReferences (holds_update h.counted ((h.counted connection).decrease ?_) fun j hj => ?_)
    · rw [hset]
      simp only [holders, hfront, List.flatMap_append, List.flatMap_cons, List.count_append,
        List.count_cons_self]
      omega
    · rw [hset]
      simp [holders, hfront, Ne.symm hj]

omit [DecidableEq AddressType] in
theorem Invariant.release (h : Invariant w) (hheld : w.held i ≠ 0) :
    Invariant { w with
      references := Function.update w.references i (w.references i).decrease
      held := Function.update w.held i (w.held i - 1) } := by
  refine h.withReferences (holds_update h.counted ((h.counted i).decrease ?_) fun j hj => ?_)
  · simp only [holders, Function.update_self]
    omega
  · simp [holders, hj]

theorem operatorIndexLoop_eq (connection_p : Option ℕ) {connections : List ℕ} {index : ℕ}
    (h : index < connections.length) :
    operatorIndexLoop connection_p connections index = connections[index]? := by
  induction connections generalizing connection_p index with
  | nil => simp at h
  | cons connection connections ih =>
    cases index with
    | zero => rfl
    | succ index =>
      rw [operatorIndexLoop, List.getElem?_cons_succ]
      exact ih (some connection) (by simpa using h)

theorem operatorIndexLoop_sound {connections : List ℕ} {index : ℕ}
    (h : connections = [] ∨ index < connections.length) :
    operatorIndexLoop none connections index = connections[index]? := by
  rcases h with rfl | h
  · rfl
  · exact operatorIndexLoop_eq none h

omit [DecidableEq AddressType] in
theorem ok_eq {w' : Registry κ AddressType} {result : Registry κ AddressType × Answer}
    {answer : Answer} (h : (.ok result : Except (Option Fault) _) = .ok (w', answer)) :
    result.1 = w' ∧ result.2 = answer := by
  cases h
  exact ⟨rfl, rfl⟩

theorem Invariant.call (h : Invariant w) {event : RegistryEvent AddressType}
    {w' : Registry κ AddressType} {answer : Answer} (hsound : w.Sound isIpEqual event)
    (hcall : w.call isIpEqual event = .ok (w', answer)) : Invariant w' := by
  cases event with
  | register_ connection inserted => exact h.register_ hcall
  | deregister connection => exact h.deregister hcall
  | get handle =>
    obtain ⟨rfl, rfl⟩ := ok_eq hcall
    exact h.lookup fun i => List.mem_of_find?_eq_some
  | getAddress address isPeerAddress =>
    obtain ⟨rfl, rfl⟩ := ok_eq hcall
    exact h.lookup fun i => List.mem_of_find?_eq_some
  | operatorIndex index =>
    obtain ⟨rfl, rfl⟩ := ok_eq hcall
    rw [operatorIndexLoop_sound hsound]
    exact h.lookup fun i => List.mem_of_getElem?
  | abort waitForCompletion failure =>
    cases hcall
    exact h.beginAbort hsound
  | abortAddress address matchPort failure =>
    cases hcall
    exact h.beginAbort hsound
  | abortStrategy strategy =>
    cases hcall
    exact h.abortStrategy strategy
  | closeNext call failure => exact h.closeNext hsound hcall
  | start scheduled =>
    cases scheduled with
    | false =>
      cases hcall
      exact h
    | true =>
      cases hcall
      exact ⟨⟨h.listed, h.once, h.ordered, h.bounded, h.counted⟩, h.flag, h.recent⟩
  | stop =>
    cases hcall
    exact ⟨⟨h.listed, h.once, h.ordered, h.bounded, h.counted⟩, h.flag, h.recent⟩
  | release connection =>
    by_cases hheld : w.held connection = 0
    · simp [Registry.call, hheld] at hcall
    · simp only [Registry.call, if_neg hheld] at hcall
      cases hcall
      exact h.release hheld
  | inform connection info =>
    cases hcall
    exact ⟨⟨h.listed, h.once, h.ordered, h.bounded, h.counted⟩, h.flag, h.recent⟩

omit [DecidableEq AddressType] in
theorem lookup_manager (w : Registry κ AddressType) (found : Option ℕ) :
    (w.lookup found).1.manager = w.manager := by
  cases found <;> rfl

omit [DecidableEq AddressType] in
theorem lookup_answer (w : Registry κ AddressType) (found : Option ℕ) :
    (w.lookup found).2 = .found found := by
  cases found <;> rfl

omit [DecidableEq AddressType] in
theorem raised_update (w w' : Registry κ AddressType) (hreferences : w'.references =
    Function.update w.references i (w.references i).increase) : Raised (some i) w w' := by
  intro j
  by_cases hj : j = i
  · subst hj
    simp [hreferences]
  · simp [hreferences, hj, Ne.symm hj]

omit [DecidableEq AddressType] in
theorem lookup_raised (w : Registry κ AddressType) (found : Option ℕ) :
    Raised found w (w.lookup found).1 := by
  cases found with
  | none => exact fun i => by simp [Registry.lookup]
  | some connection => exact raised_update w _ rfl

omit [DecidableEq AddressType] in
theorem finds_lookup (w : Registry κ AddressType) (isMatch : ℕ → Prop) (p : ℕ → Bool)
    (hp : ∀ i, p i = true ↔ isMatch i) :
    Finds isMatch w (w.lookup (w.manager.connections.find? p)).1
      (w.lookup (w.manager.connections.find? p)).2 := by
  refine ⟨_, lookup_answer w _, lookup_manager w _, lookup_raised w _, fun i hi => ?_, fun hnone i hi => ?_⟩
  · exact ⟨List.mem_of_find?_eq_some hi, (hp i).mp (List.find?_some hi)⟩
  · rw [← hp]
    exact List.find?_eq_none.mp hnone i hi

omit [DecidableEq AddressType] in
theorem register_answers {w' : Registry κ AddressType} {inserted : Bool} {answer : Answer}
    (hcall : w.register_ i inserted = .ok (w', answer)) :
    Answers w w' answer (.register_ i inserted) := by
  unfold Registry.register_ at hcall
  by_cases hdestroyed : (w.references i).destroyed ≠ 0
  · simp [hdestroyed] at hcall
  by_cases hflag : w.isRegistered i = true
  · simp [hdestroyed, hflag] at hcall
  rw [if_neg hdestroyed, if_neg hflag] at hcall
  unfold ConnectionManager.register_ at hcall
  by_cases hrefuse : w.manager.isActive = false ∨
      w.manager.maximumNumberOfConnections ≤ w.manager.connections.length
  · rw [if_pos hrefuse] at hcall
    cases hcall
    exact ⟨fun _ => rfl, fun _ => ⟨rfl, fun j => by simp⟩, nofun⟩
  rw [if_neg hrefuse] at hcall
  cases inserted with
  | false =>
    cases hcall
    refine ⟨fun _ => rfl, fun _ => ⟨rfl, fun j => ?_⟩, nofun⟩
    by_cases hj : j = i
    · subst hj
      simp
    · simp [hj]
  | true =>
    cases hcall
    exact ⟨fun hrefused => absurd hrefused hrefuse, nofun, fun _ => ⟨rfl, raised_update w _ rfl⟩⟩

theorem call_answers {event : RegistryEvent AddressType} {w' : Registry κ AddressType}
    {answer : Answer} (hsound : w.Sound isIpEqual event)
    (hcall : w.call isIpEqual event = .ok (w', answer)) : Answers w w' answer event := by
  cases event with
  | register_ connection inserted => exact register_answers hcall
  | get handle =>
    obtain ⟨rfl, rfl⟩ := ok_eq hcall
    exact finds_lookup w _ _ fun i => by simp
  | getAddress address isPeerAddress =>
    cases isPeerAddress with
    | false =>
      obtain ⟨rfl, rfl⟩ := ok_eq hcall
      exact finds_lookup w _ _ fun i => by simp [isAt]
    | true =>
      obtain ⟨rfl, rfl⟩ := ok_eq hcall
      exact finds_lookup w _ _ fun i => by simp [isAt]
  | operatorIndex index =>
    obtain ⟨rfl, rfl⟩ := ok_eq hcall
    rw [operatorIndexLoop_sound hsound]
    exact ⟨lookup_answer w _, lookup_manager w _, lookup_raised w _⟩
  | _ => trivial

/-- The only assertion that can fail is the one that a connection is not registered twice. -/
theorem Invariant.call_fault (h : Invariant w) {event : RegistryEvent AddressType} {fault : Fault}
    (hcall : w.call isIpEqual event = .error (some fault)) :
    ∃ connection inserted, event = .register_ connection inserted ∧
      connection ∈ w.manager.connections := by
  cases event with
  | register_ connection inserted =>
    refine ⟨connection, inserted, rfl, ?_⟩
    rw [h.listed, ← h.flag]
    by_contra hflag
    simp only [Registry.call, Registry.register_, if_neg hflag] at hcall
    split at hcall
    · cases hcall
    · split at hcall
      · cases hcall
      · split at hcall <;> cases hcall
  | deregister connection =>
    simp only [Registry.call, Registry.deregister] at hcall
    split at hcall
    · cases hcall
    · split at hcall
      · cases hcall
      · split at hcall <;> cases hcall
  | closeNext call failure =>
    simp only [Registry.call, Registry.closeNext] at hcall
    split at hcall
    · cases hcall
    · cases hcall
    · split at hcall <;> cases hcall
  | start scheduled => cases scheduled <;> cases hcall
  | release connection =>
    simp only [Registry.call] at hcall
    split at hcall <;> cases hcall
  | _ => cases hcall

theorem Invariant.step (h : Invariant w) {event : RegistryEvent AddressType}
    {w' : Registry κ AddressType} (hsound : w.Sound isIpEqual event)
    (hstep : w.step isIpEqual event = .ok w') : Invariant w' := by
  unfold Registry.step at hstep
  cases hcall : w.call isIpEqual event with
  | error fault => simp [hcall, Except.map] at hstep
  | ok result =>
    obtain rfl : result.1 = w' := by simpa [hcall, Except.map] using hstep
    exact h.call isIpEqual hsound hcall

end Invariant

instance (failure : Option ℕ) (isMatch : ℕ → Bool) : Decidable (w.Gathers isMatch failure) :=
  match failure with
  | none => isTrue nofun
  | some n =>
    decidable_of_iff (n = 0 ∨ (w.manager.connections.filter isMatch).length ≤ n)
      ⟨fun h m hm => by cases hm; exact h, fun h => h n rfl⟩

instance (w : Registry κ AddressType) :
    (event : RegistryEvent AddressType) → Decidable (w.Sound isIpEqual event)
  | .operatorIndex index => inferInstanceAs (Decidable
      (w.manager.connections = [] ∨ index < w.manager.connections.length))
  | .abort _ failure => inferInstanceAs (Decidable (w.Gathers (fun _ => true) failure))
  | .abortAddress address matchPort failure => inferInstanceAs (Decidable
      (w.Gathers (fun i => hasAddress isIpEqual address matchPort (w.infos i)) failure))
  | .closeNext call failure => inferInstanceAs (Decidable
      (w.aborts[call]? = some ⟨true, []⟩ → w.Gathers (fun _ => true) failure))
  | .register_ _ _ | .deregister _ | .get _ | .getAddress _ _ | .abortStrategy _ | .start _
  | .stop | .release _ | .inform _ _ => isTrue trivial

/-- In every run of sound calls the list and the reference counts are accounted for, a sound call
returns what it should, and no assertion fails but the one of a connection that is registered
again. -/
theorem run_accounted (maximumNumberOfConnections : ℕ) (infos : ℕ → ConnectionInfo AddressType)
    {events : List (RegistryEvent AddressType)} {w : Registry κ AddressType}
    (halong : Runs.Along (step isIpEqual) (Sound isIpEqual)
      (initial maximumNumberOfConnections infos : Registry κ AddressType) events)
    (hrun : Runs.run (step isIpEqual) (initial maximumNumberOfConnections infos) events = .ok w) :
    w.Accounted ∧
    (∀ event w' answer, w.Sound isIpEqual event → w.call isIpEqual event = .ok (w', answer) →
      Answers w w' answer event) ∧
    ∀ event fault, w.call isIpEqual event = .error (some fault) →
      ∃ connection inserted, event = .register_ connection inserted ∧
        connection ∈ w.manager.connections := by
  have h : Invariant w := Runs.run_invariant Invariant
    (fun _ _ _ h hsound hstep => h.step isIpEqual hsound hstep)
    (Invariant.initial maximumNumberOfConnections infos) halong hrun
  exact ⟨h.toAccounted, fun _ _ _ hsound hcall => call_answers isIpEqual hsound hcall,
    fun _ _ hcall => h.call_fault isIpEqual hcall⟩

def numbered (i : ℕ) : ConnectionInfo ℕ := ⟨some i, 10, 20⟩

/-- Two connections are registered and looked up; all are aborted; one deregisters. -/
def aborted : List (RegistryEvent ℕ) :=
  [.register_ 0 true, .register_ 1 true, .register_ 2 true, .get (some 1), .operatorIndex 0,
    .getAddress 20 true, .abort true none, .closeNext 0 none, .deregister 0, .closeNext 0 none,
    .closeNext 0 none, .stop, .register_ 0 true, .start true, .release 1]

theorem run_accounted_aborted :
    ∃ w : Registry Counter.plain ℕ,
      Runs.run (step (· == ·)) (initial 2 numbered) aborted = .ok w ∧
        w.manager.connections = [1] ∧ w.Accounted :=
  ⟨_, rfl, rfl, (@run_accounted _ _ _ (· == ·) 2 numbered aborted _ (by decide) rfl).1⟩

/-- `operator[]` returns the last connection for a place behind the end of the list, and a call
of `abort` that cannot insert its second connection keeps the reference of its first one. -/
theorem not_accounted :
    ¬ (∀ (events : List (RegistryEvent ℕ)) (w : Registry Counter.plain ℕ),
        Runs.run (step (· == ·)) (initial 2 numbered) events = .ok w →
        ∀ event w' answer, w.call (· == ·) event = .ok (w', answer) → Answers w w' answer event) ∧
    ¬ ∀ (events : List (RegistryEvent ℕ)) (w : Registry Counter.plain ℕ),
        Runs.run (step (· == ·)) (initial 2 numbered) events = .ok w → w.Accounted := by
  constructor
  · intro h
    have hanswer := h [.register_ 0 true] _ rfl (.operatorIndex 1) _ _ rfl
    exact absurd hanswer.1 (by decide)
  · intro h
    have haccounted := h [.register_ 0 true, .register_ 1 true, .abort false (some 1)] _ rfl
    exact absurd (haccounted.counted 0).count (by decide)

end Registry

end ACENetwork.Net
