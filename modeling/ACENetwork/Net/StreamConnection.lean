import ACENetwork.Net.TCPConnection

/-!
# A connection of the reactor

The steps of `Net_StreamConnectionBase_T` over `Net_TCPConnectionBase_T`: `open`, `notify`
and the calls of `handle_output` that the reactor makes for it, `handle_close`, `abort`,
and the references that the connection manager hands out. Several threads may dispatch the
reactor, so a call of `handle_close` goes on step by step.
-/
namespace ACENetwork.Net
open BitTorrent (MessageBlock)
open Library

inductive StreamStage where
  | begin
  | initializing
  | register
  | stream
  | reactor
  | status
  | leave
  | failed
  | unwind
  | done
  deriving DecidableEq, Repr

def StreamStage.Started (stage : StreamStage) : Prop :=
  stage = .reactor ∨ stage = .status ∨ stage = .leave ∨ stage = .done

instance (stage : StreamStage) : Decidable stage.Started := inferInstanceAs (Decidable (_ ∨ _))

/-- The steps of `open` at which it holds the reference that it takes for itself. -/
def StreamStage.inside : StreamStage → Bool
  | .begin => false
  | .done => false
  | _ => true

def StreamStage.Early (delayRead : Bool) (stage : StreamStage) : Prop :=
  stage ≠ .status ∧ stage ≠ .leave ∧ stage ≠ .done ∧ (stage = .reactor → delayRead = false)

/-- `open` has not registered the connection yet. -/
def StreamStage.Unregistered (stage : StreamStage) : Prop :=
  stage = .begin ∨ stage = .initializing ∨ stage = .register

/-- Where a call of `handle_close` is, with its locals `decrease_b` and `deregister`. -/
inductive Closer where
  | lock
  | socket (decrease : Bool)
  | count (decrease deregister : Bool)
  | deregister (decrease deregister : Bool)
  | decrease (decrease : Bool)
  deriving DecidableEq, Repr

/-- A call of `handle_close` that will release the initial reference. -/
def Closer.releases : Closer → Bool
  | .lock => false
  | .socket d => d
  | .count d _ => d
  | .deregister d _ => d
  | .decrease d => d

/-- A `Net_StreamConnectionBase_T`. The calls of `notify` whose `handle_output` has not
finished, the references that the manager has handed out, and whether the initial one has
not been given up yet are a record of what has happened. -/
structure StreamConnection (κ : Counter) (σ : Type) extends TCPConnection κ σ where
  stage : StreamStage
  inReactor : Bool
  notifies : ℕ
  closers : List Closer
  initial : Bool
  handedOut : ℕ

namespace StreamConnection

variable {κ : Counter} {σ : Type} (S : Socket σ) (delayRead : Bool)

def created (socket : σ) : StreamConnection κ σ where
  status := .invalid
  closed := false
  isRegistered := false
  references := .create
  queue := []
  writeBuffer := none
  sentBytes := 0
  socket := socket
  wire := []
  released := []
  sendFailed := false
  stage := .begin
  inReactor := false
  notifies := 0
  closers := []
  initial := true
  handedOut := 0

def increase (c : StreamConnection κ σ) : StreamConnection κ σ :=
  { c with references := c.references.increase }

def decrease (c : StreamConnection κ σ) : StreamConnection κ σ :=
  { c with references := c.references.decrease }

/-- `Net_ConnectionBase_T::deregister`; the manager releases its reference. -/
def deregister (c : StreamConnection κ σ) : StreamConnection κ σ :=
  if c.isRegistered then { c.decrease with isRegistered := false } else c

def stepOpen (ok : Bool) (c : StreamConnection κ σ) : StreamConnection κ σ :=
  match c.stage with
  | .begin => { c.increase with status := .initializing, stage := .initializing }
  | .initializing => { c with stage := if ok then .register else .failed }
  | .register =>
    if ok then { c.increase with isRegistered := true, stage := .stream }
    else { c with stage := .failed }
  | .stream => { c with stage := if ok then .reactor else .failed }
  | .reactor =>
    if delayRead then { c with stage := .status }
    else if ok then { c with inReactor := true, stage := .status }
    else { c with stage := .failed }
  | .status => { c with status := .ok, stage := .leave }
  | .leave => { c.decrease with stage := .done }
  | .failed => { c.deregister with status := .initializationFailed, stage := .unwind }
  | .unwind =>
    { (if 1 < c.references.count then c.decrease else c) with stage := .done }
  | .done => c

def closedStatus (status : Status) : Status :=
  if status ≠ .initializationFailed ∧ status ≠ .closed ∧ status ≠ .peerClosed then .peerClosed
  else status

/-- The next step of the `i`-th call of `Net_StreamConnectionBase_T::handle_close`. -/
def stepClose (i : ℕ) (closer : Closer) (c : StreamConnection κ σ) : StreamConnection κ σ :=
  match closer with
  | .lock =>
    { c with
      status := closedStatus c.status
      closed := true
      closers := c.closers.set i (.socket !c.closed) }
  | .socket decrease =>
    { c with
      queue := if decrease then [] else c.queue
      inReactor := false
      closers := c.closers.set i (.count decrease c.isRegistered) }
  | .count decrease deregister =>
    let decrease := decrease && decide (1 < c.references.count)
    { c with closers := c.closers.set i (.deregister decrease deregister) }
  | .deregister decrease deregister =>
    { (if deregister then c.deregister else c) with closers := c.closers.set i (.decrease decrease) }
  | .decrease decrease =>
    if decrease then { c.decrease with initial := false, closers := c.closers.eraseIdx i }
    else { c with closers := c.closers.eraseIdx i }

def notify (ok : Bool) (c : StreamConnection κ σ) : StreamConnection κ σ :=
  { c.increase with notifies := if ok then c.notifies + 1 else c.notifies }

def abort (c : StreamConnection κ σ) : StreamConnection κ σ :=
  { c with status := if c.status = .ok then .closed else c.status }

/-- What the reactor does with the result of `handle_output`: it calls it again after a
positive one, and `handle_close` after a negative one. -/
def outputDone (result : ℤ) (c : StreamConnection κ σ) : StreamConnection κ σ :=
  if 0 < result then c
  else if result = 0 then { c with notifies := c.notifies - 1 }
  else { c with notifies := c.notifies - 1, closers := c.closers ++ [.lock] }

/-- What may happen to a connection, in any order. -/
inductive Event where
  | opening (ok : Bool)
  | initiateRead (ok : Bool)
  | put (message : MessageBlock) (notified : Bool)
  | dispatch
  | close
  | closer (call : ℕ)
  | abort
  | get
  | release
  deriving DecidableEq, Repr

def Event.external : Event → Bool
  | .closer _ => false
  | .dispatch => false
  | .release => false
  | _ => true

/-- The next state, where the event is possible. `handle_close` is called by the reactor when
the socket has no more data, and by `close`: then the connection could not be connected, and
is never opened, or `open` has returned. -/
def step (c : StreamConnection κ σ) (e : Event) : Except Unit (StreamConnection κ σ) :=
  if e.external ∧ c.references.destroyed ≠ 0 then .error ()
  else
    match e with
    | .opening ok => .ok (c.stepOpen delayRead ok)
    | .initiateRead ok =>
      if c.stage.Started then .ok { c with inReactor := ok } else .error ()
    | .put message notified => .ok { c.notify notified with queue := c.queue ++ [message] }
    | .dispatch =>
      if c.notifies = 0 then .error ()
      else
        match handleOutput S c.toTCPConnection with
        | .error _ => .error ()
        | .ok (sent, result) => .ok (outputDone result { c with toTCPConnection := sent })
    | .close =>
      if c.inReactor ∨ c.stage = .begin ∨ c.stage = .done then
        .ok { c with
          stage := if c.stage = .begin then .done else c.stage
          closers := c.closers ++ [.lock] }
      else .error ()
    | .closer i =>
      match c.closers[i]? with
      | none => .error ()
      | some closer => .ok (c.stepClose i closer)
    | .abort => .ok c.abort
    | .get =>
      if c.isRegistered then .ok { c.increase with handedOut := c.handedOut + 1 } else .error ()
    | .release =>
      if c.handedOut = 0 then .error ()
      else .ok { c.decrease with handedOut := c.handedOut - 1 }

/-- Those who hold a reference: the one who has created the connection, the manager, those
it has handed the connection out to, `open`, and the notifications. -/
def holders (c : StreamConnection κ σ) : ℕ :=
  c.initial.toNat + c.isRegistered.toNat + c.handedOut + c.stage.inside.toNat + c.notifies

/-- Everyone who holds a reference is counted, the connection is deleted once, when there is no
one left, and no notification is outstanding then. -/
structure Balanced (c : StreamConnection κ σ) : Prop where
  references : c.references.Holds c.holders
  outstanding : c.references.destroyed ≠ 0 → c.notifies = 0

/-- The socket takes all blocks of the chain, and none of them is taken for an error. -/
def takesAll : σ → List (List UInt8) → Bool
  | _, [] => true
  | s, data :: cont =>
    match S.sendN s (given data) with
    | (none, _) => false
    | (some n, s) => decide (0 < n ∧ n = data.length) && takesAll s cont

def nextChain (c : TCPConnection κ σ) : Option MessageBlock := c.writeBuffer <|> c.queue.head?

/-- The steps that keep the references balanced: every notification is taken, `handle_output`
finds a message and the socket takes all of it, and the modules downstream start to read only
if this is left to them. -/
def Steady (c : StreamConnection κ σ) : Event → Prop
  | .put _ notified => notified = true
  | .dispatch => ∃ chain ∈ nextChain c.toTCPConnection, takesAll S c.socket chain.blocks = true
  | .initiateRead _ => delayRead = true
  | _ => True

/-- The invariant of the references: the initial one is released by one call of `handle_close`
only, and by none before `open` can fail no more. -/
structure Inv (c : StreamConnection κ σ) : Prop where
  references : c.references.Holds c.holders
  releasing : c.closers.countP Closer.releases ≤ c.initial.toNat
  fresh : c.closed = false → c.closers.countP Closer.releases = 0 ∧ c.initial = true
  early : c.stage.Early delayRead → c.closed = false ∧ c.closers = [] ∧ c.inReactor = false
  unregistered : c.stage.Unregistered → c.isRegistered = false

section Output

variable {S} {c : TCPConnection κ σ}

/-- A call that sends all of its message keeps what `handle_close` looks at, and releases the
reference of its notification. -/
theorem transmit_takesAll {chain : List (List UInt8)} {c' : TCPConnection κ σ} {result : ℤ}
    (htakes : takesAll S c.socket chain = true)
    (heq : transmit S chain c = .ok (c', result)) :
    result = 0 ∧ c'.references = c.references.decrease ∧ c'.isRegistered = c.isRegistered ∧
      c'.closed = c.closed := by
  induction chain generalizing c with
  | nil =>
    obtain ⟨rfl, rfl⟩ : _ ∧ _ := by simpa [transmit] using heq
    exact ⟨rfl, rfl, rfl, rfl⟩
  | cons data cont ih =>
    by_cases hneg : intOfSize data.length < 0
    · rw [transmit_negative hneg] at heq
      cases heq
    cases hsend : S.sendN c.socket (given data) with
    | mk transferred s =>
      cases transferred with
      | none => simp [takesAll, hsend] at htakes
      | some n =>
        simp only [takesAll, hsend, Bool.and_eq_true, decide_eq_true_eq] at htakes
        obtain ⟨⟨hpos, hall⟩, hcont⟩ := htakes
        obtain ⟨k, rfl⟩ : ∃ k, n = k + 1 := ⟨n - 1, by omega⟩
        rw [transmit_all (by omega) hsend (by omega)] at heq
        have hsent := ih (by exact hcont) heq
        exact hsent

theorem handleOutput_takesAll {c' : TCPConnection κ σ} {result : ℤ} {chain : MessageBlock}
    (hnext : chain ∈ nextChain c)
    (htakes : takesAll S c.socket chain.blocks = true)
    (heq : handleOutput S c = .ok (c', result)) :
    result = 0 ∧ c'.references = c.references.decrease ∧ c'.isRegistered = c.isRegistered ∧
      c'.closed = c.closed := by
  unfold handleOutput at heq
  unfold nextChain at hnext
  cases hbuffer : c.writeBuffer with
  | some m =>
    obtain rfl : m = chain := by simpa [hbuffer] using hnext
    rw [hbuffer] at heq
    exact transmit_takesAll htakes heq
  | none =>
    cases hqueue : c.queue with
    | nil => simp [hbuffer, hqueue] at hnext
    | cons m queue =>
      obtain rfl : m = chain := by simpa [hbuffer, hqueue] using hnext
      simp only [hbuffer, hqueue] at heq
      have hsent := transmit_takesAll (by exact htakes) heq
      exact hsent

end Output

namespace Inv

variable {delayRead} {c : StreamConnection κ σ}

theorem created (s : σ) : Inv delayRead (StreamConnection.created s : StreamConnection κ σ) where
  references := .create
  releasing := by simp [StreamConnection.created]
  fresh := by simp [StreamConnection.created]
  early := by simp [StreamConnection.created]
  unregistered _ := rfl

/-- `open` goes on; it is only in its early steps that it may fail. -/
theorem next (h : Inv delayRead c) {d : StreamConnection κ σ}
    (hreferences : d.references.Holds d.holders)
    (hclose : d.closed = c.closed ∧ d.closers = c.closers ∧ d.initial = c.initial)
    (hearly : d.stage.Early delayRead → c.stage.Early delayRead ∧ d.inReactor = c.inReactor)
    (hunregistered : d.stage.Unregistered → d.isRegistered = false) : Inv delayRead d := by
  obtain ⟨hclosed, hclosers, hinitial⟩ := hclose
  refine ⟨hreferences, ?_, ?_, fun hd => ?_, hunregistered⟩
  · rw [hclosers, hinitial]
    exact h.releasing
  · rw [hclosed, hclosers, hinitial]
    exact h.fresh
  · obtain ⟨hc, hreactor⟩ := hearly hd
    rw [hclosed, hclosers, hreactor]
    exact h.early hc

theorem advance (h : Inv delayRead c) {next : StreamStage} (hinside : next.inside = c.stage.inside)
    (hearly : next.Early delayRead → c.stage.Early delayRead)
    (hunregistered : next.Unregistered → c.stage.Unregistered) :
    Inv delayRead { c with stage := next } := by
  refine h.next (h.references.of_eq ?_) ⟨rfl, rfl, rfl⟩ (fun hd => ⟨hearly hd, rfl⟩) fun hd =>
    h.unregistered (hunregistered hd)
  simp [holders, hinside]

theorem status (h : Inv delayRead c) (status : Status) : Inv delayRead { c with status := status } :=
  ⟨h.references, h.releasing, h.fresh, h.early, h.unregistered⟩

theorem inReactor (h : Inv delayRead c) (hearly : ¬ c.stage.Early delayRead) (inReactor : Bool) :
    Inv delayRead { c with inReactor := inReactor } :=
  ⟨h.references, h.releasing, h.fresh, fun hd => absurd hd hearly, h.unregistered⟩

theorem deregister (h : Inv delayRead c) : Inv delayRead c.deregister := by
  unfold StreamConnection.deregister
  split
  · next hregistered =>
    refine h.next (h.references.decrease ?_) ⟨rfl, rfl, rfl⟩ (fun hd => ⟨hd, rfl⟩) fun _ => rfl
    simp [holders, StreamConnection.decrease, hregistered]
    omega
  · exact h

@[simp] theorem closers_deregister : c.deregister.closers = c.closers := by
  unfold StreamConnection.deregister
  split <;> rfl

@[simp] theorem stage_deregister : c.deregister.stage = c.stage := by
  unfold StreamConnection.deregister
  split <;> rfl

/-- `open` returns, and has released the reference that it had taken for itself. -/
theorem leave (h : Inv delayRead c) (hinside : c.stage.inside = true) :
    Inv delayRead { c.decrease with stage := .done } := by
  refine h.next (h.references.decrease ?_) ⟨rfl, rfl, rfl⟩ (by simp [StreamStage.Early])
    (by simp [StreamStage.Unregistered])
  have hdone : StreamStage.done.inside = false := rfl
  simp [holders, StreamConnection.decrease, hinside, hdone]
  omega

theorem stepOpen (h : Inv delayRead c) (hpos : 0 < c.holders) (ok : Bool) :
    Inv delayRead (c.stepOpen delayRead ok) := by
  have hearly := h.early
  have hunregistered := h.unregistered
  unfold StreamConnection.stepOpen
  cases hstage : c.stage <;> rw [hstage] at hearly hunregistered
  case begin =>
    refine (h.status .initializing).next (h.references.increase hpos ?_) ⟨rfl, rfl, rfl⟩ ?_ ?_
    · simp [holders, increase, hstage, StreamStage.inside]
      omega
    · simp [StreamStage.Early, hstage, increase]
    · exact fun _ => hunregistered (.inl rfl)
  case initializing =>
    refine h.advance ?_ ?_ ?_
    · cases ok <;> simp [hstage, StreamStage.inside]
    · simp [StreamStage.Early, hstage]
    · simp [StreamStage.Unregistered, hstage]
  case register =>
    have hnot := hunregistered (.inr (.inr rfl))
    cases ok with
    | true =>
      refine h.next (h.references.increase hpos ?_) ⟨rfl, rfl, rfl⟩ ?_ ?_
      · simp [holders, increase, hstage, StreamStage.inside, hnot]
        omega
      · simp [StreamStage.Early, hstage, increase]
      · simp [StreamStage.Unregistered]
    | false =>
      refine h.advance ?_ ?_ ?_
      · simp [hstage, StreamStage.inside]
      · simp [StreamStage.Early, hstage]
      · simp [StreamStage.Unregistered, hstage]
  case stream =>
    refine h.advance ?_ ?_ ?_
    · cases ok <;> simp [hstage, StreamStage.inside]
    · simp [StreamStage.Early, hstage]
    · cases ok <;> simp [StreamStage.Unregistered]
  case reactor =>
    have hstatus : Inv delayRead { c with stage := .status } := by
      refine h.advance ?_ ?_ ?_
      · simp [hstage, StreamStage.inside]
      · simp [StreamStage.Early]
      · simp [StreamStage.Unregistered]
    cases hdelay : delayRead with
    | true => simpa [hdelay] using hstatus
    | false =>
      cases ok with
      | true => simpa [hdelay] using hstatus.inReactor (by simp [StreamStage.Early]) true
      | false =>
        have hfailed : Inv delayRead { c with stage := .failed } := by
          refine h.advance ?_ ?_ ?_
          · simp [hstage, StreamStage.inside]
          · simp [StreamStage.Early, hstage, hdelay]
          · simp [StreamStage.Unregistered]
        simpa [hdelay] using hfailed
  case status =>
    refine (h.status .ok).advance ?_ ?_ ?_
    · simp [hstage, StreamStage.inside]
    · simp [StreamStage.Early]
    · simp [StreamStage.Unregistered]
  case leave => exact h.leave (by simp [hstage, StreamStage.inside])
  case failed =>
    refine (h.deregister.status .initializationFailed).advance ?_ ?_ ?_
    · simp [hstage, StreamStage.inside]
    · simp [StreamStage.Early, hstage]
    · simp [StreamStage.Unregistered]
  case unwind =>
    -- the initial reference is still there, so the one that `open` has taken is released
    have hinitial : c.initial = true := (h.fresh (hearly (by simp [StreamStage.Early])).1).2
    have hmany : 1 < c.references.count := by
      rw [h.references.count]
      simp [holders, hinitial, hstage, StreamStage.inside]
      omega
    rw [if_pos hmany]
    exact h.leave (by simp [hstage, StreamStage.inside])
  case done => exact h

/-- Calls of `handle_close` of which no more release the initial reference. -/
theorem closers (h : Inv delayRead c) (hlate : ¬ c.stage.Early delayRead) {closers : List Closer}
    (hcount : closers.countP Closer.releases ≤ c.closers.countP Closer.releases) :
    Inv delayRead { c with closers := closers } := by
  refine ⟨h.references, hcount.trans h.releasing, fun hclosed => ?_, fun hd => absurd hd hlate,
    h.unregistered⟩
  obtain ⟨hnone, hinitial⟩ := h.fresh hclosed
  exact ⟨Nat.eq_zero_of_le_zero (hnone ▸ hcount), hinitial⟩

theorem late (h : Inv delayRead c) {i : ℕ} {closer : Closer}
    (hcloser : c.closers[i]? = some closer) : ¬ c.stage.Early delayRead := fun hearly => by
  simp [(h.early hearly).2.1] at hcloser

/-- A call of `handle_close` goes on to its next step. -/
theorem set (h : Inv delayRead c) {i : ℕ} {closer : Closer}
    (hcloser : c.closers[i]? = some closer) (next : Closer)
    (hreleases : next.releases = true → closer.releases = true) :
    Inv delayRead { c with closers := c.closers.set i next } := by
  refine h.closers (h.late hcloser) ?_
  have hset := countP_set (p := Closer.releases) hcloser next
  have hle : next.releases.toNat ≤ closer.releases.toNat := Bool.toNat_le_toNat hreleases
  omega

/-- The first call of `handle_close` will release the initial reference, and no other one. -/
theorem lock (h : Inv delayRead c) {i : ℕ} (hcloser : c.closers[i]? = some .lock) :
    Inv delayRead { c with
      closed := true
      closers := c.closers.set i (.socket !c.closed) } := by
  have hset := countP_set (p := Closer.releases) hcloser (.socket !c.closed)
  refine ⟨h.references, ?_, nofun, fun hd => absurd hd (h.late hcloser), h.unregistered⟩
  show List.countP Closer.releases (c.closers.set i (.socket !c.closed)) ≤ c.initial.toNat
  cases hclosed : c.closed with
  | true =>
    have hreleasing := h.releasing
    simp only [hclosed, Closer.releases] at hset
    simp only [Bool.not_true, Bool.toNat_false, Nat.add_zero] at hset ⊢
    omega
  | false =>
    obtain ⟨hnone, hinitial⟩ := h.fresh hclosed
    simp only [hclosed, Closer.releases, hnone] at hset
    simp only [Bool.not_false, Bool.toNat_false, Bool.toNat_true, Nat.add_zero] at hset ⊢
    simp [hset, hinitial]

/-- The call that is to release the initial reference releases it, and is the last to do so. -/
theorem giveUp (h : Inv delayRead c) {i : ℕ} (hcloser : c.closers[i]? = some (.decrease true)) :
    Inv delayRead { c.decrease with initial := false, closers := c.closers.eraseIdx i } := by
  have herase := countP_eraseIdx (p := Closer.releases) hcloser
  have hreleasing := h.releasing
  have hinitial : c.initial = true := by
    cases hinitial : c.initial with
    | true => rfl
    | false =>
      simp only [hinitial, Closer.releases, Bool.toNat_false, Bool.toNat_true] at herase hreleasing
      omega
  have hclosed : c.closed = true := by
    cases hclosed : c.closed with
    | true => rfl
    | false =>
      simp only [(h.fresh hclosed).1, Closer.releases, Bool.toNat_true] at herase
      omega
  simp only [hinitial, Closer.releases, Bool.toNat_true] at herase hreleasing
  refine ⟨h.references.decrease ?_, ?_, fun hopen => ?_, fun hd => absurd hd (h.late hcloser),
    h.unregistered⟩
  · simp [holders, StreamConnection.decrease, hinitial]
    omega
  · simp only [Bool.toNat_false]
    omega
  · simp [StreamConnection.decrease, hclosed] at hopen

theorem stepClose (h : Inv delayRead c) {i : ℕ} {closer : Closer}
    (hcloser : c.closers[i]? = some closer) : Inv delayRead (c.stepClose i closer) := by
  unfold StreamConnection.stepClose
  cases closer with
  | lock => exact (h.lock hcloser).status _
  | socket d =>
    have hnext := (h.set hcloser (.count d c.isRegistered) id).inReactor (h.late hcloser) false
    exact ⟨hnext.references, hnext.releasing, hnext.fresh, hnext.early, hnext.unregistered⟩
  | count d reg => exact h.set hcloser _ fun hd => ((Bool.and_eq_true _ _).mp hd).1
  | deregister d reg =>
    cases reg with
    | true =>
      have hset := h.deregister.set ((congrArg (·[i]?) closers_deregister).trans hcloser)
        (.decrease d) id
      simpa using hset
    | false => exact h.set hcloser _ id
  | decrease d =>
    cases d with
    | true => exact h.giveUp hcloser
    | false =>
      refine h.closers (h.late hcloser) ?_
      have herase := countP_eraseIdx (p := Closer.releases) hcloser
      omega

theorem close (h : Inv delayRead c)
    (hwhen : c.inReactor = true ∨ c.stage = .begin ∨ c.stage = .done) :
    Inv delayRead { c with
      stage := if c.stage = .begin then .done else c.stage
      closers := c.closers ++ [.lock] } := by
  have hdone : ¬ StreamStage.Early delayRead .done := fun hearly => hearly.2.2.1 rfl
  by_cases hbegin : c.stage = .begin
  · simp only [if_pos hbegin]
    have hstage : Inv delayRead { c with stage := .done } := by
      refine h.advance ?_ (absurd · hdone) (by simp [StreamStage.Unregistered])
      rw [hbegin]
      rfl
    exact hstage.closers hdone (by simp [Closer.releases])
  · simp only [if_neg hbegin]
    refine h.closers (fun hearly => ?_) (by simp [Closer.releases])
    rcases hwhen with hreactor | hstage | hstage
    · simp [(h.early hearly).2.2] at hreactor
    · exact hbegin hstage
    · exact hdone (hstage ▸ hearly)

theorem step {S : Socket σ} {d : StreamConnection κ σ} {e : Event} (h : Inv delayRead c)
    (hsteady : Steady S delayRead c e) (hstep : StreamConnection.step S delayRead c e = .ok d) :
    Inv delayRead d := by
  unfold StreamConnection.step at hstep
  split at hstep
  · cases hstep
  next hexternal =>
  have halive : e.external = true → 0 < c.holders := fun he =>
    h.references.pos (by simpa [he] using hexternal)
  cases e with
  | opening ok =>
    cases hstep
    exact h.stepOpen (halive rfl) ok
  | initiateRead ok =>
    by_cases hstarted : c.stage.Started
    · simp only [if_pos hstarted] at hstep
      cases hstep
      refine h.inReactor (fun hearly => ?_) ok
      rcases hstarted with hs | hs | hs | hs
      · simpa [show delayRead = true from hsteady] using hearly.2.2.2 hs
      · exact hearly.1 hs
      · exact hearly.2.1 hs
      · exact hearly.2.2.1 hs
    · simp [hstarted] at hstep
  | put message notified =>
    cases hstep
    obtain rfl : notified = true := hsteady
    refine h.next (h.references.increase (halive rfl) ?_) ⟨rfl, rfl, rfl⟩ (fun hd => ⟨hd, rfl⟩)
      h.unregistered
    simp [holders, notify, increase]
    omega
  | dispatch =>
    by_cases hnone : c.notifies = 0
    · simp [hnone] at hstep
    simp only [if_neg hnone] at hstep
    cases hcall : handleOutput S c.toTCPConnection with
    | error f => simp [hcall] at hstep
    | ok sent =>
      obtain ⟨chain, hchain, htakes⟩ := hsteady
      obtain ⟨hresult, hrefs, hregistered, hclosed⟩ :=
        handleOutput_takesAll hchain htakes hcall
      simp only [hcall] at hstep
      cases hstep
      simp only [outputDone, hresult, lt_irrefl, if_false, if_true]
      refine h.next ?_ ⟨hclosed, rfl, rfl⟩ (fun hd => ⟨hd, rfl⟩) fun hd => ?_
      · show sent.1.references.Holds _
        rw [hrefs]
        refine h.references.decrease ?_
        simp only [holders, hregistered]
        omega
      · exact hregistered.trans (h.unregistered hd)
  | close =>
    by_cases hwhen : c.inReactor = true ∨ c.stage = .begin ∨ c.stage = .done
    · simp only [if_pos hwhen] at hstep
      cases hstep
      exact h.close hwhen
    · simp [hwhen] at hstep
  | closer i =>
    cases hcloser : c.closers[i]? with
    | none => simp [hcloser] at hstep
    | some closer =>
      simp only [hcloser] at hstep
      cases hstep
      exact h.stepClose hcloser
  | abort =>
    cases hstep
    exact h.status _
  | get =>
    by_cases hregistered : c.isRegistered = true
    · simp only [if_pos hregistered] at hstep
      cases hstep
      refine h.next (h.references.increase (halive rfl) ?_) ⟨rfl, rfl, rfl⟩ (fun hd => ⟨hd, rfl⟩)
        h.unregistered
      simp [holders, increase]
      omega
    · simp [hregistered] at hstep
  | release =>
    by_cases hnone : c.handedOut = 0
    · simp [hnone] at hstep
    · simp only [if_neg hnone] at hstep
      cases hstep
      refine h.next (h.references.decrease ?_) ⟨rfl, rfl, rfl⟩ (fun hd => ⟨hd, rfl⟩)
        h.unregistered
      simp [holders, StreamConnection.decrease]
      omega

end Inv

end StreamConnection

end ACENetwork.Net
