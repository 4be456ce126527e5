import ACENetwork.Net.AsynchConnection
import ACENetwork.Net.StreamConnection

/-!
# The references of a connection

Who holds a reference to a connection of the proactor: the one who has created it, the
connection manager, those it has handed the connection out to, and every write from the
first attempt to start it on. The completion of a partial write releases the reference
although it has started another write, and two chains of reads both release the initial
one.
-/
namespace ACENetwork.Net
open Library

variable {κ : Counter}

namespace AsynchOutput

/-- The writes that are being started, are under way, or whose completion is to be handled. -/
def writes (o : AsynchOutput κ) : ℕ :=
  o.senders.countP Sender.holding + o.submitted.length + o.performed.length

/-- The writes hold one reference each, besides those of others; `counter_` counts them. -/
structure Counts (others : ℕ) (o : AsynchOutput κ) : Prop where
  references : o.references.Holds (others + o.writes)
  counter : κ.count o.counter = o.writes

/-- The writes that the completion handler does not start again. -/
def Whole (o : AsynchOutput κ) : Event → Prop
  | .complete i _ => ∀ completion ∈ o.performed[i]?, completion.rest = [] ∨
      intOfSize completion.transferred = -1 ∨ intOfSize completion.transferred = 0
  | _ => True

instance (o : AsynchOutput κ) : (e : Event) → Decidable (o.Whole e)
  | .complete i _ => inferInstanceAs (Decidable (∀ completion ∈ o.performed[i]?,
      completion.rest = [] ∨ intOfSize completion.transferred = -1 ∨
        intOfSize completion.transferred = 0))
  | .put _ | .handleOutput | .write _ _ | .transfer _ | .fail => isTrue trivial

namespace Counts

variable {others : ℕ} {o : AsynchOutput κ}

@[simp] theorem submitted_holdFor (sender : Sender) :
    (o.holdFor sender).submitted = o.submitted := by
  unfold AsynchOutput.holdFor
  split <;> rfl

@[simp] theorem performed_holdFor (sender : Sender) :
    (o.holdFor sender).performed = o.performed := by
  unfold AsynchOutput.holdFor
  split <;> rfl

theorem performed (h : Counts others o) {p : AsynchOutput κ} {data : List UInt8}
    {submitted : List (List UInt8)} {completion : WriteCompletion}
    (hsubmitted : o.submitted = data :: submitted) (hreferences : p.references = o.references)
    (hcounter : p.counter = o.counter)
    (hp : p.submitted = submitted ∧ p.senders = o.senders)
    (hperformed : p.performed = o.performed ++ [completion]) : Counts others p := by
  have hwrites : p.writes = o.writes := by
    simp only [writes, hsubmitted, hp, hperformed, List.length_cons, List.length_append]
    simp only [List.length_nil]
    omega
  refine ⟨?_, ?_⟩
  · rw [hreferences, hwrites]
    exact h.references
  · rw [hcounter, hwrites, h.counter]

theorem holdFor (h : Counts others o) (hpos : 0 < others + o.writes) (sender : Sender) :
    (o.holdFor sender).references.Holds (others + o.writes + (!sender.holding).toNat) ∧
      κ.count (o.holdFor sender).counter = o.writes + (!sender.holding).toNat := by
  unfold AsynchOutput.holdFor
  cases sender.holding with
  | true => exact ⟨h.references, h.counter⟩
  | false => exact ⟨h.references.increase hpos rfl, by simp [hold, h.counter]⟩

/-- A write, and what is left of the others, once the call has taken its references. -/
theorem held (h : Counts others o) (hpos : 0 < others + o.writes) {sender : Sender}
    {p : AsynchOutput κ} (hreferences : p.references = (o.holdFor sender).references)
    (hcounter : p.counter = (o.holdFor sender).counter)
    (hwrites : p.writes + sender.holding.toNat = o.writes + 1) : Counts others p := by
  have ⟨hheld, hcount⟩ := h.holdFor hpos sender
  have hsum : sender.holding.toNat + (!sender.holding).toNat = 1 := by cases sender.holding <;> rfl
  refine ⟨?_, ?_⟩
  · rw [hreferences]
    exact hheld.of_eq (by omega)
  · rw [hcounter, hcount]
    omega

theorem release (h : Counts others o) {p : AsynchOutput κ}
    (hreferences : p.references = o.references.decrease)
    (hcounter : p.counter = κ.decrease o.counter) (hwrites : o.writes = p.writes + 1) :
    Counts others p := by
  refine ⟨?_, ?_⟩
  · rw [hreferences]
    exact h.references.decrease (by omega)
  · rw [hcounter, κ.count_decrease, h.counter]
    omega

theorem abandon (h : Counts others o) (hpos : 0 < others + o.writes) {i : ℕ} {sender : Sender}
    (hsender : o.senders[i]? = some sender) :
    Counts others ((o.holdFor sender).abandon i) := by
  have hset := countP_set (p := Sender.holding) hsender ⟨sender.message, sender.retries, true⟩
  have herase := countP_eraseIdx (p := Sender.holding) hsender
  have hheld : Counts others
      { o.holdFor sender with senders := o.senders.set i ⟨sender.message, sender.retries, true⟩ } := by
    refine h.held hpos rfl rfl ?_
    simp only [writes, submitted_holdFor, performed_holdFor, Bool.toNat_true] at hset ⊢
    omega
  refine hheld.release rfl rfl ?_
  simp only [writes, AsynchOutput.abandon, AsynchOutput.release, drop, submitted_holdFor,
    performed_holdFor, senders_holdFor, Bool.toNat_true] at hset ⊢
  omega

theorem write (h : Counts others o) (hpos : 0 < others + o.writes) {i : ℕ} {sender : Sender}
    (hsender : o.senders[i]? = some sender) (result : WriteResult) :
    Counts others (o.write i sender result) := by
  have herase := countP_eraseIdx (p := Sender.holding) hsender
  have hset := countP_set (p := Sender.holding) hsender
  unfold AsynchOutput.write
  cases result with
  | started =>
    -- the reference of the block goes over to its write
    have hsenders : ∀ senders : List Sender,
        senders.countP Sender.holding + sender.holding.toNat = o.senders.countP Sender.holding →
        Counts others { o.holdFor sender with
          submitted := o.submitted ++ [sender.message.data], senders := senders } := by
      intro senders hcount
      refine h.held hpos rfl rfl ?_
      simp only [writes, performed_holdFor, List.length_append, List.length_singleton]
      omega
    cases hcont : sender.message.cont with
    | nil => simpa [hcont] using hsenders _ herase
    | cons next cont => simpa [hcont] using hsenders _ (hset ⟨⟨next, cont⟩, sender.retries, false⟩)
  | again =>
    by_cases hretry : sender.retries + 1 ≤ sendRetries
    · simp only [if_pos hretry]
      refine h.held hpos rfl rfl ?_
      have hcount := hset ⟨sender.message, sender.retries + 1, true⟩
      simp only [writes, submitted_holdFor, performed_holdFor, Bool.toNat_true] at hcount ⊢
      omega
    · simp only [if_neg hretry]
      exact h.abandon hpos hsender
  | failed => exact h.abandon hpos hsender

/-- The completion of a write that is not started again releases its references. -/
theorem complete (h : Counts others o) {i : ℕ} {completion : WriteCompletion}
    (hcompletion : o.performed[i]? = some completion) (hwhole : completion.rest = [] ∨
      intOfSize completion.transferred = -1 ∨ intOfSize completion.transferred = 0)
    (started : Bool) :
    Counts others
      ({ o with performed := o.performed.eraseIdx i }.handleWriteStream completion started) := by
  obtain ⟨hi, -⟩ := List.getElem?_eq_some_iff.mp hcompletion
  have hlength := List.length_eraseIdx_of_lt hi
  have hwrites : o.writes = ({ o with performed := o.performed.eraseIdx i }).writes + 1 := by
    simp only [writes, hlength]
    omega
  unfold handleWriteStream handleWriteStreamBase
  by_cases hnone : intOfSize completion.transferred = -1 ∨ intOfSize completion.transferred = 0
  · simp only [if_pos hnone]
    refine h.release ?_ ?_ ?_
    · split <;> rfl
    · rfl
    · rw [hwrites]
      split <;> rfl
  · have hrest : completion.rest = [] := hwhole.resolve_right hnone
    simp only [if_neg hnone, if_pos hrest]
    exact h.release rfl rfl hwrites

theorem step {p : AsynchOutput κ} {e : Event} (h : Counts others o)
    (hpos : (∃ i result, e = .write i result) → 0 < others + o.writes) (hwhole : o.Whole e)
    (hstep : o.step e = .ok p) : Counts others p := by
  unfold AsynchOutput.step at hstep
  cases e with
  | put message =>
    cases hstep
    exact ⟨h.references, h.counter⟩
  | handleOutput =>
    cases hstep
    unfold AsynchOutput.handleOutput
    cases hqueue : o.queue with
    | nil => exact h
    | cons message queue =>
      have hwrites : ({ o with
          queue := queue
          senders := o.senders ++ [(⟨message, 0, false⟩ : Sender)] }).writes = o.writes := by
        simp [writes]
      exact ⟨h.references.of_eq (by rw [hwrites]), h.counter.trans hwrites.symm⟩
  | write i result =>
    cases hsender : o.senders[i]? with
    | none => simp [hsender] at hstep
    | some sender =>
      simp only [hsender] at hstep
      cases hstep
      exact h.write (hpos ⟨i, result, rfl⟩) hsender result
  | transfer count =>
    cases hsubmitted : o.submitted with
    | nil => simp [hsubmitted] at hstep
    | cons data submitted =>
      by_cases hcount : count ≤ data.length
      · simp only [hsubmitted, if_pos hcount] at hstep
        cases hstep
        exact h.performed hsubmitted rfl rfl ⟨rfl, rfl⟩ rfl
      · simp [hsubmitted, hcount] at hstep
  | fail =>
    cases hsubmitted : o.submitted with
    | nil => simp [hsubmitted] at hstep
    | cons data submitted =>
      simp only [hsubmitted] at hstep
      cases hstep
      exact h.performed hsubmitted rfl rfl ⟨rfl, rfl⟩ rfl
  | complete i started =>
    cases hcompletion : o.performed[i]? with
    | none => simp [hcompletion] at hstep
    | some completion =>
      simp only [hcompletion] at hstep
      cases hstep
      exact h.complete hcompletion (hwhole completion hcompletion) started

theorem more (h : Counts others o) (hpos : 0 < others + o.writes) {n : ℕ}
    (hn : n = others + 1) : Counts n { o with references := o.references.increase } :=
  ⟨h.references.increase hpos (by
    show n + o.writes = _
    omega), h.counter⟩

theorem fewer (h : Counts others o) {n : ℕ} (hn : others = n + 1) :
    Counts n { o with references := o.references.decrease } :=
  ⟨h.references.decrease (by
    show _ = n + o.writes + 1
    omega), h.counter⟩

end Counts

end AsynchOutput

namespace AsynchConnection

variable (a : Opening)

/-- Those who hold a reference, besides the writes: the one who has created the connection, the
manager and those it has handed the connection out to. -/
def others (c : AsynchConnection κ) : ℕ :=
  (1 - c.givenUp) + c.isRegistered.toNat + c.handedOut

/-- Everyone who holds a reference is counted, the connection is deleted once, when there is no
one left, and neither a read nor a write is outstanding then; `counter_` counts the writes. -/
structure Balanced (c : AsynchConnection κ) : Prop where
  output : c.Counts c.others
  outstanding : c.references.destroyed ≠ 0 →
    c.writes = 0 ∧ c.input.reads + c.input.completions.length + c.input.readers.length = 0

/-- The steps that keep the references balanced: no partial write is started again, and either
one chain of reads or `open` gives up the initial reference. -/
def Single (c : AsynchConnection κ) : Event → Prop
  | .opening _ =>
    c.stage = .read ∧ a.delayRead = false ∨ c.stage = .check ∧ c.status ≠ .ok ∨ c.stage = .fake →
      c.input.started = false
  | .initiateRead =>
    c.input.started = false ∧ c.givenUp = 0 ∧ c.stage ≠ .close ∧ c.stage ≠ .release
  | .output event => c.Whole event
  | _ => True

def chain (n : AsynchInput) : ℕ := n.reads + n.completions.length + n.readers.length

theorem chain_start (n : AsynchInput) : chain n.start = chain n + 1 := by
  simp only [chain, AsynchInput.start, AsynchInput.startRead]
  omega

theorem chain_fake (n : AsynchInput) (initial : List UInt8) :
    chain (n.fake initial) = chain n + 1 := by
  simp only [chain, AsynchInput.fake, List.length_append, List.length_singleton]
  omega

theorem chain_eraseIdx {n : AsynchInput} {i : ℕ} {reader : Reader}
    (hreader : n.readers[i]? = some reader) :
    chain { n with readers := n.readers.eraseIdx i } + 1 = chain n := by
  obtain ⟨hi, -⟩ := List.getElem?_eq_some_iff.mp hreader
  simp only [chain, List.length_eraseIdx_of_lt hi]
  omega

theorem chain_dispatch {n : AsynchInput} {i : ℕ} {completion : ReadCompletion}
    (hcompletion : n.completions[i]? = some completion) (status : Status) (put : Bool) :
    chain ({ n with completions := n.completions.eraseIdx i }.handleReadStream status completion put) =
        chain n ∧
      ({ n with completions := n.completions.eraseIdx i }.handleReadStream status completion
        put).started = n.started := by
  obtain ⟨hi, -⟩ := List.getElem?_eq_some_iff.mp hcompletion
  have hlength := List.length_eraseIdx_of_lt hi
  unfold AsynchInput.handleReadStream
  split
  · refine ⟨?_, rfl⟩
    simp only [chain, hlength, List.length_append, List.length_singleton]
    omega
  · split <;> refine ⟨?_, rfl⟩ <;>
      · simp only [chain, hlength, List.length_append, List.length_singleton]
        omega

/-- `open` is about to give up the initial reference. -/
def leaving (stage : OpenStage) : ℕ := if stage = .close ∨ stage = .release then 1 else 0

/-- The invariant of the references: the initial one is given up once. -/
structure RefInv (c : AsynchConnection κ) : Prop where
  output : c.Counts c.others
  once : c.givenUp + chain c.input + leaving c.stage ≤ 1
  idle : c.input.started = false → chain c.input = 0 ∧ (c.givenUp = 0 ∨ c.stage = .done)
  unregistered : c.stage = .register → c.isRegistered = false

namespace RefInv

variable {a} {c : AsynchConnection κ}

theorem created : RefInv (AsynchConnection.created : AsynchConnection κ) where
  output := ⟨.create, κ.count_create 0⟩
  once := by simp [AsynchConnection.created, chain, leaving]
  idle := by simp [AsynchConnection.created, chain]
  unregistered _ := rfl

/-- `open` goes on, and is not about to give up the initial reference. -/
theorem advance (h : RefInv c) {next : OpenStage} (hnext : leaving next ≤ leaving c.stage)
    (hdone : c.stage ≠ .done) (hregister : next ≠ .register) :
    RefInv { c with stage := next } where
  output := h.output
  once := by
    have := h.once
    simp only
    omega
  idle hstarted := ⟨(h.idle hstarted).1, .inl ((h.idle hstarted).2.resolve_right hdone)⟩
  unregistered hs := absurd hs hregister

theorem status (h : RefInv c) (status : Status) : RefInv { c with status := status } :=
  ⟨h.output, h.once, h.idle, h.unregistered⟩

theorem deregister (h : RefInv c) : RefInv c.deregister := by
  unfold AsynchConnection.deregister
  split
  · next hregistered =>
    refine ⟨h.output.fewer ?_, h.once, h.idle, fun _ => rfl⟩
    simp [others, AsynchConnection.decrease, hregistered]
    omega
  · exact h

theorem handleClose (h : RefInv c) : RefInv c.handleClose := by
  unfold AsynchConnection.handleClose
  refine deregister ?_
  exact ⟨h.output, h.once, h.idle, h.unregistered⟩

theorem giveUp_output (h : RefInv c) (hzero : c.givenUp = 0) :
    c.giveUp.Counts c.giveUp.others := by
  refine h.output.fewer ?_
  simp [others, AsynchConnection.giveUp, AsynchConnection.decrease, hzero]
  omega

theorem leave (h : RefInv c) (hstarted : c.input.started = false) (hdone : c.stage ≠ .done) :
    RefInv { c with stage := .close } where
  output := h.output
  once := by
    obtain ⟨hzero, hgiven⟩ := h.idle hstarted
    simp [leaving, hzero, hgiven.resolve_right hdone]
  idle _ := ⟨(h.idle hstarted).1, .inl ((h.idle hstarted).2.resolve_right hdone)⟩
  unregistered := nofun

theorem input (h : RefInv c) {n : AsynchInput} (hstarted : n.started = true)
    (honce : c.givenUp + chain n + leaving c.stage ≤ 1) : RefInv { c with input := n } where
  output := h.output
  once := honce
  idle hs := by simp [hstarted] at hs
  unregistered := h.unregistered

theorem stepOpen (h : RefInv c) (hpos : c.stage = .register → 0 < c.others + c.writes) (ok : Bool)
    (hsingle : c.stage = .read ∧ a.delayRead = false ∨ c.stage = .check ∧ c.status ≠ .ok ∨
      c.stage = .fake → c.input.started = false) : RefInv (c.stepOpen a ok) := by
  have hfailed : c.stage ≠ .done → RefInv c.openFailed := fun hdone => by
    have hderegister := h.deregister.status .initializationFailed
    exact hderegister.advance (by simp [leaving]) (by simpa using hdone) nofun
  unfold AsynchConnection.stepOpen
  cases hstage : c.stage
  case register =>
    cases ok with
    | true =>
      refine ⟨h.output.more (hpos hstage) ?_, ?_, ?_, nofun⟩
      · simp [others, increase, h.unregistered hstage]
        omega
      · simpa [leaving, hstage, increase] using h.once
      · simpa [hstage, increase] using h.idle
    | false => exact hfailed (by simp [hstage])
  case stream =>
    cases ok with
    | true => exact h.advance (by simp [leaving]) (by simp [hstage]) nofun
    | false => exact hfailed (by simp [hstage])
  case read =>
    have hstatus : RefInv { c with stage := .status } :=
      h.advance (by simp [leaving]) (by simp [hstage]) nofun
    cases hdelay : a.delayRead with
    | true => exact hstatus
    | false =>
      cases ok with
      | true =>
        obtain ⟨hzero, hgiven⟩ := h.idle (hsingle (.inl ⟨hstage, hdelay⟩))
        refine hstatus.input rfl ?_
        simp [chain_start, hzero, hgiven.resolve_right (by simp [hstage]), leaving]
      | false => exact hfailed (by simp [hstage])
  case status =>
    exact (h.status .ok).advance (by simp [leaving]) (by simp [hstage]) nofun
  case check =>
    by_cases hstatus : c.status ≠ .ok
    · simp only [if_pos hstatus]
      exact h.leave (hsingle (.inr (.inl ⟨hstage, hstatus⟩))) (by simp [hstage])
    · by_cases hinitial : a.initial = []
      · simp only [if_neg hstatus, if_pos hinitial]
        exact h.advance (by simp [leaving]) (by simp [hstage]) nofun
      · simp only [if_neg hstatus, if_neg hinitial]
        exact h.advance (by simp [leaving]) (by simp [hstage]) nofun
  case fake =>
    have hstarted := hsingle (.inr (.inr hstage))
    cases ok with
    | true =>
      have hdone : RefInv { c with stage := .done } :=
        h.advance (by simp [leaving]) (by simp [hstage]) nofun
      obtain ⟨hzero, hgiven⟩ := h.idle hstarted
      refine hdone.input rfl ?_
      simp [chain_fake, hzero, hgiven.resolve_right (by simp [hstage]), leaving]
    | false => exact h.leave hstarted (by simp [hstage])
  case close =>
    exact h.handleClose.advance (by simp [leaving, hstage]) (by simp [hstage]) nofun
  case release =>
    have honce := h.once
    simp only [leaving, hstage, or_true, if_true] at honce
    refine ⟨h.giveUp_output (by omega), ?_, fun hs => ⟨(h.idle hs).1, .inr rfl⟩, nofun⟩
    simp [leaving, giveUp, decrease]
    omega
  case done =>
    show RefInv c
    exact h

theorem goOn (h : RefInv c) (hpos : 0 < chain c.input) {n : AsynchInput}
    (hchain : chain n ≤ chain c.input) (hstarted : n.started = c.input.started) :
    RefInv { c with input := n } := by
  have hinput : c.input.started = true := by
    by_contra hs
    have := (h.idle (by simpa using hs)).1
    omega
  refine h.input (hstarted.trans hinput) ?_
  have := h.once
  omega

theorem stepReader (h : RefInv c) {i : ℕ} {reader : Reader}
    (hreader : c.input.readers[i]? = some reader) (ok : Bool) : RefInv (c.stepReader i ok reader) := by
  have hfewer := chain_eraseIdx hreader
  have hpos : 0 < chain c.input := by omega
  have honce := h.once
  unfold AsynchConnection.stepReader
  cases reader with
  | restart =>
    cases ok with
    | true =>
      refine h.goOn hpos ?_ rfl
      simp only [chain, AsynchInput.startRead] at hfewer ⊢
      omega
    | false => exact h.goOn hpos (by simp [chain]) rfl
  | close =>
    have hset := h.handleClose.goOn (by simpa using hpos)
      (n := { c.input with readers := c.input.readers.set i .release }) (by simp [chain]) (by simp)
    exact hset
  | release =>
    refine ⟨h.giveUp_output (by omega), ?_, fun hs => ?_, h.unregistered⟩
    · show c.givenUp + 1 + chain { c.input with readers := c.input.readers.eraseIdx i } +
        leaving c.stage ≤ 1
      dsimp only
      omega
    · have := (h.idle hs).1
      omega

theorem step {d : AsynchConnection κ} {e : Event} (h : RefInv c) (hsingle : Single a c e)
    (hstep : AsynchConnection.step a c e = .ok d) : RefInv d := by
  unfold AsynchConnection.step at hstep
  split at hstep
  · cases hstep
  next hexternal =>
  have halive : e.external = true → 0 < c.others + c.writes := fun he =>
    h.output.references.pos (by simpa [he] using hexternal)
  cases e with
  | opening ok =>
    cases hstep
    exact h.stepOpen (fun _ => halive rfl) ok hsingle
  | initiateRead =>
    cases hstep
    obtain ⟨hstarted, hgiven, hclose, hrelease⟩ := hsingle
    refine h.input rfl ?_
    simp [chain_start, (h.idle hstarted).1, hgiven, leaving, hclose, hrelease]
  | read data =>
    by_cases hreads : c.input.reads = 0
    · simp [hreads] at hstep
    · simp only [if_neg hreads] at hstep
      cases hstep
      refine h.goOn ?_ ?_ rfl
      · unfold chain
        omega
      · simp only [chain, AsynchInput.read, List.length_append, List.length_singleton]
        omega
  | readError =>
    by_cases hreads : c.input.reads = 0
    · simp [hreads] at hstep
    · simp only [if_neg hreads] at hstep
      cases hstep
      refine h.goOn ?_ ?_ rfl
      · unfold chain
        omega
      · simp only [chain, AsynchInput.readError, List.length_append, List.length_singleton]
        omega
  | dispatch i put =>
    cases hcompletion : c.input.completions[i]? with
    | none => simp [hcompletion] at hstep
    | some completion =>
      simp only [hcompletion] at hstep
      cases hstep
      have hdispatched := chain_dispatch hcompletion c.status put
      refine h.goOn ?_ hdispatched.1.le hdispatched.2
      obtain ⟨hi, -⟩ := List.getElem?_eq_some_iff.mp hcompletion
      unfold chain
      omega
  | reader i ok =>
    cases hreader : c.input.readers[i]? with
    | none => simp [hreader] at hstep
    | some reader =>
      simp only [hreader] at hstep
      cases hstep
      exact h.stepReader hreader ok
  | abort =>
    cases hstep
    exact h.status _
  | get =>
    by_cases hregistered : c.isRegistered = true
    · simp only [if_pos hregistered] at hstep
      cases hstep
      refine ⟨h.output.more (halive rfl) ?_, h.once, h.idle, h.unregistered⟩
      dsimp only [others, increase]
      omega
    · simp [hregistered] at hstep
  | release =>
    by_cases hnone : c.handedOut = 0
    · simp [hnone] at hstep
    · simp only [if_neg hnone] at hstep
      cases hstep
      refine ⟨h.output.fewer ?_, h.once, h.idle, h.unregistered⟩
      dsimp only [others, decrease]
      omega
  | output event =>
    cases houtput : c.toAsynchOutput.step event with
    | error _ => simp [houtput, Except.map] at hstep
    | ok o =>
      simp only [houtput, Except.map] at hstep
      cases hstep
      refine ⟨h.output.step (fun hwrite => ?_) hsingle houtput, h.once, h.idle, h.unregistered⟩
      obtain ⟨i, result, rfl⟩ := hwrite
      exact halive rfl

theorem balanced (h : RefInv c) : Balanced c where
  output := h.output
  outstanding hdestroyed := by
    have hnone : ¬ 0 < c.others + c.writes := fun hpos =>
      hdestroyed (h.output.references.alive hpos)
    have honce := h.once
    simp only [others, chain] at hnone honce
    omega

end RefInv

instance (c : AsynchConnection κ) : (e : Event) → Decidable (Single a c e)
  | .opening _ => inferInstanceAs (Decidable
      (c.stage = .read ∧ a.delayRead = false ∨ c.stage = .check ∧ c.status ≠ .ok ∨
        c.stage = .fake → c.input.started = false))
  | .initiateRead => inferInstanceAs (Decidable
      (c.input.started = false ∧ c.givenUp = 0 ∧ c.stage ≠ .close ∧ c.stage ≠ .release))
  | .output event => inferInstanceAs (Decidable (c.Whole event))
  | .read _ | .readError | .dispatch _ _ | .reader _ _ | .abort | .get | .release => isTrue trivial

end AsynchConnection

/-- A connection of the reactor that sends a message and is closed by its peer. -/
def StreamConnection.sent : List StreamConnection.Event :=
  List.replicate 7 (.opening true) ++
    [.get, .put ⟨[1, 2], [[3]]⟩ true, .dispatch, .release, .close, .closer 0, .closer 0, .closer 0,
      .closer 0, .closer 0]

/-- A connection of the proactor that reads a block, sends a message and is closed by its peer. -/
def AsynchConnection.sent : List AsynchConnection.Event :=
  List.replicate 5 (.opening true) ++
    [.read [7], .dispatch 0 true, .reader 0 true, .output (.put ⟨[1, 2], []⟩), .output .handleOutput,
      .output (.write 0 .again), .output (.write 0 .started), .output (.transfer 2),
      .output (.complete 0 true), .readError, .dispatch 0 true, .reader 0 true, .reader 0 true]

instance {κ : Counter} {σ : Type} (S : Socket σ) (delayRead : Bool) (c : StreamConnection κ σ)
    (e : StreamConnection.Event) : Decidable (StreamConnection.Steady S delayRead c e) := by
  cases e <;> unfold StreamConnection.Steady <;> infer_instance

/-- A notification whose `handle_output` fails to send. -/
def StreamConnection.unsent : List StreamConnection.Event :=
  List.replicate 7 (.opening true) ++ [.put ⟨[1], []⟩ true, .dispatch]

def AsynchConnection.resumed : List AsynchConnection.Event :=
  List.replicate 5 (.opening true) ++
    [.output (.put ⟨[1, 2], []⟩), .output .handleOutput, .output (.write 0 .started),
      .output (.transfer 1), .output (.complete 0 true)]

end ACENetwork.Net
