import ACENetwork.Net.AsynchOutput

/-!
# A connection of the proactor

The steps of `Net_AsynchTCPConnectionBase_T`: `open`, the completions of reads and of
writes, `handle_close`, `abort`, and the references that the connection manager hands out.
A chain of reads starts with `initiate_read` or with the completion that `open` makes up for
the initial data, goes on with every block that the stream accepts, and gives up the
initial reference when it ends.
-/
namespace ACENetwork.Net
open BitTorrent (MessageBlock)
open Library

/-- What a connection is opened with: the initial data, and whether reading is left to the
modules downstream. -/
structure Opening where
  initial : List UInt8
  delayRead : Bool

inductive OpenStage where
  | register
  | stream
  | read
  | status
  | check
  | fake
  | close
  | release
  | done
  deriving DecidableEq, Repr

/-- A read that has been performed, and `bytes_transferred`. -/
structure ReadCompletion where
  data : List UInt8
  transferred : ℕ
  deriving DecidableEq, Repr

/-- What a call of `handle_read_stream` has still to do: start the next read, close the
connection and release the reference, or only the latter. -/
inductive Reader where
  | restart
  | close
  | release
  deriving DecidableEq, Repr

/-- The input of a `Net_AsynchTCPConnectionBase_T`: its reads that have not been performed,
those whose completion is to be handled, and the calls of `handle_read_stream`; and the
blocks that the stream has accepted. The bytes that have been read, and whether the stream
has refused a block or a chain of reads has been started, are a record of what has
happened. -/
structure AsynchInput where
  reads : ℕ
  completions : List ReadCompletion
  readers : List Reader
  receivedBytes : ℕ
  delivered : List (List UInt8)
  received : List UInt8
  refused : Bool
  started : Bool

/-- A `Net_AsynchTCPConnectionBase_T`. The references that the connection manager has handed
out, and how often the initial one was given up, are a record of what has happened. -/
structure AsynchConnection (κ : Counter) extends AsynchOutput κ where
  status : Status
  closed : Bool
  isRegistered : Bool
  stage : OpenStage
  input : AsynchInput
  handedOut : ℕ
  givenUp : ℕ

namespace AsynchInput

def startRead (n : AsynchInput) : AsynchInput := { n with reads := n.reads + 1 }

def start (n : AsynchInput) : AsynchInput := { n.startRead with started := true }

/-- A chain of reads begins with the completion that `open` makes up. -/
def fake (initial : List UInt8) (n : AsynchInput) : AsynchInput :=
  { n with completions := n.completions ++ [⟨initial, initial.length⟩], started := true }

/-- The socket has data for a read, or none because the peer has closed it. -/
def read (data : List UInt8) (n : AsynchInput) : AsynchInput :=
  { n with
    reads := n.reads - 1
    completions := n.completions ++ [⟨data, data.length⟩]
    received := n.received ++ data }

/-- A read fails, or is cancelled; it has transferred `(size_t)-1` bytes. -/
def readError (n : AsynchInput) : AsynchInput :=
  { n with reads := n.reads - 1, completions := n.completions ++ [⟨[], 2 ^ 64 - 1⟩] }

def handleReadStream (status : Status) (completion : ReadCompletion) (put : Bool)
    (n : AsynchInput) : AsynchInput :=
  if intOfSize completion.transferred = -1 ∨ intOfSize completion.transferred = 0 then
    { n with readers := n.readers ++ [.close] }
  else if put then
    { n with
      receivedBytes := n.receivedBytes + completion.transferred
      delivered := n.delivered ++ [completion.data]
      readers := n.readers ++ [if status = .closed then .close else .restart] }
  else
    { n with
      receivedBytes := n.receivedBytes + completion.transferred
      refused := true
      readers := n.readers ++ [.close] }

end AsynchInput

namespace AsynchConnection

variable {κ : Counter} (a : Opening)

def created : AsynchConnection κ where
  toAsynchOutput := AsynchOutput.opened .create
  status := .initializing
  closed := false
  isRegistered := false
  stage := .register
  input := ⟨0, [], [], 0, [], [], false, false⟩
  handedOut := 0
  givenUp := 0

def increase (c : AsynchConnection κ) : AsynchConnection κ :=
  { c with references := c.references.increase }

def decrease (c : AsynchConnection κ) : AsynchConnection κ :=
  { c with references := c.references.decrease }

/-- `Net_ConnectionBase_T::deregister`; the manager releases its reference. -/
def deregister (c : AsynchConnection κ) : AsynchConnection κ :=
  if c.isRegistered then { c.decrease with isRegistered := false } else c

def openFailed (c : AsynchConnection κ) : AsynchConnection κ :=
  { c.deregister with status := .initializationFailed, stage := .check }

def handleClose (c : AsynchConnection κ) : AsynchConnection κ :=
  deregister { c with
    status :=
      if c.status ≠ .initializationFailed ∧ c.status ≠ .closed ∧ c.status ≠ .peerClosed then
        .peerClosed
      else c.status
    closed := true }

def giveUp (c : AsynchConnection κ) : AsynchConnection κ :=
  { c.decrease with givenUp := c.givenUp + 1 }

def stepOpen (ok : Bool) (c : AsynchConnection κ) : AsynchConnection κ :=
  match c.stage with
  | .register =>
    if ok then { c.increase with isRegistered := true, stage := .stream } else c.openFailed
  | .stream => if ok then { c with stage := .read } else c.openFailed
  | .read =>
    if a.delayRead then { c with stage := .status }
    else if ok then { c with input := c.input.start, stage := .status }
    else c.openFailed
  | .status => { c with status := .ok, stage := .check }
  | .check =>
    if c.status ≠ .ok then { c with stage := .close }
    else if a.initial = [] then { c with stage := .done }
    else { c with stage := .fake }
  | .fake =>
    if ok then { c with input := c.input.fake a.initial, stage := .done }
    else { c with stage := .close }
  | .close => { c.handleClose with stage := .release }
  | .release => { c.giveUp with stage := .done }
  | .done => c

/-- The rest of `handle_read_stream`, for the `i`-th call. -/
def stepReader (i : ℕ) (ok : Bool) (reader : Reader) (c : AsynchConnection κ) :
    AsynchConnection κ :=
  match reader with
  | .restart =>
    if ok then { c with input := { c.input.startRead with readers := c.input.readers.eraseIdx i } }
    else { c with input := { c.input with readers := c.input.readers.set i .close } }
  | .close =>
    { c.handleClose with input := { c.input with readers := c.input.readers.set i .release } }
  | .release =>
    { c.giveUp with input := { c.input with readers := c.input.readers.eraseIdx i } }

def abort (c : AsynchConnection κ) : AsynchConnection κ :=
  { c with status := if c.status = .ok then .closed else c.status }

/-- What may happen to a connection, in any order. -/
inductive Event where
  | opening (ok : Bool)
  | initiateRead
  | read (data : List UInt8)
  | readError
  | dispatch (completion : ℕ) (put : Bool)
  | reader (call : ℕ) (ok : Bool)
  | abort
  | get
  | release
  | output (event : AsynchOutput.Event)
  deriving DecidableEq, Repr

/-- The calls from outside, which no one makes after the connection has been deleted. -/
def Event.external : Event → Bool
  | .opening _ => true
  | .initiateRead => true
  | .abort => true
  | .get => true
  | .output (.put _) => true
  | .output .handleOutput => true
  | .output (.write _ _) => true
  | _ => false

def step (c : AsynchConnection κ) (e : Event) : Except Unit (AsynchConnection κ) :=
  if e.external ∧ c.references.destroyed ≠ 0 then .error ()
  else
    match e with
    | .opening ok => .ok (c.stepOpen a ok)
    | .initiateRead => .ok { c with input := c.input.start }
    | .read data => if c.input.reads = 0 then .error () else .ok { c with input := c.input.read data }
    | .readError => if c.input.reads = 0 then .error () else .ok { c with input := c.input.readError }
    | .dispatch i put =>
      match c.input.completions[i]? with
      | none => .error ()
      | some completion =>
        let input := { c.input with completions := c.input.completions.eraseIdx i }
        .ok { c with input := input.handleReadStream c.status completion put }
    | .reader i ok =>
      match c.input.readers[i]? with
      | none => .error ()
      | some reader => .ok (c.stepReader i ok reader)
    | .abort => .ok c.abort
    | .get =>
      if c.isRegistered then .ok { c.increase with handedOut := c.handedOut + 1 } else .error ()
    | .release =>
      if c.handedOut = 0 then .error ()
      else .ok { c.decrease with handedOut := c.handedOut - 1 }
    | .output event => (c.toAsynchOutput.step event).map fun o => { c with toAsynchOutput := o }

def Counted (n : ℕ) : Prop := intOfSize n ≠ -1 ∧ intOfSize n ≠ 0

instance (n : ℕ) : Decidable (Counted n) := inferInstanceAs (Decidable (_ ∧ _))

/-- At most one read is outstanding, and the stream has been given the initial data and the
bytes that were read, in this order: all of them when no completion is to be handled, as
long as it has refused none. -/
structure InputInOrder (c : AsynchConnection κ) : Prop where
  outstanding : c.input.reads + c.input.completions.length ≤ 1
  inOrder : c.input.delivered.flatten <+: a.initial ++ c.input.received
  complete : c.input.started = true → c.input.completions = [] → c.input.refused = false →
    c.input.delivered.flatten = a.initial ++ c.input.received

/-- The steps that start no second chain of reads: `open` starts to read only if there is no
initial data, and the modules downstream only once, and if reading was left to them; and
no count of bytes is taken for the end of the input. -/
def Sequential (c : AsynchConnection κ) : Event → Prop
  | .opening _ =>
    (c.stage = .read → a.delayRead = false → a.initial = []) ∧
      (c.stage = .fake → Counted a.initial.length)
  | .initiateRead => a.initial = [] ∧ a.delayRead = true ∧ c.input.started = false
  | .read data => data ≠ [] → Counted data.length
  | _ => True

/-- `open` has not decided yet whether it starts to read. -/
def OpenStage.Early (stage : OpenStage) : Prop :=
  stage = .register ∨ stage = .stream ∨ stage = .read

/-- The invariant of the input: there is at most one of a read, a completion and a call of
the handler, and none before the chain of reads has been started. -/
structure InputInv (stage : OpenStage) (n : AsynchInput) : Prop where
  chain : n.reads + n.completions.length + n.readers.length ≤ 1
  idle : n.started = false → n.reads + n.completions.length + n.readers.length = 0 ∧
    n.received = [] ∧ n.delivered = [] ∧ n.refused = false
  place : n.started = true → a.initial = [] ∨ stage = .done
  early : a.delayRead = false → OpenStage.Early stage → n.started = false
  fake : stage = .fake → a.initial ≠ []
  counted : ∀ x ∈ n.completions, x.data = [] ∨ Counted x.transferred
  kept : n.started = true → n.refused = false →
    n.delivered.flatten ++ n.completions.flatMap ReadCompletion.data = a.initial ++ n.received
  lost : n.refused = true → n.delivered.flatten <+: a.initial ++ n.received ∧
    n.reads + n.completions.length = 0 ∧ .restart ∉ n.readers

namespace InputInv

variable {a} {stage : OpenStage} {n : AsynchInput}

theorem inOrder (h : InputInv a stage n) :
    n.delivered.flatten <+: a.initial ++ n.received := by
  cases hrefused : n.refused with
  | true => exact (h.lost hrefused).1
  | false =>
    cases hstarted : n.started with
    | true => exact ⟨_, h.kept hstarted hrefused⟩
    | false => simp [(h.idle hstarted).2.2.1]

theorem started (h : InputInv a stage n)
    (hpos : 0 < n.reads + n.completions.length + n.readers.length) : n.started = true := by
  cases hstarted : n.started with
  | true => rfl
  | false => have := (h.idle hstarted).1; omega

theorem not_refused (h : InputInv a stage n) (hpos : 0 < n.reads + n.completions.length) :
    n.refused = false := by
  cases hrefused : n.refused with
  | false => rfl
  | true => have := (h.lost hrefused).2.1; omega

theorem next (h : InputInv a stage n) {stage' : OpenStage}
    (hdone : stage = .done → stage' = .done)
    (hearly : OpenStage.Early stage' → OpenStage.Early stage)
    (hfake : stage' = .fake → a.initial ≠ []) : InputInv a stage' n where
  __ := h
  place hs := (h.place hs).imp_right hdone
  early hdelay hs := h.early hdelay (hearly hs)
  fake := hfake

theorem start (h : InputInv a stage n) (hstarted : n.started = false) (hinitial : a.initial = [])
    (hstage : a.delayRead = false → ¬ OpenStage.Early stage) : InputInv a stage n.start := by
  obtain ⟨hzero, hreceived, hdelivered, hrefused⟩ := h.idle hstarted
  have hcompletions : n.completions = [] := List.eq_nil_of_length_eq_zero (by omega)
  refine ⟨?_, nofun, fun _ => .inl hinitial, fun hdelay he => absurd he (hstage hdelay), h.fake,
    h.counted, fun _ _ => ?_, fun hr => ?_⟩
  · simp only [AsynchInput.start, AsynchInput.startRead]
    omega
  · simp [AsynchInput.start, AsynchInput.startRead, hcompletions, hreceived, hdelivered, hinitial]
  · simp [AsynchInput.start, AsynchInput.startRead, hrefused] at hr

theorem fakeCompletion (h : InputInv a .fake n) (hcounted : Counted a.initial.length) :
    InputInv a .done (n.fake a.initial) := by
  have hstarted : n.started = false := by
    cases hs : n.started with
    | false => rfl
    | true => simpa [h.fake rfl] using h.place hs
  obtain ⟨hzero, hreceived, hdelivered, hrefused⟩ := h.idle hstarted
  have hcompletions : n.completions = [] := List.eq_nil_of_length_eq_zero (by omega)
  refine ⟨?_, nofun, fun _ => .inr rfl, fun _ he => ?_, nofun, ?_, fun _ _ => ?_, fun hr => ?_⟩
  · simp only [AsynchInput.fake, hcompletions, List.nil_append, List.length_singleton]
    omega
  · simp [OpenStage.Early] at he
  · simp [AsynchInput.fake, hcompletions, hcounted]
  · simp [AsynchInput.fake, hcompletions, hreceived, hdelivered]
  · simp [AsynchInput.fake, hrefused] at hr

theorem read (h : InputInv a stage n) (hreads : n.reads ≠ 0) {data : List UInt8}
    (hcounted : data ≠ [] → Counted data.length) : InputInv a stage (n.read data) := by
  have hchain := h.chain
  have hstarted := h.started (by omega)
  have hrefused := h.not_refused (by omega)
  have hcompletions : n.completions = [] := List.eq_nil_of_length_eq_zero (by omega)
  have hkept := h.kept hstarted hrefused
  refine ⟨?_, fun hs => ?_, h.place, h.early, h.fake, ?_, fun _ _ => ?_, fun hr => ?_⟩
  · simp only [AsynchInput.read, hcompletions, List.nil_append, List.length_singleton]
    omega
  · simp [AsynchInput.read, hstarted] at hs
  · simpa [AsynchInput.read, hcompletions, or_iff_not_imp_left] using hcounted
  · simp_all [AsynchInput.read]
  · simp [AsynchInput.read, hrefused] at hr

theorem readError (h : InputInv a stage n) (hreads : n.reads ≠ 0) :
    InputInv a stage n.readError := by
  have hchain := h.chain
  have hstarted := h.started (by omega)
  have hrefused := h.not_refused (by omega)
  have hcompletions : n.completions = [] := List.eq_nil_of_length_eq_zero (by omega)
  have hkept := h.kept hstarted hrefused
  refine ⟨?_, fun hs => ?_, h.place, h.early, h.fake, ?_, fun _ _ => ?_, fun hr => ?_⟩
  · simp only [AsynchInput.readError, hcompletions, List.nil_append, List.length_singleton]
    omega
  · simp [AsynchInput.readError, hstarted] at hs
  · simp [AsynchInput.readError, hcompletions]
  · simp_all [AsynchInput.readError]
  · simp [AsynchInput.readError, hrefused] at hr

theorem dispatch (h : InputInv a stage n) {i : ℕ} {completion : ReadCompletion}
    (hcompletion : n.completions[i]? = some completion) (status : Status) (put : Bool) :
    InputInv a stage
      ({ n with completions := n.completions.eraseIdx i }.handleReadStream status completion put) := by
  have hchain := h.chain
  have hone : n.completions = [completion] ∧ i = 0 := by
    cases hcompletions : n.completions with
    | nil => simp [hcompletions] at hcompletion
    | cons x rest =>
      obtain rfl : rest = [] := List.eq_nil_of_length_eq_zero (by simp [hcompletions] at hchain; omega)
      cases i <;> simp_all
  obtain ⟨hcompletions, rfl⟩ := hone
  have hlength : n.completions.length = 1 := by rw [hcompletions, List.length_singleton]
  have hreads : n.reads = 0 := by omega
  have hreaders : n.readers = [] := List.eq_nil_of_length_eq_zero (by omega)
  have hstarted := h.started (by omega)
  have hrefused := h.not_refused (by omega)
  have hkept : n.delivered.flatten ++ completion.data = a.initial ++ n.received := by
    simpa [hcompletions] using h.kept hstarted hrefused
  have hcounted := h.counted completion (by simp [hcompletions])
  simp only [AsynchInput.handleReadStream, hcompletions, hreaders, List.eraseIdx_zero,
    List.tail_cons, List.nil_append]
  split
  · -- the end of the input: the read has transferred nothing
    rename_i hclosed
    have hdata : completion.data = [] := hcounted.resolve_right fun hc => by
      rcases hclosed with h1 | h0
      · exact hc.1 h1
      · exact hc.2 h0
    rw [hdata, List.append_nil] at hkept
    exact ⟨by simp [hreads], fun hs => by simp [hstarted] at hs, h.place, h.early, h.fake, by simp,
      fun _ _ => by simpa using hkept, fun hr => by simp [hrefused] at hr⟩
  · split
    · exact ⟨by simp [hreads], fun hs => by simp [hstarted] at hs, h.place, h.early, h.fake, by simp,
        fun _ _ => by simpa using hkept, fun hr => by simp [hrefused] at hr⟩
    · exact ⟨by simp [hreads], fun hs => by simp [hstarted] at hs, h.place, h.early, h.fake, by simp,
        fun _ hr => by simp at hr, fun _ => ⟨⟨_, hkept⟩, by simp [hreads], by simp⟩⟩

theorem reader (h : InputInv a stage n) {i : ℕ} {r : Reader} (hr : n.readers[i]? = some r)
    {readers : List Reader} {reads : ℕ}
    (hreaders : reads + readers.length ≤ n.reads + n.readers.length)
    (hstart : r ≠ .restart → reads = n.reads)
    (hrestart : .restart ∈ readers → .restart ∈ n.readers) :
    InputInv a stage { n with reads := reads, readers := readers } := by
  have hpos : 0 < n.readers.length := by
    obtain ⟨hi, -⟩ := List.getElem?_eq_some_iff.mp hr
    omega
  have hchain := h.chain
  have hstarted := h.started (by omega)
  refine ⟨by simp only; omega, fun hs => by simp [hstarted] at hs, h.place, h.early, h.fake,
    h.counted, h.kept, fun hrefused => ?_⟩
  obtain ⟨hinOrder, hzero, hno⟩ := h.lost hrefused
  have hne : r ≠ .restart := fun he => hno (he ▸ List.mem_of_getElem? hr)
  exact ⟨hinOrder, by simpa [hstart hne] using hzero, fun hmem => hno (hrestart hmem)⟩

end InputInv

section Frame

variable (c : AsynchConnection κ)

@[simp] theorem input_deregister : c.deregister.input = c.input := by
  unfold deregister
  split <;> rfl

@[simp] theorem stage_deregister : c.deregister.stage = c.stage := by
  unfold deregister
  split <;> rfl

@[simp] theorem input_handleClose : c.handleClose.input = c.input := input_deregister _

@[simp] theorem stage_handleClose : c.handleClose.stage = c.stage := stage_deregister _

@[simp] theorem input_openFailed : c.openFailed.input = c.input := input_deregister _

end Frame

variable {a} {c c' : AsynchConnection κ}

theorem inputInv_created : InputInv a (created : AsynchConnection κ).stage
    (created : AsynchConnection κ).input where
  chain := by simp [created]
  idle _ := by simp [created]
  place := nofun
  early _ _ := rfl
  fake := nofun
  counted := by simp [created]
  kept := nofun
  lost := nofun

theorem stepOpen_input (h : InputInv a c.stage c.input) (ok : Bool)
    (hread : c.stage = .read → a.delayRead = false → a.initial = [])
    (hfake : c.stage = .fake → Counted a.initial.length) :
    InputInv a (c.stepOpen a ok).stage (c.stepOpen a ok).input := by
  have hfailed : c.stage ≠ .done → InputInv a c.openFailed.stage c.openFailed.input := fun hdone => by
    rw [input_openFailed]
    have hcheck : InputInv a .check c.input :=
      h.next (fun hs => absurd hs hdone) (by simp [OpenStage.Early]) nofun
    exact hcheck
  unfold stepOpen
  cases hstage : c.stage <;> rw [hstage] at h hfailed hread hfake
  case register =>
    cases ok with
    | true => exact h.next nofun (by simp [OpenStage.Early]) nofun
    | false => exact hfailed nofun
  case stream =>
    cases ok with
    | true => exact h.next nofun (by simp [OpenStage.Early]) nofun
    | false => exact hfailed nofun
  case read =>
    have hnext : InputInv a .status c.input := h.next nofun (by simp [OpenStage.Early]) nofun
    cases hdelay : a.delayRead with
    | true => exact hnext
    | false =>
      cases ok with
      | true =>
        exact hnext.start (h.early hdelay (by simp [OpenStage.Early])) (hread rfl hdelay)
          (by simp [OpenStage.Early])
      | false => exact hfailed nofun
  case status => exact h.next nofun (by simp [OpenStage.Early]) nofun
  case check =>
    by_cases hstatus : c.status ≠ .ok
    · simp only [if_pos hstatus]
      exact h.next nofun (by simp [OpenStage.Early]) nofun
    · by_cases hinitial : a.initial = []
      · simp only [if_neg hstatus, if_pos hinitial]
        exact h.next nofun (by simp [OpenStage.Early]) nofun
      · simp only [if_neg hstatus, if_neg hinitial]
        exact h.next nofun (by simp [OpenStage.Early]) fun _ => hinitial
  case fake =>
    cases ok with
    | true => exact h.fakeCompletion (hfake rfl)
    | false => exact h.next nofun (by simp [OpenStage.Early]) nofun
  case close =>
    have hnext : InputInv a .release c.input := h.next nofun (by simp [OpenStage.Early]) nofun
    simpa using hnext
  case release => exact h.next nofun (by simp [OpenStage.Early]) nofun
  case done =>
    show InputInv a c.stage c.input
    rw [hstage]
    exact h

theorem stepReader_input (h : InputInv a c.stage c.input) {i : ℕ} {reader : Reader}
    (hreader : c.input.readers[i]? = some reader) (ok : Bool) :
    InputInv a (c.stepReader i ok reader).stage (c.stepReader i ok reader).input := by
  obtain ⟨hi, -⟩ := List.getElem?_eq_some_iff.mp hreader
  unfold stepReader
  cases reader with
  | restart =>
    cases ok with
    | true =>
      refine h.reader hreader ?_ (by simp) fun hmem => List.mem_of_mem_eraseIdx hmem
      simp only [AsynchInput.startRead, List.length_eraseIdx_of_lt hi]
      omega
    | false =>
      refine h.reader hreader (by simp) (by simp) fun hmem => ?_
      exact (List.mem_or_eq_of_mem_set hmem).resolve_right (by simp)
  | close =>
    have hset : InputInv a c.stage { c.input with readers := c.input.readers.set i .release } := by
      refine h.reader hreader (by simp) (by simp) fun hmem => ?_
      exact (List.mem_or_eq_of_mem_set hmem).resolve_right (by simp)
    simpa using hset
  | release =>
    refine h.reader hreader ?_ (by simp) fun hmem => List.mem_of_mem_eraseIdx hmem
    rw [List.length_eraseIdx_of_lt hi]
    omega

theorem step_input {e : Event} (h : InputInv a c.stage c.input) (hsequential : Sequential a c e)
    (hstep : step a c e = .ok c') : InputInv a c'.stage c'.input := by
  unfold step at hstep
  split at hstep
  · cases hstep
  cases e with
  | opening ok =>
    cases hstep
    exact stepOpen_input h ok hsequential.1 hsequential.2
  | initiateRead =>
    cases hstep
    obtain ⟨hinitial, hdelay, hstarted⟩ := hsequential
    exact h.start hstarted hinitial (by simp [hdelay])
  | read data =>
    by_cases hreads : c.input.reads = 0
    · simp [hreads] at hstep
    · simp only [if_neg hreads] at hstep
      cases hstep
      exact h.read hreads hsequential
  | readError =>
    by_cases hreads : c.input.reads = 0
    · simp [hreads] at hstep
    · simp only [if_neg hreads] at hstep
      cases hstep
      exact h.readError hreads
  | dispatch i put =>
    cases hcompletion : c.input.completions[i]? with
    | none => simp [hcompletion] at hstep
    | some completion =>
      have hdispatch := h.dispatch hcompletion c.status put
      simp only [hcompletion] at hstep
      cases hstep
      dsimp only
      exact hdispatch
  | reader i ok =>
    cases hreader : c.input.readers[i]? with
    | none => simp [hreader] at hstep
    | some reader =>
      simp only [hreader] at hstep
      cases hstep
      exact stepReader_input h hreader ok
  | abort =>
    cases hstep
    exact h
  | get =>
    by_cases hregistered : c.isRegistered = true
    · simp only [if_pos hregistered] at hstep
      cases hstep
      exact h
    · simp [hregistered] at hstep
  | release =>
    by_cases hnone : c.handedOut = 0
    · simp [hnone] at hstep
    · simp only [if_neg hnone] at hstep
      cases hstep
      exact h
  | output event =>
    cases houtput : c.toAsynchOutput.step event with
    | error _ => simp [houtput, Except.map] at hstep
    | ok o =>
      simp only [houtput, Except.map] at hstep
      cases hstep
      exact h

theorem inputInOrder_of_inv (h : InputInv a c.stage c.input) : InputInOrder a c where
  outstanding := by have := h.chain; omega
  inOrder := h.inOrder
  complete hstarted hcompletions hrefused := by
    simpa [hcompletions] using h.kept hstarted hrefused

/-- In a run without a second chain of reads, the stream is given the initial data and then
what the socket has received, each byte once. -/
theorem run_inputInOrder {es : List Event}
    (halong : Runs.Along (step a) (Sequential a) (created : AsynchConnection κ) es)
    (hrun : Runs.run (step a) created es = .ok c) : InputInOrder a c :=
  inputInOrder_of_inv (Runs.run_invariant (fun c => InputInv a c.stage c.input)
    (fun _ _ _ h he hstep => step_input h he hstep) inputInv_created halong hrun)

instance (c : AsynchConnection κ) (e : Event) : Decidable (Sequential a c e) := by
  cases e <;> unfold Sequential <;> infer_instance

/-- A connection with initial data, and with reading left to the modules downstream. -/
def delayed : List Event :=
  [.opening true, .opening true, .opening true, .opening true, .opening true, .opening true,
    .dispatch 0 true, .reader 0 true, .read [3], .dispatch 0 true, .reader 0 true, .read [4, 5],
    .dispatch 0 true, .abort, .reader 0 true, .readError, .dispatch 0 true]

theorem run_inputInOrder_delayed :
    ∃ c : AsynchConnection Counter.plain,
      Runs.run (step ⟨[1, 2], true⟩) created delayed = .ok c ∧
        c.input.delivered = [[1, 2], [3], [4, 5]] ∧ InputInOrder ⟨[1, 2], true⟩ c :=
  ⟨_, rfl, rfl, @run_inputInOrder _ _ _ delayed (by decide) rfl⟩

/-- A connection with initial data that starts to read at once: two reads are outstanding,
and the bytes of the second are put into the stream before those of the first. -/
def reordered : List Event :=
  [.opening true, .opening true, .opening true, .opening true, .opening true, .opening true,
    .dispatch 0 true, .reader 0 true, .read [2], .read [3], .dispatch 1 true, .dispatch 0 true]

theorem not_inputInOrder :
    ¬ ∀ (a : Opening) (es : List Event) (c : AsynchConnection Counter.plain),
      Runs.run (step a) created es = .ok c → InputInOrder a c := by
  intro h
  have hrun : Runs.run (step ⟨[1], false⟩) (created : AsynchConnection Counter.plain) reordered =
      .ok { created with
        status := .ok, isRegistered := true, stage := .done
        references := ⟨(2 : ℕ), 0⟩
        input := ⟨0, [], [.restart, .restart], 3, [[1], [3], [2]], [2, 3], false, true⟩ } := rfl
  exact absurd (h _ reordered _ hrun).inOrder (by decide)

end AsynchConnection

end ACENetwork.Net
