import ACENetwork.Net.Common
import ACENetwork.Library.Runs

/-!
# Output of a connection of the proactor

`Net_AsynchTCPConnectionBase_T::handle_output` takes a message from the stream and starts
one asynchronous write for each of its blocks; any number of calls may be under way. The
writes are performed in the order in which they were started, and the completion of a
partial write starts another one for the rest, behind the writes that were started in the
meantime. A block whose write could not be started is released, and the connection stays
open.
-/
namespace ACENetwork.Net
open BitTorrent (MessageBlock)
open Library

def sendRetries : ℕ := 10

/-- A call of `handle_output` that still has blocks to write; it holds a reference for the
first of them from the first attempt to write it on. -/
structure Sender where
  message : MessageBlock
  retries : ℕ
  holding : Bool
  deriving DecidableEq, Repr

/-- How an attempt to start a write ends; `again` is `EAGAIN`. -/
inductive WriteResult where
  | started
  | again
  | failed
  deriving DecidableEq, Repr

/-- A write that has been performed: what is left of its block, and `bytes_transferred`. -/
structure WriteCompletion where
  rest : List UInt8
  transferred : ℕ
  deriving DecidableEq, Repr

/-- The output of a `Net_AsynchTCPConnectionBase_T`: its references, its stream's queue, the
writes that have been started and those whose completion is still to be handled. The
messages and the bytes on the wire are a record of what has happened, and `dropped` is
what had been handed to the proactor when a block was first dropped. -/
structure AsynchOutput (κ : Counter) where
  references : References κ
  counter : κ.Carrier
  partialWrite : Bool
  sentBytes : ℕ
  queue : List MessageBlock
  senders : List Sender
  submitted : List (List UInt8)
  performed : List WriteCompletion
  messages : List MessageBlock
  wire : List UInt8
  dropped : Option (List UInt8)

namespace AsynchOutput

variable {κ : Counter}

def opened (references : References κ) : AsynchOutput κ where
  references := references
  counter := κ.create 0
  partialWrite := false
  sentBytes := 0
  queue := []
  senders := []
  submitted := []
  performed := []
  messages := []
  wire := []
  dropped := none

/-- What partial writes have left behind until their completions are handled. -/
def leftovers (performed : List WriteCompletion) : List (List UInt8) :=
  (performed.map WriteCompletion.rest).filter (· ≠ [])

/-- The bytes that the proactor has been handed, and that are not on the wire. -/
def inFlight (o : AsynchOutput κ) : List UInt8 :=
  (leftovers o.performed).flatten ++ o.submitted.flatten

def hold (o : AsynchOutput κ) : AsynchOutput κ :=
  { o with references := o.references.increase, counter := κ.increase o.counter }

/-- The references that a call takes for its next block, before the first attempt. -/
def holdFor (sender : Sender) (o : AsynchOutput κ) : AsynchOutput κ :=
  if sender.holding then o else o.hold

def release (o : AsynchOutput κ) : AsynchOutput κ :=
  { o with references := o.references.decrease, counter := κ.decrease o.counter }

/-- A block is released although it has not been written. -/
def drop (o : AsynchOutput κ) : AsynchOutput κ :=
  { o with dropped := o.dropped <|> some (o.wire ++ o.inFlight) }

/-- `handle_output` up to its label `send`; without a message it returns -1. -/
def handleOutput (o : AsynchOutput κ) : AsynchOutput κ :=
  match o.queue with
  | [] => o
  | message :: queue => { o with queue := queue, senders := o.senders ++ [⟨message, 0, false⟩] }

/-- The call drops the block that it could not write, and the rest of its message. -/
def abandon (i : ℕ) (o : AsynchOutput κ) : AsynchOutput κ :=
  { o.release.drop with senders := o.senders.eraseIdx i }

/-- One attempt of the `i`-th call to start the write of its next block. -/
def write (i : ℕ) (sender : Sender) (result : WriteResult) (o : AsynchOutput κ) :
    AsynchOutput κ :=
  let held := o.holdFor sender
  match result with
  | .started =>
    { held with
      submitted := o.submitted ++ [sender.message.data]
      senders :=
        match sender.message.cont with
        | [] => o.senders.eraseIdx i
        | next :: cont => o.senders.set i ⟨⟨next, cont⟩, sender.retries, false⟩ }
  | .again =>
    if sender.retries + 1 ≤ sendRetries then
      { held with senders := o.senders.set i ⟨sender.message, sender.retries + 1, true⟩ }
    else held.abandon i
  | .failed => held.abandon i

/-- `Net_AsynchTCPSocketHandler_T::handle_write_stream`. Whether the write of the rest could
be started is not looked at. -/
def handleWriteStreamBase (completion : WriteCompletion) (started : Bool) (o : AsynchOutput κ) :
    AsynchOutput κ :=
  if intOfSize completion.transferred = -1 ∨ intOfSize completion.transferred = 0 then
    { (if completion.rest = [] then o else o.drop) with counter := κ.decrease o.counter }
  else if completion.rest = [] then { o with counter := κ.decrease o.counter }
  else if started then
    { o with submitted := o.submitted ++ [completion.rest], partialWrite := true }
  else { o.drop with partialWrite := true }

def handleWriteStream (completion : WriteCompletion) (started : Bool) (o : AsynchOutput κ) :
    AsynchOutput κ :=
  let o :=
    if intOfSize completion.transferred = -1 ∨ intOfSize completion.transferred = 0 then o
    else { o with sentBytes := o.sentBytes + completion.transferred }
  let o := o.handleWriteStreamBase completion started
  { o with references := o.references.decrease }

/-- What may happen to the output, in any order. -/
inductive Event where
  | put (message : MessageBlock)
  | handleOutput
  | write (sender : ℕ) (result : WriteResult)
  | transfer (count : ℕ)
  | fail
  | complete (completion : ℕ) (started : Bool)
  deriving DecidableEq, Repr

def step (o : AsynchOutput κ) : Event → Except Unit (AsynchOutput κ)
  | .put message =>
    .ok { o with queue := o.queue ++ [message], messages := o.messages ++ [message] }
  | .handleOutput => .ok o.handleOutput
  | .write i result =>
    match o.senders[i]? with
    | none => .error ()
    | some sender => .ok (o.write i sender result)
  | .transfer count =>
    match o.submitted with
    | [] => .error ()
    | data :: submitted =>
      if count ≤ data.length then
        .ok { o with
          submitted := submitted
          wire := o.wire ++ data.take count
          performed := o.performed ++ [⟨data.drop count, count⟩] }
      else .error ()
  | .fail =>
    match o.submitted with
    | [] => .error ()
    | data :: submitted =>
      .ok { o with submitted := submitted, performed := o.performed ++ [⟨data, 2 ^ 64 - 1⟩] }
  | .complete i started =>
    match o.performed[i]? with
    | none => .error ()
    | some completion =>
      .ok ({ o with performed := o.performed.eraseIdx i }.handleWriteStream completion started)

def bytes (o : AsynchOutput κ) : List UInt8 := o.messages.flatMap MessageBlock.bytes

/-- What is on the wire is the beginning of what was queued, and nothing of it has been
handed to the proactor after a block was dropped. -/
structure InOrder (o : AsynchOutput κ) : Prop where
  wire : o.wire <+: o.bytes
  dropped : ∀ d ∈ o.dropped, o.wire <+: d

/-- Every write that is performed transfers some bytes of its block. -/
def Transferring : Event → Prop
  | .transfer count => 0 < count
  | .fail => False
  | _ => True

/-- The steps that keep the order: a write is started for the oldest call only, while no
completion of a partial write is to be handled and no block has been dropped; and a write
is partial only if no other one has been started. -/
def Orderly (o : AsynchOutput κ) : Event → Prop
  | .write i .started => i = 0 ∧ leftovers o.performed = [] ∧ o.dropped = none
  | .transfer count => ∀ data ∈ o.submitted.head?, count < data.length → o.submitted = [data]
  | _ => True

def pending (o : AsynchOutput κ) : List UInt8 :=
  o.senders.flatMap (fun sender => sender.message.bytes) ++
    o.queue.flatMap MessageBlock.bytes

/-- The invariant of the orderly steps: at most one write is partial, and then no other one
has been started; and nothing that was queued is out of its place. -/
structure Inv (o : AsynchOutput κ) : Prop where
  leftovers : leftovers o.performed = [] ∨
    (∃ rest, leftovers o.performed = [rest]) ∧ o.submitted = []
  kept : o.dropped = none → o.wire ++ o.inFlight ++ o.pending = o.bytes
  lost : ∀ d ∈ o.dropped, o.wire ++ o.inFlight <+: d ∧ d <+: o.bytes

section Leftovers

@[simp] theorem leftovers_nil : leftovers [] = [] := rfl

theorem leftovers_append (front back : List WriteCompletion) :
    leftovers (front ++ back) = leftovers front ++ leftovers back := by
  simp [leftovers]

theorem leftovers_cons (completion : WriteCompletion) (performed : List WriteCompletion) :
    leftovers (completion :: performed) =
      (if completion.rest = [] then [] else [completion.rest]) ++ leftovers performed := by
  by_cases h : completion.rest = [] <;> simp [leftovers, h]

theorem leftovers_getElem? {performed : List WriteCompletion} {i : ℕ}
    {completion : WriteCompletion} (h : performed[i]? = some completion) :
    ∃ front back : List (List UInt8),
      leftovers performed = front ++
        ((if completion.rest = [] then [] else [completion.rest]) ++ back) ∧
      leftovers (performed.eraseIdx i) = front ++ back := by
  obtain ⟨hi, rfl⟩ := List.getElem?_eq_some_iff.mp h
  refine ⟨leftovers (performed.take i), leftovers (performed.drop (i + 1)), ?_, ?_⟩
  · rw [← leftovers_cons, ← leftovers_append, List.cons_getElem_drop_succ, List.take_append_drop]
  · rw [List.eraseIdx_eq_take_drop_succ, leftovers_append]

end Leftovers

section Write

variable (o : AsynchOutput κ) (i : ℕ) (sender : Sender)

@[simp] theorem queue_holdFor : (o.holdFor sender).queue = o.queue := by
  unfold holdFor
  split <;> rfl

@[simp] theorem senders_holdFor : (o.holdFor sender).senders = o.senders := by
  unfold holdFor
  split <;> rfl

/-- A call takes its next block without a change of the bytes that it has left. -/
theorem flatMap_set_of_eq {α β : Type} {f : α → List β} {l : List α} {i : ℕ} {x y : α}
    (h : l[i]? = some x) (hf : f y = f x) : (l.set i y).flatMap f = l.flatMap f := by
  induction l generalizing i with
  | nil => simp at h
  | cons z l ih =>
    cases i with
    | zero =>
      obtain rfl : z = x := by simpa using h
      simp [hf]
    | succ i => simpa using ih (by simpa using h)

theorem write_started :
    (o.write i sender .started).submitted = o.submitted ++ [sender.message.data] ∧
      (o.write i sender .started).performed = o.performed ∧
      (o.write i sender .started).messages = o.messages ∧
      (o.write i sender .started).wire = o.wire ∧
      (o.write i sender .started).dropped = o.dropped := by
  unfold write holdFor
  cases sender.holding <;> exact ⟨rfl, rfl, rfl, rfl, rfl⟩

theorem pending_started {sender : Sender} (h : o.senders[0]? = some sender) :
    o.pending = sender.message.data ++ (o.write 0 sender .started).pending := by
  cases hsenders : o.senders with
  | nil => simp [hsenders] at h
  | cons s senders =>
    obtain rfl : s = sender := by simpa [hsenders] using h
    cases hcont : s.message.cont <;>
      simp [write, pending, hsenders, hcont, MessageBlock.bytes, MessageBlock.blocks]

end Write

namespace Inv

variable {o : AsynchOutput κ}

theorem opened (r : References κ) : Inv (AsynchOutput.opened r) where
  leftovers := .inl rfl
  kept _ := rfl
  lost := by simp [AsynchOutput.opened]

theorem of_eq (h : Inv o) {p : AsynchOutput κ} (hsubmitted : p.submitted = o.submitted)
    (hleftovers : AsynchOutput.leftovers p.performed = AsynchOutput.leftovers o.performed)
    (hmessages : p.messages = o.messages) (hwire : p.wire = o.wire)
    (hdropped : p.dropped = o.dropped) (hpending : p.pending = o.pending) : Inv p where
  leftovers := by
    rw [hleftovers, hsubmitted]
    exact h.leftovers
  kept := by
    simpa only [inFlight, bytes, hsubmitted, hleftovers, hmessages, hwire, hdropped, hpending]
      using h.kept
  lost := by
    simpa only [inFlight, bytes, hsubmitted, hleftovers, hmessages, hwire, hdropped] using h.lost

theorem inOrder (h : Inv o) : InOrder o := by
  cases hd : o.dropped with
  | none =>
    refine ⟨⟨o.inFlight ++ o.pending, ?_⟩, by simp [hd]⟩
    rw [← List.append_assoc, h.kept hd]
  | some d =>
    have ⟨hwire, hbytes⟩ := h.lost d hd
    have hpre : o.wire <+: d := (List.prefix_append _ _).trans hwire
    exact ⟨hpre.trans hbytes, by simpa [hd] using hpre⟩

/-- What is dropped comes after all that the proactor has been handed. -/
theorem drop (h : Inv o) : Inv o.drop where
  leftovers := h.leftovers
  kept := by cases hd : o.dropped <;> simp [AsynchOutput.drop, hd]
  lost := by
    cases hd : o.dropped with
    | none =>
      have hkept : o.wire ++ o.inFlight <+: o.bytes := ⟨_, h.kept hd⟩
      simpa [AsynchOutput.drop, hd, inFlight, bytes] using hkept
    | some d => simpa [AsynchOutput.drop, hd, inFlight, bytes] using h.lost d hd

theorem put (h : Inv o) (m : MessageBlock) :
    Inv { o with queue := o.queue ++ [m], messages := o.messages ++ [m] } where
  leftovers := h.leftovers
  kept hd := by
    have hkept := h.kept hd
    simp only [inFlight, AsynchOutput.pending, bytes, List.flatMap_append, List.flatMap_singleton,
      ← List.append_assoc] at hkept ⊢
    rw [hkept]
  lost d hd := by
    have ⟨hwire, hbytes⟩ := h.lost d hd
    refine ⟨hwire, hbytes.trans ?_⟩
    simp [bytes]

theorem handleOutput (h : Inv o) : Inv o.handleOutput := by
  unfold AsynchOutput.handleOutput
  cases hqueue : o.queue with
  | nil => exact h
  | cons m queue => exact h.of_eq rfl rfl rfl rfl rfl (by simp [AsynchOutput.pending, hqueue])

theorem senders (h : Inv o) (hd : o.dropped ≠ none) (senders : List Sender) :
    Inv { o with senders := senders } where
  leftovers := h.leftovers
  kept hnone := absurd hnone hd
  lost := h.lost

theorem abandon (h : Inv o) (i : ℕ) : Inv (o.abandon i) := by
  have hrelease : Inv o.release := h.of_eq rfl rfl rfl rfl rfl rfl
  exact hrelease.drop.senders (by cases hd : o.dropped <;> simp [AsynchOutput.drop, release, hd]) _

theorem holdFor (h : Inv o) (sender : Sender) : Inv (o.holdFor sender) := by
  unfold AsynchOutput.holdFor
  split
  · exact h
  · exact h.of_eq rfl rfl rfl rfl rfl rfl

/-- The first block that no write has been started for becomes the last one in flight. -/
theorem started (h : Inv o) {sender : Sender} (hsender : o.senders[0]? = some sender)
    (hleftovers : AsynchOutput.leftovers o.performed = []) (hdropped : o.dropped = none) :
    Inv (o.write 0 sender .started) := by
  obtain ⟨hsubmitted, hperformed, hmessages, hwire, hdrop⟩ := write_started o 0 sender
  have hkept := h.kept hdropped
  rw [pending_started o hsender] at hkept
  refine ⟨.inl (by rw [hperformed, hleftovers]), fun _ => ?_, by simp [hdrop, hdropped]⟩
  rw [bytes, hmessages, ← bytes, ← hkept, inFlight, inFlight, hsubmitted, hperformed, hwire]
  simp

theorem write (h : Inv o) {i : ℕ} {sender : Sender} {result : WriteResult}
    (hsender : o.senders[i]? = some sender) (horderly : Orderly o (.write i result)) :
    Inv (o.write i sender result) := by
  have hheld := h.holdFor sender
  cases result with
  | started =>
    obtain ⟨rfl, hleftovers, hdropped⟩ := horderly
    exact h.started hsender hleftovers hdropped
  | again =>
    simp only [AsynchOutput.write]
    split
    · refine hheld.of_eq rfl rfl rfl rfl rfl ?_
      simp [AsynchOutput.pending, flatMap_set_of_eq hsender]
    · exact hheld.abandon i
  | failed => exact hheld.abandon i

/-- The write at the front of the queue is performed; only the last one may be partial. -/
theorem transfer (h : Inv o) {data : List UInt8} {submitted : List (List UInt8)} {count : ℕ}
    (hsubmitted : o.submitted = data :: submitted) (hcount : count ≤ data.length)
    (horderly : count < data.length → submitted = []) :
    Inv { o with
      submitted := submitted
      wire := o.wire ++ data.take count
      performed := o.performed ++ [⟨data.drop count, count⟩] } := by
  have hnone : AsynchOutput.leftovers o.performed = [] :=
    h.leftovers.resolve_right fun hpartial => by simp [hsubmitted] at hpartial
  have hflight : o.wire ++ o.inFlight = o.wire ++ data.take count ++
      ((AsynchOutput.leftovers (o.performed ++ [⟨data.drop count, count⟩])).flatten ++
        submitted.flatten) := by
    by_cases hdrop : data.drop count = []
    · have htake : data.take count = data := by simpa [hdrop] using List.take_append_drop count data
      simp [inFlight, hsubmitted, hnone, leftovers_append, leftovers_cons, hdrop, htake]
    · simp [inFlight, hsubmitted, hnone, leftovers_append, leftovers_cons, hdrop,
        ← List.append_assoc (data.take count)]
  refine ⟨?_, fun hd => ?_, fun d hd => ?_⟩
  · by_cases hdrop : data.drop count = []
    · simp [leftovers_append, leftovers_cons, hnone, hdrop]
    · have hlt : count < data.length := by
        by_contra hle
        exact hdrop (List.drop_eq_nil_of_le (by omega))
      simp [leftovers_append, leftovers_cons, hnone, hdrop, horderly hlt]
  · have hkept := h.kept hd
    rw [hflight] at hkept
    exact hkept
  · have hlost := h.lost d hd
    rw [hflight] at hlost
    exact hlost

/-- The rest of the only partial write is dropped: the wire ends where it was. -/
theorem lose (h : Inv o) (hsubmitted : o.submitted = []) {performed : List WriteCompletion}
    (hleftovers : AsynchOutput.leftovers performed = []) :
    Inv { o with performed := performed }.drop := by
  have hflight : { o with performed := performed }.inFlight = [] := by
    simp [inFlight, hleftovers, hsubmitted]
  have hdrop : { o with performed := performed }.drop.dropped = (o.dropped <|> some o.wire) := by
    simp only [AsynchOutput.drop, hflight, List.append_nil]
  refine ⟨.inl hleftovers, fun hd => ?_, fun d hd => ?_⟩
  · rw [hdrop] at hd
    cases hdropped : o.dropped <;> simp [hdropped] at hd
  · have hwire : o.wire <+: d ∧ d <+: o.bytes := by
      rw [hdrop] at hd
      cases hdropped : o.dropped with
      | none =>
        obtain rfl : o.wire = d := by simpa [hdropped] using hd
        exact ⟨List.prefix_rfl, h.inOrder.wire⟩
      | some d' =>
        obtain rfl : d' = d := by simpa [hdropped] using hd
        exact ⟨h.inOrder.dropped d' hdropped, (h.lost d' hdropped).2⟩
    have hflight' : { o with performed := performed }.drop.inFlight = [] := hflight
    rw [hflight', List.append_nil]
    exact hwire

theorem resume (h : Inv o) (hsubmitted : o.submitted = []) {performed : List WriteCompletion}
    {rest : List UInt8} (hleft : AsynchOutput.leftovers o.performed = [rest])
    (hleftovers : AsynchOutput.leftovers performed = []) :
    Inv { o with performed := performed, submitted := o.submitted ++ [rest] } := by
  have hflight : { o with performed := performed, submitted := o.submitted ++ [rest] }.inFlight =
      o.inFlight := by
    simp [inFlight, hleft, hleftovers, hsubmitted]
  refine ⟨.inl hleftovers, fun hd => ?_, fun d hd => ?_⟩
  · rw [hflight]
    exact h.kept hd
  · rw [hflight]
    exact h.lost d hd

/-- What the handler of a completion does to the order of the bytes. -/
theorem complete (h : Inv o) {i : ℕ} {completion : WriteCompletion} (started : Bool)
    (hcompletion : o.performed[i]? = some completion) :
    Inv ({ o with performed := o.performed.eraseIdx i }.handleWriteStream completion started) := by
  obtain ⟨front, back, hleft, hright⟩ := leftovers_getElem? hcompletion
  by_cases hrest : completion.rest = []
  · -- the block has been written, whatever the handler makes of the count
    rw [if_pos hrest, List.nil_append, ← hright] at hleft
    simp only [handleWriteStream, handleWriteStreamBase, if_pos hrest]
    split <;> exact h.of_eq rfl hleft.symm rfl rfl rfl rfl
  · rw [if_neg hrest] at hleft
    obtain ⟨⟨rest, hone⟩, hsubmitted⟩ := h.leftovers.resolve_left (by simp [hleft])
    obtain ⟨rfl, rfl, rfl⟩ : completion.rest = rest ∧ front = [] ∧ back = [] := by
      rw [hone] at hleft
      cases front with
      | nil => simpa [eq_comm] using hleft
      | cons x front => simp at hleft
    have hresume := h.resume hsubmitted hone hright
    have hlose := h.lose hsubmitted hright
    simp only [handleWriteStream, handleWriteStreamBase, if_neg hrest]
    split
    · exact hlose.of_eq rfl rfl rfl rfl rfl rfl
    · cases started with
      | true => exact hresume.of_eq rfl rfl rfl rfl rfl rfl
      | false => exact hlose.of_eq rfl rfl rfl rfl rfl rfl

theorem step (h : Inv o) {e : Event} {p : AsynchOutput κ} (htransferring : Transferring e)
    (horderly : Orderly o e) (hstep : AsynchOutput.step o e = .ok p) : Inv p := by
  cases e with
  | put m => cases hstep; exact h.put m
  | handleOutput => cases hstep; exact h.handleOutput
  | write i result =>
    simp only [AsynchOutput.step] at hstep
    cases hsender : o.senders[i]? with
    | none => simp [hsender] at hstep
    | some sender =>
      obtain rfl : o.write i sender result = p := by simpa [hsender] using hstep
      exact h.write hsender horderly
  | transfer count =>
    simp only [AsynchOutput.step] at hstep
    cases hsubmitted : o.submitted with
    | nil => simp [hsubmitted] at hstep
    | cons data submitted =>
      rw [hsubmitted] at hstep
      by_cases hcount : count ≤ data.length
      · simp only [if_pos hcount] at hstep
        cases hstep
        refine h.transfer hsubmitted hcount fun hlt => ?_
        simpa [hsubmitted] using horderly data (by simp [hsubmitted]) hlt
      · simp [hcount] at hstep
  | fail => exact htransferring.elim
  | complete i started =>
    simp only [AsynchOutput.step] at hstep
    cases hcompletion : o.performed[i]? with
    | none => simp [hcompletion] at hstep
    | some completion =>
      rw [hcompletion] at hstep
      cases hstep
      exact h.complete started hcompletion

end Inv

/-- In an orderly run, the wire is at every moment the beginning of what was queued. -/
theorem run_inOrder (r : References κ) {es : List Event} {o : AsynchOutput κ}
    (halong : Runs.Along step (fun o e => Transferring e ∧ Orderly o e) (opened r) es)
    (hrun : Runs.run step (opened r) es = .ok o) : o.InOrder :=
  (Runs.run_invariant Inv (fun _ _ _ h he hstep => h.step he.1 he.2 hstep) (Inv.opened r)
    halong hrun).inOrder

instance (e : Event) : Decidable (Transferring e) := by
  cases e <;> unfold Transferring <;> infer_instance

instance (o : AsynchOutput κ) (e : Event) : Decidable (Orderly o e) := by
  unfold Orderly
  split <;> infer_instance

/-- An orderly run with a partial write, a write that is tried again, and a dropped block. -/
def resumed : List Event :=
  [.put ⟨[1, 2], [[3]]⟩, .put ⟨[4], []⟩, .handleOutput, .handleOutput, .write 0 .started,
    .transfer 1, .write 0 .again, .complete 0 true, .transfer 1, .write 0 .started,
    .write 0 .failed, .complete 0 true, .transfer 1]

theorem run_inOrder_resumed :
    ∃ o : AsynchOutput Counter.plain, Runs.run step (opened .create) resumed = .ok o ∧
      o.wire = [1, 2, 3] ∧ o.dropped = some [1, 2, 3] ∧ o.InOrder :=
  ⟨_, rfl, rfl, rfl, @run_inOrder _ .create resumed _ (by decide) rfl⟩

/-- Two messages of one block each: the first write is partial after both have been
started, and its rest is started behind the second one. -/
def overtaken : List Event :=
  [.put ⟨[1, 2], []⟩, .put ⟨[3], []⟩, .handleOutput, .write 0 .started, .handleOutput,
    .write 0 .started, .transfer 1, .complete 0 true, .transfer 1]

theorem not_inOrder :
    ¬ ∀ (es : List Event) (o : AsynchOutput Counter.plain), (∀ e ∈ es, Transferring e) →
      Runs.run step (opened .create) es = .ok o → o.InOrder := by
  intro h
  have hrun : Runs.run step (opened (.create : References Counter.plain)) overtaken = .ok
      { opened (.create : References Counter.plain) with
        references := ⟨(2 : ℕ), 0⟩, counter := (2 : ℕ), partialWrite := true, sentBytes := 1
        submitted := [[2]], performed := [⟨[], 1⟩]
        messages := [⟨[1, 2], []⟩, ⟨[3], []⟩], wire := [1, 3] } := rfl
  have hwire := (h overtaken _ (by simp [overtaken, Transferring]) hrun).wire
  exact absurd hwire (by decide)

end AsynchOutput

end ACENetwork.Net
