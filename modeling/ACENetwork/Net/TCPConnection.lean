import ACENetwork.Net.Common
import ACENetwork.Library.Runs

/-!
# Output of a connection of the reactor

`Net_TCPConnectionBase_T::handle_output` keeps the message that it is sending in
`writeBuffer_`, and sends it block by block until the socket takes less than it is
given. A result of 0 of `send_n` is taken for a closed socket, which is also what
`send_n` returns for an empty block, and the length of a block is passed as an `int`.
-/
namespace ACENetwork.Net
open BitTorrent (MessageBlock Fault)
open Library

/-- What `send_n` does with the bytes it is given: it reports an error, or it transfers
some of them, and none only if there are none. -/
structure Socket (σ : Type) where
  sendN : σ → List UInt8 → Option ℕ × σ
  transferred_le : ∀ s data n, (sendN s data).1 = some n → n ≤ data.length
  transferred_pos : ∀ s data n, (sendN s data).1 = some n → data ≠ [] → 0 < n

/-- A `Net_TCPConnectionBase_T` with the queue of its stream. The bytes on the wire,
the chains as they were when they were released, and the errors of `send_n` are a
record of what has happened. -/
structure TCPConnection (κ : Counter) (σ : Type) where
  status : Status
  closed : Bool
  isRegistered : Bool
  references : References κ
  queue : List MessageBlock
  writeBuffer : Option MessageBlock
  sentBytes : ℕ
  socket : σ
  wire : List UInt8
  released : List (List (List UInt8))
  sendFailed : Bool

variable {κ : Counter} {σ : Type} (S : Socket σ)

namespace TCPConnection

def opened (references : References κ) (socket : σ) : TCPConnection κ σ where
  status := .ok
  closed := false
  isRegistered := true
  references := references
  queue := []
  writeBuffer := none
  sentBytes := 0
  socket := socket
  wire := []
  released := []
  sendFailed := false

def unsent (c : TCPConnection κ σ) : List UInt8 := c.writeBuffer.elim [] MessageBlock.bytes

/-- What both failures of `send_n` do: the chain is released as it is. -/
def dropWriteBuffer (chain : List (List UInt8)) (c : TCPConnection κ σ) : TCPConnection κ σ where
  __ := c
  status := if c.status = .ok then .peerClosed else c.status
  writeBuffer := none
  released := c.released ++ [chain]

end TCPConnection

open TCPConnection

/-- The bytes that `send_n` is given of a block. -/
def given (data : List UInt8) : List UInt8 := data.take (intOfSize data.length).toNat

/-- `handle_output` from its label `continue_` on: the loop over the blocks of the chain
in `writeBuffer_`. A negative number of bytes is a size beyond the end of the block. -/
def transmit : List (List UInt8) → TCPConnection κ σ → Except Fault (TCPConnection κ σ × ℤ)
  | [], c => .ok ({ c with writeBuffer := none, references := c.references.decrease }, 0)
  | data :: cont, c =>
    if intOfSize data.length < 0 then .error .bufferOverflow
    else
      match S.sendN c.socket (given data) with
      | (none, s) =>
        .ok (dropWriteBuffer (data :: cont) { c with socket := s, sendFailed := true }, -1)
      | (some 0, s) => .ok (dropWriteBuffer (data :: cont) { c with socket := s }, -1)
      | (some (n + 1), s) =>
        let sent := { c with
          socket := s, sentBytes := c.sentBytes + (n + 1), wire := c.wire ++ (given data).take (n + 1) }
        if (data.drop (n + 1)).length > 0 then
          .ok ({ sent with
            writeBuffer := some ⟨data.drop (n + 1), cont⟩
            references := sent.references.decrease }, 1)
        else transmit cont { sent with released := sent.released ++ [[data.drop (n + 1)]] }

def handleOutput (c : TCPConnection κ σ) : Except Fault (TCPConnection κ σ × ℤ) :=
  match c.writeBuffer with
  | some chain => transmit S chain.blocks c
  | none =>
    match c.queue with
    | [] => .ok (c, -1)
    | chain :: queue => transmit S chain.blocks { c with queue := queue }

/-- A message is queued, or the reactor calls `handle_output`. -/
inductive Event where
  | put (message : MessageBlock)
  | handleOutput
  deriving DecidableEq, Repr

def step (c : TCPConnection κ σ) : Event → Except Fault (TCPConnection κ σ)
  | .put message => .ok { c with queue := c.queue ++ [message] }
  | .handleOutput => (handleOutput S c).map Prod.fst

def queued (es : List Event) : List MessageBlock :=
  es.filterMap fun
    | .put message => some message
    | .handleOutput => none

/-- What a call leaves behind while `send_n` has reported no error. -/
structure Delivers (messages : List MessageBlock) (c : TCPConnection κ σ) (result : ℤ) : Prop where
  inOrder : c.wire <+: messages.flatMap MessageBlock.bytes
  released : ∀ chain ∈ c.released, chain.flatten = []
  status : c.status ≠ .peerClosed
  result : result = 1 ↔ c.unsent ≠ []

/-- Every call of `handle_output`, in any run that queues these messages in this order. -/
def OutputInOrder (κ : Counter) (messages : List MessageBlock) : Prop :=
  ∀ (σ : Type) (S : Socket σ) (s : σ) (r : References κ) (es : List Event),
    queued es <+: messages →
      ∃ c c' result, Runs.run (step S) (opened r s) es = .ok c ∧
        handleOutput S c = .ok (c', result) ∧
        (c'.sendFailed = false → Delivers (queued es) c' result)

/-- The blocks whose length `handle_output` passes on as a positive number. -/
def Sendable (data : List UInt8) : Prop := 0 < data.length ∧ data.length < 2 ^ 31

instance (data : List UInt8) : Decidable (Sendable data) := inferInstanceAs (Decidable (_ ∧ _))

section Transmit

variable {S} {data : List UInt8} {cont : List (List UInt8)} {c : TCPConnection κ σ} {s : σ} {n : ℕ}

theorem transmit_negative (hsize : intOfSize data.length < 0) :
    transmit S (data :: cont) c = .error .bufferOverflow := by
  simp [transmit, hsize]

theorem transmit_none (hsize : 0 ≤ intOfSize data.length)
    (hsend : S.sendN c.socket (given data) = (none, s)) :
    transmit S (data :: cont) c =
      .ok (dropWriteBuffer (data :: cont) { c with socket := s, sendFailed := true }, -1) := by
  simp [transmit, hsize.not_gt, hsend]

theorem transmit_zero (hsize : 0 ≤ intOfSize data.length)
    (hsend : S.sendN c.socket (given data) = (some 0, s)) :
    transmit S (data :: cont) c =
      .ok (dropWriteBuffer (data :: cont) { c with socket := s }, -1) := by
  simp [transmit, hsize.not_gt, hsend]

theorem transmit_part (hsize : 0 ≤ intOfSize data.length)
    (hsend : S.sendN c.socket (given data) = (some (n + 1), s)) (hmore : n + 1 < data.length) :
    transmit S (data :: cont) c =
      .ok ({ c with
        socket := s
        sentBytes := c.sentBytes + (n + 1)
        wire := c.wire ++ (given data).take (n + 1)
        writeBuffer := some ⟨data.drop (n + 1), cont⟩
        references := c.references.decrease }, 1) := by
  simp [transmit, hsize.not_gt, hsend, hmore]

theorem transmit_all (hsize : 0 ≤ intOfSize data.length)
    (hsend : S.sendN c.socket (given data) = (some (n + 1), s)) (hall : data.length ≤ n + 1) :
    transmit S (data :: cont) c =
      transmit S cont { c with
        socket := s
        sentBytes := c.sentBytes + (n + 1)
        wire := c.wire ++ (given data).take (n + 1)
        released := c.released ++ [[[]]] } := by
  have hdrop : data.drop (n + 1) = [] := List.drop_eq_nil_of_le hall
  simp [transmit, hsize.not_gt, hsend, hdrop]

/-- What a transmission does with the bytes of a chain while `send_n` reports no error. -/
structure Transmits (chain : List (List UInt8)) (c c' : TCPConnection κ σ) (result : ℤ) :
    Prop where
  sendFailed : c.sendFailed = false
  bytes : c'.wire ++ c'.unsent = c.wire ++ chain.flatten
  released : ∀ r ∈ c'.released, r ∈ c.released ∨ r.flatten = []
  status : c'.status = c.status
  result : result = 1 ↔ c'.unsent ≠ []

theorem Transmits.trans {chain rest : List (List UInt8)} {c d c' : TCPConnection κ σ} {result : ℤ}
    (h : Transmits rest d c' result) (hfailed : c.sendFailed = d.sendFailed)
    (hbytes : d.wire ++ rest.flatten = c.wire ++ chain.flatten)
    (hreleased : ∀ r ∈ d.released, r ∈ c.released ∨ r.flatten = [])
    (hstatus : d.status = c.status) : Transmits chain c c' result where
  sendFailed := hfailed.trans h.sendFailed
  bytes := h.bytes.trans hbytes
  released r hr := (h.released r hr).elim (hreleased r) Or.inr
  status := h.status.trans hstatus
  result := h.result

/-- A chain of sendable blocks is transmitted without a fault; the induction follows the
blocks, and stops early where the socket takes only a part of one. -/
theorem transmit_sendable (chain : List (List UInt8)) (hchain : ∀ b ∈ chain, Sendable b)
    (c : TCPConnection κ σ) :
    ∃ c' result, transmit S chain c = .ok (c', result) ∧ c'.queue = c.queue ∧
      (∀ m ∈ c'.writeBuffer, ∀ b ∈ m.blocks, Sendable b) ∧
      (c'.sendFailed = false → Transmits chain c c' result) := by
  induction chain generalizing c with
  | nil =>
    refine ⟨_, _, rfl, rfl, by simp, fun hfailed => ⟨hfailed, ?_, fun r hr => .inl hr, rfl, ?_⟩⟩
    · simp [unsent]
    · simp [unsent]
  | cons data cont ih =>
    have ⟨hpos, hlt⟩ := hchain data List.mem_cons_self
    have hcont : ∀ b ∈ cont, Sendable b := fun b hb => hchain b (List.mem_cons_of_mem _ hb)
    have hgiven : given data = data := by simp [given, intOfSize_of_lt hlt]
    have hsize : 0 ≤ intOfSize data.length := by simp [intOfSize_of_lt hlt]
    have hne : data ≠ [] := List.length_pos_iff.mp hpos
    cases hsend : S.sendN c.socket (given data) with
    | mk sent s =>
      cases sent with
      | none => exact ⟨_, _, transmit_none hsize hsend, rfl, by simp [dropWriteBuffer],
          by simp [dropWriteBuffer]⟩
      | some n =>
        have hn : 0 < n := S.transferred_pos c.socket _ n (by rw [hsend]) (by rwa [hgiven])
        obtain ⟨k, rfl⟩ : ∃ k, n = k + 1 := ⟨n - 1, by omega⟩
        by_cases hmore : k + 1 < data.length
        · have hdrop : 0 < (data.drop (k + 1)).length := by simpa using hmore
          refine ⟨_, _, transmit_part hsize hsend hmore, rfl, ?_,
            fun hfailed => ⟨hfailed, ?_, fun r hr => .inl hr, rfl, ?_⟩⟩
          · simp only [Option.mem_def, Option.some.injEq, forall_eq', MessageBlock.blocks,
              List.forall_mem_cons]
            exact ⟨⟨hdrop, by simp only [List.length_drop]; omega⟩, hcont⟩
          · simp [unsent, MessageBlock.bytes, MessageBlock.blocks, hgiven,
              ← List.append_assoc (data.take _)]
          · simp [unsent, MessageBlock.bytes, MessageBlock.blocks, List.length_pos_iff.mp hdrop]
        · have htake : data.take (k + 1) = data := List.take_of_length_le (by omega)
          obtain ⟨c', result, heq, hqueue, hbuffer, htransmits⟩ := ih hcont _
          refine ⟨c', result, (transmit_all hsize hsend (by omega)).trans heq, hqueue, hbuffer,
            fun hfailed => (htransmits hfailed).trans rfl ?_ ?_ rfl⟩
          · simp [hgiven, htake]
          · intro r hr
            rcases List.mem_append.mp hr with hold | hnew
            · exact .inl hold
            · simp_all

end Transmit

/-- The invariant of the output: nothing that has been queued is lost or out of order. -/
structure Output (messages : List MessageBlock) (c : TCPConnection κ σ) : Prop where
  writeBuffer : ∀ m ∈ c.writeBuffer, ∀ b ∈ m.blocks, Sendable b
  queue : ∀ m ∈ c.queue, ∀ b ∈ m.blocks, Sendable b
  bytes : c.sendFailed = false →
    c.wire ++ c.unsent ++ c.queue.flatMap MessageBlock.bytes = messages.flatMap MessageBlock.bytes
  released : c.sendFailed = false → ∀ r ∈ c.released, r.flatten = []
  status : c.sendFailed = false → c.status ≠ .peerClosed

namespace Output

variable {S} {messages : List MessageBlock} {c : TCPConnection κ σ}

theorem opened (r : References κ) (s : σ) : Output [] (TCPConnection.opened r s) where
  writeBuffer := by simp [TCPConnection.opened]
  queue := by simp [TCPConnection.opened]
  bytes := by simp [TCPConnection.opened, unsent]
  released := by simp [TCPConnection.opened]
  status := by simp [TCPConnection.opened]

theorem put (h : Output messages c) {m : MessageBlock} (hm : ∀ b ∈ m.blocks, Sendable b) :
    Output (messages ++ [m]) { c with queue := c.queue ++ [m] } where
  writeBuffer := h.writeBuffer
  queue := by simpa [or_imp, forall_and] using ⟨h.queue, hm⟩
  bytes hfailed := by simp [← h.bytes hfailed, unsent]
  released := h.released
  status := h.status

/-- A transmission of a chain that is out of the buffer and the queue keeps the invariant. -/
theorem transmit {chain : List (List UInt8)} {d : TCPConnection κ σ}
    (hchain : ∀ b ∈ chain, Sendable b) (hqueue : ∀ m ∈ d.queue, ∀ b ∈ m.blocks, Sendable b)
    (hbytes : d.sendFailed = false → d.wire ++ chain.flatten ++
      d.queue.flatMap MessageBlock.bytes = messages.flatMap MessageBlock.bytes)
    (hreleased : d.sendFailed = false → ∀ r ∈ d.released, r.flatten = [])
    (hstatus : d.sendFailed = false → d.status ≠ .peerClosed) :
    ∃ c' result, Net.transmit S chain d = .ok (c', result) ∧ Output messages c' ∧
      (c'.sendFailed = false → (result = 1 ↔ c'.unsent ≠ [])) := by
  obtain ⟨c', result, heq, hq, hbuffer, htransmits⟩ := transmit_sendable chain hchain d
  refine ⟨c', result, heq, ⟨hbuffer, hq ▸ hqueue, fun hf => ?_, fun hf r hr => ?_, fun hf => ?_⟩,
    fun hf => (htransmits hf).result⟩
  · rw [(htransmits hf).bytes, hq]
    exact hbytes (htransmits hf).sendFailed
  · exact ((htransmits hf).released r hr).elim (hreleased (htransmits hf).sendFailed r) id
  · rw [(htransmits hf).status]
    exact hstatus (htransmits hf).sendFailed

theorem handleOutput (h : Output messages c) :
    ∃ c' result, Net.handleOutput S c = .ok (c', result) ∧ Output messages c' ∧
      (c'.sendFailed = false → (result = 1 ↔ c'.unsent ≠ [])) := by
  unfold Net.handleOutput
  cases hbuffer : c.writeBuffer with
  | some chain =>
    refine transmit (h.writeBuffer chain hbuffer) h.queue (fun hf => ?_) h.released h.status
    simpa [unsent, hbuffer, MessageBlock.bytes] using h.bytes hf
  | none =>
    cases hqueue : c.queue with
    | nil => exact ⟨c, -1, rfl, h, by simp [unsent, hbuffer]⟩
    | cons chain queue =>
      have hsendable := h.queue
      rw [hqueue, List.forall_mem_cons] at hsendable
      refine transmit hsendable.1 hsendable.2 (fun hf => ?_) h.released h.status
      simpa [unsent, hbuffer, hqueue, MessageBlock.bytes] using h.bytes hf

end Output

theorem queued_append (es fs : List Event) : queued (es ++ fs) = queued es ++ queued fs := by
  simp [queued, List.filterMap_append]

theorem put_mem_queued {m : MessageBlock} {es : List Event} (h : .put m ∈ es) : m ∈ queued es :=
  List.mem_filterMap.mpr ⟨_, h, rfl⟩

theorem run_output {es : List Event} (h : ∀ m ∈ queued es, ∀ b ∈ m.blocks, Sendable b)
    (r : References κ) (s : σ) :
    ∃ c, Runs.run (step S) (opened r s) es = .ok c ∧ Output (queued es) c := by
  have hstep : ∀ (seen : List Event) (c : TCPConnection κ σ) (e : Event), Output (queued seen) c →
      (∀ m, e = .put m → ∀ b ∈ m.blocks, Sendable b) →
      ∃ c', step S c e = .ok c' ∧ Output (queued (seen ++ [e])) c' := by
    intro seen c e houtput he
    rw [queued_append]
    cases e with
    | put m => exact ⟨_, rfl, houtput.put (he m rfl)⟩
    | handleOutput =>
      obtain ⟨c', result, heq, houtput', -⟩ := houtput.handleOutput (S := S)
      exact ⟨c', by simp [step, heq, Except.map], by simpa [queued] using houtput'⟩
  have halong : Runs.Along (step S) (fun _ e => ∀ m, e = .put m → ∀ b ∈ m.blocks, Sendable b)
      (opened r s) es :=
    Runs.along_of_forall fun e he _ m hm => h m (put_mem_queued (hm ▸ he))
  have hinit : Output (queued []) (TCPConnection.opened r s) := Output.opened r s
  simpa using Runs.run_total (fun seen c => Output (queued seen) c) hstep hinit halong

section Full

def Socket.full : Socket Unit where
  sendN _ data := (some data.length, ())
  transferred_le _ data n h := by simp_all
  transferred_pos _ data n h hne := by simpa [← Option.some.inj h, List.length_pos_iff] using hne

structure Idle (messages : List MessageBlock) (c : TCPConnection κ Unit) : Prop where
  writeBuffer : c.writeBuffer = none
  queue : c.queue = messages
  status : c.status = .ok
  sendFailed : c.sendFailed = false

/-- A call that has marked the connection, or whose successor will. -/
structure Loses (c : TCPConnection κ Unit) : Prop where
  sendFailed : c.sendFailed = false
  closes : c.status = .peerClosed ∨
    c.status = .ok ∧ ∃ m, c.writeBuffer = some m ∧ intOfSize m.data.length = 0

theorem length_given (data : List UInt8) :
    (given data).length = (intOfSize data.length).toNat := by
  simpa [given] using toNat_intOfSize_le data.length

theorem sendN_full (data : List UInt8) {n : ℕ} (h : (intOfSize data.length).toNat = n) (s : Unit) :
    Socket.full.sendN s (given data) = (some n, ()) := by
  rw [← h, ← length_given]
  rfl

theorem transmit_full_sendable (chain : List (List UInt8)) (hchain : ∀ b ∈ chain, Sendable b)
    (c : TCPConnection κ Unit) (hstatus : c.status = .ok) (hfailed : c.sendFailed = false) :
    ∃ c', transmit Socket.full chain c = .ok (c', 0) ∧ Idle c.queue c' := by
  induction chain generalizing c with
  | nil => exact ⟨_, rfl, rfl, rfl, hstatus, hfailed⟩
  | cons data cont ih =>
    have ⟨hpos, hlt⟩ := hchain data List.mem_cons_self
    have hsize : intOfSize data.length = data.length := intOfSize_of_lt hlt
    have hsend := sendN_full data (n := data.length - 1 + 1) (by omega) c.socket
    rw [transmit_all (by omega) hsend (by omega)]
    exact ih (fun b hb => hchain b (List.mem_cons_of_mem _ hb)) _ hstatus hfailed

theorem transmit_full_unsendable (chain : List (List UInt8)) (hchain : ∃ b ∈ chain, ¬ Sendable b)
    (c : TCPConnection κ Unit) (hstatus : c.status = .ok) (hfailed : c.sendFailed = false)
    {c' : TCPConnection κ Unit} {result : ℤ}
    (heq : transmit Socket.full chain c = .ok (c', result)) : Loses c' := by
  induction chain generalizing c with
  | nil => simp at hchain
  | cons data cont ih =>
    by_cases hneg : intOfSize data.length < 0
    · rw [transmit_negative hneg] at heq
      cases heq
    have hsend := sendN_full data rfl c.socket
    cases hn : (intOfSize data.length).toNat with
    | zero =>
      rw [hn] at hsend
      rw [transmit_zero (by omega) hsend] at heq
      obtain ⟨rfl, -⟩ : _ ∧ _ := by simpa using heq
      exact ⟨hfailed, .inl (by simp [dropWriteBuffer, hstatus])⟩
    | succ k =>
      rw [hn] at hsend
      by_cases hmore : k + 1 < data.length
      · rw [transmit_part (by omega) hsend hmore] at heq
        obtain ⟨rfl, -⟩ : _ ∧ _ := by simpa using heq
        refine ⟨hfailed, .inr ⟨hstatus, _, rfl, ?_⟩⟩
        simpa [hn] using intOfSize_sub (n := data.length) (by omega)
      · have hle := toNat_intOfSize_le data.length
        have hlt := intOfSize_lt data.length
        have hdata : Sendable data := ⟨by omega, by omega⟩
        rw [transmit_all (by omega) hsend (by omega)] at heq
        have hcont : ∃ b ∈ cont, ¬ Sendable b := by simpa [hdata] using hchain
        exact ih hcont _ (by exact hstatus) (by exact hfailed) heq

/-- A call after one that has left a multiple of `2 ^ 32` bytes of a block. -/
theorem handleOutput_full_multiple {c : TCPConnection κ Unit} {m : MessageBlock}
    (hbuffer : c.writeBuffer = some m) (hsize : intOfSize m.data.length = 0)
    (hstatus : c.status = .ok) (hfailed : c.sendFailed = false) :
    ∃ c', handleOutput Socket.full c = .ok (c', -1) ∧ c'.status = .peerClosed ∧
      c'.sendFailed = false := by
  have hsend := sendN_full m.data (n := 0) (by omega) c.socket
  have hcall : handleOutput Socket.full c =
      .ok (dropWriteBuffer m.blocks { c with socket := () }, -1) := by
    rw [handleOutput, hbuffer]
    exact transmit_zero (by omega) hsend
  exact ⟨_, hcall, by simp [dropWriteBuffer, hstatus], hfailed⟩

/-- Calls drain the queue up to the first message with a block that is not sendable. -/
theorem exists_loses (messages : List MessageBlock) (c : TCPConnection κ Unit)
    (hidle : Idle messages c) (h : ∃ m ∈ messages, ∃ b ∈ m.blocks, ¬ Sendable b) :
    ∃ k d, Runs.run (step Socket.full) c (List.replicate k .handleOutput) = .ok d ∧
      ∀ c' result, handleOutput Socket.full d = .ok (c', result) → Loses c' := by
  induction messages generalizing c with
  | nil => simp at h
  | cons m messages ih =>
    have hcall : handleOutput Socket.full c =
        transmit Socket.full m.blocks { c with queue := messages } := by
      simp [handleOutput, hidle.writeBuffer, hidle.queue]
    by_cases hm : ∀ b ∈ m.blocks, Sendable b
    · obtain ⟨c', heq, hidle'⟩ := transmit_full_sendable m.blocks hm
        { c with queue := messages } hidle.status hidle.sendFailed
      have hrest : ∃ m ∈ messages, ∃ b ∈ m.blocks, ¬ Sendable b := by
        obtain ⟨m', hm', b, hb, hbad⟩ := h
        rcases List.mem_cons.mp hm' with rfl | hm'
        · exact absurd (hm b hb) hbad
        · exact ⟨m', hm', b, hb, hbad⟩
      obtain ⟨k, d, hrun, hlast⟩ := ih c' hidle' hrest
      refine ⟨k + 1, d, ?_, hlast⟩
      rw [List.replicate_succ]
      exact Runs.run_cons_ok.mpr ⟨c', by simp [step, hcall, heq, Except.map], hrun⟩
    · refine ⟨0, c, rfl, fun c' result heq => ?_⟩
      rw [hcall] at heq
      have hbad : ∃ b ∈ m.blocks, ¬ Sendable b := by simpa using hm
      exact transmit_full_unsendable m.blocks hbad { c with queue := messages } hidle.status
        hidle.sendFailed heq

theorem run_puts (messages : List MessageBlock) (c : TCPConnection κ σ) :
    Runs.run (step S) c (messages.map .put) = .ok { c with queue := c.queue ++ messages } := by
  induction messages generalizing c with
  | nil => simp
  | cons m messages ih =>
    refine Runs.run_cons_ok.mpr ⟨_, rfl, (ih _).trans ?_⟩
    simp

theorem queued_puts (messages : List MessageBlock) (k : ℕ) :
    queued (messages.map .put ++ List.replicate k .handleOutput) = messages := by
  simp [queued, List.filterMap_append, List.filterMap_map]

end Full

/-- The empty block of this message is taken for a closed socket, and the rest is lost. -/
theorem not_outputInOrder :
    ¬ ∀ messages : List MessageBlock, OutputInOrder Counter.plain messages := by
  intro h
  obtain ⟨c, c', result, hc, hcall, hdelivers⟩ :=
    h [⟨[1], [[], [2]]⟩] Unit Socket.full () .create [.put ⟨[1], [[], [2]]⟩] List.prefix_rfl
  obtain rfl := Except.ok.inj hc
  have hlost : handleOutput Socket.full
      { opened (.create : References Counter.plain) () with queue := [⟨[1], [[], [2]]⟩] } =
      .ok ({ opened (.create : References Counter.plain) () with
        status := .peerClosed, sentBytes := 1, wire := [1], released := [[[]], [[], [2]]] }, -1) :=
    rfl
  obtain ⟨rfl, -⟩ := Prod.mk.inj (Except.ok.inj (hlost.symm.trans hcall))
  exact (hdelivers rfl).status rfl

/-- The bytes on the wire are in order, and all of them, exactly for messages whose blocks
are neither empty nor longer than an `int` can say. -/
theorem outputInOrder_iff (messages : List MessageBlock) :
    OutputInOrder κ messages ↔ ∀ m ∈ messages, ∀ b ∈ m.blocks, Sendable b := by
  constructor
  · intro h
    by_contra hgood
    have hbad : ∃ m ∈ messages, ∃ b ∈ m.blocks, ¬ Sendable b := by simpa using hgood
    let c₀ : TCPConnection κ Unit := opened .create ()
    have hputs := run_puts Socket.full messages c₀
    have hidle : Idle messages { c₀ with queue := c₀.queue ++ messages } :=
      ⟨rfl, by simp [c₀, opened], rfl, rfl⟩
    obtain ⟨k, d, hrun, hloses⟩ := exists_loses messages _ hidle hbad
    have hall : Runs.run (step Socket.full) c₀
        (messages.map .put ++ List.replicate k .handleOutput) = .ok d := by
      rw [Runs.run_append hputs, hrun]
    obtain ⟨c, c', result, hc, hcall, hdelivers⟩ :=
      h Unit Socket.full () .create (messages.map .put ++ List.replicate k .handleOutput)
        (by rw [queued_puts])
    obtain rfl : d = c := Except.ok.inj (hall.symm.trans hc)
    have hlost := hloses c' result hcall
    rcases hlost.closes with hclosed | ⟨hstatus, m, hbuffer, hsize⟩
    · exact (hdelivers hlost.sendFailed).status hclosed
    · -- the call left a multiple of `2 ^ 32` bytes behind, and the next one takes them for an error
      obtain ⟨c'', hnext, hclosed, hfailed⟩ :=
        handleOutput_full_multiple hbuffer hsize hstatus hlost.sendFailed
      have hlast : Runs.run (step Socket.full) c₀
          (messages.map .put ++ List.replicate k .handleOutput ++ [.handleOutput]) = .ok c' := by
        rw [Runs.run_append hall]
        exact Runs.run_cons_ok.mpr ⟨c', by simp [step, hcall, Except.map], rfl⟩
      obtain ⟨e, e', result', he, hcall', hdelivers'⟩ :=
        h Unit Socket.full () .create
          (messages.map .put ++ List.replicate k .handleOutput ++ [.handleOutput])
          (by rw [queued_append, queued_puts]; simp [queued])
      obtain rfl : c' = e := Except.ok.inj (hlast.symm.trans he)
      obtain ⟨rfl, -⟩ : c'' = e' ∧ -1 = result' := by simpa [hnext] using hcall'
      exact (hdelivers' hfailed).status hclosed
  · intro h σ S s r es hes
    have hsendable : ∀ m ∈ queued es, ∀ b ∈ m.blocks, Sendable b := fun m hm =>
      h m (hes.subset hm)
    obtain ⟨c, hrun, houtput⟩ := run_output S hsendable r s
    obtain ⟨c', result, heq, houtput', hresult⟩ := houtput.handleOutput (S := S)
    refine ⟨c, c', result, hrun, heq, fun hfailed => ⟨?_, houtput'.released hfailed,
      houtput'.status hfailed, hresult hfailed⟩⟩
    exact ⟨_, by rw [← houtput'.bytes hfailed, List.append_assoc]⟩

end ACENetwork.Net
