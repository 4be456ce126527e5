import ACENetwork.WebSocket.Fragmentation

/-!
# Streams that are cut into messages

A scanner that blocks goes on in the next message, wherever a frame is cut but within its 16-bit
length. One that does not block needs every frame in one message. What fails within one buffer
fails here as well.
-/
namespace ACENetwork.WebSocket
open BitTorrent (Fault fault_bind_ok)
open Library

def Boundary (n : ℕ) (sizes : List ℕ) : Prop := ∃ front ∈ sizes.inits, front.sum = n

instance (n : ℕ) (sizes : List ℕ) : Decidable (Boundary n sizes) :=
  inferInstanceAs (Decidable (∃ front ∈ sizes.inits, front.sum = n))

/-- The lengths of the messages, and of the rest of one, behind so many octets. -/
def behind : ℕ → List ℕ → List ℕ
  | _, [] => []
  | n, size :: sizes => if n < size then (size - n) :: sizes else behind (n - size) sizes

/-- The frames can be read from messages of these lengths: each is exact, one whose first octet is
lost behind a match has opcode 0, and a message ends within a frame only where the scanner waits for
the next one, which it cannot do between the two octets of a length. -/
def Regular (config : Configuration) (block : Bool) : Bool → List Frame → List ℕ → Prop
  | _, [], _ => True
  | spoiled, f :: frames, sizes =>
    f.Exact ∧ (spoiled → f.opcode = 0) ∧
      (∀ n < f.bytes.length, 0 < n → Boundary n sizes →
        block = true ∧ ¬ (f.form = .medium ∧ n = 3)) ∧
      Regular config block (config.useYYScanBuffer && !decide (Boundary f.bytes.length sizes))
        frames (behind f.bytes.length sizes)

section Blocks

variable {front queue blocks : List Bytes} {piece rest : Bytes} {n : ℕ}

theorem behind_zero {sizes : List ℕ} (h : ∀ size ∈ sizes, 0 < size) : behind 0 sizes = sizes := by
  cases sizes with
  | nil => rfl
  | cons size sizes => rw [behind, if_pos (h size List.mem_cons_self), Nat.sub_zero]

end Blocks

section Scanner

variable {p q s : Parser} {x y : Bytes} {f : Frame} {b : UInt8}

def Reads (p : Parser) (text : Bytes) (q : Parser) : Prop :=
  ∀ rest, lex p (text ++ rest) = lex q rest

theorem Reads.refl (p : Parser) : Reads p [] p := fun _ => rfl

theorem Reads.trans (h : Reads p x q) (h' : Reads q y s) : Reads p (x ++ y) s := fun rest => by
  rw [List.append_assoc, h, h']

theorem Reads.of_append (h : Reads p x q) (h' : Reads p (x ++ y) s) : Reads q y s := fun rest => by
  rw [← h, ← List.append_assoc, h']

end Scanner

section Chain

variable {tools : StreamTools} {config : Configuration} {capacity : ℕ} {m : Module}
  {p₀ p q : Parser} {f : Frame} {b : UInt8} {x block piece rest header payload : Bytes}
  {front following queue : List Bytes} {s : Scanned} {n : ℕ}

end Chain

/-- A parser that blocks finds a frame that ends behind so many octets. -/
def Finds (config : Configuration) (capacity : ℕ) (p : Parser) (block : Bytes)
    (following : List Bytes) (n : ℕ) : Prop :=
  ∃ s, lexBlocks config capacity p block 0 following = .ok s ∧ s.frame = some n

section Finds

variable {config : Configuration} {capacity : ℕ} {p q : Parser} {f : Frame} {b : UInt8}
  {x block rest text : Bytes} {following : List Bytes} {n : ℕ}

/-- The frame ends in the block, or the scanner switches to the next one. -/
theorem finds_iff : Finds config capacity p block following n ↔
    (∃ q rest, lex p block = .ok (q, .frame, rest) ∧ n = block.length - rest.length) ∨
      ∃ q rest next following' n', lex p block = .ok (q, .finished, rest) ∧
        following = next :: following' ∧ begin config capacity next = .ok () ∧
        Finds config capacity q next following' n' ∧ n = block.length + n' := by
  cases following with
  | nil =>
    cases hlex : lex p block with
    | error fault => simp [Finds, lexBlocks, hlex, bind, Except.bind]
    | ok next =>
      obtain ⟨q, token, rest⟩ := next
      cases token <;> simp [Finds, lexBlocks, hlex, bind, Except.bind, eq_comm]
  | cons next following =>
    cases hlex : lex p block with
    | error fault => simp [Finds, lexBlocks, hlex, bind, Except.bind]
    | ok taken =>
      obtain ⟨q, token, rest⟩ := taken
      cases token with
      | frame | invalid => simp [Finds, lexBlocks, hlex, bind, Except.bind, eq_comm]
      | finished =>
        cases hbegin : begin config capacity next with
        | error fault => simp [Finds, lexBlocks, hlex, hbegin, bind, Except.bind]
        | ok begun =>
          cases hs : lexBlocks config capacity q next 0 following with
          | error fault => simp [Finds, lexBlocks, hlex, hbegin, hs, bind, Except.bind]
          | ok s =>
            simp [Finds, lexBlocks, hlex, hbegin, hs, bind, Except.bind, Scanned.behind, eq_comm]

theorem Finds.of_nil (h : Finds config capacity p [] following n) :
    ∃ next following', following = next :: following' ∧
      Finds config capacity p next following' n := by
  rcases finds_iff.mp h with ⟨q, rest, hlex, -⟩ | ⟨q, rest, next, following', n', hlex, hrest⟩
  · cases hlex
  · cases hlex
    obtain ⟨rfl, -, hnext, rfl⟩ := hrest
    rw [List.length_nil, Nat.zero_add]
    exact ⟨next, following', rfl, hnext⟩

theorem Finds.of_reads (hreads : lex p (x ++ block) = lex q block)
    (h : Finds config capacity p (x ++ block) following n) :
    ∃ n', n = x.length + n' ∧ Finds config capacity q block following n' := by
  rcases finds_iff.mp h with ⟨s, rest, hlex, hn⟩ | ⟨s, rest, next, following', n', hlex, hrest⟩
  · rw [hreads] at hlex
    have hle := lex_length hlex
    refine ⟨block.length - rest.length, ?_, finds_iff.mpr (.inl ⟨s, rest, hlex, rfl⟩)⟩
    rw [hn, List.length_append]
    omega
  · rw [hreads] at hlex
    obtain ⟨rfl, hbegin, hnext, hn⟩ := hrest
    refine ⟨block.length + n', ?_,
      finds_iff.mpr (.inr ⟨s, rest, next, following', n', hlex, rfl, hbegin, hnext, rfl⟩)⟩
    rw [hn, List.length_append, Nat.add_assoc]

theorem Finds.of_frame (hlex : lex p (b :: block) = .ok (q, .frame, block))
    (h : Finds config capacity p (b :: block) following n) : n = 1 := by
  rcases finds_iff.mp h with ⟨s, rest, hlex', hn⟩ | ⟨s, rest, next, following', n', hlex', -⟩
  · rw [hlex] at hlex'
    cases hlex'
    rw [hn, List.length_cons, Nat.add_sub_cancel_left]
  · rw [hlex] at hlex'
    cases hlex'

theorem Finds.head (h : Finds config capacity p block following n)
    (hfollowing : ∀ w ∈ following, w ≠ []) :
    ∃ b block' following', block ++ following.flatten = b :: (block' ++ following'.flatten) ∧
      (∀ w ∈ following', w ≠ []) ∧ Finds config capacity p (b :: block') following' n := by
  cases block with
  | nil =>
    obtain ⟨next, following', rfl, hnext⟩ := h.of_nil
    obtain ⟨hne, hfollowing'⟩ := List.forall_mem_cons.mp hfollowing
    cases next with
    | nil => exact absurd rfl hne
    | cons b next => exact ⟨b, next, following', rfl, hfollowing', hnext⟩
  | cons b block => exact ⟨b, block, following, rfl, hfollowing, h⟩

theorem Finds.step (h : Finds config capacity p block following n)
    (hfollowing : ∀ w ∈ following, w ≠ []) (htext : block ++ following.flatten = b :: text)
    (hreads : Reads p [b] q) :
    ∃ block' following' n', n = n' + 1 ∧ block' ++ following'.flatten = text ∧
      (∀ w ∈ following', w ≠ []) ∧ Finds config capacity q block' following' n' := by
  obtain ⟨c, block', following', htext', hfollowing', hfinds⟩ := h.head hfollowing
  rw [htext] at htext'
  obtain ⟨rfl, hrest⟩ := List.cons.inj htext'
  obtain ⟨n', rfl, hfinds'⟩ := Finds.of_reads (x := [b]) (hreads block') hfinds
  exact ⟨block', following', n', Nat.add_comm _ _, hrest.symm, hfollowing', hfinds'⟩

end Finds

/-- The messages that are to come, once the chain has been taken apart. -/
def Module.proceed (tools : StreamTools) (config : Configuration) (capacity : ℕ) (block : Bool)
    (m : Module) (queue : List Bytes) : Except Fault Module :=
  if block then m.serve tools config capacity queue
  else m.run tools config >>= fun m => m.receive tools config capacity queue

section Waiting

variable {tools : StreamTools} {config : Configuration} {capacity : ℕ} {m m' : Module}
  {p q : Parser} {f : Frame} {w text rest : Bytes} {queue : List Bytes} {more : List Passed}

end Waiting

section Step

variable {tools : StreamTools} {config : Configuration} {capacity : ℕ} {block : Bool}
  {m m' : Module} {f : Frame} {b : UInt8} {w piece rest text : Bytes}
  {front following queue : List Bytes} {more : List Passed}

end Step

def Sent (tools : StreamTools) (config : Configuration) (capacity : ℕ) (block : Bool)
    (frames : List Frame) (messages : List Bytes) : Prop :=
  ∃ m, Module.messages tools config capacity block {} messages = .ok m ∧
    m.passed = frames.map Frame.passed

section Cuts

variable {tools : StreamTools} {config : Configuration} {capacity : ℕ} {frames : List Frame}
  {messages messages' : List Bytes}

end Cuts

end ACENetwork.WebSocket
