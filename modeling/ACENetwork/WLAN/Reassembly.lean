import ACENetwork.WLAN.Netlink

/-!
# Reassembly of netlink messages

The parts of a header behind the first block are copied to the wrong place, the padding of a message
is not skipped, and the check for a complete header comes before the one for a body. Where the blocks
do not end at such places, a message is dispatched when its last byte arrives.
-/
namespace ACENetwork.WLAN.Netlink
open Library

section Copy

variable {ndebug : Bool} {missing offset : ℕ} {bytes message : List UInt8}
  {blocks : List (List UInt8)}

theorem copy_ok (offset : ℕ) (bytes message : List UInt8)
    (h : bytes = [] ∨ offset + bytes.length ≤ message.length) :
    ∃ message', copy offset bytes message = .ok message' ∧ message'.length = message.length ∧
      message'.take (offset + bytes.length) = message.take offset ++ bytes ∧
      message'.drop (offset + bytes.length) = message.drop (offset + bytes.length) := by
  rw [copy]
  split_ifs with hnil hle
  · exact ⟨message, rfl, rfl, by simp [hnil], rfl⟩
  · have hlen : (message.take offset ++ bytes).length = offset + bytes.length := by
      rw [List.length_append, List.length_take]
      omega
    refine ⟨_, rfl, ?_, List.take_left' hlen, List.drop_left' hlen⟩
    rw [List.length_append, hlen, List.length_drop]
    omega
  · exact absurd h (not_or.mpr ⟨hnil, hle⟩)

theorem take_of_take_append {message' : List UInt8} {n : ℕ} (hn : n ≤ offset)
    (hle : offset ≤ message.length)
    (h : message'.take (offset + bytes.length) = message.take offset ++ bytes) :
    message'.take n = message.take n := by
  have htake := congrArg (List.take n) h
  rwa [List.take_take, min_eq_left (by omega), List.take_append_of_le_length (by simp; omega),
    List.take_take, min_eq_left hn] at htake

theorem copyHeader_of_lt {block message₁ : List UInt8} {cont : List (List UInt8)}
    (hlen : block.length < missing) (hcont : cont ≠ [])
    (hcopy : copy (headerLength * offset) block message = .ok message₁) :
    copyHeader ndebug missing offset message (block :: cont) =
      (copyHeader ndebug (missing - block.length) (offset + block.length) message₁ cont).map
        fun result => (result.1, [] :: result.2) := by
  have hmissing : missing - block.length ≠ 0 := by omega
  rw [copyHeader, min_eq_left hlen.le, List.take_length, hcopy]
  simp only [List.drop_length, hcont, hmissing, aceAssert, ne_eq, not_true_eq_false,
    not_false_eq_true, or_true, decide_true, Bool.or_true, if_true, if_false, bind, Except.bind]
  cases copyHeader ndebug (missing - block.length) (offset + block.length) message₁ cont <;> rfl

theorem copyHeader_of_le {block message₁ : List UInt8} {cont : List (List UInt8)}
    (hlen : missing ≤ block.length) (hmore : block.drop missing ≠ [] ∨ cont ≠ [])
    (hcopy : copy (headerLength * offset) (block.take missing) message = .ok message₁) :
    copyHeader ndebug missing offset message (block :: cont) =
      .ok (message₁, block.drop missing :: cont) := by
  rw [copyHeader, min_eq_right hlen, hcopy]
  simp only [hmore, aceAssert, decide_true, Bool.or_true, if_true, Nat.sub_self]
  rfl

/-- The chain behind the header: emptied blocks, and those that are left. -/
theorem exists_emptied {block : List UInt8} (cont : List (List UInt8))
    (hlen : missing ≤ block.length) :
    ∃ emptied, block.drop missing :: cont = emptied ++ Blocks.behind missing (block :: cont) ∧
      ∀ b ∈ emptied, b = [] := by
  rw [Blocks.behind_of_le hlen, Blocks.remaining]
  split_ifs with hdrop
  · exact ⟨[[]], by rw [hdrop]; rfl, by simp⟩
  · exact ⟨[], rfl, by simp⟩

variable (ndebug) in
/-- The parts of the header behind the first one leave its place as it is. -/
theorem copyHeader_rest (hlong : missing < blocks.flatten.length) (hoffset : 0 < offset)
    (hsum : offset + missing = 16) (hsize : 256 ≤ message.length) :
    ∃ message' emptied, copyHeader ndebug missing offset message blocks =
        .ok (message', emptied ++ Blocks.behind missing blocks) ∧
      (∀ b ∈ emptied, b = []) ∧ message'.length = message.length ∧
      message'.take 16 = message.take 16 := by
  induction blocks generalizing missing offset message with
  | nil => simp at hlong
  | cons block cont ih =>
    rw [List.flatten_cons, List.length_append] at hlong
    have hplace : 16 ≤ headerLength * offset ∧ headerLength * offset ≤ message.length := by
      simp only [headerLength]
      omega
    rcases Nat.lt_or_ge block.length missing with hlen | hlen
    · have hcont : cont ≠ [] := by
        rintro rfl
        simp at hlong
        omega
      obtain ⟨message₁, hcopy, hlength₁, htake₁, -⟩ := copy_ok (headerLength * offset) block message
        (.inr (by simp only [headerLength]; omega))
      have hlong₁ : missing - block.length < cont.flatten.length := by omega
      have hsum₁ : offset + block.length + (missing - block.length) = 16 := by omega
      have hsize₁ : 256 ≤ message₁.length := by omega
      obtain ⟨message₂, emptied, hrest, hemptied, hlength₂, htake₂⟩ :=
        ih hlong₁ (by omega) hsum₁ hsize₁
      refine ⟨message₂, [] :: emptied, ?_, by simpa using hemptied, by omega, ?_⟩
      · rw [copyHeader_of_lt hlen hcont hcopy, hrest, Blocks.behind_of_lt hlen]
        rfl
      · rw [htake₂, take_of_take_append hplace.1 hplace.2 htake₁]
    · obtain ⟨message₁, hcopy, hlength₁, htake₁, -⟩ := copy_ok (headerLength * offset)
        (block.take missing) message (.inr (by simp only [headerLength, List.length_take]; omega))
      obtain ⟨emptied, hchain, hemptied⟩ := exists_emptied cont hlen
      have hmore : block.drop missing ≠ [] ∨ cont ≠ [] := by
        by_contra hnone
        rw [not_or, not_ne_iff, not_ne_iff] at hnone
        obtain ⟨hdrop, rfl⟩ := hnone
        have := List.drop_eq_nil_iff.mp hdrop
        simp at hlong
        omega
      refine ⟨message₁, emptied, ?_, hemptied, hlength₁, ?_⟩
      · rw [copyHeader_of_le hlen hmore hcopy, hchain]
      · exact take_of_take_append hplace.1 hplace.2 htake₁

variable (ndebug) in
/-- The header is assembled where what lies behind its first block is what `nlmsg_alloc` leaves
there. -/
theorem copyHeader_ok {header : List UInt8} (hne : ∀ b ∈ blocks, b ≠ [])
    (htext : blocks.flatten.take 16 = header) (hlong : 16 < blocks.flatten.length) (hsize : 256 ≤ message.length)
    (hcuts : ∀ n, 0 < n → n < 16 → Blocks.Boundary n blocks →
      header.drop n = (message.take 16).drop n) :
    ∃ message' emptied, copyHeader ndebug headerLength 0 message blocks =
        .ok (message', emptied ++ Blocks.behind 16 blocks) ∧
      (∀ b ∈ emptied, b = []) ∧ message'.length = message.length ∧ message'.take 16 = header := by
  cases blocks with
  | nil => simp at hlong
  | cons block cont =>
    rw [List.flatten_cons, List.length_append] at hlong
    have hblock := List.length_pos_iff.mpr (hne block List.mem_cons_self)
    rw [List.flatten_cons] at htext
    rcases Nat.lt_or_ge block.length headerLength with hlen | hlen
    · have hlen' : block.length < 16 := hlen
      have hcont : cont ≠ [] := by
        rintro rfl
        simp at hlong
        omega
      obtain ⟨message₁, hcopy, hlength₁, htake₁, hdrop₁⟩ :=
        copy_ok 0 block message (.inr (by omega))
      rw [List.take_zero, List.nil_append, Nat.zero_add] at htake₁
      rw [Nat.zero_add] at hdrop₁
      have hlong₁ : headerLength - block.length < cont.flatten.length := by
        simp only [headerLength]
        omega
      have hsum₁ : 0 + block.length + (headerLength - block.length) = 16 := by
        simp only [headerLength]
        omega
      have hsize₁ : 256 ≤ message₁.length := by omega
      obtain ⟨message₂, emptied, hrest, hemptied, hlength₂, htake₂⟩ :=
        copyHeader_rest ndebug hlong₁ (by omega) hsum₁ hsize₁
      refine ⟨message₂, [] :: emptied, ?_, by simpa using hemptied, by omega, ?_⟩
      · rw [copyHeader_of_lt hlen hcont hcopy, hrest, Blocks.behind_of_lt hlen']
        rfl
      · have hfirst : Blocks.Boundary block.length (block :: cont) :=
          ⟨[block], List.cons_prefix_cons.mpr ⟨rfl, List.nil_prefix⟩, by simp⟩
        have hdrop : (message₁.take 16).drop block.length = header.drop block.length := by
          rw [hcuts _ hblock hlen' hfirst, List.drop_take, List.drop_take, hdrop₁]
        have htake : (message₁.take 16).take block.length = header.take block.length := by
          rw [List.take_take, min_eq_left hlen'.le, htake₁, ← htext, List.take_take,
            min_eq_left hlen'.le, List.take_left]
        rw [htake₂, ← List.take_append_drop block.length (message₁.take 16), htake, hdrop,
          List.take_append_drop]
    · have hlen' : 16 ≤ block.length := hlen
      obtain ⟨message₁, hcopy, hlength₁, htake₁, -⟩ := copy_ok 0 (block.take 16) message
        (.inr (by rw [List.length_take]; omega))
      rw [List.take_zero, List.nil_append, Nat.zero_add, List.length_take,
        min_eq_left hlen'] at htake₁
      obtain ⟨emptied, hchain, hemptied⟩ := exists_emptied cont hlen'
      have hmore : block.drop headerLength ≠ [] ∨ cont ≠ [] := by
        by_contra hnone
        rw [not_or, not_ne_iff, not_ne_iff] at hnone
        obtain ⟨hdrop, rfl⟩ := hnone
        have : block.length ≤ 16 := List.drop_eq_nil_iff.mp hdrop
        simp at hlong
        omega
      refine ⟨message₁, emptied, ?_, hemptied, hlength₁, ?_⟩
      · rw [copyHeader_of_le hlen hmore hcopy, headerLength, hchain]
      · rw [htake₁, ← htext, List.take_append_of_le_length hlen']

theorem skipEmpty_ok {emptied : List (List UInt8)} (hemptied : ∀ b ∈ emptied, b = [])
    (hne : ∀ b ∈ blocks, b ≠ []) (hblocks : blocks ≠ []) :
    skipEmpty (emptied ++ blocks) = .ok blocks := by
  induction emptied with
  | nil =>
    obtain ⟨block, cont, rfl⟩ := List.exists_cons_of_ne_nil hblocks
    exact if_neg (hne block List.mem_cons_self)
  | cons block emptied ih =>
    obtain ⟨hblock, hemptied⟩ := List.forall_mem_cons.mp hemptied
    rw [List.cons_append, skipEmpty, if_pos hblock]
    exact ih hemptied

theorem copyBody_ok (hblocks : blocks ≠ []) (hlong : missing ≤ blocks.flatten.length)
    (hsize : headerLength + offset + missing ≤ message.length) :
    ∃ message', copyBody missing offset message blocks =
        .ok (message', Blocks.behind missing blocks) ∧ message'.length = message.length ∧
      message'.take (headerLength + offset + missing) =
        message.take (headerLength + offset) ++ blocks.flatten.take missing := by
  induction blocks generalizing missing offset message with
  | nil => exact absurd rfl hblocks
  | cons block cont ih =>
    rw [List.flatten_cons, List.length_append] at hlong
    rcases Nat.lt_or_ge block.length missing with hlen | hlen
    · have hcont : cont ≠ [] := by
        rintro rfl
        simp at hlong
        omega
      obtain ⟨message₁, hcopy, hlength₁, htake₁, -⟩ := copy_ok (headerLength + offset) block message
        (.inr (by omega))
      have hlong₁ : missing - block.length ≤ cont.flatten.length := by omega
      have hsize₁ : headerLength + (offset + block.length) + (missing - block.length) ≤
          message₁.length := by omega
      obtain ⟨message₂, hrest, hlength₂, htake₂⟩ := ih hcont hlong₁ hsize₁
      refine ⟨message₂, ?_, by omega, ?_⟩
      · have hmissing : missing - block.length ≠ 0 := by omega
        rw [copyBody, min_eq_left hlen.le, List.take_length, hcopy, Blocks.behind_of_lt hlen]
        simp only [hmissing, if_false, bind, Except.bind]
        exact hrest
      · have hsum : headerLength + (offset + block.length) + (missing - block.length) =
            headerLength + offset + missing := by omega
        rw [hsum, ← Nat.add_assoc, htake₁] at htake₂
        rw [htake₂, List.flatten_cons, List.take_append, List.take_of_length_le hlen.le,
          List.append_assoc]
    · obtain ⟨message₁, hcopy, hlength₁, htake₁, -⟩ := copy_ok (headerLength + offset)
        (block.take missing) message (.inr (by rw [List.length_take]; omega))
      rw [List.length_take, min_eq_left hlen] at htake₁
      refine ⟨message₁, ?_, hlength₁, ?_⟩
      · rw [copyBody, min_eq_right hlen, hcopy, Blocks.behind_of_le hlen]
        simp only [Nat.sub_self, if_true, bind, Except.bind]
        rfl
      · rw [htake₁, List.flatten_cons, List.take_append_of_le_length hlen]

end Copy

/-- A message with the bytes that follow it up to a multiple of four. -/
structure Frame where
  message : List UInt8
  padding : List UInt8
  deriving DecidableEq

def Frame.bytes (f : Frame) : List UInt8 := f.message ++ f.padding

/-- A message of at least a header, with its own length, that fits into the buffer of
`nlmsg_alloc`, and the padding that netlink prescribes. -/
structure WellFormed (env : Environment) (f : Frame) : Prop where
  header : 16 ≤ f.message.length
  length : messageLength env.order f.message = f.message.length
  fits : f.message.length ≤ env.allocated.length
  padding : f.padding.length < 4
  aligned : 4 ∣ f.bytes.length

def events (env : Environment) : Socket → List (List UInt8) → List Event
  | _, [] => []
  | socket, message :: messages =>
    (dispatch env socket message).events message ++
      events env (dispatch env socket message).socket messages

/-- No message ends a call for want of a callback. -/
def Handled (env : Environment) : Socket → List (List UInt8) → Prop
  | _, [] => True
  | socket, message :: messages =>
    (dispatch env socket message).error = false ∧
      Handled env (dispatch env socket message).socket messages

/-- The messages whose last byte is among the first `n` bytes of their stream. -/
def complete : List Frame → ℕ → List (List UInt8)
  | [], _ => []
  | f :: frames, n =>
    if f.message.length ≤ n then f.message :: complete frames (n - f.bytes.length) else []

/-- The message that a text of the stream leaves incomplete, and what it has of it. -/
def incomplete : List Frame → List UInt8 → Option (List UInt8)
  | [], _ => none
  | f :: frames, text =>
    if f.message.length ≤ text.length then incomplete frames (text.drop f.bytes.length)
    else some text

/-- The bytes of an incomplete message are in `buffer_` and, with its header, in `message_`. -/
def Keeps (s : Monitor) (text : List UInt8) : Prop :=
  if s.headerReceived then
    ∃ message, s.message = some message ∧ message.take 16 = text.take 16 ∧
      s.buffer.flatten = text.drop 16
  else s.message = none ∧ s.buffer.flatten = text

/-- What holds when these bytes have been read: the callbacks have run for the complete
messages, and the incomplete one is kept. -/
structure Reassembled (env : Environment) (socket : Socket) (frames : List Frame)
    (text : List UInt8) (result : List Event × Monitor) : Prop where
  events : result.1 = events env socket (complete frames text.length)
  keeps : ∀ rest ∈ incomplete frames text, Keeps result.2 rest

/-- A message at a place of the stream can be read from these blocks. No block ends with its header;
where one ends in the header, the rest of the header is what `nlmsg_alloc` leaves there; and where
one ends in the body, the block with its last byte ends at least 16 bytes behind the header. -/
structure Readable (env : Environment) (place : ℕ) (message : List UInt8)
    (blocks : List (List UInt8)) : Prop where
  headerEnd : ¬ Blocks.Boundary (place + 16) blocks
  header : ∀ n, 0 < n → n < 16 → Blocks.Boundary (place + n) blocks →
    (message.take 16).drop n = (env.allocated.take 16).drop n
  body : ∀ m n, 16 < m → m < message.length → message.length ≤ n →
    Blocks.Boundary (place + m) blocks → Blocks.Boundary (place + n) blocks → 32 ≤ n

/-- Every message can be read, and only the last one is padded. -/
def Regular (env : Environment) : ℕ → List Frame → List (List UInt8) → Prop
  | _, [], _ => True
  | place, f :: frames, blocks =>
    Readable env place f.message blocks ∧ (frames ≠ [] → f.padding = []) ∧
      Regular env (place + f.bytes.length) frames blocks

/-- The bytes of an incomplete message that `buffer_` keeps. -/
def buffered (text : List UInt8) : ℕ := if 16 < text.length then text.length - 16 else text.length

/-- A chain never holds 2^32 bytes. -/
def Countable (frames : List Frame) (blocks : List (List UInt8)) : Prop :=
  ∀ front block back, blocks = front ++ block :: back →
    ∀ rest ∈ incomplete frames front.flatten, buffered rest + block.length < 2 ^ 32

section Pass

variable {env : Environment} {f : Frame} {message : List UInt8} {emptied chain : List (List UInt8)}
  {s : Monitor} {bufferSize : UInt32}

theorem messageLength_of_take (h : message.take 16 = f.message.take 16) (o : ByteOrder) :
    messageLength o message = messageLength o f.message := by
  have htake := congrArg (List.take 4) h
  rw [List.take_take, List.take_take, min_eq_left (by omega)] at htake
  rw [messageLength, htake, messageLength]

theorem WellFormed.length_lt (hf : WellFormed env f) : f.message.length < 2 ^ 32 := by
  rw [← hf.length]
  refine (ByteOrder.load_lt _ _).trans_le ?_
  calc 256 ^ (f.message.take 4).length ≤ 256 ^ 4 :=
        Nat.pow_le_pow_right (by decide) (List.length_take_le 4 _)
    _ = 2 ^ 32 := by norm_num

theorem dataLength_eq (hf : WellFormed env f) (h : message.take 16 = f.message.take 16) :
    (dataLength env.order message).toNat = f.message.length - 16 := by
  have hlen : (UInt32.ofNat f.message.length).toNat = f.message.length := by
    rw [UInt32.toNat_ofNat', Nat.mod_eq_of_lt hf.length_lt]
  have hle : (16 : UInt32) ≤ UInt32.ofNat f.message.length :=
    UInt32.le_iff_toNat_le.mpr (by rw [hlen]; exact hf.header)
  rw [dataLength, messageLength_of_take h, hf.length, UInt32.toNat_sub_of_le _ _ hle, hlen]
  rfl

theorem dissectBody_returned (hf : WellFormed env f) (htake : message.take 16 = f.message.take 16)
    (hshort : bufferSize.toNat + 16 < f.message.length) :
    dissectBody env s message bufferSize =
      .ok (.returned { s with headerReceived := true, message := some message }) := by
  have hlt : bufferSize < dataLength env.order message :=
    UInt32.lt_iff_toNat_lt.mpr (by rw [dataLength_eq hf htake]; omega)
  rw [dissectBody]
  exact if_pos hlt

theorem assertRemaining_ok (hne : ∀ b ∈ chain, b ≠ []) {n : ℕ} {buffer : List (List UInt8)}
    {rest : UInt32} (hrest : rest.toNat = chain.flatten.length - n) :
    assertRemaining env buffer (Blocks.behind n chain) rest = .ok () := by
  have hnil := Blocks.behind_eq_nil (n := n) hne
  have hzero : rest = 0 ↔ chain.flatten.length - n = 0 := by
    rw [← UInt32.toNat_inj, hrest, UInt32.toNat_zero]
  rw [assertRemaining]
  split_ifs with hdone hmoved
  · have hnone : rest = 0 := hzero.mpr (Nat.sub_eq_zero_of_le (hnil.mp hdone))
    simp [aceAssert, hnone]
  · have hleft : rest ≠ 0 := fun h => hdone (hnil.mpr (Nat.le_of_sub_eq_zero (hzero.mp h)))
    simp [aceAssert, hleft]
  · rfl

theorem dissectBody_dispatched (hf : WellFormed env f)
    (htake : message.take 16 = f.message.take 16) (hlength : message.length = env.allocated.length)
    (hbuffer : s.buffer = emptied ++ chain) (hemptied : ∀ b ∈ emptied, b = [])
    (hne : ∀ b ∈ chain, b ≠ []) (hchain : chain ≠ [])
    (hsize : bufferSize.toNat = chain.flatten.length) {more : List UInt8}
    (htext : chain.flatten = f.message.drop 16 ++ more) :
    dissectBody env s message bufferSize =
      .ok (.dispatched ((dispatch env s.socket f.message).events f.message)
        (dispatch env s.socket f.message).error
        ⟨Blocks.behind (f.message.length - 16) chain, false, none,
          (dispatch env s.socket f.message).socket⟩) := by
  have hmissing := dataLength_eq hf htake
  have hlong : f.message.length - 16 ≤ chain.flatten.length := by
    rw [htext, List.length_append, List.length_drop]
    omega
  have hfits := hf.fits
  have hheader := hf.header
  have hroom : headerLength + 0 + (f.message.length - 16) ≤ message.length := by
    simp only [headerLength]
    omega
  obtain ⟨message', hbody, -, htake'⟩ := copyBody_ok hchain hlong hroom
  have hreceived : message'.take f.message.length = f.message := by
    have hsum : headerLength + 0 + (f.message.length - 16) = f.message.length := by
      simp only [headerLength]
      omega
    have hdrop : chain.flatten.take (f.message.length - 16) = f.message.drop 16 := by
      rw [htext, List.take_left' List.length_drop]
    rw [hsum, hdrop] at htake'
    rw [htake', Nat.add_zero, headerLength, htake, List.take_append_drop]
  have hmessageLength : messageLength env.order message' = f.message.length := by
    have htake₁ := congrArg (List.take 16) hreceived
    rw [List.take_take, min_eq_left hheader] at htake₁
    rw [messageLength_of_take htake₁, hf.length]
  have hle : dataLength env.order message ≤ bufferSize := by
    rw [UInt32.le_iff_toNat_le, hmissing, hsize]
    exact hlong
  have hrest : (bufferSize - dataLength env.order message).toNat =
      chain.flatten.length - (f.message.length - 16) := by
    rw [UInt32.toNat_sub_of_le _ _ hle, hsize, hmissing]
  rw [dissectBody, hbuffer, skipEmpty_ok hemptied hne hchain]
  simp only [UInt32.not_lt.mpr hle, if_false, hmissing, bind, Except.bind, hbody,
    assertRemaining_ok hne hrest, hmessageLength, hreceived]
  rfl

theorem toNat_bufferSize {n : ℕ} (h : n < 2 ^ 32) : (UInt32.ofNat n).toNat = n := by
  rw [UInt32.toNat_ofNat', Nat.mod_eq_of_lt h]

theorem dissect_short (hsize : s.buffer.flatten.length < 16) :
    dissect env s = .ok (.returned s) := by
  have hlt : UInt32.ofNat s.buffer.flatten.length < 16 :=
    UInt32.lt_iff_toNat_lt.mpr (by rw [toNat_bufferSize (by omega)]; exact hsize)
  rw [dissect]
  exact if_pos hlt

theorem not_short {n : ℕ} (hlong : 16 ≤ n) (hsize : n < 2 ^ 32) : ¬ UInt32.ofNat n < 16 := by
  rw [UInt32.not_lt, UInt32.le_iff_toNat_le, toNat_bufferSize hsize]
  exact hlong

theorem dissect_continue {socket : Socket} {buffer : List (List UInt8)}
    (hlong : 16 ≤ buffer.flatten.length) (hsize : buffer.flatten.length < 2 ^ 32) :
    dissect env ⟨buffer, true, some message, socket⟩ =
      dissectBody env ⟨buffer, true, some message, socket⟩ message
        (UInt32.ofNat buffer.flatten.length) := by
  rw [dissect]
  simp only [not_short hlong hsize, if_false, if_true, Option.getD_some]

theorem dissect_header (socket : Socket) (hne : ∀ b ∈ chain, b ≠ [])
    (htext : chain.flatten.take 16 = f.message.take 16) (hlong : 16 < chain.flatten.length)
    (hsize : chain.flatten.length < 2 ^ 32) (halloc : 256 ≤ env.allocated.length)
    (hcuts : ∀ n, 0 < n → n < 16 → Blocks.Boundary n chain →
      (f.message.take 16).drop n = (env.allocated.take 16).drop n) :
    ∃ message emptied, dissect env ⟨chain, false, none, socket⟩ =
        dissectBody env ⟨emptied ++ Blocks.behind 16 chain, false, none, socket⟩ message
          (UInt32.ofNat chain.flatten.length - 16) ∧
      (∀ b ∈ emptied, b = []) ∧ message.length = env.allocated.length ∧
      message.take 16 = f.message.take 16 := by
  obtain ⟨message, emptied, hcopy, hemptied, hlength, htake⟩ :=
    copyHeader_ok env.ndebug hne htext hlong halloc hcuts
  refine ⟨message, emptied, ?_, hemptied, hlength, htake⟩
  rw [dissect]
  simp only [not_short hlong.le hsize, if_false, Bool.false_eq_true, Option.getD_none, bind,
    Except.bind, hcopy]

theorem passes_dispatched {fuel : ℕ} {first later : List Event} {s' s'' : Monitor}
    (hdissect : dissect env s = .ok (.dispatched first false s')) (hfuel : 0 < fuel)
    (hlater : passes env fuel s' = .ok (later, s'')) :
    passes env (fuel + 1) s = .ok (first ++ later, s'') := by
  rw [passes, hdissect]
  simp only [bind, Except.bind, Bool.false_eq_true, false_or]
  by_cases hnil : s'.buffer = []
  · obtain ⟨fuel, rfl⟩ := Nat.exists_eq_succ_of_ne_zero hfuel.ne'
    rw [passes, dissect_short (by simp [hnil])] at hlater
    cases hlater
    rw [if_pos hnil, List.append_nil]
    rfl
  · rw [if_neg hnil, hlater]
    rfl

theorem passes_returned {fuel : ℕ} {s' : Monitor} (hdissect : dissect env s = .ok (.returned s'))
    (hfuel : 0 < fuel) : passes env fuel s = .ok ([], s') := by
  obtain ⟨fuel, rfl⟩ := Nat.exists_eq_succ_of_ne_zero hfuel.ne'
  rw [passes, hdissect]
  rfl

end Pass

def socketBehind (env : Environment) : Socket → List (List UInt8) → Socket
  | socket, [] => socket
  | socket, message :: messages => socketBehind env (dispatch env socket message).socket messages

/-- The monitor between two calls: the messages up to a place of the blocks have been dispatched,
and less than a message is there of the next one. -/
inductive Rests (env : Environment) (blocks : List (List UInt8)) (place : ℕ) (socket : Socket) :
    List Frame → Monitor → Prop where
  | header {frames : List Frame} (hshort : (Blocks.behind place blocks).flatten.length < 16) :
    Rests env blocks place socket frames ⟨Blocks.behind place blocks, false, none, socket⟩
  | body {f : Frame} {frames : List Frame} {message : List UInt8} {emptied : List (List UInt8)}
    (htake : message.take 16 = f.message.take 16)
    (hlength : message.length = env.allocated.length) (hemptied : ∀ b ∈ emptied, b = [])
    (hlong : 16 < (Blocks.behind place blocks).flatten.length)
    (hshort : (Blocks.behind place blocks).flatten.length < f.message.length) :
    Rests env blocks place socket (f :: frames)
      ⟨emptied ++ Blocks.behind (place + 16) blocks, true, some message, socket⟩

structure Ahead (env : Environment) (blocks : List (List UInt8)) (place : ℕ) (socket : Socket)
    (frames : List Frame) : Prop where
  wellFormed : ∀ f ∈ frames, WellFormed env f
  regular : Regular env place frames blocks
  handled : Handled env socket (frames.map Frame.message)
  text : ∃ padding : List UInt8, padding.length < 4 ∧ (frames ≠ [] → padding = []) ∧
    (Blocks.behind place blocks).flatten <+: padding ++ frames.flatMap Frame.bytes

section Call

variable {env : Environment} {blocks read : List (List UInt8)} {place : ℕ} {socket : Socket}
  {f : Frame} {frames : List Frame}

theorem Ahead.next (h : Ahead env blocks place socket (f :: frames)) :
    Ahead env blocks (place + f.message.length) (dispatch env socket f.message).socket frames := by
  obtain ⟨hwf, ⟨-, hpadding, hregular⟩, ⟨-, hhandled⟩, padding, -, hnone, htext⟩ := h
  refine ⟨fun g hg => hwf g (List.mem_cons_of_mem f hg), ?_, hhandled, f.padding,
    (hwf f List.mem_cons_self).padding, hpadding, ?_⟩
  · cases frames with
    | nil => trivial
    | cons g frames =>
      rw [Frame.bytes, hpadding (List.cons_ne_nil _ _), List.append_nil] at hregular
      exact hregular
  · rw [hnone (List.cons_ne_nil _ _), List.nil_append, List.flatMap_cons, Frame.bytes,
      List.append_assoc] at htext
    have hdrop := htext.drop f.message.length
    rwa [List.drop_left, Blocks.flatten_behind, List.drop_drop, ← Blocks.flatten_behind] at hdrop

theorem Ahead.prefix_of_read (h : Ahead env blocks place socket (f :: frames))
    (hread : read <+: blocks) :
    (Blocks.behind place read).flatten <+: f.message ++ (f.padding ++ frames.flatMap Frame.bytes) := by
  obtain ⟨padding, -, hnone, htext⟩ := h.text
  rw [hnone (List.cons_ne_nil _ _), List.nil_append, List.flatMap_cons, Frame.bytes,
    List.append_assoc, Blocks.flatten_behind] at htext
  rw [Blocks.flatten_behind]
  exact (hread.flatten.drop place).trans htext

theorem boundary_of_read {n : ℕ} (hread : read <+: blocks) (h : Blocks.Boundary n read) :
    Blocks.Boundary n blocks := by
  obtain ⟨front, hfront, hn⟩ := h
  exact ⟨front, hfront.trans hread, hn⟩

theorem length_behind (place : ℕ) (read : List (List UInt8)) :
    (Blocks.behind place read).flatten.length = read.flatten.length - place := by
  rw [Blocks.flatten_behind, List.length_drop]

/-- Some messages are dispatched in order, and the monitor rests behind them. -/
def Advances (env : Environment) (blocks read : List (List UInt8)) (place : ℕ) (socket : Socket)
    (frames : List Frame) (result : Except Fault (List Event × Monitor)) : Prop :=
  ∃ done rest s, frames = done ++ rest ∧
    result = .ok (events env socket (done.map Frame.message), s) ∧
    place + (done.map Frame.message).flatten.length ≤ read.flatten.length ∧
    Rests env read (place + (done.map Frame.message).flatten.length)
      (socketBehind env socket (done.map Frame.message)) rest s ∧
    Ahead env blocks (place + (done.map Frame.message).flatten.length)
      (socketBehind env socket (done.map Frame.message)) rest

theorem advances_rests {s : Monitor} (hahead : Ahead env blocks place socket frames)
    (hplace : place ≤ read.flatten.length) (hrests : Rests env read place socket frames s) :
    Advances env blocks read place socket frames (.ok ([], s)) :=
  ⟨[], frames, s, rfl, rfl, hplace, hrests, hahead⟩

theorem advances_body {fuel : ℕ} {s : Monitor} {received : Bool} {stored : Option (List UInt8)}
    {emptied : List (List UInt8)} {message : List UInt8} {bufferSize : UInt32}
    (hne : ∀ b ∈ blocks, b ≠ []) (hread : read <+: blocks)
    (hahead : Ahead env blocks place socket (f :: frames))
    (hdissect : dissect env s = dissectBody env
      ⟨emptied ++ Blocks.behind (place + 16) read, received, stored, socket⟩ message bufferSize)
    (htake : message.take 16 = f.message.take 16) (hlength : message.length = env.allocated.length)
    (hemptied : ∀ b ∈ emptied, b = [])
    (hsize : bufferSize.toNat = (Blocks.behind (place + 16) read).flatten.length)
    (hlong : 16 < (Blocks.behind place read).flatten.length) (hfuel : 0 < fuel)
    (hlater : f.message.length ≤ (Blocks.behind place read).flatten.length →
      Advances env blocks read (place + f.message.length) (dispatch env socket f.message).socket
        frames (passes env fuel ⟨Blocks.behind (place + f.message.length) read, false, none,
          (dispatch env socket f.message).socket⟩)) :
    Advances env blocks read place socket (f :: frames) (passes env (fuel + 1) s) := by
  have hf := hahead.wellFormed f List.mem_cons_self
  have hheader := hf.header
  have hplace := length_behind place read
  have hbody := length_behind (place + 16) read
  rcases Nat.lt_or_ge (Blocks.behind place read).flatten.length f.message.length with hshort | hwhole
  · rw [dissectBody_returned hf htake (by omega)] at hdissect
    rw [passes_returned hdissect (Nat.succ_pos fuel)]
    exact advances_rests hahead (by omega) (.body htake hlength hemptied hlong hshort)
  · have hne' : ∀ b ∈ read, b ≠ [] := fun b hb => hne b (hread.subset hb)
    have hchain : Blocks.behind (place + 16) read ≠ [] := by
      intro hnil
      rw [hnil, List.flatten_nil, List.length_nil] at hbody
      omega
    obtain ⟨more, hmore⟩ : ∃ more, (Blocks.behind (place + 16) read).flatten =
        f.message.drop 16 ++ more := by
      obtain ⟨more, hmore⟩ := List.prefix_of_prefix_length_le (List.prefix_append _ _)
        (hahead.prefix_of_read hread) hwhole
      refine ⟨more, ?_⟩
      rw [Blocks.flatten_behind, ← List.drop_drop, ← Blocks.flatten_behind, ← hmore,
        List.drop_append_of_le_length hheader]
    rw [dissectBody_dispatched hf htake hlength rfl hemptied (Blocks.nonempty_behind hne' _) hchain
      hsize hmore, Blocks.behind_behind hne', hahead.handled.1] at hdissect
    have hsum : place + 16 + (f.message.length - 16) = place + f.message.length := by omega
    rw [hsum] at hdissect
    obtain ⟨done, rest, s', rfl, hpasses, hle, hrests, hrest⟩ := hlater hwhole
    have hdone : ((f :: done).map Frame.message).flatten.length =
        f.message.length + (done.map Frame.message).flatten.length := by simp
    refine ⟨f :: done, rest, s', rfl, ?_, by omega, ?_, ?_⟩
    · exact passes_dispatched hdissect hfuel hpasses
    · rw [hdone, ← Nat.add_assoc]
      exact hrests
    · rw [hdone, ← Nat.add_assoc]
      exact hrest

theorem advances_header {fuel : ℕ} (hne : ∀ b ∈ blocks, b ≠ []) (hread : read <+: blocks)
    (halloc : 256 ≤ env.allocated.length) (hahead : Ahead env blocks place socket frames)
    (hplace : place ≤ read.flatten.length)
    (hsize : (Blocks.behind place read).flatten.length < 2 ^ 32)
    (hfuel : (Blocks.behind place read).flatten.length < fuel) :
    Advances env blocks read place socket frames
      (passes env fuel ⟨Blocks.behind place read, false, none, socket⟩) := by
  induction frames generalizing place socket fuel with
  | nil =>
    have hshort : (Blocks.behind place read).flatten.length < 16 := by
      obtain ⟨padding, hpadding, -, htext⟩ := hahead.text
      rw [List.flatMap_nil, List.append_nil, Blocks.flatten_behind] at htext
      have := ((hread.flatten.drop place).trans htext).length_le
      rw [Blocks.flatten_behind]
      omega
    rw [passes_returned (dissect_short hshort) (by omega)]
    exact advances_rests hahead hplace (.header hshort)
  | cons f frames ih =>
    rcases Nat.lt_or_ge (Blocks.behind place read).flatten.length 16 with hshort | hlong
    · rw [passes_returned (dissect_short hshort) (by omega)]
      exact advances_rests hahead hplace (.header hshort)
    · have hne' : ∀ b ∈ read, b ≠ [] := fun b hb => hne b (hread.subset hb)
      have hheader := (hahead.wellFormed f List.mem_cons_self).header
      have hreadable := hahead.regular.1
      have hlen := length_behind place read
      have hlen' := length_behind (place + 16) read
      -- what has been read does not end with the header
      have hlong' : 16 < (Blocks.behind place read).flatten.length := by
        refine lt_of_le_of_ne hlong fun heq => hreadable.headerEnd ⟨read, hread, ?_⟩
        omega
      have htext : (Blocks.behind place read).flatten.take 16 = f.message.take 16 := by
        obtain ⟨more, hmore⟩ := hahead.prefix_of_read hread
        have := congrArg (List.take 16) hmore
        rwa [List.take_append_of_le_length hlong, List.take_append_of_le_length hheader] at this
      have hcuts : ∀ n, 0 < n → n < 16 → Blocks.Boundary n (Blocks.behind place read) →
          (f.message.take 16).drop n = (env.allocated.take 16).drop n := by
        intro n hpos hn hboundary
        rw [Blocks.boundary_behind hplace hpos] at hboundary
        exact hreadable.header n hpos hn (boundary_of_read hread hboundary)
      obtain ⟨message, emptied, hdissect, hemptied, hlength, htake⟩ :=
        dissect_header socket (Blocks.nonempty_behind hne' place) htext hlong' hsize halloc
          hcuts
      rw [Blocks.behind_behind hne'] at hdissect
      obtain ⟨fuel, rfl⟩ := Nat.exists_eq_succ_of_ne_zero (show fuel ≠ 0 by omega)
      have hsize' : (UInt32.ofNat (Blocks.behind place read).flatten.length - 16).toNat =
          (Blocks.behind (place + 16) read).flatten.length := by
        have hle : (16 : UInt32) ≤ UInt32.ofNat (Blocks.behind place read).flatten.length :=
          UInt32.not_lt.mp (not_short hlong hsize)
        rw [UInt32.toNat_sub_of_le _ _ hle, toNat_bufferSize hsize, hlen, hlen']
        change read.flatten.length - place - 16 = _
        omega
      refine advances_body hne hread hahead hdissect htake hlength hemptied hsize' hlong' (by omega)
        fun hwhole => ?_
      have hnext := length_behind (place + f.message.length) read
      exact ih hahead.next (by omega) (by omega) (by omega)

theorem advances_call {s : Monitor} {block : List UInt8} (hne : ∀ b ∈ blocks, b ≠ [])
    (hread : read ++ [block] <+: blocks) (halloc : 256 ≤ env.allocated.length)
    (hahead : Ahead env blocks place socket frames) (hplace : place ≤ read.flatten.length)
    (hrests : Rests env read place socket frames s)
    (hsize : s.buffer.flatten.length + block.length < 2 ^ 32) :
    Advances env blocks (read ++ [block]) place socket frames (processMessage env s block) := by
  have hne' : ∀ b ∈ read ++ [block], b ≠ [] := fun b hb => hne b (hread.subset hb)
  have hplace' : place ≤ (read ++ [block]).flatten.length := by
    rw [List.flatten_append, List.length_append]
    omega
  have hlen := length_behind place read
  have hlen' := length_behind place (read ++ [block])
  have hread' : (read ++ [block]).flatten.length = read.flatten.length + block.length := by simp
  cases hrests with
  | header hshort =>
    rw [processMessage, ← Blocks.behind_concat hne' hplace]
    refine advances_header hne hread halloc hahead hplace' ?_ ?_
    · change (Blocks.behind place read).flatten.length + block.length < 2 ^ 32 at hsize
      omega
    · change _ < (Blocks.behind place read).flatten.length + block.length + 1
      omega
  | @body f frames message emptied htake hlength hemptied hlong hshort =>
    have hemptied' : emptied.flatten = [] := List.flatten_eq_nil_iff.mpr hemptied
    have hbehind := length_behind (place + 16) (read ++ [block])
    have hbefore := length_behind (place + 16) read
    have hbuffer : emptied ++ Blocks.behind (place + 16) read ++ [block] =
        emptied ++ Blocks.behind (place + 16) (read ++ [block]) := by
      rw [List.append_assoc, Blocks.behind_concat hne' (by omega)]
    have htotal : (emptied ++ Blocks.behind (place + 16) (read ++ [block])).flatten.length =
        (Blocks.behind (place + 16) (read ++ [block])).flatten.length := by
      rw [List.flatten_append, hemptied', List.nil_append]
    have hkept : (emptied ++ Blocks.behind (place + 16) read).flatten.length =
        (Blocks.behind (place + 16) read).flatten.length := by
      rw [List.flatten_append, hemptied', List.nil_append]
    change (emptied ++ Blocks.behind (place + 16) read).flatten.length + block.length < 2 ^ 32 at hsize
    rw [hkept] at hsize
    rw [processMessage, hbuffer]
    change Advances _ _ _ _ _ _ (passes env
      ((emptied ++ Blocks.behind (place + 16) read).flatten.length + block.length + 1) _)
    rw [hkept]
    rcases Nat.lt_or_ge (Blocks.behind (place + 16) (read ++ [block])).flatten.length 16 with
      hfew | hmany
    · -- the check for a header holds a body back that is not complete
      have hincomplete : (Blocks.behind place (read ++ [block])).flatten.length <
          f.message.length := by
        by_contra hcomplete
        have hfirst : Blocks.Boundary (place + (Blocks.behind place read).flatten.length) blocks :=
          ⟨read, (List.prefix_append _ _).trans hread, by omega⟩
        have hlast : Blocks.Boundary
            (place + (Blocks.behind place (read ++ [block])).flatten.length) blocks :=
          ⟨read ++ [block], hread, by omega⟩
        have := hahead.regular.1.body _ _ hlong hshort (not_lt.mp hcomplete) hfirst hlast
        omega
      rw [passes_returned (dissect_short (by rw [htotal]; exact hfew)) (Nat.succ_pos _)]
      exact advances_rests hahead hplace' (.body htake hlength hemptied (by omega) hincomplete)
    · refine advances_body hne hread hahead
        (dissect_continue (by rw [htotal]; exact hmany) (by rw [htotal]; omega)) htake hlength
        hemptied ?_ (by omega) ?_ fun hwhole => ?_
      · rw [htotal, toNat_bufferSize (by omega)]
      · have := List.length_pos_iff.mpr (hne' block (by simp))
        omega
      · have hnext := length_behind (place + f.message.length) (read ++ [block])
        have hheader := (hahead.wellFormed f List.mem_cons_self).header
        exact advances_header hne hread halloc hahead.next (by omega) (by omega) (by omega)

end Call

section Run

variable {env : Environment} {blocks read : List (List UInt8)} {place : ℕ} {socket : Socket}
  {done rest frames : List Frame}

theorem events_append (socket : Socket) (first later : List (List UInt8)) :
    events env socket (first ++ later) =
      events env socket first ++ events env (socketBehind env socket first) later := by
  induction first generalizing socket with
  | nil => rfl
  | cons message first ih =>
    rw [List.cons_append, events, ih, events, socketBehind, List.append_assoc]

theorem socketBehind_append (socket : Socket) (first later : List (List UInt8)) :
    socketBehind env socket (first ++ later) =
      socketBehind env (socketBehind env socket first) later := by
  induction first generalizing socket with
  | nil => rfl
  | cons message first ih => exact ih (dispatch env socket message).socket

/-- Where only the last message is padded, the next one starts behind the messages before. -/
theorem complete_eq (hregular : Regular env place (done ++ rest) blocks) {n : ℕ}
    (hle : (done.map Frame.message).flatten.length ≤ n)
    (hshort : ∀ f ∈ rest.head?, n - (done.map Frame.message).flatten.length < f.message.length) :
    complete (done ++ rest) n = done.map Frame.message := by
  induction done generalizing place n with
  | nil =>
    cases rest with
    | nil => rfl
    | cons f rest => exact if_neg (not_le.mpr (hshort f rfl))
  | cons f done ih =>
    obtain ⟨-, hpadding, hregular⟩ := hregular
    rw [List.map_cons, List.flatten_cons, List.length_append] at hle hshort
    rw [List.cons_append, complete, if_pos (by omega), List.map_cons]
    congr 1
    by_cases hnil : done ++ rest = []
    · obtain ⟨rfl, rfl⟩ := List.append_eq_nil_iff.mp hnil
      rfl
    · have hbytes : f.bytes = f.message := by rw [Frame.bytes, hpadding hnil, List.append_nil]
      rw [hbytes] at hregular ⊢
      refine ih hregular (by omega) fun g hg => ?_
      have := hshort g hg
      omega

theorem incomplete_eq (hregular : Regular env place (done ++ rest) blocks) {text : List UInt8}
    (hle : (done.map Frame.message).flatten.length ≤ text.length)
    (hshort : ∀ f ∈ rest.head?,
      text.length - (done.map Frame.message).flatten.length < f.message.length) :
    incomplete (done ++ rest) text =
      rest.head?.map fun _ => text.drop (done.map Frame.message).flatten.length := by
  induction done generalizing place text with
  | nil =>
    cases rest with
    | nil => rfl
    | cons f rest => exact if_neg (not_le.mpr (hshort f rfl))
  | cons f done ih =>
    obtain ⟨-, hpadding, hregular⟩ := hregular
    rw [List.map_cons, List.flatten_cons, List.length_append] at hle hshort
    rw [List.cons_append, incomplete, if_pos (by omega)]
    by_cases hnil : done ++ rest = []
    · obtain ⟨rfl, rfl⟩ := List.append_eq_nil_iff.mp hnil
      rfl
    · have hbytes : f.bytes = f.message := by rw [Frame.bytes, hpadding hnil, List.append_nil]
      rw [hbytes] at hregular ⊢
      rw [ih hregular, List.drop_drop, List.map_cons, List.flatten_cons, List.length_append]
      · rw [List.length_drop]
        omega
      · intro g hg
        have := hshort g hg
        rw [List.length_drop]
        omega

theorem Rests.lt_length {s : Monitor} (h : Rests env read place socket rest s)
    (hwf : ∀ f ∈ rest, WellFormed env f) :
    ∀ f ∈ rest.head?, read.flatten.length - place < f.message.length := by
  intro f hf
  rw [← length_behind]
  cases h with
  | header hshort => exact hshort.trans_le (hwf f (List.mem_of_mem_head? hf)).header
  | body _ _ _ _ hshort =>
    cases hf
    exact hshort

theorem Rests.keeps {s : Monitor} (h : Rests env read place socket rest s)
    (hahead : Ahead env blocks place socket rest) (hread : read <+: blocks) (hrest : rest ≠ []) :
    Keeps s (read.flatten.drop place) := by
  rw [← Blocks.flatten_behind]
  cases h with
  | header hshort => exact ⟨rfl, rfl⟩
  | @body f frames message emptied htake hlength hemptied hlong hshort =>
    obtain ⟨more, hmore⟩ := hahead.prefix_of_read hread
    refine ⟨message, rfl, ?_, ?_⟩
    · have := congrArg (List.take 16) hmore
      rw [List.take_append_of_le_length hlong.le, List.take_append_of_le_length (by omega)] at this
      rw [htake, this]
    · rw [List.flatten_append, List.flatten_eq_nil_iff.mpr hemptied, List.nil_append,
        Blocks.flatten_behind, Blocks.flatten_behind, List.drop_drop]

theorem Rests.length_buffer {s : Monitor} (h : Rests env read place socket rest s) :
    s.buffer.flatten.length = buffered (read.flatten.drop place) := by
  rw [buffered, List.length_drop, ← length_behind]
  cases h with
  | header hshort => rw [if_neg (by omega)]
  | @body f frames message emptied htake hlength hemptied hlong hshort =>
    have hplace := length_behind place read
    have hbody := length_behind (place + 16) read
    rw [if_pos hlong, List.flatten_append, List.flatten_eq_nil_iff.mpr hemptied, List.nil_append]
    omega

theorem run_append {s s' s'' : Monitor} {first : List (List UInt8)} {block : List UInt8}
    {before later : List Event} (hfirst : run env s first = .ok (before, s'))
    (hblock : processMessage env s' block = .ok (later, s'')) :
    run env s (first ++ [block]) = .ok (before ++ later, s'') := by
  induction first generalizing s before with
  | nil =>
    cases hfirst
    rw [List.nil_append, run, hblock]
    exact congrArg (fun all => Except.ok (all, s'')) (List.append_nil later)
  | cons b first ih =>
    rw [run] at hfirst
    rw [List.cons_append, run]
    cases hcall : processMessage env s b with
    | error e =>
      rw [hcall] at hfirst
      cases hfirst
    | ok result =>
      rw [hcall] at hfirst
      obtain ⟨events₁, s₁⟩ := result
      cases hrest : run env s₁ first with
      | error e =>
        simp [hrest, bind, Except.bind] at hfirst
      | ok result =>
        obtain ⟨events₂, s₂⟩ := result
        simp only [hrest, bind, Except.bind] at hfirst
        cases hfirst
        simp only [ih hrest, bind, Except.bind]
        exact congrArg (fun all => Except.ok (all, s'')) (List.append_assoc _ _ _).symm

def initial (socket : Socket) : Monitor := ⟨[], false, none, socket⟩

theorem ahead_initial (hwf : ∀ f ∈ frames, WellFormed env f)
    (hblocks : blocks.flatten <+: frames.flatMap Frame.bytes) (hregular : Regular env 0 frames blocks)
    (hhandled : Handled env socket (frames.map Frame.message)) :
    Ahead env blocks 0 socket frames := by
  refine ⟨hwf, hregular, hhandled, [], by simp, fun _ => rfl, ?_⟩
  rwa [Blocks.flatten_behind, List.drop_zero]

theorem buffered_lt {block : List UInt8} (hcount : Countable (done ++ rest) blocks)
    (hread : read ++ [block] <+: blocks) (hregular : Regular env 0 (done ++ rest) blocks)
    (hplace : (done.map Frame.message).flatten.length ≤ read.flatten.length)
    (hshort : ∀ f ∈ rest.head?,
      read.flatten.length - (done.map Frame.message).flatten.length < f.message.length)
    (hahead : Ahead env blocks (done.map Frame.message).flatten.length socket rest) :
    buffered (read.flatten.drop (done.map Frame.message).flatten.length) + block.length <
      2 ^ 32 := by
  cases rest with
  | nil =>
    -- no more than the padding of the last message is left
    obtain ⟨padding, hpadding, -, htext⟩ := hahead.text
    rw [List.flatMap_nil, List.append_nil, Blocks.flatten_behind] at htext
    have hle := ((hread.flatten.drop (done.map Frame.message).flatten.length).trans htext).length_le
    have hread' : (read ++ [block]).flatten.length = read.flatten.length + block.length := by simp
    rw [List.length_drop, hread'] at hle
    rw [buffered, List.length_drop]
    split_ifs <;> omega
  | cons f rest =>
    obtain ⟨back, hback⟩ := hread
    refine hcount read block back (by rw [← hback, List.append_assoc]; rfl) _ ?_
    rw [incomplete_eq hregular hplace hshort]
    rfl

theorem advances_run (halloc : 256 ≤ env.allocated.length) (hne : ∀ b ∈ blocks, b ≠ [])
    (hahead : Ahead env blocks 0 socket frames) (hcount : Countable frames blocks)
    (hread : read <+: blocks) :
    Advances env blocks read 0 socket frames (run env (initial socket) read) := by
  induction read using List.reverseRecOn with
  | nil => exact advances_rests hahead (Nat.zero_le _) (.header (Nat.succ_pos 15))
  | append_singleton read block ih =>
    have hbefore : read <+: blocks := (List.prefix_append _ _).trans hread
    obtain ⟨done, rest, s, rfl, hrun, hplace, hrests, hrest⟩ := ih hbefore
    rw [Nat.zero_add] at hplace hrests hrest
    have hsize : s.buffer.flatten.length + block.length < 2 ^ 32 := by
      rw [hrests.length_buffer]
      exact buffered_lt hcount hread hahead.regular hplace
        (hrests.lt_length hrest.wellFormed) hrest
    obtain ⟨done', rest', s', rfl, hcall, hplace', hrests', hrest'⟩ :=
      advances_call hne hread halloc hrest hplace hrests hsize
    refine ⟨done ++ done', rest', s', (List.append_assoc _ _ _).symm, ?_, ?_, ?_, ?_⟩
    · rw [List.map_append, events_append]
      exact run_append hrun hcall
    all_goals
      rw [List.map_append, List.flatten_append, List.length_append, Nat.zero_add]
    · exact hplace'
    · rw [socketBehind_append]
      exact hrests'
    · rw [socketBehind_append]
      exact hrest'

/-- While every message can be read and none ends a call, the callbacks have run for the messages
whose last byte has been read, and the next one is kept. -/
theorem run_reassembled (halloc : 256 ≤ env.allocated.length) (hwf : ∀ f ∈ frames, WellFormed env f)
    (hne : ∀ b ∈ blocks, b ≠ []) (hblocks : blocks.flatten <+: frames.flatMap Frame.bytes)
    (hregular : Regular env 0 frames blocks)
    (hhandled : Handled env socket (frames.map Frame.message)) (hcount : Countable frames blocks)
    (hread : read <+: blocks) :
    ∃ result, run env (initial socket) read = .ok result ∧
      Reassembled env socket frames read.flatten result := by
  have hahead := ahead_initial hwf hblocks hregular hhandled
  obtain ⟨done, rest, s, rfl, hrun, hplace, hrests, hrest⟩ :=
    advances_run halloc hne hahead hcount hread
  rw [Nat.zero_add] at hplace hrests hrest
  have hlt := hrests.lt_length hrest.wellFormed
  refine ⟨_, hrun, ?_, ?_⟩
  · rw [complete_eq hregular hplace hlt]
  · intro text htext
    rw [incomplete_eq hregular hplace hlt] at htext
    obtain ⟨f, hf, rfl⟩ := Option.map_eq_some_iff.mp htext
    refine hrests.keeps hrest hread ?_
    rintro rfl
    cases hf

end Run

theorem length_incomplete_le {frames : List Frame} {text rest : List UInt8}
    (h : rest ∈ incomplete frames text) : rest.length ≤ text.length := by
  induction frames generalizing text with
  | nil => cases h
  | cons f frames ih =>
    rw [incomplete] at h
    split_ifs at h with hle
    · have := ih h
      rw [List.length_drop] at this
      omega
    · cases h
      exact le_rfl

theorem countable_of_lt {blocks : List (List UInt8)} (frames : List Frame)
    (h : blocks.flatten.length < 2 ^ 32) : Countable frames blocks := by
  rintro front block back rfl rest hrest
  have hle := length_incomplete_le hrest
  have hbuffered : buffered rest ≤ rest.length := by
    rw [buffered]
    split_ifs <;> omega
  rw [List.flatten_append, List.flatten_cons, List.length_append, List.length_append] at h
  omega

/-- A page with the header that `nlmsg_alloc` writes, and callbacks of every kind. -/
def sampleEnvironment : Environment where
  ndebug := false
  order := .littleEndian
  isSet := fun _ => true
  allocated := [16, 0, 0, 0] ++ List.replicate 4092 0

def sampleSocket : Socket := ⟨true, 0⟩

/-- A message of a family with four bytes of data, and the end of a multipart message with twenty. -/
def sampleFrames : List Frame :=
  [⟨[20, 0, 0, 0, 16, 0, 0, 0, 0, 0, 0, 0, 0, 0, 0, 0, 1, 2, 3, 4], []⟩,
    ⟨[36, 0, 0, 0, 3, 0, 0, 0, 0, 0, 0, 0, 0, 0, 0, 0,
      1, 2, 3, 4, 5, 6, 7, 8, 9, 10, 11, 12, 13, 14, 15, 16, 17, 18, 19, 20], []⟩]

/-- The first block ends in the body of the second message. -/
def sampleBlocks : List (List UInt8) :=
  [[20, 0, 0, 0, 16, 0, 0, 0, 0, 0, 0, 0, 0, 0, 0, 0, 1, 2, 3, 4,
      36, 0, 0, 0, 3, 0, 0, 0, 0, 0, 0, 0, 0, 0, 0, 0, 1, 2],
    [3, 4, 5, 6, 7, 8, 9, 10, 11, 12, 13, 14, 15, 16, 17, 18, 19, 20]]

theorem length_allocated_sample : sampleEnvironment.allocated.length = 4096 := by
  show ([16, 0, 0, 0] ++ List.replicate 4092 (0 : UInt8)).length = 4096
  rw [List.length_append, List.length_replicate]
  rfl

theorem wellFormed_sample : ∀ f ∈ sampleFrames, WellFormed sampleEnvironment f := by
  intro f hf
  fin_cases hf
  · exact ⟨by decide, by decide, by rw [length_allocated_sample]; decide, by decide, by decide⟩
  · exact ⟨by decide, by decide, by rw [length_allocated_sample]; decide, by decide, by decide⟩

theorem boundary_sample {n : ℕ} (h : Blocks.Boundary n sampleBlocks) : n = 0 ∨ n = 38 ∨ n = 56 := by
  simp [sampleBlocks, Blocks.boundary_cons] at h
  omega

theorem regular_sample : Regular sampleEnvironment 0 sampleFrames sampleBlocks := by
  refine ⟨⟨?_, ?_, ?_⟩, fun _ => rfl, ⟨?_, ?_, ?_⟩, fun h => absurd rfl h, trivial⟩
  · intro h
    have := boundary_sample h
    omega
  · intro n hpos hn h
    have := boundary_sample h
    omega
  · intro m n hm hlt hle h _
    have := boundary_sample h
    simp at hlt
    omega
  · intro h
    have := boundary_sample h
    simp [Frame.bytes] at this
  · intro n hpos hn h
    have := boundary_sample h
    simp [Frame.bytes] at this
    omega
  · intro m n hm hlt hle _ _
    simp at hle
    omega

theorem run_reassembled_sample : ∃ result,
    run sampleEnvironment (initial sampleSocket) sampleBlocks = .ok result ∧
      Reassembled sampleEnvironment sampleSocket sampleFrames sampleBlocks.flatten result :=
  run_reassembled (by rw [length_allocated_sample]; decide) wellFormed_sample (by decide) (by decide)
    regular_sample ⟨rfl, rfl, trivial⟩ (countable_of_lt sampleFrames (by decide)) (List.prefix_rfl)

/-- The end of a multipart message, which has no body. -/
def headerOnly : List UInt8 := [16, 0, 0, 0, 3, 0, 0, 0, 0, 0, 0, 0, 0, 0, 0, 0]

/-- When a call has read nothing behind the header, the assertion behind the copy fails. -/
theorem run_headerOnly (socket : Socket) :
    run sampleEnvironment (initial socket) [headerOnly] = .error .assertion := by
  obtain ⟨message, hcopy, -⟩ := copy_ok (headerLength * 0) headerOnly sampleEnvironment.allocated
    (.inr (by rw [length_allocated_sample]; decide))
  have hheader : copyHeader false headerLength 0 sampleEnvironment.allocated [headerOnly] =
      .error .assertion := by
    have hlen : min headerOnly.length headerLength = headerOnly.length := rfl
    rw [copyHeader, hlen, List.take_length, hcopy]
    rfl
  have hdissect : dissect sampleEnvironment ⟨[headerOnly], false, none, socket⟩ =
      .error .assertion := by
    have hlong : ¬ UInt32.ofNat [headerOnly].flatten.length < 16 := by decide
    rw [dissect]
    simp only [hlong, if_false, Option.getD_none, Bool.false_eq_true]
    rw [show sampleEnvironment.ndebug = false from rfl, hheader]
    rfl
  rw [run, processMessage, initial, List.nil_append, passes, hdissect]
  rfl

/-- A message without a body is not dispatched when its header has been read. -/
theorem not_reassembled : ¬ ∀ (env : Environment) (socket : Socket) (frames : List Frame)
    (blocks read : List (List UInt8)), 256 ≤ env.allocated.length →
    (∀ f ∈ frames, WellFormed env f) → (∀ b ∈ blocks, b ≠ []) →
    blocks.flatten <+: frames.flatMap Frame.bytes →
    Handled env socket (frames.map Frame.message) → Countable frames blocks → read <+: blocks →
    ∃ result, run env (initial socket) read = .ok result ∧
      Reassembled env socket frames read.flatten result := by
  intro h
  have hwf : ∀ f ∈ [Frame.mk headerOnly []], WellFormed sampleEnvironment f := by
    intro f hf
    cases List.mem_singleton.mp hf
    exact ⟨by decide, by decide, by rw [length_allocated_sample]; decide, by decide, by decide⟩
  obtain ⟨result, hrun, -⟩ := h sampleEnvironment sampleSocket [⟨headerOnly, []⟩] [headerOnly]
    [headerOnly] (by rw [length_allocated_sample]; decide) hwf (by decide) (by decide)
    ⟨rfl, trivial⟩ (countable_of_lt _ (by decide)) List.prefix_rfl
  rw [run_headerOnly] at hrun
  cases hrun

end ACENetwork.WLAN.Netlink
