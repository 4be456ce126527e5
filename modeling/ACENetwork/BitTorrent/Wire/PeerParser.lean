import ACENetwork.BitTorrent.Wire.Framing
import ACENetwork.Library.Cuts

/-!
# Cutting a record off the received blocks

`BitTorrent_Module_PeerParser_T::record` divides the chain of received blocks behind the
record that has been scanned. It counts whole blocks in an `unsigned int`, and finds the end
of the record exactly where the blocks up to there hold fewer than 2^32 octets.
-/
namespace ACENetwork.BitTorrent.Wire
open Library

/-- What follows a null pointer that `ACE_ASSERT` looks at first. -/
def nullBlock (ndebug : Bool) : Fault := if ndebug then .nullPointer else .assertion

def chain : List (List UInt8) → Option MessageBlock
  | [] => none
  | data :: cont => some ⟨data, cont⟩

/-- The loop that advances the read pointers behind the header of a PIECE: the blocks that
are all header, and the chain from the block in which the header ends. -/
def skipHeader (ndebug : Bool) (headerBytes : ℕ) :
    List (List UInt8) → Except Fault (List (List UInt8) × List (List UInt8))
  | [] => .error (nullBlock ndebug)
  | block :: cont =>
    if headerBytes ≤ block.length then .ok ([], block.drop headerBytes :: cont)
    else do
      let (front, rest) ← skipHeader ndebug (headerBytes - block.length) cont
      return ([] :: front, rest)

/-- The loop that looks for the end of the record and divides the chain there:
`message_block_p` up to its end, and the new `headFragment_`. -/
def cutChain (ndebug : Bool) (messageBytes skippedBytes : UInt32) :
    List (List UInt8) → Except Fault (List (List UInt8) × List (List UInt8))
  | [] => .error (nullBlock ndebug)
  | block :: cont =>
    let skippedBytes := skippedBytes + UInt32.ofNat block.length
    if skippedBytes < messageBytes then do
      let (message, head) ← cutChain ndebug messageBytes skippedBytes cont
      return (block :: message, head)
    else
      let remainder := (skippedBytes - messageBytes).toNat
      if remainder = 0 then .ok ([block], cont)
      else
        .ok ([block.take (block.length - remainder)],
          block.drop (block.length - remainder) :: cont)

/-- What `record` passes downstream, and `headFragment_`. -/
structure Cut where
  message : Option (PeerRecord × MessageBlock)
  headFragment : Option MessageBlock
  deriving DecidableEq

def record (ndebug : Bool) (headFragment : MessageBlock) (r : PeerRecord) : Except Fault Cut :=
  match messageBytes r with
  | none => .ok ⟨none, none⟩
  | some bytes => do
    aceAssert ndebug (bytes ≠ 0)
    if headFragment.totalLength < bytes.toNat then return ⟨none, none⟩
    else if r.type = some .piece then
      let (front, rest) ← skipHeader ndebug 13 headFragment.blocks
      let (message, head) ← cutChain ndebug (bytes - 13) 0 rest
      aceAssert ndebug (message.flatten.length = (r.length - 9).toNat)
      return ⟨(chain (front ++ message)).map (r, ·), chain head⟩
    else
      let (message, head) ← cutChain ndebug bytes 0 headFragment.blocks
      aceAssert ndebug (message.flatten.length = bytes.toNat)
      return ⟨(chain message).map (r, ·), chain head⟩

/-- The octets of a record: those of a keep-alive, or of a message with its length. -/
inductive Encodes : PeerRecord → List UInt8 → Prop where
  | keepAlive (bitfield : List UInt8) (payload : Payload) :
    Encodes ⟨0, none, bitfield, payload⟩ (encodeBE 4 0)
  | message {r : PeerRecord} {block : List UInt8} {m : Message}
    (hm : r.message block = some m) (hlen : r.length.toNat = m.body.length) :
    Encodes r (encodeBE 4 m.body.length ++ m.body)

def headerBytes (r : PeerRecord) : ℕ := if r.type = some .piece then 13 else 0

/-- The message holds the octets of the record, of a PIECE those of its block; what follows
them stays in `headFragment_`, which is null only if there is no further block. -/
structure CutAt (r : PeerRecord) (octets rest : List UInt8) (blocks : List (List UInt8))
    (cut : Cut) : Prop where
  message : ∃ b : MessageBlock, cut.message = some (r, b) ∧
    b.bytes = octets.drop (headerBytes r) ∧
    (cut.headFragment = none → b.blocks.length = blocks.length)
  head : (cut.headFragment.elim [] MessageBlock.bytes) = rest

/-- The record does not take 2^32 octets, and the blocks up to the one in which it ends hold,
without the header of a PIECE, fewer than these. -/
def Countable (r : PeerRecord) (octets : List UInt8) (blocks : List (List UInt8)) : Prop :=
  octets.length ≠ 2 ^ 32 ∧ Blocks.extent octets.length blocks < 2 ^ 32 + headerBytes r

section Loops

variable {ndebug : Bool}

theorem skipHeader_ok (ndebug : Bool) {n : ℕ} {blocks : List (List UInt8)} (hne : blocks ≠ [])
    (hn : n ≤ blocks.flatten.length) :
    ∃ front rest, skipHeader ndebug n blocks = .ok (front, rest) ∧ rest ≠ [] ∧
      front.flatten = [] ∧ front.length + rest.length = blocks.length ∧
      rest.flatten = blocks.flatten.drop n ∧
      ∀ k, Blocks.extent (n + k) blocks = n + Blocks.extent k rest := by
  induction blocks generalizing n with
  | nil => exact absurd rfl hne
  | cons block cont ih =>
    rw [List.flatten_cons, List.length_append] at hn
    by_cases hlen : n ≤ block.length
    · refine ⟨[], block.drop n :: cont, if_pos hlen, by simp, rfl, by simp, ?_, fun k => ?_⟩
      · simp [List.drop_append_of_le_length hlen]
      · simp only [Blocks.extent, List.length_drop]
        split_ifs <;> grind
    · have hcont : cont ≠ [] := by
        rintro rfl
        simp at hn
        omega
      obtain ⟨front, rest, hskip, hrest, hfront, hcount, hflatten, hextent⟩ :=
        ih (n := n - block.length) hcont (by omega)
      refine ⟨[] :: front, rest, ?_, hrest, by simpa using hfront, ?_, ?_, fun k => ?_⟩
      · rw [skipHeader, if_neg hlen, hskip]
        rfl
      · simp only [List.length_cons]
        omega
      · rw [hflatten, List.flatten_cons, List.drop_append,
          List.drop_of_length_le (Nat.le_of_not_le hlen), List.nil_append]
      · have hk : n + k - block.length = n - block.length + k := by omega
        rw [Blocks.extent_of_lt (by omega), hk, hextent]
        omega

theorem toNat_skipped (s : UInt32) (n : ℕ) :
    (s + UInt32.ofNat n).toNat = (s.toNat + n) % 2 ^ 32 := by
  simp [UInt32.toNat_add]

/-- As long as the counter does not wrap, the chain is divided behind the record. -/
theorem cutChain_ok {messageBytes skipped : UInt32} {n : ℕ} {blocks : List (List UInt8)}
    (hbytes : skipped.toNat + n = messageBytes.toNat) (hne : blocks ≠ [])
    (hn : n ≤ blocks.flatten.length)
    (hextent : skipped.toNat + Blocks.extent n blocks < 2 ^ 32) :
    cutChain ndebug messageBytes skipped blocks =
      .ok (Blocks.upTo n blocks, Blocks.behind n blocks) := by
  induction blocks generalizing n skipped with
  | nil => exact absurd rfl hne
  | cons block cont ih =>
    rw [List.flatten_cons, List.length_append] at hn
    rw [cutChain]
    rcases Nat.lt_or_ge block.length n with hlen | hlen
    · rw [Blocks.extent_of_lt hlen] at hextent
      have hskipped : (skipped + UInt32.ofNat block.length).toNat =
          skipped.toNat + block.length := by
        rw [toNat_skipped, Nat.mod_eq_of_lt (by omega)]
      have hcont : cont ≠ [] := by
        rintro rfl
        simp at hn
        omega
      rw [if_pos (UInt32.lt_iff_toNat_lt.mpr (by omega)),
        ih (n := n - block.length) (by omega) hcont (by omega) (by omega),
        Blocks.upTo_of_lt hlen, Blocks.behind_of_lt hlen]
      rfl
    · rw [Blocks.extent_of_le hlen] at hextent
      have hskipped : (skipped + UInt32.ofNat block.length).toNat =
          skipped.toNat + block.length := by
        rw [toNat_skipped, Nat.mod_eq_of_lt hextent]
      have hle : messageBytes ≤ skipped + UInt32.ofNat block.length :=
        UInt32.le_iff_toNat_le.mpr (by omega)
      have hremainder : (skipped + UInt32.ofNat block.length - messageBytes).toNat =
          block.length - n := by
        rw [UInt32.toNat_sub_of_le _ _ hle]
        omega
      rw [if_neg (UInt32.not_lt.mpr hle), hremainder, Blocks.upTo_of_le hlen,
        Blocks.behind_of_le hlen, Blocks.remaining]
      by_cases heq : block.length - n = 0
      · rw [if_pos heq, if_pos (by simpa using Nat.le_of_sub_eq_zero heq),
          List.take_of_length_le (by omega)]
      · rw [if_neg heq, if_neg (by simp; omega), Nat.sub_sub_self hlen]

theorem extent_lt_of_cutChain {messageBytes skipped : UInt32} {n : ℕ}
    {blocks message head : List (List UInt8)}
    (hbytes : skipped.toNat + n = messageBytes.toNat)
    (hcut : cutChain ndebug messageBytes skipped blocks = .ok (message, head))
    (hlen : message.flatten.length = n) :
    skipped.toNat + Blocks.extent n blocks < 2 ^ 32 := by
  have hlt := messageBytes.toNat_lt
  induction blocks generalizing n skipped message with
  | nil => cases hcut
  | cons block cont ih =>
    rw [cutChain] at hcut
    have hskipped := toNat_skipped skipped block.length
    rcases Nat.lt_or_ge block.length n with hblock | hblock
    · rw [Nat.mod_eq_of_lt (by omega)] at hskipped
      rw [if_pos (UInt32.lt_iff_toNat_lt.mpr (by omega))] at hcut
      obtain ⟨⟨message', head'⟩, hrest, hpair⟩ := fault_bind_ok.mp hcut
      cases hpair
      rw [List.flatten_cons, List.length_append] at hlen
      have := ih (n := n - block.length) (by omega) hrest (by omega)
      rw [Blocks.extent_of_lt hblock]
      omega
    · rw [Blocks.extent_of_le hblock]
      by_contra hwrap
      split at hcut
      · obtain ⟨⟨message', head'⟩, hrest, hpair⟩ := fault_bind_ok.mp hcut
        cases hpair
        simp at hlen
        omega
      · rename_i hge
        have hremainder := UInt32.toNat_sub_of_le _ _ (UInt32.not_lt.mp hge)
        have hge := UInt32.le_iff_toNat_le.mp (UInt32.not_lt.mp hge)
        dsimp only at hcut
        split at hcut
        · cases hcut
          simp at hlen
          omega
        · cases hcut
          simp at hlen
          omega

theorem cutChain_zero_ok (ndebug : Bool) {messageBytes : UInt32} {n : ℕ}
    {blocks : List (List UInt8)}
    (hbytes : messageBytes.toNat = n) (hne : blocks ≠ []) (hn : n ≤ blocks.flatten.length)
    (hextent : Blocks.extent n blocks < 2 ^ 32) :
    cutChain ndebug messageBytes 0 blocks = .ok (Blocks.upTo n blocks, Blocks.behind n blocks) := by
  apply cutChain_ok
  · rw [hbytes, UInt32.toNat_zero, Nat.zero_add]
  · exact hne
  · exact hn
  · rwa [UInt32.toNat_zero, Nat.zero_add]

theorem extent_lt_of_cutChain_zero {messageBytes : UInt32} {n : ℕ}
    {blocks message head : List (List UInt8)} (hbytes : messageBytes.toNat = n)
    (hcut : cutChain ndebug messageBytes 0 blocks = .ok (message, head))
    (hlen : message.flatten.length = n) : Blocks.extent n blocks < 2 ^ 32 := by
  have hcounted := extent_lt_of_cutChain (by rw [hbytes, UInt32.toNat_zero, Nat.zero_add]) hcut hlen
  rwa [UInt32.toNat_zero, Nat.zero_add] at hcounted

end Loops

section Chain

@[simp] theorem chain_blocks (b : MessageBlock) : chain b.blocks = some b := rfl

@[simp] theorem chain_eq_none {blocks : List (List UInt8)} : chain blocks = none ↔ blocks = [] := by
  cases blocks <;> simp [chain]

@[simp] theorem elim_chain (blocks : List (List UInt8)) :
    (chain blocks).elim [] MessageBlock.bytes = blocks.flatten := by
  cases blocks <;> rfl

theorem exists_chain {blocks : List (List UInt8)} (h : blocks ≠ []) :
    ∃ b : MessageBlock, b.blocks = blocks := by
  obtain ⟨data, cont, rfl⟩ := List.exists_cons_of_ne_nil h
  exact ⟨⟨data, cont⟩, rfl⟩

theorem cutAt_iff {r : PeerRecord} {octets rest : List UInt8}
    {blocks message head : List (List UInt8)} (hne : message ≠ []) :
    CutAt r octets rest blocks ⟨(chain message).map (r, ·), chain head⟩ ↔
      message.flatten = octets.drop (headerBytes r) ∧
        (head = [] → message.length = blocks.length) ∧ head.flatten = rest := by
  obtain ⟨b, rfl⟩ := exists_chain hne
  constructor
  · rintro ⟨⟨b', hb', hbytes, hcount⟩, hhead⟩
    obtain rfl : b = b' := by simpa using hb'
    exact ⟨hbytes, by simpa using hcount, by simpa using hhead⟩
  · rintro ⟨hbytes, hcount, hhead⟩
    exact ⟨⟨b, rfl, hbytes, by simpa using hcount⟩, by simpa using hhead⟩

end Chain

namespace Encodes

variable {r : PeerRecord} {octets : List UInt8}

theorem messageBytes_eq (h : Encodes r octets) :
    messageBytes r = some (UInt32.ofNat octets.length) := by
  cases h with
  | keepAlive => rfl
  | message hm hlen => simpa using messageBytes_message hm hlen

theorem length_eq (h : Encodes r octets) : octets.length = 4 + r.length.toNat := by
  cases h with
  | keepAlive => rfl
  | message hm hlen => simp [hlen]

theorem le_length_of_piece (h : Encodes r octets) (hpiece : r.type = some .piece) :
    9 ≤ r.length.toNat := by
  cases h with
  | keepAlive => cases hpiece
  | message hm hlen =>
    rw [PeerRecord.message, hpiece, Option.map_some, Option.some_inj] at hm
    rw [hlen, ← hm]
    simp [Message.body]
    omega

end Encodes

section Record

variable {ndebug : Bool} {headFragment : MessageBlock} {r : PeerRecord} {octets rest : List UInt8}
  {bytes : UInt32}

/-- A record without a header of its own: the cut behind its octets. -/
theorem record_whole (hbytes : messageBytes r = some bytes) (hzero : bytes ≠ 0)
    (hshort : ¬ headFragment.totalLength < bytes.toNat) (hpiece : r.type ≠ some .piece)
    {cut : Cut} : record ndebug headFragment r = .ok cut ↔
      ∃ message head, cutChain ndebug bytes 0 headFragment.blocks = .ok (message, head) ∧
        (ndebug = true ∨ message.flatten.length = bytes.toNat) ∧
        cut = ⟨(chain message).map (r, ·), chain head⟩ := by
  simp only [record, hbytes, ne_eq, hzero, not_false_eq_true, decide_true, aceAssert_true, hshort,
    if_false, hpiece]
  constructor
  · intro h
    obtain ⟨-, -, h⟩ := fault_bind_ok.mp h
    obtain ⟨⟨message, head⟩, hcut, h⟩ := fault_bind_ok.mp h
    obtain ⟨_, hassert, h⟩ := fault_bind_ok.mp h
    cases h
    exact ⟨message, head, hcut, by simpa using aceAssert_ok.mp hassert, rfl⟩
  · rintro ⟨message, head, hcut, hassert, rfl⟩
    refine fault_bind_ok.mpr ⟨(), rfl, fault_bind_ok.mpr ⟨(message, head), hcut,
      fault_bind_ok.mpr ⟨(), ?_, rfl⟩⟩⟩
    exact aceAssert_ok.mpr (by simpa using hassert)

theorem record_piece (hbytes : messageBytes r = some bytes) (hzero : bytes ≠ 0)
    (hshort : ¬ headFragment.totalLength < bytes.toNat) (hpiece : r.type = some .piece)
    {front behind : List (List UInt8)}
    (hskip : skipHeader ndebug 13 headFragment.blocks = .ok (front, behind))
    {cut : Cut} : record ndebug headFragment r = .ok cut ↔
      ∃ message head, cutChain ndebug (bytes - 13) 0 behind = .ok (message, head) ∧
        (ndebug = true ∨ message.flatten.length = (r.length - 9).toNat) ∧
        cut = ⟨(chain (front ++ message)).map (r, ·), chain head⟩ := by
  simp only [record, hbytes, ne_eq, hzero, not_false_eq_true, decide_true, aceAssert_true, hshort,
    if_false, hpiece, if_true]
  constructor
  · intro h
    obtain ⟨-, -, h⟩ := fault_bind_ok.mp h
    obtain ⟨⟨front', behind'⟩, hskip', h⟩ := fault_bind_ok.mp h
    cases hskip.symm.trans hskip'
    obtain ⟨⟨message, head⟩, hcut, h⟩ := fault_bind_ok.mp h
    obtain ⟨_, hassert, h⟩ := fault_bind_ok.mp h
    cases h
    exact ⟨message, head, hcut, by simpa using aceAssert_ok.mp hassert, rfl⟩
  · rintro ⟨message, head, hcut, hassert, rfl⟩
    refine fault_bind_ok.mpr ⟨(), rfl, fault_bind_ok.mpr ⟨(front, behind), hskip,
      fault_bind_ok.mpr ⟨(message, head), hcut, fault_bind_ok.mpr ⟨(), ?_, rfl⟩⟩⟩⟩
    exact aceAssert_ok.mpr (by simpa using hassert)

end Record

section Cut

variable {headFragment : MessageBlock} {r : PeerRecord} {octets rest : List UInt8}

theorem Encodes.word_eq_zero (hr : Encodes r octets) :
    UInt32.ofNat octets.length = 0 ↔ octets.length = 2 ^ 32 := by
  have hlength := hr.length_eq
  have hlt := r.length.toNat_lt
  rw [← UInt32.toNat_inj, UInt32.toNat_ofNat', UInt32.toNat_zero]
  omega

theorem not_short (hchain : headFragment.bytes = octets ++ rest) :
    ¬ headFragment.totalLength < (UInt32.ofNat octets.length).toNat := by
  rw [← MessageBlock.length_bytes, hchain, List.length_append, UInt32.toNat_ofNat']
  have := Nat.mod_le octets.length (2 ^ 32)
  omega

theorem whole_cut_iff (hr : Encodes r octets) (hchain : headFragment.bytes = octets ++ rest)
    (hzero : UInt32.ofNat octets.length ≠ 0) (hpiece : r.type ≠ some .piece) :
    (∀ ndebug, ∃ cut, record ndebug headFragment r = .ok cut ∧
      CutAt r octets rest headFragment.blocks cut) ↔
      Blocks.extent octets.length headFragment.blocks < 2 ^ 32 := by
  have hne : headFragment.blocks ≠ [] := List.cons_ne_nil _ _
  have hflatten : headFragment.blocks.flatten = octets ++ rest := hchain
  have hshort := not_short hchain
  have hheader : headerBytes r = 0 := if_neg hpiece
  have hword : (UInt32.ofNat octets.length).toNat = octets.length % 2 ^ 32 := UInt32.toNat_ofNat'
  constructor
  · intro h
    obtain ⟨cut, hcut, hcutAt⟩ := h false
    obtain ⟨message, head, hdivide, hassert, rfl⟩ :=
      (record_whole hr.messageBytes_eq hzero hshort hpiece).mp hcut
    have hmessage : message ≠ [] := by
      rintro rfl
      obtain ⟨b, hb, -⟩ := hcutAt.message
      cases hb
    obtain ⟨hflat, -, -⟩ := (cutAt_iff hmessage).mp hcutAt
    have hlen : message.flatten.length = octets.length := by rw [hflat, hheader, List.drop_zero]
    -- the assertion compares the octets that have been cut off with a word
    have hfits : octets.length < 2 ^ 32 := by
      have := hassert.resolve_left Bool.false_ne_true
      omega
    rw [Nat.mod_eq_of_lt hfits] at hword
    exact extent_lt_of_cutChain_zero hword hdivide hlen
  · intro hcounted ndebug
    have hfits : octets.length < 2 ^ 32 :=
      (Blocks.le_extent (by simp [hflatten])).trans_lt hcounted
    rw [Nat.mod_eq_of_lt hfits] at hword
    have hdivide := fun ndebug => cutChain_zero_ok ndebug hword hne
      (by simp [hflatten]) hcounted
    have htake : (Blocks.upTo octets.length headFragment.blocks).flatten = octets := by
      rw [Blocks.flatten_upTo, hflatten, List.take_left]
    refine ⟨_, (record_whole hr.messageBytes_eq hzero hshort hpiece).mpr
      ⟨_, _, hdivide ndebug, .inr ?_, rfl⟩, (cutAt_iff (Blocks.upTo_ne_nil hne)).mpr
        ⟨?_, Blocks.length_upTo, ?_⟩⟩
    · rw [htake, hword]
    · rw [htake, hheader, List.drop_zero]
    · rw [Blocks.flatten_behind, hflatten, List.drop_left]

theorem Encodes.word_sub_header (hr : Encodes r octets) (hpiece : r.type = some .piece) :
    UInt32.ofNat octets.length - 13 = r.length - 9 ∧
      (r.length - 9).toNat = octets.length - 13 ∧ 13 ≤ octets.length := by
  have hlength := hr.length_eq
  have hnine := hr.le_length_of_piece hpiece
  refine ⟨?_, ?_, by omega⟩
  · rw [hlength, UInt32.ofNat_add, UInt32.ofNat_toNat]
    change 4 + r.length - 13 = _
    grind
  · have hle : (9 : UInt32) ≤ r.length := UInt32.le_iff_toNat_le.mpr hnine
    rw [UInt32.toNat_sub_of_le _ _ hle, hlength]
    change r.length.toNat - 9 = _
    omega

theorem piece_cut_iff (hr : Encodes r octets) (hchain : headFragment.bytes = octets ++ rest)
    (hzero : UInt32.ofNat octets.length ≠ 0) (hpiece : r.type = some .piece) :
    (∀ ndebug, ∃ cut, record ndebug headFragment r = .ok cut ∧
      CutAt r octets rest headFragment.blocks cut) ↔
      Blocks.extent octets.length headFragment.blocks < 2 ^ 32 + 13 := by
  have hne : headFragment.blocks ≠ [] := List.cons_ne_nil _ _
  have hflatten : headFragment.blocks.flatten = octets ++ rest := hchain
  have hshort := not_short hchain
  have hheader : headerBytes r = 13 := if_pos hpiece
  obtain ⟨hword, hblock, hle⟩ := hr.word_sub_header hpiece
  have hskip : ∀ ndebug, ∃ front behind,
      skipHeader ndebug 13 headFragment.blocks = .ok (front, behind) ∧ behind ≠ [] ∧
        front.flatten = [] ∧ front.length + behind.length = headFragment.blocks.length ∧
        behind.flatten = octets.drop 13 ++ rest ∧
        ∀ k, Blocks.extent (13 + k) headFragment.blocks = 13 + Blocks.extent k behind := by
    intro ndebug
    have hskip := skipHeader_ok ndebug (n := 13) hne (by simp [hflatten]; omega)
    rwa [hflatten, List.drop_append_of_le_length hle] at hskip
  rw [← Nat.add_sub_of_le hle]
  constructor
  · intro h
    obtain ⟨cut, hcut, hcutAt⟩ := h false
    obtain ⟨front, behind, hskip, hbehind, hfront, -, -, hextent⟩ := hskip false
    obtain ⟨message, head, hdivide, -, rfl⟩ :=
      (record_piece hr.messageBytes_eq hzero hshort hpiece hskip).mp hcut
    have hmessage : front ++ message ≠ [] := by
      intro hnil
      obtain ⟨b, hb, -⟩ := hcutAt.message
      simp [hnil, chain] at hb
    obtain ⟨hflat, -, -⟩ := (cutAt_iff hmessage).mp hcutAt
    rw [List.flatten_append, hfront, List.nil_append, hheader] at hflat
    have hcounted := extent_lt_of_cutChain_zero (by rw [hword, hblock]) hdivide
      (by rw [hflat, List.length_drop])
    rw [hextent]
    omega
  · intro hcounted ndebug
    obtain ⟨front, behind, hskip, hbehind, hfront, hcount, hflat, hextent⟩ := hskip ndebug
    rw [hextent] at hcounted
    have hdivide := fun ndebug => cutChain_zero_ok ndebug (hword ▸ hblock) hbehind
      (by simp [hflat]) (by omega)
    have htake : (Blocks.upTo (octets.length - 13) behind).flatten = octets.drop 13 := by
      rw [Blocks.flatten_upTo, hflat, List.take_left' (by simp)]
    refine ⟨_, (record_piece hr.messageBytes_eq hzero hshort hpiece hskip).mpr
      ⟨_, _, hdivide ndebug, .inr ?_, rfl⟩, (cutAt_iff ?_).mpr ⟨?_, fun hhead => ?_, ?_⟩⟩
    · rw [htake, hblock, List.length_drop]
    · exact List.append_ne_nil_of_right_ne_nil _ (Blocks.upTo_ne_nil hbehind)
    · rw [List.flatten_append, hfront, htake, hheader, List.nil_append]
    · rw [List.length_append, Blocks.length_upTo hhead, hcount]
    · rw [Blocks.flatten_behind, hflat, List.drop_left' (by simp)]

theorem record_wrapped (hr : Encodes r octets) (hwrap : octets.length = 2 ^ 32) :
    record false headFragment r = .error .assertion := by
  have hzero := hr.word_eq_zero.2 hwrap
  simp [record, hr.messageBytes_eq, hzero, aceAssert, bind, Except.bind]

/-- The chain is divided behind the record, in builds with and without assertions, exactly when
the counter holds the octets of the blocks up to there. -/
theorem record_cut_iff (hr : Encodes r octets) (hchain : headFragment.bytes = octets ++ rest) :
    (∀ ndebug, ∃ cut, record ndebug headFragment r = .ok cut ∧
      CutAt r octets rest headFragment.blocks cut) ↔
      Countable r octets headFragment.blocks := by
  by_cases hwrap : octets.length = 2 ^ 32
  · refine iff_of_false (fun h => ?_) (fun h => h.1 hwrap)
    obtain ⟨cut, hcut, -⟩ := h false
    rw [record_wrapped hr hwrap] at hcut
    cases hcut
  · have hzero : UInt32.ofNat octets.length ≠ 0 := fun h => hwrap (hr.word_eq_zero.mp h)
    rw [Countable, and_iff_right hwrap]
    by_cases hpiece : r.type = some .piece
    · have hheader : headerBytes r = 13 := if_pos hpiece
      rw [hheader]
      exact piece_cut_iff hr hchain hzero hpiece
    · have hheader : headerBytes r = 0 := if_neg hpiece
      rw [hheader]
      exact whole_cut_iff hr hchain hzero hpiece

end Cut

/-- A PIECE whose header ends in the third block, and whose block ends in the fourth one. -/
theorem record_cut_iff_piece : ∃ cut,
    record false ⟨[0, 0, 0, 11, 7, 0], [[0, 0, 1, 0, 0], [0, 0, 5], [6, 9]]⟩
      ⟨11, some .piece, [], ⟨1, 0, 0⟩⟩ = .ok cut ∧
    CutAt ⟨11, some .piece, [], ⟨1, 0, 0⟩⟩ [0, 0, 0, 11, 7, 0, 0, 0, 1, 0, 0, 0, 0, 5, 6] [9]
      [[0, 0, 0, 11, 7, 0], [0, 0, 1, 0, 0], [0, 0, 5], [6, 9]] cut :=
  (record_cut_iff (@Encodes.message ⟨11, some .piece, [], ⟨1, 0, 0⟩⟩ [5, 6] (.piece 1 0 [5, 6]) rfl
    rfl) rfl).mpr ⟨by decide, by decide⟩ false

/-- A BITFIELD that takes 2^32 octets with its length. -/
theorem not_cut : ¬ ∀ (headFragment : MessageBlock) (r : PeerRecord) (octets rest : List UInt8),
    Encodes r octets → headFragment.bytes = octets ++ rest → ∀ ndebug, ∃ cut,
      record ndebug headFragment r = .ok cut ∧ CutAt r octets rest headFragment.blocks cut := by
  intro h
  obtain ⟨bits, hbits⟩ : ∃ bits : List UInt8, bits.length = 2 ^ 32 - 5 :=
    ⟨List.replicate (2 ^ 32 - 5) 0, List.length_replicate⟩
  have hr : Encodes ⟨4294967292, some .bitfield, bits, ⟨0, 0, 0⟩⟩ _ :=
    @Encodes.message _ [] (.bitfield bits) rfl (by rw [Message.body, List.length_cons, hbits]; rfl)
  obtain ⟨cut, hcut, -⟩ := h ⟨_, []⟩ _ _ [] hr rfl false
  rw [record_wrapped hr (by simp [Message.body, hbits])] at hcut
  cases hcut

end ACENetwork.BitTorrent.Wire
