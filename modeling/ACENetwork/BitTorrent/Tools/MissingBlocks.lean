import ACENetwork.BitTorrent.Reassembly
import ACENetwork.BitTorrent.Tools.Pieces

/-!
# The blocks that are asked for

Every hole between two chunks and the rest of the piece are cut into blocks. Behind a hole the walk
stays at the start of the next chunk instead of its end, so that the bytes of this chunk are asked
for again. What is missing is always asked for, and nothing else exactly when every chunk adjoins
the one in front of it.
-/
namespace ACENetwork.BitTorrent.Tools
open Library

/-- The byte at position `p` of the piece is in the block. -/
def Block.Holds (block : Block) (p : ℕ) : Prop :=
  block.begin.toNat ≤ p ∧ p < block.begin.toNat + block.length.toNat

instance (block : Block) (p : ℕ) : Decidable (block.Holds p) :=
  inferInstanceAs (Decidable (_ ∧ _))

/-- Some block of the list has the byte at position `p`. -/
def Requested (blocks : List Block) (p : ℕ) : Prop := ∃ block ∈ blocks, block.Holds p

instance (blocks : List Block) (p : ℕ) : Decidable (Requested blocks p) :=
  inferInstanceAs (Decidable (∃ block ∈ blocks, block.Holds p))

section Requested

variable {block : Block} {blocks more : List Block} {p : ℕ}

@[simp] theorem requested_nil : ¬ Requested [] p := by
  simp [Requested]

@[simp] theorem requested_cons :
    Requested (block :: blocks) p ↔ block.Holds p ∨ Requested blocks p := by
  simp [Requested]

@[simp] theorem requested_append :
    Requested (blocks ++ more) p ↔ Requested blocks p ∨ Requested more p := by
  simp [Requested, or_and_right, exists_or]

end Requested

/-- Blocks of a length that peers answer, each in front of the later ones, from `low` up to
`high`. -/
structure Within (low high : ℕ) (blocks : List Block) : Prop where
  ordered : blocks.Pairwise fun a b => a.begin.toNat + a.length.toNat ≤ b.begin.toNat
  sized : ∀ b ∈ blocks, 0 < b.length ∧ b.length ≤ requestBlockLengthMax
  low_le : ∀ b ∈ blocks, low ≤ b.begin.toNat
  le_high : ∀ b ∈ blocks, b.begin.toNat + b.length.toNat ≤ high

namespace Within

variable {low mid high : ℕ} {blocks more : List Block}

theorem nil (low high : ℕ) : Within low high [] :=
  ⟨List.Pairwise.nil, by simp, by simp, by simp⟩

theorem mono {low' : ℕ} (h : Within low high blocks) (hle : low' ≤ low) :
    Within low' high blocks :=
  ⟨h.ordered, h.sized, fun b hb => hle.trans (h.low_le b hb), h.le_high⟩

theorem append (h : Within low mid blocks) (hmore : Within mid high more) (hlow : low ≤ mid)
    (hhigh : mid ≤ high) : Within low high (blocks ++ more) where
  ordered := List.pairwise_append.mpr ⟨h.ordered, hmore.ordered, fun a ha b hb =>
    (h.le_high a ha).trans (hmore.low_le b hb)⟩
  sized := List.forall_mem_append.mpr ⟨h.sized, hmore.sized⟩
  low_le := List.forall_mem_append.mpr
    ⟨h.low_le, fun b hb => hlow.trans (hmore.low_le b hb)⟩
  le_high := List.forall_mem_append.mpr
    ⟨fun b hb => (h.le_high b hb).trans hhigh, hmore.le_high⟩

theorem cons {begin length : UInt32} (hpos : 0 < length) (hmax : length ≤ requestBlockLengthMax)
    (h : Within (begin.toNat + length.toNat) high blocks)
    (hhigh : begin.toNat + length.toNat ≤ high) :
    Within begin.toNat high (⟨begin, length⟩ :: blocks) where
  ordered := List.pairwise_cons.mpr ⟨fun b hb => h.low_le b hb, h.ordered⟩
  sized := List.forall_mem_cons.mpr ⟨⟨hpos, hmax⟩, h.sized⟩
  low_le := List.forall_mem_cons.mpr ⟨le_rfl, fun b hb =>
    (Nat.le_add_right _ _).trans (h.low_le b hb)⟩
  le_high := List.forall_mem_cons.mpr ⟨hhigh, h.le_high⟩

theorem bounds {p : ℕ} (h : Within low high blocks) (hp : Requested blocks p) :
    low ≤ p ∧ p < high := by
  obtain ⟨b, hb, hle, hlt⟩ := hp
  exact ⟨(h.low_le b hb).trans hle, hlt.trans_le (h.le_high b hb)⟩

end Within

theorem nextBlock_length {missing : UInt32} (hpos : missing ≠ 0) :
    let length := if missing < requestBlockLengthMax then missing else requestBlockLengthMax
    0 < length ∧ length ≤ requestBlockLengthMax ∧ length.toNat ≤ missing.toNat := by
  have hmissing : 0 < missing := UInt32.pos_iff_ne_zero.mpr hpos
  intro length
  by_cases hlt : missing < requestBlockLengthMax
  · simp only [length, if_pos hlt]
    exact ⟨hmissing, UInt32.le_of_lt hlt, le_rfl⟩
  · simp only [length, if_neg hlt]
    exact ⟨by decide, UInt32.le_refl _, UInt32.le_iff_toNat_le.mp (UInt32.not_lt.mp hlt)⟩

theorem splitMissing_tiles {fuel : ℕ} {offset missing : UInt32} (hfuel : missing.toNat ≤ fuel)
    (hlt : offset.toNat + missing.toNat < 2 ^ 32) :
    Within offset.toNat (offset.toNat + missing.toNat) (splitMissing fuel offset missing) ∧
      ∀ p, Requested (splitMissing fuel offset missing) p ↔
        offset.toNat ≤ p ∧ p < offset.toNat + missing.toNat := by
  induction fuel generalizing offset missing with
  | zero =>
    have hzero : missing.toNat = 0 := by omega
    refine ⟨Within.nil _ _, fun p => ?_⟩
    simp only [splitMissing, requested_nil, false_iff]
    omega
  | succ fuel ih =>
    by_cases hzero : missing = 0
    · subst hzero
      refine ⟨by simpa [splitMissing] using Within.nil _ _, fun p => ?_⟩
      simp only [splitMissing, if_true, requested_nil, UInt32.toNat_zero, false_iff]
      omega
    · have hnext := nextBlock_length hzero
      simp only [splitMissing, if_neg hzero]
      generalize (if missing < requestBlockLengthMax then missing
        else requestBlockLengthMax) = length at hnext ⊢
      obtain ⟨hpos, hmax, hle⟩ := hnext
      have hpos' : 0 < length.toNat := UInt32.lt_iff_toNat_lt.mp hpos
      have hoffset : (offset + length).toNat = offset.toNat + length.toNat := by
        rw [UInt32.toNat_add, Nat.mod_eq_of_lt (by omega)]
      have hrest : (missing - length).toNat = missing.toNat - length.toNat :=
        UInt32.toNat_sub_of_le _ _ (UInt32.le_iff_toNat_le.mpr hle)
      have hfuel' : (missing - length).toNat ≤ fuel := by omega
      have hlt' : (offset + length).toNat + (missing - length).toNat < 2 ^ 32 := by omega
      obtain ⟨hwithin, hrequested⟩ := ih hfuel' hlt'
      rw [hoffset, hrest, show offset.toNat + length.toNat + (missing.toNat - length.toNat) =
        offset.toNat + missing.toNat by omega] at hwithin
      have hhigh : offset.toNat + length.toNat ≤ offset.toNat + missing.toNat := by omega
      refine ⟨Within.cons hpos hmax hwithin hhigh, fun p => ?_⟩
      rw [requested_cons, hrequested, hoffset, hrest]
      simp only [Block.Holds]
      omega

/-- A hole between two positions of the piece. -/
theorem missingBlocks_tiles {low high : UInt32} (hle : low ≤ high) :
    Within low.toNat high.toNat (missingBlocks low (high - low)) ∧
      ∀ p, Requested (missingBlocks low (high - low)) p ↔ low.toNat ≤ p ∧ p < high.toNat := by
  have hle' := UInt32.le_iff_toNat_le.mp hle
  have hsub := UInt32.toNat_sub_of_le _ _ hle
  have hlt := high.toNat_lt
  have hbound : low.toNat + (high - low).toNat < 2 ^ 32 := by omega
  have htiles := splitMissing_tiles le_rfl hbound
  rwa [hsub, Nat.add_sub_cancel' hle', ← hsub] at htiles

/-- Every chunk that holds bytes starts where the one in front of it ends, the first one at
`stop`. -/
def Adjoining : (stop : ℕ) → List PieceChunk → Prop
  | _, [] => True
  | stop, chunk :: chunks =>
    (chunk.data.totalLength ≠ 0 → chunk.offset.toNat = stop) ∧
      Adjoining (chunk.offset.toNat + chunk.data.totalLength) chunks

instance decidableAdjoining : (stop : ℕ) → (chunks : List PieceChunk) →
    Decidable (Adjoining stop chunks)
  | _, [] => isTrue trivial
  | _, _ :: chunks => @instDecidableAnd _ _ inferInstance (decidableAdjoining _ chunks)

/-- What the walk from `offset` on asks for, when the chunks lie behind `offset`. -/
structure Walk (pieceLength offset : UInt32) (chunks : List PieceChunk) (blocks : List Block) :
    Prop where
  within : Within offset.toNat pieceLength.toNat blocks
  missing : ∀ p, offset.toNat ≤ p → p < pieceLength.toNat →
    ¬ Segment.Covers (chunks.map PieceChunk.segment) p → Requested blocks p
  only_missing : (∀ p, Requested blocks p → ¬ Segment.Covers (chunks.map PieceChunk.segment) p) ↔
    Adjoining offset.toNat chunks

theorem getMissingChunksFrom_walk (ndebug : Bool) {pieceLength offset : UInt32}
    {chunks : List PieceChunk} (hordered : Segment.Ordered (chunks.map PieceChunk.segment))
    (hstop : ∀ c ∈ chunks, c.segment.stop ≤ pieceLength.toNat)
    (hstart : ∀ c ∈ chunks, offset.toNat ≤ c.offset.toNat) (hoffset : offset ≤ pieceLength) :
    ∃ blocks, getMissingChunksFrom ndebug pieceLength offset chunks = .ok blocks ∧
      Walk pieceLength offset chunks blocks := by
  induction chunks generalizing offset with
  | nil =>
    obtain ⟨hwithin, hrequested⟩ := missingBlocks_tiles hoffset
    refine ⟨_, rfl, hwithin, fun p hle hlt _ => (hrequested p).mpr ⟨hle, hlt⟩, ?_⟩
    simp [Adjoining]
  | cons chunk chunks ih =>
    obtain ⟨hafter, hrest⟩ := List.pairwise_cons.mp hordered
    obtain ⟨hchunk, hstop⟩ := List.forall_mem_cons.mp hstop
    obtain ⟨hle, -⟩ := List.forall_mem_cons.mp hstart
    rw [PieceChunk.segment_stop] at hchunk
    have hlt := pieceLength.toNat_lt
    have hafter : ∀ c ∈ chunks, chunk.offset.toNat + chunk.data.totalLength ≤ c.offset.toNat := by
      intro c hc
      have := hafter c.segment (List.mem_map_of_mem hc)
      rwa [PieceChunk.segment_stop] at this
    by_cases hequal : chunk.offset = offset
    · -- the chunk adjoins: the walk goes on behind it
      have hend : (chunk.offset + UInt32.ofNat chunk.data.totalLength).toNat =
          chunk.offset.toNat + chunk.data.totalLength := by
        rw [UInt32.toNat_add, toNat_word (by omega), Nat.mod_eq_of_lt (by omega)]
      have hwithin : chunk.offset + UInt32.ofNat chunk.data.totalLength ≤ pieceLength :=
        UInt32.le_iff_toNat_le.mpr (by omega)
      obtain ⟨blocks, hblocks, hwithin, hmissing, honly⟩ := ih hrest hstop (by rwa [hend]) hwithin
      rw [hend] at hwithin hmissing honly
      rw [getMissingChunksFrom, if_pos hequal]
      subst hequal
      refine ⟨blocks, hblocks, hwithin.mono (Nat.le_add_right _ _), ?_, ?_⟩
      · intro p hp hlt hcovers
        simp only [List.map_cons, Segment.covers_cons, PieceChunk.holds_segment, not_or] at hcovers
        exact hmissing p (by omega) hlt hcovers.2
      · rw [Adjoining, ← honly]
        simp only [List.map_cons, Segment.covers_cons, PieceChunk.holds_segment, not_or,
          implies_true, true_and]
        constructor
        · exact fun h p hp => (h p hp).2
        · intro h p hp
          have hbound := hwithin.bounds hp
          exact ⟨by omega, h p hp⟩
    · have hhole : offset < chunk.offset := by
        have hne : offset.toNat ≠ chunk.offset.toNat := fun h => hequal (UInt32.toNat_inj.mp h.symm)
        exact UInt32.lt_iff_toNat_lt.mpr (by omega)
      have hhole' := UInt32.lt_iff_toNat_lt.mp hhole
      -- the walk stays at the start of the chunk
      have hstart : chunk.offset ≤ pieceLength := UInt32.le_iff_toNat_le.mpr (by omega)
      obtain ⟨blocks, hblocks, hwithin, hmissing, honly⟩ := ih hrest hstop
        (fun c hc => (Nat.le_add_right _ _).trans (hafter c hc)) hstart
      obtain ⟨hfront, hrequested⟩ := missingBlocks_tiles (UInt32.le_of_lt hhole)
      rw [getMissingChunksFrom, if_neg hequal]
      refine ⟨missingBlocks offset (chunk.offset - offset) ++ blocks, ?_, ?_, ?_, ?_⟩
      · simp [hhole, hblocks, bind, Except.bind]
      · exact hfront.append hwithin hhole'.le (by omega)
      · intro p hp hlt hcovers
        simp only [List.map_cons, Segment.covers_cons, PieceChunk.holds_segment, not_or] at hcovers
        rw [requested_append, hrequested]
        by_cases hp' : p < chunk.offset.toNat
        · exact .inl ⟨hp, hp'⟩
        · exact .inr (hmissing p (by omega) hlt hcovers.2)
      · by_cases hempty : chunk.data.totalLength = 0
        · rw [Adjoining, hempty, Nat.add_zero, ← honly]
          simp only [List.map_cons, Segment.covers_cons, PieceChunk.holds_segment, not_or,
            requested_append, hempty, ne_eq, not_true_eq_false, false_imp_iff, true_and]
          constructor
          · exact fun h p hp => (h p (.inr hp)).2
          · rintro h p (hp | hp)
            · have hbound := (hrequested p).mp hp
              refine ⟨by omega, ?_⟩
              rintro ⟨a, ha, hstart, -⟩
              obtain ⟨c, hc, rfl⟩ := List.mem_map.mp ha
              have hc := hafter c hc
              have hstart : c.offset.toNat ≤ p := hstart
              omega
            · exact ⟨by omega, h p hp⟩
        · -- the first byte of the chunk is asked for
          refine iff_of_false (fun h => ?_) fun h => absurd (h.1 hempty) hhole'.ne'
          have hfirst : Requested blocks chunk.offset.toNat := by
            apply hmissing _ le_rfl (by omega)
            rintro ⟨a, ha, hstart, -⟩
            obtain ⟨c, hc, rfl⟩ := List.mem_map.mp ha
            have hc := hafter c hc
            have hstart : c.offset.toNat ≤ chunk.offset.toNat := hstart
            omega
          apply h _ (requested_append.2 (.inr hfirst))
          rw [List.map_cons, Segment.covers_cons, PieceChunk.holds_segment]
          exact .inl ⟨le_rfl, by omega⟩

/-- The blocks tile the bytes of the piece that no chunk holds: they are disjoint, have a length
that peers answer, and together they are these bytes. -/
structure Tiles (pieceLength : UInt32) (chunks : List PieceChunk) (blocks : List Block) : Prop where
  disjoint : blocks.Pairwise fun a b => ∀ p, ¬ (a.Holds p ∧ b.Holds p)
  sized : ∀ b ∈ blocks, 0 < b.length ∧ b.length ≤ requestBlockLengthMax
  requested : ∀ p, Requested blocks p ↔
    p < pieceLength.toNat ∧ ¬ Segment.Covers (chunks.map PieceChunk.segment) p

/-- The blocks tile what is missing exactly when every chunk adjoins the one in front of it. -/
theorem getMissingChunks_tiles {ndebug : Bool} {pieceLength : UInt32} {chunks : List PieceChunk}
    (hordered : Segment.Ordered (chunks.map PieceChunk.segment))
    (hstop : ∀ c ∈ chunks, c.segment.stop ≤ pieceLength.toNat) :
    (∃ blocks, getMissingChunks ndebug pieceLength chunks = .ok blocks ∧
      Tiles pieceLength chunks blocks) ↔ Adjoining 0 chunks := by
  have hzero : 0 ≤ pieceLength := UInt32.le_iff_toNat_le.mpr (by simp)
  obtain ⟨blocks, hblocks, hwalk⟩ :=
    getMissingChunksFrom_walk ndebug hordered hstop (by simp) hzero
  rw [show (0 : ℕ) = (0 : UInt32).toNat from rfl, ← hwalk.only_missing]
  constructor
  · rintro ⟨blocks', hblocks', htiles⟩ p hp
    rw [getMissingChunks, hblocks] at hblocks'
    obtain rfl := Except.ok.inj hblocks'
    exact ((htiles.requested p).mp hp).2
  · intro h
    refine ⟨blocks, hblocks, ?_, hwalk.within.sized, fun p => ⟨fun hp => ?_, fun hp => ?_⟩⟩
    · apply hwalk.within.ordered.imp
      rintro a b hab p ⟨ha, hb⟩
      exact absurd (ha.2.trans_le hab) hb.1.not_gt
    · exact ⟨(hwalk.within.bounds hp).2, h p hp⟩
    · exact hwalk.missing p (Nat.zero_le p) hp.1 hp.2

def chunkAt (offset : UInt32) (octets : List UInt8) : PieceChunk := ⟨⟨octets, []⟩, offset⟩

theorem getMissingChunks_tiles_front :
    ∃ blocks, getMissingChunks false 5 [chunkAt 0 [1, 2], chunkAt 2 [3]] = .ok blocks ∧
      Tiles 5 [chunkAt 0 [1, 2], chunkAt 2 [3]] blocks :=
  (getMissingChunks_tiles (by simp [Segment.Ordered, Segment.stop, PieceChunk.segment, chunkAt,
    MessageBlock.bytes, MessageBlock.blocks]) (by decide)).mpr (by decide)

/-- Of a piece of three bytes the one in the middle is there, and it is asked for again. -/
theorem not_tiles : ¬ ∀ (pieceLength : UInt32) (chunks : List PieceChunk),
    Segment.Ordered (chunks.map PieceChunk.segment) →
      (∀ c ∈ chunks, c.segment.stop ≤ pieceLength.toNat) →
        ∃ blocks, getMissingChunks false pieceLength chunks = .ok blocks ∧
          Tiles pieceLength chunks blocks := by
  intro h
  obtain ⟨blocks, hblocks, htiles⟩ := h 3 [chunkAt 1 [7]] (List.pairwise_singleton _ _) (by decide)
  have hasked : getMissingChunks false 3 [chunkAt 1 [7]] = .ok [⟨0, 1⟩, ⟨1, 2⟩] := by decide
  rw [hasked] at hblocks
  obtain rfl := Except.ok.inj hblocks
  have hheld := ((htiles.requested 1).mp (by decide)).2
  exact hheld (by decide)

end ACENetwork.BitTorrent.Tools
