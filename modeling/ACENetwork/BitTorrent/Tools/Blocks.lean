import ACENetwork.BitTorrent.Tools.MissingBlocks

/-!
# The blocks of a piece

A session that starts without a piece asks for it in blocks of one size, each at a multiple of that
size. Two of them are the same block or do not overlap, so that no chunk is cropped as long as the
answers are what was asked for, and what is asked for behind such chunks are such blocks again.
-/
namespace ACENetwork.BitTorrent.Tools
open Library

/-- The size of the blocks, but for a last one that is shorter. -/
def blockSize : ℕ := requestBlockLengthMax.toNat

theorem blockSize_eq : blockSize = 16384 := rfl

/-- A block of a piece of `n` bytes. -/
structure IsBlock (n begin length : ℕ) : Prop where
  dvd : blockSize ∣ begin
  lt : begin < n
  length_eq : length = min blockSize (n - begin)

namespace IsBlock

variable {n begin length begin' length' : ℕ}

theorem le (h : IsBlock n begin length) : begin + length ≤ n := by
  have hlt := h.lt
  have hlength := h.length_eq
  omega

theorem next (h : IsBlock n begin length) : blockSize ∣ begin + length ∨ begin + length = n := by
  obtain ⟨⟨k, rfl⟩, hlt, rfl⟩ := h
  rw [blockSize_eq] at *
  omega

theorem stop_le (h : IsBlock n begin length) (h' : IsBlock n begin' length') (hlt : begin < begin') :
    begin + length ≤ begin' := by
  obtain ⟨⟨k, rfl⟩, -, rfl⟩ := h
  obtain ⟨⟨k', rfl⟩, -, rfl⟩ := h'
  rw [blockSize_eq] at *
  omega

end IsBlock

@[simp] theorem splitMissing_zero (fuel : ℕ) (offset : UInt32) :
    splitMissing fuel offset 0 = [] := by
  cases fuel <;> simp [splitMissing]

/-- The next block of a hole between multiples of the size, or up to the end of the piece. -/
theorem nextBlock_eq {n : ℕ} {offset missing : UInt32} (hmissing : missing ≠ 0)
    (hdvd : blockSize ∣ offset.toNat) (hle : offset.toNat + missing.toNat ≤ n)
    (hend : blockSize ∣ offset.toNat + missing.toNat ∨ offset.toNat + missing.toNat = n) :
    (if missing < requestBlockLengthMax then missing else requestBlockLengthMax).toNat =
      min blockSize (n - offset.toNat) := by
  have hpos : 0 < missing.toNat := UInt32.lt_iff_toNat_lt.mp (UInt32.pos_iff_ne_zero.mpr hmissing)
  obtain ⟨k, hk⟩ := hdvd
  rw [blockSize_eq] at *
  by_cases hlt : missing < requestBlockLengthMax
  · have hlt' : missing.toNat < 16384 := UInt32.lt_iff_toNat_lt.mp hlt
    rw [if_pos hlt]
    rcases hend with ⟨m, hm⟩ | hend <;> omega
  · have hge : 16384 ≤ missing.toNat :=
      UInt32.le_iff_toNat_le.mp (UInt32.not_lt.mp hlt : requestBlockLengthMax ≤ missing)
    rw [if_neg hlt]
    change 16384 = _
    omega

theorem splitMissing_isBlock {n fuel : ℕ} {offset missing : UInt32} (hn : n < 2 ^ 32)
    (hdvd : blockSize ∣ offset.toNat) (hle : offset.toNat + missing.toNat ≤ n)
    (hend : blockSize ∣ offset.toNat + missing.toNat ∨ offset.toNat + missing.toNat = n) :
    ∀ b ∈ splitMissing fuel offset missing, IsBlock n b.begin.toNat b.length.toNat := by
  induction fuel generalizing offset missing with
  | zero => simp [splitMissing]
  | succ fuel ih =>
    by_cases hzero : missing = 0
    · simp [hzero]
    · have hlength := nextBlock_eq hzero hdvd hle hend
      obtain ⟨hpos, -, hshort⟩ := nextBlock_length hzero
      simp only [splitMissing, if_neg hzero]
      generalize (if missing < requestBlockLengthMax then missing
        else requestBlockLengthMax) = length at hlength hpos hshort ⊢
      have hpos := UInt32.lt_iff_toNat_lt.mp hpos
      rw [UInt32.toNat_zero] at hpos
      have hoffset : (offset + length).toNat = offset.toNat + length.toNat := by
        rw [UInt32.toNat_add, Nat.mod_eq_of_lt (by omega)]
      have hrest : (missing - length).toNat = missing.toNat - length.toNat :=
        UInt32.toNat_sub_of_le _ _ (UInt32.le_iff_toNat_le.mpr hshort)
      have hblock : IsBlock n offset.toNat length.toNat := ⟨hdvd, by omega, hlength⟩
      refine List.forall_mem_cons.mpr ⟨hblock, ?_⟩
      by_cases hdone : missing - length = 0
      · simp [hdone]
      · -- bytes are left, so that the block has the full size
        have hleft : (missing - length).toNat ≠ 0 := fun h => hdone (UInt32.toNat_inj.mp h)
        apply ih
        · rw [hoffset]
          exact hblock.next.elim id fun hstop => by omega
        · omega
        · rw [hoffset, hrest]
          rwa [show offset.toNat + length.toNat + (missing.toNat - length.toNat) =
            offset.toNat + missing.toNat by omega]

theorem getMissingChunksFrom_isBlock {ndebug : Bool} {pieceLength offset : UInt32}
    {chunks : List PieceChunk} {blocks : List Block}
    (hordered : Segment.Ordered (chunks.map PieceChunk.segment))
    (hchunks : ∀ c ∈ chunks, IsBlock pieceLength.toNat c.offset.toNat c.data.totalLength)
    (hstart : ∀ c ∈ chunks, offset.toNat ≤ c.offset.toNat) (hoffset : offset ≤ pieceLength)
    (hdvd : blockSize ∣ offset.toNat ∨ offset = pieceLength)
    (h : getMissingChunksFrom ndebug pieceLength offset chunks = .ok blocks) :
    ∀ b ∈ blocks, IsBlock pieceLength.toNat b.begin.toNat b.length.toNat := by
  have hlt := pieceLength.toNat_lt
  induction chunks generalizing offset blocks with
  | nil =>
    obtain rfl := Except.ok.inj h
    rcases hdvd with hdvd | rfl
    · have hsub := UInt32.toNat_sub_of_le _ _ hoffset
      have hle := UInt32.le_iff_toNat_le.mp hoffset
      exact splitMissing_isBlock hlt hdvd (by omega) (.inr (by omega))
    · simp [missingBlocks]
  | cons chunk chunks ih =>
    obtain ⟨hafter, hrest⟩ := List.pairwise_cons.mp hordered
    obtain ⟨hchunk, hchunks⟩ := List.forall_mem_cons.mp hchunks
    obtain ⟨hle, -⟩ := List.forall_mem_cons.mp hstart
    have hafter : ∀ c ∈ chunks, chunk.offset.toNat + chunk.data.totalLength ≤ c.offset.toNat := by
      intro c hc
      have := hafter c.segment (List.mem_map_of_mem hc)
      rwa [PieceChunk.segment_stop] at this
    have hinside := hchunk.le
    rw [getMissingChunksFrom] at h
    by_cases hequal : chunk.offset = offset
    · rw [if_pos hequal] at h
      have hend : (chunk.offset + UInt32.ofNat chunk.data.totalLength).toNat =
          chunk.offset.toNat + chunk.data.totalLength := by
        rw [UInt32.toNat_add, toNat_word (by omega), Nat.mod_eq_of_lt (by omega)]
      refine ih hrest hchunks (by rwa [hend]) (UInt32.le_iff_toNat_le.mpr (by omega)) ?_ h
      rw [hend]
      exact hchunk.next.imp id fun hstop => UInt32.toNat_inj.mp (by rw [hend, hstop])
    · rw [if_neg hequal] at h
      obtain ⟨u, -, h⟩ := fault_bind_ok.mp h
      obtain ⟨rest, hblocks, h⟩ := fault_bind_ok.mp h
      obtain rfl := Except.ok.inj h
      have hstop : chunk.offset ≤ pieceLength := UInt32.le_iff_toNat_le.mpr (by omega)
      refine List.forall_mem_append.mpr ⟨?_, ih hrest hchunks
        (fun c hc => (Nat.le_add_right _ _).trans (hafter c hc)) hstop (.inl hchunk.dvd) hblocks⟩
      -- the hole ends at a block, so that it does not start at the end of the piece
      have hsub := UInt32.toNat_sub_of_le chunk.offset offset (UInt32.le_iff_toNat_le.mpr hle)
      have hstart := hchunk.lt
      rcases hdvd with hdvd | rfl
      · refine splitMissing_isBlock hlt hdvd (by omega) (.inl ?_)
        rw [hsub, Nat.add_sub_cancel' hle]
        exact hchunk.dvd
      · omega

structure IsBlockOf (content : List UInt8) (chunk : PieceChunk) : Prop where
  honest : Honest content chunk
  isBlock : IsBlock content.length chunk.offset.toNat chunk.data.totalLength

structure HoldsBlocks (content : List UInt8) (chunks : List PieceChunk) : Prop where
  isBlockOf : ∀ c ∈ chunks, IsBlockOf content c
  ordered : Segment.Ordered (chunks.map PieceChunk.segment)

section Append

variable {content : List UInt8} {chunks : List PieceChunk}

theorem holdsBlocks_nil (content : List UInt8) : HoldsBlocks content [] :=
  ⟨by simp, List.Pairwise.nil⟩

theorem IsBlockOf.stop_le {c d : PieceChunk} (hc : IsBlockOf content c) (hd : IsBlockOf content d)
    (hlt : c.segment.start < d.segment.start) : c.segment.stop ≤ d.segment.start := by
  rw [PieceChunk.segment_stop]
  exact hc.isBlock.stop_le hd.isBlock hlt

theorem croppable_of_isBlockOf (h : ∀ c ∈ chunks, IsBlockOf content c) : Croppable chunks :=
  fun c hc d hd hlt hreach _ =>
    absurd hreach (not_lt.mpr ((h c hc).stop_le (h d hd) hlt))

theorem mergeChunks_subset (hlen : content.length < 2 ^ 32) {chunk : PieceChunk}
    {rest out : List PieceChunk} (hsort : (chunk :: rest).Pairwise fun a b => pieceChunksLess b a = false)
    (hblocks : ∀ c ∈ chunk :: rest, IsBlockOf content c) (h : mergeChunks chunk rest = .ok out) :
    out ⊆ chunk :: rest := by
  induction rest generalizing chunk out with
  | nil =>
    obtain rfl := Except.ok.inj h
    exact List.Subset.refl _
  | cons next rest ih =>
    have hle := start_le_of_sorted hsort
    rw [mergeChunks] at h
    by_cases hsame : chunk.offset = next.offset
    · rw [if_pos hsame] at h
      have hsub : (chunk :: rest).Sublist (chunk :: next :: rest) :=
        (List.sublist_cons_self next rest).cons_cons chunk
      intro c hc
      exact hsub.subset (ih (hsort.sublist hsub) (fun c hc => hblocks c (hsub.subset hc)) h hc)
    · rw [if_neg hsame] at h
      obtain ⟨cropped, hcrop, h⟩ := fault_bind_ok.mp h
      obtain ⟨merged, hmerged, h⟩ := fault_bind_ok.mp h
      obtain rfl := Except.ok.inj h
      have hchunk := hblocks chunk List.mem_cons_self
      have hlt : chunk.segment.start < next.segment.start :=
        lt_of_le_of_ne (hle next (by simp)) fun heq => hsame (UInt32.toNat_inj.mp heq)
      have hstop : chunk.segment.stop ≤ next.offset.toNat :=
        hchunk.stop_le (hblocks next (by simp)) hlt
      have hbound := hchunk.honest.stop_le
      have hzero : overlap chunk next = 0 := by
        rw [overlap_eq chunk next (by omega), Nat.sub_eq_zero_of_le hstop]
        rfl
      rw [cropOverlap, if_pos hzero] at hcrop
      obtain rfl := Except.ok.inj hcrop
      exact List.cons_subset_cons _ (ih (List.pairwise_cons.mp hsort).2
        (fun c hc => hblocks c (List.mem_cons_of_mem _ hc)) hmerged)

/-- A block is added to the blocks of a piece, and nothing is lost. -/
theorem HoldsBlocks.append (sort : Sorter pieceChunksLess) (hlen : content.length < 2 ^ 32)
    (h : HoldsBlocks content chunks) {block : PieceChunk} (hblock : IsBlockOf content block) :
    ∃ out, appendChunk sort chunks block = .ok out ∧ HoldsBlocks content out ∧
      ∀ p, Segment.Covers (out.map PieceChunk.segment) p ↔
        Segment.Covers (chunks.map PieceChunk.segment) p ∨ block.segment.Holds p := by
  have hall : ∀ c ∈ chunks ++ [block], IsBlockOf content c := by
    intro c hc
    rcases List.mem_append.mp hc with hc | hc
    · exact h.isBlockOf c hc
    · exact List.mem_singleton.mp hc ▸ hblock
  have hmerged : Merged content chunks chunks :=
    ⟨fun c hc => (h.isBlockOf c hc).honest, h.ordered, fun p => Iff.rfl⟩
  obtain ⟨out, hout, hafter⟩ :=
    appendChunk_honest sort hlen hmerged hblock.honest (croppable_of_isBlockOf hall)
  have hsubset : out ⊆ chunks ++ [block] := by
    have hrun := hout
    have hsorted := sort.ordered (chunks ++ [block])
    have hperm := sort.perm (chunks ++ [block])
    rw [appendChunk, sanitizeChunks] at hrun
    cases hsort : sort.run (chunks ++ [block]) with
    | nil =>
      rw [hsort] at hrun
      obtain rfl := Except.ok.inj hrun
      exact List.nil_subset _
    | cons chunk rest =>
      rw [hsort] at hrun hsorted hperm
      intro c hc
      exact hperm.subset
        (mergeChunks_subset hlen hsorted (fun c hc => hall c (hperm.subset hc)) hrun hc)
  refine ⟨out, hout, ⟨fun c hc => hall c (hsubset hc), hafter.ordered⟩, fun p => ?_⟩
  rw [hafter.covers, List.map_append, Segment.covers_append]
  simp

theorem HoldsBlocks.complete (hlen : content.length < 2 ^ 32) (h : HoldsBlocks content chunks) :
    isPieceComplete (UInt32.ofNat content.length) chunks = true ↔
      ∀ p < content.length, Segment.Covers (chunks.map PieceChunk.segment) p := by
  have hstop : ∀ a ∈ chunks.map PieceChunk.segment, a.stop ≤ content.length := by
    intro a ha
    obtain ⟨c, hc, rfl⟩ := List.mem_map.mp ha
    exact (h.isBlockOf c hc).honest.slice.stop_le
  have hcard := Segment.card_covered h.ordered hstop
  have hle := Finset.card_filter_le (Finset.range content.length)
    (Segment.Covers (chunks.map PieceChunk.segment))
  rw [Finset.card_range] at hle
  rw [isPieceComplete_eq, decide_eq_true_eq, ← UInt32.toNat_inj, toNat_word hlen,
    toNat_word (by omega), ← hcard]
  constructor
  · intro hsame p hp
    have hall := Finset.eq_of_subset_of_card_le (Finset.filter_subset
      (Segment.Covers (chunks.map PieceChunk.segment)) (Finset.range content.length))
      (by rw [Finset.card_range, ← hsame])
    have hmem := Finset.mem_range.mpr hp
    rw [← hall] at hmem
    exact (Finset.mem_filter.mp hmem).2
  · intro hall
    rw [Finset.filter_true_of_mem fun p hp => hall p (Finset.mem_range.mp hp), Finset.card_range]

theorem HoldsBlocks.concatenate (hlen : content.length < 2 ^ 32) (h : HoldsBlocks content chunks)
    (hcomplete : isPieceComplete (UInt32.ofNat content.length) chunks = true) :
    concatenate chunks = content :=
  (Merged.reassembled hlen ⟨fun c hc => (h.isBlockOf c hc).honest, h.ordered, fun _ =>
    Iff.rfl⟩ : Reassembled content chunks chunks).complete hcomplete

end Append

end ACENetwork.BitTorrent.Tools
