import ACENetwork.BitTorrent.Tools.Chunks
import ACENetwork.Library.Runs
import ACENetwork.Library.Segments

/-!
# Reassembly of a piece from honest blocks

A chunk is a segment of the piece's content. The crop in `sanitizeChunks` drops
whole continuations from the end of a chunk, but advances the read pointer, and so
drops bytes from the front, when the overlap ends inside a block; and a chunk that
reaches behind the end of the next one loses its tail. `Croppable` excludes exactly
these two situations, and reassembly is lossless in every run that keeps to it.
-/
namespace ACENetwork.BitTorrent
open Library

def PieceChunk.segment (c : PieceChunk) : Segment UInt8 := ⟨c.offset.toNat, c.data.bytes⟩

theorem PieceChunk.segment_stop (c : PieceChunk) :
    c.segment.stop = c.offset.toNat + c.data.totalLength := by
  simp [segment, Segment.stop, MessageBlock.length_bytes]

theorem PieceChunk.holds_segment {c : PieceChunk} {p : ℕ} : c.segment.Holds p ↔
    c.offset.toNat ≤ p ∧ p < c.offset.toNat + c.data.totalLength := by
  rw [Segment.Holds, segment_stop]
  rfl

/-- A chunk of non-empty message blocks whose bytes are the content's. -/
structure Honest (content : List UInt8) (c : PieceChunk) : Prop where
  nonempty : ∀ b ∈ c.data.blocks, b ≠ []
  slice : c.segment.IsSliceOf content

instance (content : List UInt8) (c : PieceChunk) : Decidable (Honest content c) :=
  decidable_of_iff ((∀ b ∈ c.data.blocks, b ≠ []) ∧ c.segment.IsSliceOf content)
    ⟨fun h => ⟨h.1, h.2⟩, fun h => ⟨h.1, h.2⟩⟩

/-- The lengths at which a chain can be cut between two message blocks. -/
def MessageBlock.boundaries (b : MessageBlock) : List ℕ :=
  b.blocks.inits.map fun front => front.flatten.length

namespace Honest

variable {content : List UInt8} {c : PieceChunk}

theorem offset_lt_stop (h : Honest content c) : c.offset.toNat < c.segment.stop := by
  have hpos := List.length_pos_iff.mpr (h.nonempty c.data.data List.mem_cons_self)
  have hsum : c.data.totalLength = c.data.data.length + (c.data.cont.map List.length).sum := by
    simp [MessageBlock.totalLength, MessageBlock.blocks]
  rw [c.segment_stop]
  omega

theorem stop_le (h : Honest content c) :
    c.offset.toNat + c.data.totalLength ≤ content.length := by
  rw [← c.segment_stop]
  exact h.slice.stop_le

end Honest

namespace Tools

theorem cropContinuations_append (dropped front : List (List UInt8)) (hfront : front ≠ [])
    (hdropped : dropped ≠ []) (hne : ∀ b ∈ dropped, b ≠ [])
    (hlt : (dropped.map List.length).sum < 2 ^ 32) :
    cropContinuations (UInt32.ofNat (dropped.map List.length).sum) (dropped ++ front) =
      .ok front := by
  induction dropped with
  | nil => exact absurd rfl hdropped
  | cons last dropped ih =>
    simp only [List.map_cons, List.sum_cons] at hlt
    have hkeep : ¬ UInt32.ofNat last.length >
        UInt32.ofNat (last.length + (dropped.map List.length).sum) := by
      rw [gt_iff_lt, UInt32.lt_iff_toNat_lt, toNat_word (by omega), toNat_word (by omega)]
      omega
    have hsub : UInt32.ofNat (last.length + (dropped.map List.length).sum) -
        UInt32.ofNat last.length = UInt32.ofNat (dropped.map List.length).sum := by
      rw [UInt32.ofNat_add, UInt32.add_comm, UInt32.add_sub_cancel]
    simp only [List.map_cons, List.sum_cons, List.cons_append, cropContinuations, if_neg hkeep,
      List.append_eq_nil_iff, hfront, and_false, if_false, hsub]
    cases dropped with
    | nil => simp
    | cons b dropped =>
      have hb := List.length_pos_iff.mpr (hne b (by simp))
      have hnz : UInt32.ofNat ((b :: dropped).map List.length).sum ≠ 0 := by
        rw [ne_eq, ← UInt32.toNat_inj, toNat_word (by omega)]
        simp only [List.map_cons, List.sum_cons, UInt32.toNat_zero]
        omega
      rw [if_neg hnz]
      exact ih (by simp) (fun b hb => hne b (List.mem_cons_of_mem _ hb)) (by omega)

theorem cropChain_boundary {b : MessageBlock} {n : ℕ} (hb : n ∈ b.boundaries) (hpos : 0 < n)
    (hn : n < b.totalLength) (hne : ∀ x ∈ b.blocks, x ≠ []) (hlt : b.totalLength < 2 ^ 32) :
    ∃ c, cropChain (UInt32.ofNat (b.totalLength - n)) b = .ok c ∧
      (∀ x ∈ c.blocks, x ≠ []) ∧ c.bytes = b.bytes.take n := by
  obtain ⟨front, ⟨dropped, hsplit⟩, hfront⟩ : ∃ front, front <+: b.blocks ∧
      front.flatten.length = n := by
    simpa [MessageBlock.boundaries] using hb
  have hsum : (front.map List.length).sum = n := by rw [← hfront, List.length_flatten]
  have htotal : b.totalLength = n + (dropped.map List.length).sum := by
    simp [MessageBlock.totalLength, ← hsplit, hsum]
  cases front with
  | nil => simp at hsum; omega
  | cons first cont =>
    have hdropped : dropped ≠ [] := by
      rintro rfl
      simp at htotal
      omega
    have hmem : ∀ x, x ∈ first :: cont ∨ x ∈ dropped → x ≠ [] := fun x hx =>
      hne x (by rw [← hsplit]; exact List.mem_append.mpr hx)
    have hcrop := cropContinuations_append dropped.reverse (first :: cont).reverse (by simp)
      (by simpa using hdropped) (fun x hx => hmem x (.inr (by simpa using hx)))
      (by simp only [List.map_reverse, List.sum_reverse]; omega)
    rw [← List.reverse_append, hsplit, List.map_reverse, List.sum_reverse] at hcrop
    refine ⟨⟨first, cont⟩, ?_, fun x hx => hmem x (.inl hx), ?_⟩
    · have hsub : b.totalLength - n = (dropped.map List.length).sum := by omega
      simp [cropChain, hsub, hcrop, bind, Except.bind]
    · have hbytes : b.bytes = (first :: cont).flatten ++ dropped.flatten := by
        rw [MessageBlock.bytes, ← hsplit, List.flatten_append]
      rw [hbytes, ← hfront, List.take_left]
      rfl

theorem overlap_eq (chunk next : PieceChunk)
    (hlt : chunk.offset.toNat + chunk.data.totalLength < 2 ^ 32) :
    overlap chunk next = UInt32.ofNat (chunk.segment.stop - next.offset.toNat) := by
  have hsum : (chunk.offset + UInt32.ofNat chunk.data.totalLength).toNat = chunk.segment.stop := by
    rw [UInt32.toNat_add, toNat_word (by omega), Nat.mod_eq_of_lt hlt, chunk.segment_stop]
  have hstop := chunk.segment_stop
  simp only [overlap, gt_iff_lt, UInt32.lt_iff_toNat_lt, hsum]
  split
  · apply UInt32.toNat_inj.mp
    rw [UInt32.toNat_sub_of_le _ _ (by rw [UInt32.le_iff_toNat_le, hsum]; omega), hsum,
      toNat_word (by omega)]
  · rw [Nat.sub_eq_zero_of_le (by omega)]
    rfl

/-- Cropping leaves the part of the chunk in front of the next one. -/
theorem cropOverlap_honest {content : List UInt8} (hlen : content.length < 2 ^ 32)
    {chunk next : PieceChunk} (h : Honest content chunk) (hoff : chunk.offset < next.offset)
    (hb : next.offset.toNat < chunk.segment.stop →
      next.offset.toNat - chunk.offset.toNat ∈ chunk.data.boundaries) :
    ∃ c, cropOverlap chunk next = .ok c ∧ Honest content c ∧
      c.segment = chunk.segment.take (next.offset.toNat - chunk.offset.toNat) := by
  have hstop := h.stop_le
  have hseg := chunk.segment_stop
  rw [UInt32.lt_iff_toNat_lt] at hoff
  have hover := overlap_eq chunk next (by omega)
  by_cases hreach : next.offset.toNat < chunk.segment.stop
  · obtain ⟨c, hc, hne, hbytes⟩ := cropChain_boundary (hb hreach) (by omega) (by omega)
      h.nonempty (by omega)
    have hover' : overlap chunk next = UInt32.ofNat
        (chunk.data.totalLength - (next.offset.toNat - chunk.offset.toNat)) := by
      rw [hover]
      congr 1
      omega
    have hnz : overlap chunk next ≠ 0 := by
      rw [hover', ne_eq, ← UInt32.toNat_inj, toNat_word (by omega), UInt32.toNat_zero]
      omega
    have hcseg : (PieceChunk.mk c chunk.offset).segment =
        chunk.segment.take (next.offset.toNat - chunk.offset.toNat) := by
      simp [PieceChunk.segment, Segment.take, hbytes]
    refine ⟨⟨c, chunk.offset⟩, ?_, ⟨hne, ?_⟩, hcseg⟩
    · rw [cropOverlap, if_neg hnz, hover', hc]
      rfl
    · rw [hcseg]
      exact h.slice.take _
  · have hz : overlap chunk next = 0 := by
      rw [hover, Nat.sub_eq_zero_of_le (by omega)]
      rfl
    refine ⟨chunk, by rw [cropOverlap, if_pos hz], h, ?_⟩
    have hlong : chunk.data.bytes.length ≤ next.offset.toNat - chunk.offset.toNat := by
      rw [MessageBlock.length_bytes]
      omega
    simp [PieceChunk.segment, Segment.take, List.take_of_length_le hlong]

end Tools

/-- Wherever a chunk reaches over the start of the chunk that comes next, a message
block ends there, and the chunks from there on hold all bytes of the overlap. -/
def Croppable (chunks : List PieceChunk) : Prop :=
  ∀ c ∈ chunks, ∀ d ∈ chunks, c.segment.start < d.segment.start →
    d.segment.start < c.segment.stop →
    (∀ x ∈ chunks, x.segment.start ≤ c.segment.start ∨ d.segment.start ≤ x.segment.start) →
    d.segment.start - c.segment.start ∈ c.data.boundaries ∧
      ∀ p < c.segment.stop, d.segment.start ≤ p →
        ∃ x ∈ chunks, d.segment.start ≤ x.segment.start ∧ x.segment.Holds p

instance (chunks : List PieceChunk) : Decidable (Croppable chunks) :=
  inferInstanceAs (Decidable (∀ c ∈ chunks, ∀ d ∈ chunks, _))

theorem Croppable.of_subset {l m : List PieceChunk} (h : Croppable l) (hsub : m ⊆ l)
    (hfront : ∀ x ∈ l, x ∉ m → ∀ c ∈ m, x.segment.start ≤ c.segment.start) : Croppable m := by
  intro c hc d hd hcd hreach hnext
  have hnext' : ∀ x ∈ l,
      x.segment.start ≤ c.segment.start ∨ d.segment.start ≤ x.segment.start := fun x hx => by
    by_cases hxm : x ∈ m
    · exact hnext x hxm
    · exact .inl (hfront x hx hxm c hc)
  obtain ⟨hbound, hcover⟩ := h c (hsub hc) d (hsub hd) hcd hreach hnext'
  refine ⟨hbound, fun p hp hdp => ?_⟩
  obtain ⟨x, hx, hdx, hholds⟩ := hcover p hp hdp
  have hxm : x ∈ m := by
    by_contra hxm
    exact absurd (hdx.trans (hfront x hx hxm c hc)) (not_le.mpr hcd)
  exact ⟨x, hxm, hdx, hholds⟩

/-- `chunks` are slices of the content that hold what the `received` blocks hold. -/
structure Merged (content : List UInt8) (received chunks : List PieceChunk) : Prop where
  honest : ∀ c ∈ chunks, Honest content c
  ordered : Segment.Ordered (chunks.map PieceChunk.segment)
  covers : ∀ p, Segment.Covers (chunks.map PieceChunk.segment) p ↔
    Segment.Covers (received.map PieceChunk.segment) p

/-- A chunk of equal offset that is no longer adds nothing. -/
theorem Merged.duplicate {content : List UInt8} {chunk next : PieceChunk}
    {rest out : List PieceChunk} (h : Merged content (chunk :: rest) out)
    (hsame : chunk.offset = next.offset)
    (hshort : next.data.totalLength ≤ chunk.data.totalLength) :
    Merged content (chunk :: next :: rest) out where
  honest := h.honest
  ordered := h.ordered
  covers p := by
    have hin : next.segment.Holds p → chunk.segment.Holds p := by
      simp only [Segment.Holds, PieceChunk.segment_stop, hsame]
      simp only [PieceChunk.segment, hsame]
      omega
    rw [h.covers]
    simp only [List.map_cons, Segment.covers_cons]
    tauto

/-- A cropped chunk in front of the merged rest, which holds what was cropped. -/
theorem Merged.cons {content : List UInt8} {chunk next c : PieceChunk}
    {rest out : List PieceChunk} (h : Merged content (next :: rest) out)
    (hstart : ∀ x ∈ out, next.segment.start ≤ x.segment.start) (hc : Honest content c)
    (hlt : chunk.segment.start < next.segment.start)
    (hseg : c.segment = chunk.segment.take (next.segment.start - chunk.segment.start))
    (hcropped : ∀ p < chunk.segment.stop, next.segment.start ≤ p →
      Segment.Covers ((next :: rest).map PieceChunk.segment) p) :
    Merged content (chunk :: next :: rest) (c :: out) where
  honest := List.forall_mem_cons.mpr ⟨hc, h.honest⟩
  ordered := by
    have hstop : c.segment.stop ≤ next.segment.start := by
      have htake := chunk.segment.stop_take_le (next.segment.start - chunk.segment.start)
      rw [hseg]
      omega
    refine List.pairwise_cons.mpr ⟨fun s hs => ?_, h.ordered⟩
    obtain ⟨x, hx, rfl⟩ := List.mem_map.mp hs
    exact hstop.trans (hstart x hx)
  covers p := by
    have htake : c.segment.Holds p ↔ chunk.segment.Holds p ∧ p < next.segment.start := by
      rw [hseg, Segment.holds_take]
      have : chunk.segment.start + (next.segment.start - chunk.segment.start) =
        next.segment.start := by omega
      rw [this]
    have hrest : chunk.segment.Holds p → next.segment.start ≤ p →
        Segment.Covers ((next :: rest).map PieceChunk.segment) p := fun hp => hcropped p hp.2
    rw [List.map_cons, Segment.covers_cons, h.covers, htake, List.map_cons (l := next :: rest),
      Segment.covers_cons]
    rcases lt_or_ge p next.segment.start with hp | hp
    · simp only [hp, and_true]
    · simp only [not_lt.mpr hp, and_false, false_or]
      exact ⟨Or.inr, fun hor => hor.elim (fun hin => hrest hin hp) id⟩

namespace Tools

theorem start_le_of_sorted {chunk : PieceChunk} {rest : List PieceChunk}
    (hsort : (chunk :: rest).Pairwise fun a b => pieceChunksLess b a = false) :
    ∀ c ∈ chunk :: rest, chunk.segment.start ≤ c.segment.start := by
  refine List.forall_mem_cons.mpr ⟨le_rfl, fun c hc => ?_⟩
  rcases pieceChunksLess_eq_false.mp ((List.pairwise_cons.mp hsort).1 c hc) with hlt | ⟨heq, -⟩
  · exact hlt.le
  · simp [PieceChunk.segment, heq]

theorem mergeChunks_honest {content : List UInt8} (hlen : content.length < 2 ^ 32)
    {chunk : PieceChunk} {rest : List PieceChunk}
    (hsort : (chunk :: rest).Pairwise fun a b => pieceChunksLess b a = false)
    (hhonest : ∀ c ∈ chunk :: rest, Honest content c) (hcrop : Croppable (chunk :: rest)) :
    ∃ out, mergeChunks chunk rest = .ok out ∧ Merged content (chunk :: rest) out ∧
      ∀ c ∈ out, chunk.segment.start ≤ c.segment.start := by
  induction rest generalizing chunk with
  | nil =>
    refine ⟨[chunk], rfl, ⟨hhonest, List.pairwise_singleton _ _, fun p => Iff.rfl⟩, ?_⟩
    simp
  | cons next rest ih =>
    obtain ⟨hmin, htail⟩ := List.pairwise_cons.mp hsort
    have hle := start_le_of_sorted hsort
    by_cases hsame : chunk.offset = next.offset
    · have hsub : (chunk :: rest).Sublist (chunk :: next :: rest) :=
        (List.sublist_cons_self next rest).cons_cons chunk
      have hshort : next.data.totalLength ≤ chunk.data.totalLength := by
        rcases pieceChunksLess_eq_false.mp (hmin next List.mem_cons_self) with hlt | ⟨-, hle⟩
        · exact absurd (hsame ▸ hlt) (lt_irrefl _)
        · exact hle
      have hcrop' : Croppable (chunk :: rest) := hcrop.of_subset hsub.subset
        (fun x hx hxm c hc => by
          obtain rfl : x = next := by grind
          have hstart : chunk.segment.start = x.segment.start := by
            simp [PieceChunk.segment, hsame]
          exact hstart ▸ hle c (hsub.subset hc))
      obtain ⟨out, hout, hmerged, hstart⟩ := ih (hsort.sublist hsub)
        (fun c hc => hhonest c (hsub.subset hc)) hcrop'
      exact ⟨out, by rw [mergeChunks, if_pos hsame, hout], hmerged.duplicate hsame hshort, hstart⟩
    · have hlt : chunk.segment.start < next.segment.start :=
        lt_of_le_of_ne (hle next (by simp)) (fun he => hsame (UInt32.toNat_inj.mp he))
      have hnext : ∀ c ∈ next :: rest, next.segment.start ≤ c.segment.start := start_le_of_sorted htail
      have hgap : ∀ x ∈ chunk :: next :: rest,
          x.segment.start ≤ chunk.segment.start ∨ next.segment.start ≤ x.segment.start :=
        List.forall_mem_cons.mpr ⟨.inl le_rfl, fun x hx => .inr (hnext x hx)⟩
      have hreach := fun h => hcrop chunk List.mem_cons_self next (by simp) hlt h hgap
      obtain ⟨c, hc, hchonest, hcseg⟩ := cropOverlap_honest hlen (hhonest chunk List.mem_cons_self)
        (UInt32.lt_iff_toNat_lt.mpr hlt) (fun h => (hreach h).1)
      obtain ⟨out, hout, hmerged, hstart⟩ := ih htail
        (fun c hc => hhonest c (List.mem_cons_of_mem _ hc))
        (hcrop.of_subset (List.subset_cons_self _ _) (fun x hx hxm d hd => by
          obtain rfl : x = chunk := by simpa [hxm] using hx
          exact hle d (List.mem_cons_of_mem _ hd)))
      refine ⟨c :: out, ?_, hmerged.cons hstart hchonest hlt hcseg fun p hp hnp => ?_, ?_⟩
      · simp [mergeChunks, hsame, hc, hout, bind, Except.bind]
      · obtain ⟨x, hx, hxstart, hholds⟩ := (hreach (hnp.trans_lt hp)).2 p hp hnp
        have hxm : x ∈ next :: rest := by
          rcases List.mem_cons.mp hx with rfl | hx
          · omega
          · exact hx
        exact ⟨x.segment, List.mem_map_of_mem hxm, hholds⟩
      · refine List.forall_mem_cons.mpr ⟨?_, fun x hx => hlt.le.trans (hstart x hx)⟩
        rw [hcseg]
        exact le_rfl

theorem sum_totalLength (chunks : List PieceChunk) :
    (chunks.map fun chunk => UInt32.ofNat chunk.data.totalLength).sum =
      UInt32.ofNat (Segment.total (chunks.map PieceChunk.segment)) := by
  induction chunks with
  | nil => rfl
  | cons c chunks ih =>
    simp [ih, PieceChunk.segment, MessageBlock.length_bytes]

theorem isPieceComplete_eq (length : UInt32) (chunks : List PieceChunk) :
    isPieceComplete length chunks =
      decide (length = UInt32.ofNat (Segment.total (chunks.map PieceChunk.segment))) := by
  simp only [isPieceComplete, sum_totalLength]

theorem concatenate_eq (chunks : List PieceChunk) :
    concatenate chunks = (chunks.map PieceChunk.segment).flatMap Segment.data := by
  rw [concatenate, List.flatMap_map]
  rfl

end Tools

/-- What reassembly has to provide after the `received` blocks: chunks in the order
of their offsets that do not overlap, agree with the content and hold exactly what was
received, and that are the content once the piece counts as complete. -/
structure Reassembled (content : List UInt8) (received chunks : List PieceChunk) : Prop where
  increasing : chunks.Pairwise fun a b => a.offset < b.offset
  disjoint : Segment.Ordered (chunks.map PieceChunk.segment)
  slices : ∀ c ∈ chunks, c.segment.IsSliceOf content
  covers : ∀ p, Segment.Covers (chunks.map PieceChunk.segment) p ↔
    Segment.Covers (received.map PieceChunk.segment) p
  complete : Tools.isPieceComplete (UInt32.ofNat content.length) chunks = true →
    Tools.concatenate chunks = content

theorem Merged.reassembled {content : List UInt8} (hlen : content.length < 2 ^ 32)
    {received chunks : List PieceChunk} (h : Merged content received chunks) :
    Reassembled content received chunks where
  increasing := by
    refine (List.pairwise_map.mp h.ordered).imp_of_mem fun {a b} ha _ hab => ?_
    exact UInt32.lt_iff_toNat_lt.mpr ((h.honest a ha).offset_lt_stop.trans_le hab)
  disjoint := h.ordered
  slices c hc := (h.honest c hc).slice
  covers := h.covers
  complete hcomplete := by
    have hslice : ∀ a ∈ chunks.map PieceChunk.segment, a.IsSliceOf content := fun a ha => by
      obtain ⟨c, hc, rfl⟩ := List.mem_map.mp ha
      exact (h.honest c hc).slice
    have hle := Segment.add_total_le content.length.zero_le (fun a _ => a.start.zero_le)
      hslice h.ordered
    rw [Tools.isPieceComplete_eq, decide_eq_true_eq, ← UInt32.toNat_inj, toNat_word hlen,
      toNat_word (by omega)] at hcomplete
    rw [Tools.concatenate_eq]
    exact Segment.flatMap_data_eq hslice h.ordered hcomplete.symm

theorem appendChunk_honest (sort : Sorter pieceChunksLess) {content : List UInt8}
    (hlen : content.length < 2 ^ 32) {received chunks : List PieceChunk} {block : PieceChunk}
    (h : Merged content received chunks) (hblock : Honest content block)
    (hcrop : Croppable (chunks ++ [block])) :
    ∃ out, appendChunk sort chunks block = .ok out ∧
      Merged content (received ++ [block]) out := by
  have hperm := sort.perm (chunks ++ [block])
  have hsorted := sort.ordered (chunks ++ [block])
  rw [appendChunk, Tools.sanitizeChunks]
  cases hrun : sort.run (chunks ++ [block]) with
  | nil => simp [hrun] at hperm
  | cons chunk rest =>
    rw [hrun] at hperm hsorted
    have hhonest : ∀ c ∈ chunk :: rest, Honest content c := fun c hc => by
      rcases List.mem_append.mp (hperm.mem_iff.mp hc) with hc | hc
      · exact h.honest c hc
      · obtain rfl := List.mem_singleton.mp hc
        exact hblock
    have hcrop' : Croppable (chunk :: rest) := hcrop.of_subset hperm.subset
      (fun x hx hxm => absurd (hperm.mem_iff.mpr hx) hxm)
    obtain ⟨out, hout, hmerged, -⟩ := Tools.mergeChunks_honest hlen hsorted hhonest hcrop'
    refine ⟨out, hout, hmerged.honest, hmerged.ordered, fun p => ?_⟩
    rw [hmerged.covers, Segment.Covers.perm (hperm.map _), List.map_append, List.map_append,
      Segment.covers_append, Segment.covers_append, h.covers]

def reassemble (sort : Sorter pieceChunksLess) (blocks : List PieceChunk) :
    Except Fault (List PieceChunk) :=
  Runs.run (appendChunk sort) [] blocks

/-- Reassembly of honest blocks is lossless after every block of a run in which no
block is cropped inside a message block or behind the end of the next chunk. -/
theorem reassemble_lossless (sort : Sorter pieceChunksLess) (content : List UInt8)
    (hlen : content.length < 2 ^ 32) (blocks : List PieceChunk)
    (hhonest : ∀ b ∈ blocks, Honest content b)
    (hcrop : Runs.Along (appendChunk sort) (fun chunks b => Croppable (chunks ++ [b])) [] blocks)
    (received : List PieceChunk) (hreceived : received <+: blocks) :
    ∃ chunks, reassemble sort received = .ok chunks ∧ Reassembled content received chunks := by
  have hnil : Merged content [] [] := ⟨by simp, List.Pairwise.nil, fun p => Iff.rfl⟩
  have halong := (hcrop.of_prefix hreceived).and_forall fun b hb => hhonest b (hreceived.subset hb)
  obtain ⟨chunks, hrun, hmerged⟩ := Runs.run_total (Merged content)
    (fun seen chunks b hinv hb => appendChunk_honest sort hlen hinv hb.2 hb.1) hnil halong
  exact ⟨chunks, hrun, hmerged.reassembled hlen⟩

/-- The second block starts at a block boundary of the first one. -/
theorem reassemble_lossless_at_boundary :
    ∃ chunks, reassemble insertionSorter
        [⟨⟨[1, 2], [[3, 4]]⟩, 0⟩, ⟨⟨[3, 4, 5, 6], []⟩, 2⟩] = .ok chunks ∧
      Reassembled [1, 2, 3, 4, 5, 6]
        [⟨⟨[1, 2], [[3, 4]]⟩, 0⟩, ⟨⟨[3, 4, 5, 6], []⟩, 2⟩] chunks :=
  reassemble_lossless insertionSorter [1, 2, 3, 4, 5, 6] (by decide)
    [⟨⟨[1, 2], [[3, 4]]⟩, 0⟩, ⟨⟨[3, 4, 5, 6], []⟩, 2⟩] (by decide)
    ⟨by decide, fun s hs => ⟨by
      obtain rfl : s = [⟨⟨[1, 2], [[3, 4]]⟩, 0⟩] := by
        have hfirst : appendChunk insertionSorter [] ⟨⟨[1, 2], [[3, 4]]⟩, 0⟩ =
            .ok [⟨⟨[1, 2], [[3, 4]]⟩, 0⟩] := by decide
        exact (Except.ok.inj (hfirst.symm.trans hs)).symm
      decide, fun _ _ => trivial⟩⟩ _ (List.prefix_refl _)

/-- An overlap that ends inside a message block is cut from the front of that block:
the chunk at offset 0 keeps bytes 2 and 3 of the content. -/
theorem reassemble_not_lossless :
    ¬ ∀ (content : List UInt8) (blocks : List PieceChunk), content.length < 2 ^ 32 →
      (∀ b ∈ blocks, Honest content b) →
      ∃ chunks, reassemble insertionSorter blocks = .ok chunks ∧
        Reassembled content blocks chunks := by
  intro h
  obtain ⟨chunks, hrun, hchunks⟩ := h [1, 2, 3, 4, 5, 6]
    [⟨⟨[1, 2, 3, 4], []⟩, 0⟩, ⟨⟨[3, 4, 5, 6], []⟩, 2⟩] (by decide) (by decide)
  have hresult : reassemble insertionSorter
      [⟨⟨[1, 2, 3, 4], []⟩, 0⟩, ⟨⟨[3, 4, 5, 6], []⟩, 2⟩] =
      .ok [⟨⟨[3, 4], []⟩, 0⟩, ⟨⟨[3, 4, 5, 6], []⟩, 2⟩] := by decide
  obtain rfl := Except.ok.inj (hresult.symm.trans hrun)
  exact absurd (hchunks.slices ⟨⟨[3, 4], []⟩, 0⟩ (by decide)) (by decide)

end ACENetwork.BitTorrent
