import ACENetwork.BitTorrent.Reassembly
import ACENetwork.BitTorrent.Session.Handlers

/-!
# Serving a block

The walk to the chunk of a request stops at the first chunk that does not start in front of it, and
so there has to be one: a request may lie in the last chunk only from its first byte on. In the
chunk it has to start in the first message block, and a piece that counts as on disk must not be in
memory. All other requests are served with the bytes of the piece.
-/
namespace ACENetwork.BitTorrent
open Library

def Contiguous (stop : ℕ) : (start : ℕ) → List PieceChunk → Prop
  | start, [] => start = stop
  | start, chunk :: chunks =>
    chunk.offset.toNat = start ∧ Contiguous stop (start + chunk.data.totalLength) chunks

/-- A complete piece in memory: chunks of message blocks that are not empty, sorted, without
overlaps and without gaps. -/
structure Piece.Held (piece : Piece) : Prop where
  blocks : ∀ c ∈ piece.chunks, ∀ b ∈ c.data.blocks, b ≠ []
  ordered : Segment.Ordered (piece.chunks.map PieceChunk.segment)
  covers : ∀ p, Segment.Covers (piece.chunks.map PieceChunk.segment) p ↔ p < piece.length.toNat

/-- The request lies in the first message block of a chunk, and at its start if no chunk follows. -/
def Servable (begin : UInt32) : List PieceChunk → Prop
  | [] => False
  | chunk :: rest =>
    (chunk.offset ≤ begin ∧ begin.toNat < chunk.offset.toNat + chunk.data.data.length ∧
      (chunk.offset = begin ∨ rest ≠ [])) ∨ Servable begin rest

instance decidableServable (begin : UInt32) :
    (chunks : List PieceChunk) → Decidable (Servable begin chunks)
  | [] => isFalse id
  | _ :: rest => @instDecidableOr _ _ inferInstance (decidableServable begin rest)

theorem MessageBlock.totalLength_pos {b : MessageBlock} (h : ∀ block ∈ b.blocks, block ≠ []) :
    0 < b.totalLength := by
  have hfirst := List.length_pos_iff.mpr (h b.data List.mem_cons_self)
  simp only [totalLength, blocks, List.map_cons, List.sum_cons]
  omega

theorem contiguous_of_covers {chunks : List PieceChunk} {start stop : ℕ} (hle : start ≤ stop)
    (hpos : ∀ c ∈ chunks, 0 < c.data.totalLength)
    (hordered : Segment.Ordered (chunks.map PieceChunk.segment))
    (hcovers : ∀ p, Segment.Covers (chunks.map PieceChunk.segment) p ↔ start ≤ p ∧ p < stop) :
    Contiguous stop start chunks := by
  induction chunks generalizing start with
  | nil =>
    by_contra hne
    have hne : start ≠ stop := hne
    exact Segment.covers_nil start ((hcovers start).mpr ⟨le_rfl, by omega⟩)
  | cons chunk chunks ih =>
    obtain ⟨hchunk, hpos⟩ := List.forall_mem_cons.mp hpos
    obtain ⟨hafter, hordered⟩ := List.pairwise_cons.mp hordered
    have hafter : ∀ p, Segment.Covers (chunks.map PieceChunk.segment) p →
        chunk.offset.toNat + chunk.data.totalLength ≤ p := by
      rintro p ⟨a, ha, hp, -⟩
      have hstop := hafter a ha
      rw [PieceChunk.segment_stop] at hstop
      exact hstop.trans hp
    have hcovers (p : ℕ) : (chunk.offset.toNat ≤ p ∧
        p < chunk.offset.toNat + chunk.data.totalLength) ∨
          Segment.Covers (chunks.map PieceChunk.segment) p ↔ start ≤ p ∧ p < stop := by
      rw [← hcovers, List.map_cons, Segment.covers_cons, PieceChunk.holds_segment]
    -- the first byte is in the first chunk, since the others lie behind it
    have hoffset : chunk.offset.toNat = start := by
      have hfirst := (hcovers chunk.offset.toNat).mp (.inl ⟨le_rfl, by omega⟩)
      rcases (hcovers start).mpr ⟨le_rfl, by omega⟩ with hhere | hlater
      · omega
      · have := hafter _ hlater
        omega
    have hlast := (hcovers (chunk.offset.toNat + chunk.data.totalLength - 1)).mp
      (.inl ⟨by omega, by omega⟩)
    refine ⟨hoffset, ih (by omega) hpos hordered fun p => ⟨fun hp => ?_, fun hp => ?_⟩⟩
    · have hbehind := hafter p hp
      exact ⟨by omega, ((hcovers p).mp (.inr hp)).2⟩
    · rcases (hcovers p).mpr ⟨by omega, hp.2⟩ with hhere | hlater
      · omega
      · exact hlater

theorem Piece.Held.contiguous {piece : Piece} (h : piece.Held) :
    Contiguous piece.length.toNat 0 piece.chunks :=
  contiguous_of_covers (Nat.zero_le _)
    (fun c hc => MessageBlock.totalLength_pos (h.blocks c hc)) h.ordered (by simpa using h.covers)

namespace Contiguous

variable {stop start : ℕ} {chunks front rest : List PieceChunk} {chunk : PieceChunk}

theorem length_concatenate (h : Contiguous stop start chunks) :
    start + (Tools.concatenate chunks).length = stop := by
  induction chunks generalizing start with
  | nil => exact h
  | cons chunk chunks ih =>
    have hrest := ih h.2
    simp only [Tools.concatenate, List.flatMap_cons, List.length_append,
      MessageBlock.length_bytes] at hrest ⊢
    omega

theorem append (h : Contiguous stop start (front ++ chunk :: rest)) :
    start + (Tools.concatenate front).length = chunk.offset.toNat ∧
      Contiguous stop (chunk.offset.toNat + chunk.data.totalLength) rest ∧
      ∀ c ∈ front, c.offset.toNat + c.data.totalLength ≤ chunk.offset.toNat := by
  induction front generalizing start with
  | nil => exact ⟨by simpa [Tools.concatenate] using h.1.symm, h.1 ▸ h.2, by simp⟩
  | cons c front ih =>
    obtain ⟨hlength, hrest, hfront⟩ := ih h.2
    have hstart := h.1
    refine ⟨?_, hrest, List.forall_mem_cons.mpr ⟨by omega, hfront⟩⟩
    simp only [Tools.concatenate, List.flatMap_cons, List.length_append,
      MessageBlock.length_bytes] at hlength ⊢
    omega

theorem exists_chunk (h : Contiguous stop start chunks) {p : ℕ} (hstart : start ≤ p)
    (hstop : p < stop) : ∃ front chunk rest, chunks = front ++ chunk :: rest ∧
      chunk.offset.toNat ≤ p ∧ p < chunk.offset.toNat + chunk.data.totalLength := by
  induction chunks generalizing start with
  | nil => exact absurd (h ▸ hstart) (not_le.mpr hstop)
  | cons chunk chunks ih =>
    by_cases hhere : p < start + chunk.data.totalLength
    · exact ⟨[], chunk, chunks, rfl, h.1 ▸ hstart, h.1 ▸ hhere⟩
    · obtain ⟨front, c, rest, rfl, hc⟩ := ih h.2 (not_lt.mp hhere)
      exact ⟨chunk :: front, c, rest, rfl, hc⟩

theorem lt_offset (h : Contiguous stop start chunks) (c : PieceChunk) (hc : c ∈ chunks) :
    start ≤ c.offset.toNat := by
  obtain ⟨front, rest, rfl⟩ := List.append_of_mem hc
  have := h.append.1
  omega

end Contiguous

theorem MessageBlock.length_data_le (b : MessageBlock) : b.data.length ≤ b.totalLength := by
  simp [totalLength, blocks]

theorem not_servable_behind {begin : UInt32} {chunks : List PieceChunk}
    (h : ∀ c ∈ chunks, begin < c.offset) : ¬ Servable begin chunks := by
  induction chunks with
  | nil => exact id
  | cons chunk chunks ih =>
    obtain ⟨hchunk, hrest⟩ := List.forall_mem_cons.mp h
    rintro (⟨hle, -⟩ | hlater)
    · exact absurd hle (UInt32.not_le.mpr hchunk)
    · exact ih hrest hlater

theorem servable_append {begin : UInt32} {front rest : List PieceChunk} {chunk : PieceChunk}
    (hfront : ∀ c ∈ front, c.offset.toNat + c.data.totalLength ≤ begin.toNat)
    (hchunk : chunk.offset ≤ begin) (hrest : ∀ c ∈ rest, begin < c.offset) :
    Servable begin (front ++ chunk :: rest) ↔
      begin.toNat < chunk.offset.toNat + chunk.data.data.length ∧
        (chunk.offset = begin ∨ rest ≠ []) := by
  induction front with
  | nil => simp [Servable, not_servable_behind hrest, hchunk]
  | cons c front ih =>
    obtain ⟨hc, hfront⟩ := List.forall_mem_cons.mp hfront
    have hdata := c.data.length_data_le
    have hnot : ¬ begin.toNat < c.offset.toNat + c.data.data.length := by omega
    simp only [List.cons_append, Servable, hnot, false_and, and_false, false_or]
    exact ih hfront

theorem Piece.Held.complete {piece : Piece} (h : piece.Held) :
    Tools.isPieceComplete piece.length piece.chunks = true := by
  have hlength := h.contiguous.length_concatenate
  rw [Nat.zero_add, Tools.concatenate_eq, List.length_flatMap] at hlength
  rw [Tools.isPieceComplete_eq, Segment.total, hlength]
  simp

namespace Session
open Tools

variable {cfg : Configuration} {env : Environment}

/-- The walk to the chunk that holds the first byte of the request: it needs a chunk behind it
unless it starts with this byte. -/
theorem seekChunk_append {begin : UInt32} {front rest : List PieceChunk} {chunk : PieceChunk}
    (previous : Option PieceChunk) (hfront : ∀ c ∈ front, c.offset < begin)
    (hchunk : chunk.offset ≤ begin) (hrest : ∀ c ∈ rest, begin < c.offset) :
    seekChunk begin previous (front ++ chunk :: rest) =
      if chunk.offset = begin ∨ rest ≠ [] then .ok (chunk, rest) else .error .endIterator := by
  induction front generalizing previous with
  | nil =>
    unfold seekChunk
    by_cases hequal : chunk.offset = begin
    · simp [hequal]
    · have hlt : chunk.offset < begin := UInt32.lt_of_le_of_ne hchunk hequal
      rw [List.nil_append]
      simp only [if_pos hlt]
      cases rest with
      | nil => simp [seekChunk, hequal]
      | cons next rest =>
        have hnext := hrest next List.mem_cons_self
        unfold seekChunk
        simp [UInt32.not_lt.mpr (UInt32.le_of_lt hnext), hnext]
  | cons c front ih =>
    obtain ⟨hc, hfront⟩ := List.forall_mem_cons.mp hfront
    unfold seekChunk
    rw [List.cons_append]
    simp only [if_pos hc]
    exact ih (some c) hfront

variable (cfg) in
theorem gatherBlocks_ok {missing : ℕ} {blocks : List (List UInt8)} (hne : blocks ≠ [])
    (hle : missing ≤ blocks.flatten.length) :
    ∃ taken, gatherBlocks cfg missing blocks = .ok taken ∧
      taken.flatten = blocks.flatten.take missing := by
  induction blocks generalizing missing with
  | nil => exact absurd rfl hne
  | cons block blocks ih =>
    rw [gatherBlocks]
    by_cases hhere : missing ≤ block.length
    · refine ⟨[block.take missing], by rw [if_pos hhere], ?_⟩
      rw [List.flatten_singleton, List.flatten_cons, List.take_append_of_le_length hhere]
    · rw [List.flatten_cons, List.length_append] at hle
      have hblocks : blocks ≠ [] := by
        rintro rfl
        rw [List.flatten_nil, List.length_nil] at hle
        omega
      have hle' : missing - block.length ≤ blocks.flatten.length := by omega
      obtain ⟨taken, htaken, hbytes⟩ := ih hblocks hle'
      refine ⟨block :: taken, by simp [hhere, htaken, bind, Except.bind], ?_⟩
      rw [List.flatten_cons, hbytes, List.flatten_cons, List.take_append,
        List.take_of_length_le (not_le.mp hhere).le]

theorem concatenate_drop (front rest : List PieceChunk) {chunk : PieceChunk} {offset : ℕ}
    (hle : offset ≤ chunk.data.data.length) :
    (chunk.data.data.drop offset ::
        (chunk.data.cont ++ rest.flatMap fun chunk => chunk.data.blocks)).flatten =
      (concatenate (front ++ chunk :: rest)).drop ((concatenate front).length + offset) := by
  have hrest : (rest.flatMap fun chunk => chunk.data.blocks).flatten = concatenate rest := by
    induction rest with
    | nil => rfl
    | cons c rest ih =>
      rw [List.flatMap_cons, List.flatten_append, ih]
      rfl
  have hsplit : concatenate (front ++ chunk :: rest) =
      concatenate front ++ (chunk.data.data ++ (chunk.data.cont.flatten ++ concatenate rest)) := by
    simp [concatenate, MessageBlock.bytes, MessageBlock.blocks]
  rw [hsplit, ← List.drop_drop, List.drop_left, List.drop_append_of_le_length hle,
    List.flatten_cons, List.flatten_append, hrest]

variable (cfg) in
/-- The blocks that are attached are those of the request exactly when it can be served. -/
theorem chunkData_served {chunks : List PieceChunk} {begin length : UInt32} {stop : ℕ}
    (hndebug : cfg.ndebug = false) (h : Contiguous stop 0 chunks)
    (hblocks : ∀ c ∈ chunks, ∀ b ∈ c.data.blocks, b ≠ []) (hlength : 0 < length)
    (hle : begin.toNat + length.toNat ≤ stop) :
    (∃ blocks, chunkData cfg chunks begin length = .ok blocks ∧
      blocks.flatten = ((concatenate chunks).drop begin.toNat).take length.toNat) ↔
        Servable begin chunks := by
  have hpos : 0 < length.toNat := UInt32.lt_iff_toNat_lt.mp hlength
  obtain ⟨front, chunk, rest, rfl, hlow, hhigh⟩ :=
    h.exists_chunk (p := begin.toNat) (Nat.zero_le _) (by omega)
  obtain ⟨hstart, hbehind, hfront⟩ := h.append
  have hchunk : chunk.offset ≤ begin := UInt32.le_iff_toNat_le.mpr hlow
  have hfront : ∀ c ∈ front, c.offset.toNat + c.data.totalLength ≤ begin.toNat :=
    fun c hc => (hfront c hc).trans hlow
  have hbefore : ∀ c ∈ front, c.offset < begin := fun c hc => by
    have hsome := MessageBlock.totalLength_pos (hblocks c (List.mem_append_left _ hc))
    have hend := hfront c hc
    exact UInt32.lt_iff_toNat_lt.mpr (by omega)
  have hrest : ∀ c ∈ rest, begin < c.offset := fun c hc =>
    UInt32.lt_iff_toNat_lt.mpr (hhigh.trans_le (hbehind.lt_offset c hc))
  rw [servable_append hfront hchunk hrest, chunkData, seekChunk_append none hbefore hchunk hrest]
  have hoffset := UInt32.toNat_sub_of_le _ _ hchunk
  by_cases hseek : chunk.offset = begin ∨ rest ≠ []
  · have hfound : (decide (chunk.offset ≤ begin ∧
        begin.toNat < chunk.offset.toNat + chunk.data.totalLength)) = true :=
      decide_eq_true ⟨hchunk, hhigh⟩
    simp only [if_pos hseek, hfound, aceAssert_true, bind, Except.bind, hoffset, and_iff_left hseek]
    by_cases hfirst : begin.toNat - chunk.offset.toNat < chunk.data.data.length
    · refine iff_of_true ?_ (by omega)
      set following := chunk.data.cont ++ rest.flatMap fun chunk => chunk.data.blocks with hdef
      have hchain : (chunk.data.data.drop (begin.toNat - chunk.offset.toNat) ::
          following).flatten = (concatenate (front ++ chunk :: rest)).drop begin.toNat := by
        have hdrop := concatenate_drop front rest hfirst.le
        rwa [show (concatenate front).length + (begin.toNat - chunk.offset.toNat) =
          begin.toNat by omega] at hdrop
      have htotal := h.length_concatenate
      have hlong : length.toNat ≤ (chunk.data.data.drop (begin.toNat - chunk.offset.toNat) ::
          following).flatten.length := by
        rw [hchain, List.length_drop]
        omega
      obtain ⟨taken, htaken, hbytes⟩ := gatherBlocks_ok cfg (by simp) hlong
      have hlen : taken.flatten.length = length.toNat := by
        rw [hbytes, List.length_take, Nat.min_eq_left hlong]
      refine ⟨taken, ?_, by rw [hbytes, hchain]⟩
      simp [hfirst, not_lt.mpr hfirst.le, takeBlocks, (UInt32.pos_iff_ne_zero.mp hlength),
        htaken, hlen]
    · refine iff_of_false ?_ (by omega)
      simp [hfirst, aceAssert, hndebug]
  · simp only [hseek, if_false, bind, Except.bind, and_false, iff_false]
    rintro ⟨blocks, hblocks, -⟩
    cases hblocks

def asserting (cfg : Configuration) : Configuration := { cfg with ndebug := false }

/-- A complete piece in memory is left as it is and serves the bytes of a request exactly when it
does not count as on disk and the request starts where the walk finds it. -/
theorem attachChunk_served {s : SessionState} {piece : Piece} {index begin length : UInt32}
    (hpiece : s.pieces[index.toNat]? = some piece) (hheld : piece.Held)
    (hduplicated : env.duplicated = true) (hlength : 0 < length)
    (hle : begin.toNat + length.toNat ≤ piece.length.toNat) :
    attachChunk (asserting cfg) env index begin length s =
        .ok (some (((concatenate piece.chunks).drop begin.toNat).take length.toNat), s, []) ↔
      piece.onDisk = false ∧ Servable begin piece.chunks := by
  have hpos : 0 < length.toNat := UInt32.lt_iff_toNat_lt.mp hlength
  have hne : piece.chunks ≠ [] := by
    intro hnil
    have hcovers := (hheld.covers 0).mpr (by omega)
    simp [hnil] at hcovers
  have hserved := chunkData_served (asserting cfg) rfl hheld.contiguous hheld.blocks hlength hle
  cases hdisk : piece.onDisk with
  | true =>
    refine iff_of_false ?_ (by simp)
    simp [attachChunk, hpiece, hdisk, loadPiece, hne, aceAssert, asserting, bind, Except.bind]
  | false =>
    simp only [attachChunk, hpiece, hdisk, Bool.false_eq_true, if_false, hheld.complete,
      hduplicated, Bool.not_true, Bool.or_self, ← hserved, true_and]
    cases hdata : chunkData (asserting cfg) piece.chunks begin length with
    | error e => simp [bind, Except.bind]
    | ok blocks => simp [bind, Except.bind]

def sampleHolding : SessionState := sampleSession [pieceOfTwoChunks] []

theorem held_pieceOfTwoChunks : pieceOfTwoChunks.Held where
  blocks := by decide
  ordered := by
    simp [Segment.Ordered, Segment.stop, PieceChunk.segment, pieceOfTwoChunks, MessageBlock.bytes,
      MessageBlock.blocks]
  covers p := by
    simp only [pieceOfTwoChunks, List.map_cons, List.map_nil, Segment.covers_cons,
      PieceChunk.holds_segment, Segment.covers_nil, or_false, MessageBlock.totalLength,
      MessageBlock.blocks]
    simp
    omega

theorem attachChunk_served_whole :
    attachChunk (asserting (sampleConfiguration false)) sampleEnvironment 0 0 3 sampleHolding =
      .ok (some [1, 2, 3], sampleHolding, []) :=
  (@attachChunk_served (sampleConfiguration false) sampleEnvironment sampleHolding pieceOfTwoChunks
    0 0 3 rfl held_pieceOfTwoChunks rfl (by decide) (by decide)).mpr ⟨rfl, by decide⟩

/-- The second byte of the piece lies in the second message block of its chunk. -/
theorem not_served : ¬ ∀ (cfg : Configuration) (s : SessionState) (piece : Piece)
    (index begin length : UInt32), s.pieces[index.toNat]? = some piece → piece.Held →
      piece.onDisk = false → 0 < length → begin.toNat + length.toNat ≤ piece.length.toNat →
        attachChunk (asserting cfg) sampleEnvironment index begin length s =
          .ok (some (((concatenate piece.chunks).drop begin.toNat).take length.toNat), s, []) := by
  intro h
  have hserved := h (sampleConfiguration false) sampleHolding pieceOfTwoChunks 0 1 1 rfl
    held_pieceOfTwoChunks rfl (by decide) (by decide)
  have hfault : attachChunk (asserting (sampleConfiguration false)) sampleEnvironment 0 1 1
      sampleHolding = .error .assertion := rfl
  rw [hfault] at hserved
  cases hserved

end Session
end ACENetwork.BitTorrent
