import ACENetwork.BitTorrent.Reassembly
import ACENetwork.BitTorrent.Session.Transitions
import ACENetwork.BitTorrent.Tools.MetaInfo

/-!
# What is left of a torrent

The tracker is told the length of the torrent less the bytes that have been received: the pieces
on disk, and the chunks of the others. `sanitizeChunks` leaves chunks that do not overlap, but
nothing keeps a block from reaching over the end of its piece. Where the peers send no such
block, what the tracker is told are the bytes that are missing.
-/
namespace ACENetwork.BitTorrent
open Library

namespace Tools

def chunksLength (chunks : List PieceChunk) : UInt32 :=
  (chunks.map fun chunk => UInt32.ofNat chunk.data.totalLength).sum

def receivedBytes (pieces : List Piece) : UInt32 :=
  (pieces.map fun piece =>
    if piece.onDisk then piece.length else chunksLength piece.chunks).sum

def leftBytes (metaInfo : Dictionary) (pieces : List Piece) : Option UInt32 := do
  some ((← metaInfoToLength metaInfo) - receivedBytes pieces)

end Tools

def Piece.missingBytes (piece : Piece) : ℕ :=
  if piece.onDisk then 0
  else ((Finset.range piece.length.toNat).filter fun p =>
    ¬ Segment.Covers (piece.chunks.map PieceChunk.segment) p).card

/-- No more is received than the torrent has, and the tracker is told how much is missing. -/
def Accounts (metaInfo : Dictionary) (pieces : List Piece) : Prop :=
  ∃ (length : ℕ) (left : UInt32), Tools.torrentLength metaInfo = some (length : ℤ) ∧
    (Tools.receivedBytes pieces).toNat ≤ length ∧
    Tools.leftBytes metaInfo pieces = some left ∧
    left.toNat = (pieces.map Piece.missingBytes).sum

/-- Chunks that do not overlap and lie in the first `n` bytes. -/
structure Contained (n : ℕ) (chunks : List PieceChunk) : Prop where
  ordered : Segment.Ordered (chunks.map PieceChunk.segment)
  stop_le : ∀ c ∈ chunks, c.segment.stop ≤ n

namespace Tools

theorem cropContinuations_length {overlap : UInt32} {blocks out : List (List UInt8)}
    (h : cropContinuations overlap blocks = .ok out)
    (hle : overlap.toNat ≤ (blocks.map List.length).sum)
    (hlt : (blocks.map List.length).sum < 2 ^ 32) :
    (out.map List.length).sum = (blocks.map List.length).sum - overlap.toNat := by
  induction blocks generalizing overlap with
  | nil => cases h
  | cons last front ih =>
    rw [List.map_cons, List.sum_cons] at hle hlt ⊢
    have hlast : (UInt32.ofNat last.length).toNat = last.length := toNat_word (by omega)
    rw [cropContinuations] at h
    split_ifs at h with hinside hfront hzero
    · rw [gt_iff_lt, UInt32.lt_iff_toNat_lt, hlast] at hinside
      obtain rfl := Except.ok.inj h
      rw [List.map_cons, List.sum_cons, List.length_drop]
      omega
    all_goals rw [gt_iff_lt, UInt32.lt_iff_toNat_lt, hlast, not_lt] at hinside
    · obtain rfl := Except.ok.inj h
      have hsub := toNat_sub_word (k := overlap) (n := last.length) (by omega)
      rw [hzero, UInt32.toNat_zero] at hsub
      omega
    · have hsub := toNat_sub_word (k := overlap) (n := last.length) (by omega)
      rw [ih h (by omega) (by omega), hsub]
      omega

theorem cropChain_length {overlap : UInt32} {b c : MessageBlock}
    (h : cropChain overlap b = .ok c) (hle : overlap.toNat ≤ b.totalLength)
    (hlt : b.totalLength < 2 ^ 32) : c.totalLength = b.totalLength - overlap.toNat := by
  obtain ⟨blocks, hblocks, h⟩ := fault_bind_ok.mp h
  have hsame : (b.blocks.reverse.map List.length).sum = b.totalLength := by
    simp [MessageBlock.totalLength]
  have hlength := cropContinuations_length hblocks (by omega) (by omega)
  cases hreverse : blocks.reverse with
  | nil => simp [hreverse] at h
  | cons first cont =>
    simp only [hreverse] at h
    obtain rfl := Except.ok.inj h
    have hcropped : (blocks.map List.length).sum = ((first :: cont).map List.length).sum := by
      rw [← hreverse, List.map_reverse, List.sum_reverse]
    rw [← hsame, ← hlength, hcropped]
    rfl

/-- Whatever bytes are cropped, the chunk ends where the next one starts, or before. -/
theorem cropOverlap_stop {chunk next c : PieceChunk} (h : cropOverlap chunk next = .ok c)
    (hoff : chunk.offset < next.offset) (hlt : chunk.segment.stop < 2 ^ 32) :
    c.offset = chunk.offset ∧ c.segment.stop ≤ next.offset.toNat ∧
      c.segment.stop ≤ chunk.segment.stop := by
  have hstop := chunk.segment_stop
  have hover := overlap_eq chunk next (by omega)
  rw [UInt32.lt_iff_toNat_lt] at hoff
  have hword : (UInt32.ofNat (chunk.segment.stop - next.offset.toNat)).toNat =
      chunk.segment.stop - next.offset.toNat := toNat_word (by omega)
  rw [cropOverlap, hover] at h
  split_ifs at h with hzero
  · obtain rfl := Except.ok.inj h
    rw [hzero, UInt32.toNat_zero] at hword
    exact ⟨rfl, by omega, le_rfl⟩
  · obtain ⟨data, hdata, h⟩ := fault_bind_ok.mp h
    obtain rfl := Except.ok.inj h
    have hlength := cropChain_length hdata (by omega) (by omega)
    rw [hword] at hlength
    have hcropped : (PieceChunk.mk data chunk.offset).segment.stop =
        chunk.offset.toNat + data.totalLength := PieceChunk.segment_stop _
    exact ⟨rfl, by omega, by omega⟩

theorem mergeChunks_contained {n : ℕ} (hn : n < 2 ^ 32) {chunk : PieceChunk}
    {rest out : List PieceChunk}
    (hsort : (chunk :: rest).Pairwise fun a b => pieceChunksLess b a = false)
    (hstop : ∀ c ∈ chunk :: rest, c.segment.stop ≤ n) (h : mergeChunks chunk rest = .ok out) :
    Contained n out ∧ ∀ c ∈ out, chunk.segment.start ≤ c.segment.start := by
  induction rest generalizing chunk out with
  | nil =>
    obtain rfl := Except.ok.inj h
    exact ⟨⟨List.pairwise_singleton _ _, hstop⟩, by simp⟩
  | cons next rest ih =>
    have hle := start_le_of_sorted hsort
    rw [mergeChunks] at h
    split_ifs at h with hsame
    · have hsub : (chunk :: rest).Sublist (chunk :: next :: rest) :=
        (List.sublist_cons_self next rest).cons_cons chunk
      exact ih (hsort.sublist hsub) (fun c hc => hstop c (hsub.subset hc)) h
    · obtain ⟨cropped, hcropped, h⟩ := fault_bind_ok.mp h
      obtain ⟨merged, hmerged, h⟩ := fault_bind_ok.mp h
      obtain rfl := Except.ok.inj h
      have hlt : chunk.segment.start < next.segment.start :=
        lt_of_le_of_ne (hle next (by simp)) fun he => hsame (UInt32.toNat_inj.mp he)
      have hchunk := hstop chunk List.mem_cons_self
      obtain ⟨hoffset, hnext, hshort⟩ :=
        cropOverlap_stop hcropped (UInt32.lt_iff_toNat_lt.mpr hlt) (by omega)
      obtain ⟨⟨hordered, hbound⟩, hstart⟩ := ih (List.pairwise_cons.mp hsort).2
        (fun c hc => hstop c (List.mem_cons_of_mem chunk hc)) hmerged
      refine ⟨⟨?_, ?_⟩, ?_⟩
      · refine List.pairwise_cons.mpr ⟨fun s hs => ?_, hordered⟩
        obtain ⟨c, hc, rfl⟩ := List.mem_map.mp hs
        exact hnext.trans (hstart c hc)
      · exact List.forall_mem_cons.mpr ⟨hshort.trans hchunk, hbound⟩
      · have hfirst : cropped.segment.start = chunk.segment.start := by
          simp [PieceChunk.segment, hoffset]
        refine List.forall_mem_cons.mpr ⟨hfirst.ge, fun c hc => ?_⟩
        exact hlt.le.trans (hstart c hc)

end Tools

theorem appendChunk_contained (sort : Sorter pieceChunksLess) {n : ℕ} (hn : n < 2 ^ 32)
    {chunks out : List PieceChunk} {block : PieceChunk} (hchunks : Contained n chunks)
    (hblock : block.segment.stop ≤ n) (h : appendChunk sort chunks block = .ok out) :
    Contained n out := by
  have hperm := sort.perm (chunks ++ [block])
  have hsorted := sort.ordered (chunks ++ [block])
  rw [appendChunk, Tools.sanitizeChunks] at h
  cases hrun : sort.run (chunks ++ [block]) with
  | nil => simp [hrun] at hperm
  | cons chunk rest =>
    simp only [hrun] at h hperm hsorted
    refine (Tools.mergeChunks_contained hn hsorted (fun c hc => ?_) h).1
    rcases List.mem_append.mp (hperm.mem_iff.mp hc) with hc | hc
    · exact hchunks.stop_le c hc
    · obtain rfl := List.mem_singleton.mp hc
      exact hblock

def Piece.Kept (piece : Piece) : Prop :=
  piece.onDisk = true ∨ Contained piece.length.toNat piece.chunks

theorem Contained.total_add {n : ℕ} {chunks : List PieceChunk} (h : Contained n chunks) :
    Segment.total (chunks.map PieceChunk.segment) +
      ((Finset.range n).filter fun p =>
        ¬ Segment.Covers (chunks.map PieceChunk.segment) p).card = n := by
  have hcovered := Segment.card_covered h.ordered (n := n) (by simpa using h.stop_le)
  rw [← hcovered, Finset.card_filter_add_card_filter_not, Finset.card_range]

namespace Tools

theorem received_add {piece : Piece} (h : piece.Kept) :
    (if piece.onDisk then piece.length else chunksLength piece.chunks).toNat +
      piece.missingBytes = piece.length.toNat := by
  rw [Piece.missingBytes]
  cases honDisk : piece.onDisk with
  | true => simp
  | false =>
    have hcontained : Contained piece.length.toNat piece.chunks := by
      rcases h with hdisk | hcontained
      · rw [honDisk] at hdisk
        cases hdisk
      · exact hcontained
    have htotal := hcontained.total_add
    have hword := piece.length.toNat_lt
    simp only [Bool.false_eq_true, if_false]
    rw [chunksLength, sum_totalLength, toNat_word (by omega)]
    exact htotal

theorem receivedBytes_add {pieces : List Piece} (h : ∀ piece ∈ pieces, piece.Kept)
    (hlt : (pieces.map fun piece => piece.length.toNat).sum < 2 ^ 32) :
    (receivedBytes pieces).toNat + (pieces.map Piece.missingBytes).sum =
      (pieces.map fun piece => piece.length.toNat).sum := by
  have hsplit : ((pieces.map fun piece =>
      if piece.onDisk then piece.length else chunksLength piece.chunks).map UInt32.toNat).sum +
        (pieces.map Piece.missingBytes).sum =
          (pieces.map fun piece => piece.length.toNat).sum := by
    rw [List.map_map, ← List.sum_map_add]
    exact congrArg List.sum (List.map_congr_left fun piece hpiece => received_add (h piece hpiece))
  rw [receivedBytes, toNat_sum (by omega), hsplit]

end Tools

theorem accounts_of_kept {metaInfo : Dictionary} {pieces : List Piece} {totalLength : UInt32}
    (hword : Tools.metaInfoToLength metaInfo = some totalLength)
    (htotal : Tools.torrentLength metaInfo = some (totalLength.toNat : ℤ))
    (hsum : (pieces.map fun piece => piece.length.toNat).sum = totalLength.toNat)
    (h : ∀ piece ∈ pieces, piece.Kept) : Accounts metaInfo pieces := by
  have hlt := totalLength.toNat_lt
  have hreceived := Tools.receivedBytes_add h (by omega)
  have hle : Tools.receivedBytes pieces ≤ totalLength := by
    rw [UInt32.le_iff_toNat_le]
    omega
  refine ⟨_, _, htotal, UInt32.le_iff_toNat_le.mp hle, by simp [Tools.leftBytes, hword]; rfl, ?_⟩
  rw [UInt32.toNat_sub_of_le _ _ hle]
  omega

namespace Session
open Tools

variable {cfg : Configuration} {env : Environment} {s t : SessionState} {out : List Effect}

/-- A PIECE leaves a piece on disk, without chunks, or with those that its block has been
merged into. -/
def Stored (cfg : Configuration) (block : PieceChunk) (piece stored : Piece) : Prop :=
  stored.length = piece.length ∧ (stored.onDisk = true ∨ stored.chunks = [] ∨
    appendChunk cfg.sort piece.chunks block = .ok stored.chunks)

theorem completePiece_stored {key index : UInt32} {piece : Piece} {chunks : List PieceChunk}
    {block : PieceChunk} {flags : Option PieceFlags}
    (hchunks : appendChunk cfg.sort piece.chunks block = .ok chunks)
    (hhash : validatePieceHash cfg.ndebug cfg.sha1 { piece with chunks := chunks } = .ok true)
    (h : completePiece cfg env key index { piece with chunks := chunks } s = .ok (flags, t, out)) :
    ∃ stored, t.pieces = s.pieces.set index.toNat stored ∧ Stored cfg block piece stored := by
  obtain ⟨⟨saved, hsave, rfl, -⟩, -⟩ := completePiece_ok hhash h
  refine ⟨saved.piece, rfl, ?_⟩
  rcases savePiece_ok hsave with ⟨-, hpiece⟩ | ⟨-, hpiece, -⟩
  · rw [hpiece]
    exact ⟨rfl, .inr (.inr hchunks)⟩
  · rw [hpiece]
    exact ⟨rfl, .inl rfl⟩

theorem pieceReceived_stored {key index begin : UInt32} {block : Option MessageBlock}
    {flags : Option PieceFlags}
    (h : pieceReceived cfg env key index begin block s = .ok (flags, t, out)) :
    t.pieces = s.pieces ∨ ∃ data piece stored, block = some data ∧
      s.pieces[index.toNat]? = some piece ∧ piece.onDisk = false ∧
      t.pieces = s.pieces.set index.toNat stored ∧ Stored cfg ⟨data, begin⟩ piece stored := by
  unfold pieceReceived at h
  cases hpiece : s.pieces[index.toNat]? with
  | none => simp [hpiece] at h
  | some piece =>
    simp only [hpiece] at h
    by_cases hdone : (piece.onDisk || isPieceComplete piece.length piece.chunks) = true
    · rw [if_pos hdone] at h
      exact .inl (congrArg SessionState.pieces (continuePiece_ok env h).1)
    · rw [if_neg hdone] at h
      have honDisk : piece.onDisk = false := by
        cases honDisk : piece.onDisk with
        | false => rfl
        | true => simp [honDisk] at hdone
      cases block with
      | none => cases h
      | some data =>
        by_cases hduplicated : env.duplicated = true
        · simp only [hduplicated, Bool.not_true, Bool.false_eq_true, if_false] at h
          obtain ⟨chunks, hchunks, h⟩ := fault_bind_ok.mp h
          refine .inr ⟨data, piece, ?_⟩
          split at h
          · obtain ⟨rfl, -, -⟩ := continuePiece_ok env h
            exact ⟨_, rfl, rfl, honDisk, rfl, rfl, .inr (.inr hchunks)⟩
          · obtain ⟨valid, hvalid, h⟩ := fault_bind_ok.mp h
            cases valid with
            | false =>
              obtain ⟨rfl, -, -⟩ := continuePiece_ok env h
              exact ⟨_, rfl, rfl, honDisk, rfl, rfl, .inr (.inl rfl)⟩
            | true =>
              obtain ⟨stored, hstored⟩ := completePiece_stored hchunks hvalid h
              exact ⟨stored, rfl, rfl, honDisk, hstored⟩
        · simp only [hduplicated, Bool.not_false, if_true] at h
          exact .inl (congrArg SessionState.pieces (continuePiece_ok env h).1)

structure KeepsPieces (lengths : List UInt32) (pieces : List Piece) : Prop where
  lengths_eq : pieces.map Piece.length = lengths
  kept : ∀ piece ∈ pieces, piece.Kept

theorem KeepsPieces.set {lengths : List UInt32} {pieces : List Piece} {i : ℕ}
    {piece stored : Piece} (h : KeepsPieces lengths pieces) (hpiece : pieces[i]? = some piece)
    (hlength : stored.length = piece.length) (hkept : stored.Kept) :
    KeepsPieces lengths (pieces.set i stored) where
  lengths_eq := by
    obtain ⟨hi, rfl⟩ := List.getElem?_eq_some_iff.mp hpiece
    rw [List.map_set, hlength, ← List.getElem_map Piece.length (h := by simpa using hi),
      List.set_getElem_self, h.lengths_eq]
  kept other hother := by
    rcases List.mem_or_eq_of_mem_set hother with hold | rfl
    · exact h.kept other hold
    · exact hkept

def Inside (lengths : List UInt32) (job : Job) : Prop :=
  ∀ record block, job.call = .record record (some block) → record.type = some .piece →
    ∀ length, lengths[record.payload.index.toNat]? = some length →
      record.payload.begin.toNat + block.totalLength ≤ length.toNat

theorem Stored.kept {block : PieceChunk} {piece stored : Piece} (h : Stored cfg block piece stored)
    (hpiece : piece.Kept) (honDisk : piece.onDisk = false)
    (hblock : block.segment.stop ≤ piece.length.toNat) : stored.Kept := by
  obtain ⟨hlength, hdisk | hnone | hchunks⟩ := h
  · exact .inl hdisk
  · refine .inr ?_
    rw [hnone]
    exact ⟨List.Pairwise.nil, by simp⟩
  · rcases hpiece with hdisk | hcontained
    · rw [honDisk] at hdisk
      cases hdisk
    · rw [Piece.Kept, hlength]
      exact .inr (appendChunk_contained cfg.sort piece.length.toNat_lt hcontained hblock hchunks)

theorem KeepsPieces.transition {lengths : List UInt32} {job : Job} {l : Label}
    (h : KeepsPieces lengths s.pieces) (hinside : Inside lengths job)
    (htransition : Transition cfg job l s (.ok (t, out))) : KeepsPieces lengths t.pieces := by
  rcases transition_storage htransition rfl with
    hpieces | ⟨record, block, flags, hcall, htype, hreceived⟩ |
      ⟨record, block, data, -, -, hattach⟩
  · exact hpieces ▸ h
  · rcases pieceReceived_stored hreceived with
      hpieces | ⟨data, piece, stored, rfl, hpiece, honDisk, hset, hstored⟩
    · exact hpieces ▸ h
    · have hlength : lengths[record.payload.index.toNat]? = some piece.length := by
        rw [← h.lengths_eq, List.getElem?_map, hpiece]
        rfl
      have hblock := hinside record data hcall htype piece.length hlength
      rw [hset]
      refine h.set hpiece hstored.1 (hstored.kept (h.kept piece (List.mem_of_getElem? hpiece))
        honDisk ?_)
      rw [PieceChunk.segment_stop]
      exact hblock
  · rcases attachChunk_ok hattach with ⟨rfl, -⟩ | ⟨piece, loaded, hpiece, honDisk, hload, rfl, -⟩
    · exact h
    · have hsame : loaded.piece.length = piece.length ∧ loaded.piece.onDisk = true := by
        rcases loadPiece_ok hload with ⟨hloaded, -⟩ | ⟨data, -, hloaded⟩ <;>
          simp [hloaded, honDisk]
      exact h.set hpiece hsame.1 (.inl hsame.2)

/-- In every run of a consistent torrent whose peers send blocks that lie in their pieces, the
tracker is told how many bytes are missing. -/
theorem run_accounts (cfg : Configuration) (s : SessionState) (tempFilename : ℕ → List Char)
    (files : List (List Char)) (metaInfo : Dictionary) (hconsistent : Consistent metaInfo)
    (hfilled : initializePieces tempFilename files metaInfo = some s.pieces)
    (events : List (PoolEvent Job))
    (hfollows : Follows cfg { started := Inside (s.pieces.map Piece.length) } s events)
    (pool : SessionPool) (hrun : runPool cfg s events = .ok pool) :
    Accounts metaInfo pool.state.pieces := by
  obtain ⟨hempty, totalLength, hword, htotal, hsum⟩ := initializePieces_ok hconsistent hfilled
  have hkeeps : KeepsPieces (s.pieces.map Piece.length) pool.state.pieces := by
    refine Pool.run_invariant (fun _ t => KeepsPieces (s.pieces.map Piece.length) t.pieces)
      (fun job => job.allScopes_handler) ?_ ⟨rfl, fun piece hpiece => ?_⟩ hfollows hrun
    · intro job history l t t' out hinside hinv _ htransition
      exact hinv.transition hinside htransition
    · refine .inr ?_
      rw [hempty piece hpiece]
      exact ⟨List.Pairwise.nil, by simp⟩
  have hlengths := congrArg (fun l => (l.map UInt32.toNat).sum) hkeeps.lengths_eq
  simp only [List.map_map, Function.comp_def] at hlengths
  exact accounts_of_kept hword htotal (hlengths.trans hsum) hkeeps.kept

def sampleMetaInfo : Dictionary :=
  [(infoKey.map Char.toUInt8, .dictionary
    [(infoLengthKey.map Char.toUInt8, .integer 2),
      (infoPieceLengthKey.map Char.toUInt8, .integer 2),
      (infoPiecesKey.map Char.toUInt8, .string (List.replicate 20 0))])]

theorem consistent_sampleMetaInfo : Consistent sampleMetaInfo := by
  intro dictionary lengths length hashes hinfo hlengths hlength hhashes
  obtain rfl := Option.some.inj hinfo
  obtain rfl := Option.some.inj hlengths
  obtain rfl := Option.some.inj hlength
  obtain rfl := Option.some.inj hhashes
  exact ⟨List.forall_mem_singleton.mpr (by decide), by decide, by decide, by decide, by decide⟩

/-- The sample torrent, of which nothing is on disk, with one peer. -/
def sampleDownloading : SessionState :=
  sampleSession [samplePiece false] [(0x0A000001, { connections := [1] })]

theorem initializePieces_sampleMetaInfo :
    initializePieces (fun _ => (samplePiece false).filename) [] sampleMetaInfo =
      some sampleDownloading.pieces := by
  rfl

def sampleBlock (octets : List UInt8) : List (PoolEvent Job) :=
  [.start ⟨1, .record ⟨11, some .piece, [], ⟨0, 0, 0⟩⟩ (some ⟨octets, []⟩), sampleEnvironment⟩,
    .schedule 0]

theorem run_accounts_half :
    ∃ pool, runPool (sampleConfiguration true) sampleDownloading (sampleBlock [7]) = .ok pool ∧
      leftBytes sampleMetaInfo pool.state.pieces = some 1 ∧
      Accounts sampleMetaInfo pool.state.pieces :=
  ⟨_, rfl, rfl, run_accounts (sampleConfiguration true) sampleDownloading
    (fun _ => (samplePiece false).filename) [] sampleMetaInfo consistent_sampleMetaInfo
    initializePieces_sampleMetaInfo (sampleBlock [7])
    ⟨fun record block hcall _ length hlength => by
      cases hcall
      obtain rfl := Option.some.inj hlength
      decide, fun _ _ => ⟨fun _ _ => ⟨trivial, fun _ _ _ _ => trivial⟩, fun _ _ => trivial⟩⟩ _ rfl⟩

/-- A block of three bytes for a piece of two: more is received than the torrent has. -/
theorem not_accounts :
    ¬ ∀ (cfg : Configuration) (s : SessionState) (tempFilename : ℕ → List Char)
      (files : List (List Char)) (metaInfo : Dictionary), Consistent metaInfo →
        initializePieces tempFilename files metaInfo = some s.pieces →
        ∀ (events : List (PoolEvent Job)) (pool : SessionPool),
          runPool cfg s events = .ok pool → Accounts metaInfo pool.state.pieces := by
  intro h
  obtain ⟨length, left, hlength, hreceived, -⟩ := h (sampleConfiguration true) sampleDownloading
    (fun _ => (samplePiece false).filename) [] sampleMetaInfo consistent_sampleMetaInfo
    initializePieces_sampleMetaInfo (sampleBlock [7, 8, 9]) _ rfl
  have hthree : 3 ≤ length := hreceived
  have htwo : (2 : ℤ) = length := Option.some.inj hlength
  omega

end Session
end ACENetwork.BitTorrent
