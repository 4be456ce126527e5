import ACENetwork.BitTorrent.Session.Download
import ACENetwork.BitTorrent.Tools.Blocks

/-!
# Downloads from honest peers

What a session asks for depends on the chunks that it has, and what it has on the answers. Where
every PIECE answers a REQUEST that has been sent, with the bytes of the piece, both are blocks of
the pieces all along: no REQUEST asks for anything else, no chunk is ever cropped, no hash fails,
and every answer adds its bytes to the piece or completes it.
-/
namespace ACENetwork.BitTorrent.Session
open Library Tools

/-- The piece is on disk, or some of its blocks are in memory. -/
structure IsUnderway (sha1 : List UInt8 → Vector UInt8 20) (content : List UInt8) (piece : Piece) :
    Prop where
  setUp : IsSetUp sha1 content piece
  blocks : piece.onDisk = false → HoldsBlocks content piece.chunks
  incomplete : piece.onDisk = false → isPieceComplete piece.length piece.chunks = false

structure AllUnderway (sha1 : List UInt8 → Vector UInt8 20) (contents : List (List UInt8))
    (pieces : List Piece) : Prop where
  length : pieces.length = contents.length
  count : contents.length < 2 ^ 32
  isUnderway : ∀ (i : ℕ) (piece : Piece) (content : List UInt8), pieces[i]? = some piece →
    contents[i]? = some content → IsUnderway sha1 content piece

def AsksForBlocks (contents : List (List UInt8)) (effects : List Effect) : Prop :=
  ∀ id index begin length, Effect.send id (.request index begin length) ∈ effects →
    ∃ content, contents[index.toNat]? = some content ∧
      IsBlock content.length begin.toNat length.toNat

/-- The data answers a REQUEST with the bytes that it has asked for. -/
def Answers (contents : List (List UInt8)) (effects : List Effect) (index begin : UInt32)
    (data : MessageBlock) : Prop :=
  ∃ id length content, Effect.send id (.request index begin length) ∈ effects ∧
    contents[index.toNat]? = some content ∧ Honest content ⟨data, begin⟩ ∧
    data.totalLength = length.toNat

def HonestEvent (cfg : Configuration) (contents : List (List UInt8)) (pool : SessionPool) :
    PoolEvent Job → Prop
  | .start job => StoresPieces cfg job ∧ ∀ record block, job.call = .record record block →
      record.type = some .piece → ∃ data, block = some data ∧
        Answers contents (effectsOf pool.history) record.payload.index record.payload.begin data
  | .schedule _ => True

/-- The job stores pieces, and if it has received a PIECE then with a block. -/
structure IsHonest (cfg : Configuration) (contents : List (List UInt8)) (job : Job) : Prop where
  stores : StoresPieces cfg job
  block : ∀ record block, job.call = .record record block → record.type = some .piece →
    ∃ data content, block = some data ∧ contents[record.payload.index.toNat]? = some content ∧
      IsBlockOf content ⟨data, record.payload.begin⟩

variable {cfg : Configuration} {env : Environment} {contents : List (List UInt8)}
  {s t : SessionState} {out : List Effect}

theorem Answers.isBlockOf {effects : List Effect} {index begin : UInt32} {data : MessageBlock}
    (h : Answers contents effects index begin data) (hasks : AsksForBlocks contents effects) :
    ∃ content, contents[index.toNat]? = some content ∧ IsBlockOf content ⟨data, begin⟩ := by
  obtain ⟨id, length, content, hsent, hcontent, hhonest, hlength⟩ := h
  obtain ⟨content', hcontent', hblock⟩ := hasks id index begin length hsent
  obtain rfl := Option.some.inj (hcontent.symm.trans hcontent')
  exact ⟨content, hcontent, hhonest, by rwa [← hlength] at hblock⟩

section Asking

theorem randomBlock_missing {pieces : List Piece} {bitfield : List UInt8} {index : UInt32}
    {block : Block} (h : randomBlock cfg env pieces bitfield = .ok (index, block)) :
    ∃ i piece blocks, index = UInt32.ofNat i ∧ pieces[i]? = some piece ∧ isMissing piece = true ∧
      getMissingChunks cfg.ndebug piece.length piece.chunks = .ok blocks ∧ block ∈ blocks := by
  obtain ⟨-, -, h⟩ := fault_bind_ok.mp h
  obtain ⟨without, -, h⟩ := fault_bind_ok.mp h
  obtain ⟨-, -, h⟩ := fault_bind_ok.mp h
  split at h
  · cases h
  · rename_i i hi
    have hindex := List.mem_of_getElem? hi
    obtain ⟨piece, hpiece, hmissing⟩ := mem_getPieceIndexes.mp (List.mem_filter.mp hindex).1
    simp only [hpiece] at h
    obtain ⟨blocks, hblocks, h⟩ := fault_bind_ok.mp h
    obtain ⟨-, -, h⟩ := fault_bind_ok.mp h
    split at h
    · cases h
    · rename_i chosen hchosen
      obtain ⟨rfl, rfl⟩ := Prod.mk.inj (Except.ok.inj h)
      exact ⟨i, piece, blocks, rfl, hpiece, hmissing, hblocks, List.mem_of_getElem? hchosen⟩

theorem Chosen.isBlock {index : UInt32} {block : Block}
    (h : Chosen cfg env (AllUnderway cfg.sha1 contents) index block) :
    ∃ content, contents[index.toNat]? = some content ∧
      IsBlock content.length block.begin.toNat block.length.toNat := by
  obtain ⟨pieces, bitfield, hunderway, hchosen⟩ := h
  obtain ⟨i, piece, blocks, rfl, hpiece, hmissing, hblocks, hblock⟩ := randomBlock_missing hchosen
  have hi := (List.getElem?_eq_some_iff.mp hpiece).1
  rw [hunderway.length] at hi
  have hcontent := List.getElem?_eq_getElem hi
  obtain ⟨hsetUp, hholds, -⟩ := hunderway.isUnderway i piece _ hpiece hcontent
  have honDisk : piece.onDisk = false := by
    simp only [isMissing, Bool.and_eq_true, Bool.not_eq_true'] at hmissing
    exact hmissing.1
  have hholds := hholds honDisk
  have hcount := hunderway.count
  refine ⟨contents[i], by rw [toNat_word (by omega), hcontent], ?_⟩
  rw [← hsetUp.length]
  refine getMissingChunksFrom_isBlock hholds.ordered (fun c hc => ?_) (by simp)
    (UInt32.le_iff_toNat_le.mpr (by simp)) (.inl (by simp)) hblocks block hblock
  rw [hsetUp.length]
  exact (hholds.isBlockOf c hc).isBlock

end Asking

section Receiving

variable {index begin : UInt32} {piece : Piece} {content : List UInt8} {data : MessageBlock}

/-- A block is added to a piece that is missing, and a piece that it completes passes its check. -/
theorem pieceReceived_block (key : UInt32) (hunderway : IsUnderway cfg.sha1 content piece)
    (hpiece : s.pieces[index.toNat]? = some piece) (honDisk : piece.onDisk = false)
    (hduplicated : env.duplicated = true) (hblock : IsBlockOf content ⟨data, begin⟩) :
    ∃ chunks, HoldsBlocks content chunks ∧
      (∀ p, Segment.Covers (chunks.map PieceChunk.segment) p ↔
        Segment.Covers (piece.chunks.map PieceChunk.segment) p ∨
          (PieceChunk.mk data begin).segment.Holds p) ∧
      (isPieceComplete piece.length chunks = true ↔
        ∀ p < content.length, Segment.Covers (chunks.map PieceChunk.segment) p) ∧
      pieceReceived cfg env key index begin (some data) s =
        (if isPieceComplete piece.length chunks then
          completePiece cfg env key index { piece with chunks := chunks } s
        else continuePiece cfg key false false []
          (s.setPiece index { piece with chunks := chunks })) ∧
      (isPieceComplete piece.length chunks = true → concatenate chunks = content ∧
        validatePieceHash cfg.ndebug cfg.sha1 { piece with chunks := chunks } = .ok true) := by
  have hlength := hunderway.setUp.length
  have hlen : content.length < 2 ^ 32 := by
    rw [← hlength]
    exact piece.length.toNat_lt
  have hword : UInt32.ofNat content.length = piece.length := by
    rw [← hlength, UInt32.ofNat_toNat]
  obtain ⟨chunks, hchunks, hholds, hcovers⟩ :=
    HoldsBlocks.append cfg.sort hlen (hunderway.blocks honDisk) hblock
  have hcomplete := hholds.complete hlen
  have hconcatenate := hholds.concatenate hlen
  rw [hword] at hcomplete hconcatenate
  have hvalid : isPieceComplete piece.length chunks = true → concatenate chunks = content ∧
      validatePieceHash cfg.ndebug cfg.sha1 { piece with chunks := chunks } = .ok true := by
    intro h
    have hdata := hconcatenate h
    refine ⟨hdata, ?_⟩
    simp [validatePieceHash, hdata, hlength, hunderway.setUp.hash, bind, Except.bind]
  refine ⟨chunks, hholds, hcovers, hcomplete, ?_, hvalid⟩
  have hnot : ¬ (piece.onDisk || isPieceComplete piece.length piece.chunks) = true := by
    simp [honDisk, hunderway.incomplete honDisk]
  simp only [pieceReceived, hpiece, if_neg hnot, hduplicated, Bool.not_true, Bool.false_eq_true,
    if_false, hchunks, bind, Except.bind]
  by_cases hdone : isPieceComplete piece.length chunks = true
  · simp [hdone, (hvalid hdone).2]
  · simp [hdone]

theorem AllUnderway.set {pieces : List Piece} {i : ℕ} {after : Piece}
    (h : AllUnderway cfg.sha1 contents pieces) (hcontent : contents[i]? = some content)
    (hafter : IsUnderway cfg.sha1 content after) :
    AllUnderway cfg.sha1 contents (pieces.set i after) where
  length := by rw [List.length_set, h.length]
  count := h.count
  isUnderway j other content' hother hcontent' := by
    rcases set_cases hother with ⟨rfl, rfl⟩ | ⟨-, hother⟩
    · obtain rfl := Option.some.inj (hcontent.symm.trans hcontent')
      exact hafter
    · exact h.isUnderway j other content' hother hcontent'

theorem isSetUp_replace {after : Piece} (h : IsSetUp cfg.sha1 content piece)
    (hlength : after.length = piece.length) (hhash : after.hash = piece.hash)
    (hfilename : after.filename = piece.filename) : IsSetUp cfg.sha1 content after :=
  ⟨h.nonempty, by rw [hlength, h.length], by rw [hhash, h.hash], by rw [hfilename]; exact h.filename⟩

/-- The honest answer keeps the pieces underway, and asks for nothing. -/
theorem pieceReceived_underway {key : UInt32} {flags : Option PieceFlags}
    (hunderway : AllUnderway cfg.sha1 contents s.pieces)
    (hfile : cfg.ndebug = true → env.toFileResults.Succeed)
    (hcontent : contents[index.toNat]? = some content) (hblock : IsBlockOf content ⟨data, begin⟩)
    (h : pieceReceived cfg env key index begin (some data) s = .ok (flags, t, out)) :
    AllUnderway cfg.sha1 contents t.pieces ∧
      ∀ id i b l, Effect.send id (.request i b l) ∉ out := by
  have hi := (List.getElem?_eq_some_iff.mp hcontent).1
  rw [← hunderway.length] at hi
  have hpiece := List.getElem?_eq_getElem hi
  have hone := hunderway.isUnderway _ _ content hpiece hcontent
  have hsame (hback : t = s) (hnone : out = []) : AllUnderway cfg.sha1 contents t.pieces ∧
      ∀ id i b l, Effect.send id (.request i b l) ∉ out := by
    subst hback hnone
    exact ⟨hunderway, by simp⟩
  by_cases honDisk : s.pieces[index.toNat].onDisk = true
  · simp only [pieceReceived, hpiece, honDisk, Bool.true_or, if_true] at h
    obtain ⟨hback, hnone, -⟩ := continuePiece_ok env h
    exact hsame hback hnone
  rw [Bool.not_eq_true] at honDisk
  by_cases hduplicated : env.duplicated = true
  · obtain ⟨chunks, hholds, -, -, hrun, hvalid⟩ :=
      pieceReceived_block key hone hpiece honDisk hduplicated hblock
    rw [hrun] at h
    by_cases hcomplete : isPieceComplete s.pieces[index.toNat].length chunks = true
    · rw [if_pos hcomplete] at h
      have hhash := (hvalid hcomplete).2
      obtain ⟨⟨saved, hsave, rfl, rfl, hresult⟩, -⟩ := completePiece_ok hhash h
      obtain ⟨hsaved, hwritten⟩ := savePiece_whole hfile hhash hsave hresult
      rw [hsaved, hwritten]
      refine ⟨hunderway.set hcontent ⟨isSetUp_replace hone.setUp rfl rfl rfl, ?_, ?_⟩, by
        simp [writeEffects]⟩
      · simp [freeChunks]
      · simp [freeChunks]
    · rw [if_neg hcomplete] at h
      obtain ⟨rfl, rfl, -⟩ := continuePiece_ok env h
      exact ⟨hunderway.set hcontent ⟨isSetUp_replace hone.setUp rfl rfl rfl, fun _ => hholds,
        fun _ => by simpa using hcomplete⟩, by simp⟩
  · have hnot : ¬ (s.pieces[index.toNat].onDisk ||
        isPieceComplete s.pieces[index.toNat].length s.pieces[index.toNat].chunks) = true := by
      simp [honDisk, hone.incomplete honDisk]
    simp only [pieceReceived, hpiece, if_neg hnot, hduplicated, Bool.not_false, if_true] at h
    obtain ⟨hback, hnone, -⟩ := continuePiece_ok env h
    exact hsame hback hnone

/-- What an honest answer does: nothing to a piece on disk; else its bytes are added to those of
the piece, which is written with its content when it has all of them. -/
inductive Advances (cfg : Configuration) (content : List UInt8) (index : UInt32)
    (block : PieceChunk) (s : SessionState) : SessionState → List Effect → Prop where
  | onDisk {piece : Piece} (hpiece : s.pieces[index.toNat]? = some piece)
      (honDisk : piece.onDisk = true) : Advances cfg content index block s s []
  | held {piece : Piece} {chunks : List PieceChunk} (hpiece : s.pieces[index.toNat]? = some piece)
      (honDisk : piece.onDisk = false) (hholds : HoldsBlocks content chunks)
      (hcovers : ∀ p, Segment.Covers (chunks.map PieceChunk.segment) p ↔
        Segment.Covers (piece.chunks.map PieceChunk.segment) p ∨ block.segment.Holds p)
      (hrest : ∃ p < content.length, ¬ Segment.Covers (chunks.map PieceChunk.segment) p) :
      Advances cfg content index block s (s.setPiece index { piece with chunks := chunks }) []
  | saved {piece : Piece} (hpiece : s.pieces[index.toNat]? = some piece)
      (honDisk : piece.onDisk = false)
      (hall : ∀ p < content.length,
        Segment.Covers (piece.chunks.map PieceChunk.segment) p ∨ block.segment.Holds p) :
      Advances cfg content index block s
        (s.setPiece index (freeChunks { piece with onDisk := true }))
        [.write index (pieceFile cfg s.pieces.length index piece) content]

theorem continuePiece_eq (cfg : Configuration) {key : UInt32} {peer : PeerState} (hpeer : s.peerState key = some peer)
    (sendHave notifyCompletion : Bool) (effects : List Effect) :
    ∃ flags, continuePiece cfg key sendHave notifyCompletion effects s =
      .ok (flags, s, effects) := by
  simp [continuePiece, assertFound_ok.mpr hpeer, bind, Except.bind]

theorem completePiece_eq (cfg : Configuration) (index : UInt32) (piece : Piece) {key : UInt32} {peer : PeerState} (hpeer : s.peerState key = some peer)
    (hfile : env.toFileResults.Succeed) (hne : piece.chunks ≠ [])
    (hlength : (concatenate piece.chunks).length = piece.length.toNat) :
    ∃ flags, completePiece cfg env key index piece s = .ok (flags,
      s.setPiece index (freeChunks { piece with onDisk := true }),
      [.write index (pieceFile cfg s.pieces.length index piece) (concatenate piece.chunks)]) := by
  have hsaved : savePiece env.toFileResults piece = .ok ⟨true,
      freeChunks { piece with onDisk := true }, some (concatenate piece.chunks)⟩ := by
    simp [savePiece, hfile.directory, hfile.opened, hfile.transferred, hfile.closed, hne, hlength]
  have hpeer' : (s.setPiece index (freeChunks { piece with onDisk := true })).peerState key =
    some peer := hpeer
  simp only [completePiece, hsaved, bind, Except.bind, Bool.not_true, Bool.false_eq_true, if_false,
    hfile.assembled, writeEffects]
  split
  · exact continuePiece_eq cfg hpeer' _ _ _
  · exact continuePiece_eq cfg hpeer' _ _ _

/-- An honest answer is stored without a fault. -/
theorem pieceReceived_advances {key : UInt32} {peer : PeerState}
    (hunderway : AllUnderway cfg.sha1 contents s.pieces) (hpeer : s.peerState key = some peer)
    (hfile : env.toFileResults.Succeed) (hduplicated : env.duplicated = true)
    (hcontent : contents[index.toNat]? = some content) (hblock : IsBlockOf content ⟨data, begin⟩) :
    ∃ flags t out, pieceReceived cfg env key index begin (some data) s = .ok (flags, t, out) ∧
      Advances cfg content index ⟨data, begin⟩ s t out := by
  have hi := (List.getElem?_eq_some_iff.mp hcontent).1
  rw [← hunderway.length] at hi
  have hpiece := List.getElem?_eq_getElem hi
  have hone := hunderway.isUnderway _ _ content hpiece hcontent
  by_cases honDisk : s.pieces[index.toNat].onDisk = true
  · obtain ⟨flags, hflags⟩ := continuePiece_eq cfg hpeer false false []
    refine ⟨flags, s, [], ?_, .onDisk hpiece honDisk⟩
    simp only [pieceReceived, hpiece, honDisk, Bool.true_or, if_true]
    exact hflags
  rw [Bool.not_eq_true] at honDisk
  obtain ⟨chunks, hholds, hcovers, hcomplete, hrun, hvalid⟩ :=
    pieceReceived_block key hone hpiece honDisk hduplicated hblock
  rw [hrun]
  by_cases hdone : isPieceComplete s.pieces[index.toNat].length chunks = true
  · obtain ⟨hdata, hhash⟩ := hvalid hdone
    rw [if_pos hdone]
    have hne : chunks ≠ [] := by
      rintro rfl
      exact hone.setUp.nonempty hdata.symm
    obtain ⟨flags, hflags⟩ := completePiece_eq cfg index
      { s.pieces[index.toNat] with chunks := chunks } hpeer hfile hne
      (validatePieceHash_true hhash).1
    refine ⟨flags, _, _, hflags, ?_⟩
    simp only [hdata]
    exact .saved hpiece honDisk fun p hp => (hcovers p).mp (hcomplete.mp hdone p hp)
  · rw [if_neg hdone]
    obtain ⟨flags, hflags⟩ := @continuePiece_eq (s.setPiece index { s.pieces[index.toNat] with chunks := chunks })
      cfg key peer hpeer false false []
    refine ⟨flags, _, [], hflags, .held hpiece honDisk hholds hcovers ?_⟩
    rw [hcomplete] at hdone
    push Not at hdone
    exact hdone

end Receiving

/-- Reading a piece that is on disk keeps the pieces underway. -/
theorem attachChunk_underway {index begin length : UInt32} {data : Option (List UInt8)}
    (hunderway : AllUnderway cfg.sha1 contents s.pieces)
    (h : attachChunk cfg env index begin length s = .ok (data, t, out)) :
    AllUnderway cfg.sha1 contents t.pieces := by
  rcases (attachChunk_cases h).1 with rfl | ⟨piece, chunks, hpiece, honDisk, rfl⟩
  · exact hunderway
  · have hi := (List.getElem?_eq_some_iff.mp hpiece).1
    rw [hunderway.length] at hi
    have hcontent := List.getElem?_eq_getElem hi
    have hone := hunderway.isUnderway _ _ _ hpiece hcontent
    apply hunderway.set hcontent
    exact ⟨isSetUp_replace hone.setUp rfl rfl rfl, by simp [honDisk], by simp [honDisk]⟩

theorem AsksForBlocks.append {effects : List Effect} (h : AsksForBlocks contents effects)
    (hout : AsksForBlocks contents out) : AsksForBlocks contents (effects ++ out) := by
  intro id index begin length hsent
  rcases List.mem_append.mp hsent with hsent | hsent
  · exact h id index begin length hsent
  · exact hout id index begin length hsent

theorem asksForBlocks_plain (h : ∀ effect ∈ out, effect.IsPlain) : AsksForBlocks contents out :=
  fun _ _ _ _ hsent => (h _ hsent).elim

theorem asksForBlocks_nothing (h : ∀ id i b l, Effect.send id (.request i b l) ∉ out) :
    AsksForBlocks contents out :=
  fun id index begin length hsent => absurd hsent (h id index begin length)

/-- A scope of an honest job keeps the pieces underway and asks for blocks. -/
theorem Does.honest {job : Job} {label : Label}
    (h : Does cfg job (AllUnderway cfg.sha1 contents) label s (.ok (t, out)))
    (hhonest : IsHonest cfg contents job) (hunderway : AllUnderway cfg.sha1 contents s.pieces) :
    AllUnderway cfg.sha1 contents t.pieces ∧ AsksForBlocks contents out := by
  generalize hr : Except.ok (t, out) = r at h
  cases h with
  | plain hpieces hout =>
    obtain ⟨rfl, rfl⟩ := Prod.mk.inj (Except.ok.inj hr)
    rw [hpieces]
    exact ⟨hunderway, asksForBlocks_plain hout⟩
  | request hchosen =>
    obtain ⟨rfl, rfl⟩ := Prod.mk.inj (Except.ok.inj hr)
    refine ⟨hunderway, fun id i b l hsent => ?_⟩
    unfold transmit at hsent
    split at hsent
    · obtain ⟨-, rfl, rfl, rfl⟩ : id = _ ∧ i = _ ∧ b = _ ∧ l = _ := by simpa using hsent
      exact hchosen.isBlock
    · cases hsent
  | pieceReceived hcall htype =>
    obtain ⟨flags, hflags⟩ := outcome_ok.mp hr.symm
    obtain ⟨data, content, rfl, hcontent, hblock⟩ := hhonest.block _ _ hcall htype
    obtain ⟨hafter, hnone⟩ :=
      pieceReceived_underway hunderway hhonest.stores hcontent hblock hflags
    exact ⟨hafter, asksForBlocks_nothing hnone⟩
  | attachChunk =>
    obtain ⟨data, hdata⟩ := outcome_ok.mp hr.symm
    exact ⟨attachChunk_underway hunderway hdata, asksForBlocks_plain (attachChunk_cases hdata).2⟩
  | fault => cases hr

/-- Along every interleaving of the handlers, what is asked for are blocks of the pieces, and
they are underway. -/
theorem run_underway {events : List (PoolEvent Job)} {pool : SessionPool}
    (hunderway : AllUnderway cfg.sha1 contents s.pieces)
    (halong : Runs.Along (Pool.step (Job.handler cfg)) (HonestEvent cfg contents)
      (Pool.initial s) events) (hrun : runPool cfg s events = .ok pool) :
    AllUnderway cfg.sha1 contents pool.state.pieces ∧
      AsksForBlocks contents (effectsOf pool.history) := by
  refine Pool.run_yields
    (fun history t => AllUnderway cfg.sha1 contents t.pieces ∧
      AsksForBlocks contents (effectsOf history))
    (fun job (_ : IsHonest cfg contents job) => job.yields (J := AllUnderway cfg.sha1 contents))
    (fun pool job hinv hevent => ?_) (fun _ _ hinv => hinv.1) ?_ ⟨hunderway, ?_⟩ halong hrun
  · refine ⟨hevent.1, fun record block hcall htype => ?_⟩
    obtain ⟨data, rfl, hanswers⟩ := hevent.2 record block hcall htype
    obtain ⟨content, hcontent, hblock⟩ := hanswers.isBlockOf hinv.2
    exact ⟨data, content, rfl, hcontent, hblock⟩
  · rintro job history l t t' out hhonest ⟨hinv, hasks⟩ hdoes
    obtain ⟨hafter, hout⟩ := Does.honest hdoes hhonest hinv
    rw [effectsOf_append_step]
    exact ⟨hafter, hasks.append hout⟩
  · simp [effectsOf, AsksForBlocks]

theorem SessionRun.underway {metaInfo : Dictionary} {lengths : List Int64} {length : Int64}
    {files : List PieceFile} (session : SessionRun cfg metaInfo files)
    (hpublishes : Publishes cfg.sha1 metaInfo lengths length contents)
    (hholds : HoldsPieces contents files) :
    AllUnderway cfg.sha1 contents session.state.pieces := by
  obtain ⟨pieces, hpieces, htracks, hchunks⟩ :=
    hpublishes.resume session.temporary hholds session.listed
  obtain rfl := Option.some.inj (hpieces.symm.trans session.setUp)
  refine ⟨htracks.length, hpublishes.count, fun i piece content hpiece hcontent => ?_⟩
  have hmem := List.mem_of_getElem? hpiece
  refine ⟨htracks.setUp i piece content hpiece hcontent, fun _ => ?_, htracks.incomplete piece hmem⟩
  rw [hchunks piece hmem]
  exact holdsBlocks_nil content

/-- In a session in which the peers answer what they have been asked for, however the handlers
interleave: every REQUEST is for a block of a piece, and every answer to one is stored without a
fault, its bytes beside those that the piece has, until the piece is written with its content. -/
theorem honest_download {metaInfo : Dictionary} {lengths : List Int64} {length : Int64}
    {files : List PieceFile} (hpublishes : Publishes cfg.sha1 metaInfo lengths length contents)
    (hdirectory : Directory cfg metaInfo files) (hcollision : NoCollision cfg.sha1 contents files)
    (session : SessionRun cfg metaInfo files)
    (halong : Runs.Along (Pool.step (Job.handler cfg)) (HonestEvent cfg contents)
      (Pool.initial session.state) session.events) :
    AsksForBlocks contents (effectsOf session.pool.history) ∧
      ∀ (env : Environment) (key index begin : UInt32) (data : MessageBlock) (peer : PeerState),
        session.pool.state.peerState key = some peer → env.toFileResults.Succeed →
        env.duplicated = true → Answers contents (effectsOf session.pool.history) index begin data →
        ∃ content flags t out, contents[index.toNat]? = some content ∧
          pieceReceived cfg env key index begin (some data) session.pool.state =
            .ok (flags, t, out) ∧
          Advances cfg content index ⟨data, begin⟩ session.pool.state t out := by
  have hunderway := session.underway hpublishes (hdirectory.holds hpublishes hcollision)
  obtain ⟨hafter, hasks⟩ := run_underway hunderway halong session.run
  refine ⟨hasks, fun env key index begin data peer hpeer hfile hduplicated hanswers => ?_⟩
  obtain ⟨content, hcontent, hblock⟩ := hanswers.isBlockOf hasks
  obtain ⟨flags, t, out, hreceived, hadvances⟩ :=
    pieceReceived_advances hafter hpeer hfile hduplicated hcontent hblock
  exact ⟨content, flags, t, out, hcontent, hreceived, hadvances⟩

/-- A peer unchokes, and sends the block that it is asked for then. -/
def sampleAnswered : List (PoolEvent Job) :=
  [.start ⟨1, .record ⟨1, some .unchoke, [], ⟨0, 0, 0⟩⟩ none, sampleEnvironment⟩, .schedule 0,
    .schedule 0, .schedule 0, .start ⟨1, .record ⟨11, some .piece, [], ⟨0, 0, 0⟩⟩
      (some ⟨[7, 8], []⟩), sampleEnvironment⟩]

def sampleUnderway : SessionState :=
  sampleSession (samplePieces false) [(0x0A000001, { connections := [1], pieces := [0xC0] })]

def sampleAsking : SessionRun (sampleConfiguration true) metaInfoOfThreeBytes [] where
  tempFilename _ := (samplePiece true).filename
  names := []
  state := sampleUnderway
  events := sampleAnswered
  pool := (runPool (sampleConfiguration true) sampleUnderway sampleAnswered).toOption.getD
    (Pool.initial sampleUnderway)
  temporary _ := isTemporary_samplePiece
  listed := listed_new
  setUp := by decide
  follows := ⟨fun _ => succeed_sampleEnvironment, fun _ _ => ⟨fun _ _ => ⟨trivial,
    fun _ _ _ _ => trivial⟩, fun _ _ => ⟨fun _ _ => ⟨trivial, fun _ _ _ _ => trivial⟩,
    fun _ _ => ⟨fun _ _ => ⟨trivial, fun _ _ _ _ => trivial⟩, fun _ _ =>
    ⟨fun _ => succeed_sampleEnvironment, fun _ _ => trivial⟩⟩⟩⟩⟩
  run := rfl

theorem effectsOf_sampleAsking :
    effectsOf sampleAsking.pool.history = [.send 1 (.request 0 0 2)] := rfl

theorem answers_sampleAsking :
    Answers [[7, 8], [9]] (effectsOf sampleAsking.pool.history) 0 0 ⟨[7, 8], []⟩ :=
  ⟨1, 2, [7, 8], by rw [effectsOf_sampleAsking]; exact List.mem_singleton.mpr rfl, rfl,
    by decide, rfl⟩

theorem sampleAnswered_honest :
    Runs.Along (Pool.step (Job.handler (sampleConfiguration true)))
      (HonestEvent (sampleConfiguration true) [[7, 8], [9]]) (Pool.initial sampleUnderway)
      sampleAnswered := by
  refine ⟨⟨fun _ => succeed_sampleEnvironment, ?_⟩, fun p₁ h₁ => ⟨trivial, fun p₂ h₂ => ⟨trivial,
    fun p₃ h₃ => ⟨trivial, fun p₄ h₄ => ⟨⟨fun _ => succeed_sampleEnvironment, ?_⟩,
      fun _ _ => trivial⟩⟩⟩⟩⟩
  · rintro record block hcall htype
    obtain ⟨rfl, rfl⟩ := Call.record.inj hcall
    cases htype
  · -- the UNCHOKE has sent the REQUEST
    obtain rfl := Except.ok.inj h₁
    obtain rfl := Except.ok.inj h₂
    obtain rfl := Except.ok.inj h₃
    obtain rfl := Except.ok.inj h₄
    rintro record block hcall -
    obtain ⟨rfl, rfl⟩ := Call.record.inj hcall
    exact ⟨_, rfl, answers_sampleAsking⟩

theorem honest_download_answered :
    ∃ content flags t out, ([[7, 8], [9]] : List (List UInt8))[0]? = some content ∧
      pieceReceived (sampleConfiguration true) sampleEnvironment 0x0A000001 0 0
        (some ⟨[7, 8], []⟩) sampleAsking.pool.state = .ok (flags, t, out) ∧
      Advances (sampleConfiguration true) content 0 ⟨⟨[7, 8], []⟩, 0⟩ sampleAsking.pool.state
        t out :=
  (honest_download publishes_metaInfoOfThreeBytes .new nofun sampleAsking
    sampleAnswered_honest).2 sampleEnvironment 0x0A000001 0 0 ⟨[7, 8], []⟩ _ rfl
    succeed_sampleEnvironment rfl answers_sampleAsking

end ACENetwork.BitTorrent.Session
