import ACENetwork.BitTorrent.Session.Effects
import ACENetwork.BitTorrent.Tools.PieceDirectory

/-!
# Downloads over several sessions

A session can end at any point, and the next one is set up on the directory of piece files that
it leaves. Whatever the peers send and however the handlers interleave, the directory has one file
for each piece that is on disk, with the contents of that piece; the next session finds all of them,
and from the last one on the files of the torrent are assembled.
-/
namespace ACENetwork.BitTorrent.Session
open Library Tools

variable {cfg : Configuration} {env : Environment} {s t : SessionState} {out : List Effect}

def Configuration.directory (cfg : Configuration) : List Char :=
  piecesPath cfg.downloadDirectory cfg.metaInfoFileName

def writtenFile (cfg : Configuration) : Effect → Option PieceFile
  | .write _ path data => (path.dropPrefix? (cfg.directory ++ ['/'])).map fun name => (name, data)
  | _ => none

def written (cfg : Configuration) (effects : List Effect) : List PieceFile :=
  effects.filterMap (writtenFile cfg)

/-- The job's file operations succeed, or the assertions behind them are evaluated. -/
def StoresPieces (cfg : Configuration) (job : Job) : Prop :=
  cfg.ndebug = true → job.env.toFileResults.Succeed

/-- No data with the hash of a piece but its own has been written. -/
def NoCollision (sha1 : List UInt8 → Vector UInt8 20) (contents : List (List UInt8))
    (files : List PieceFile) : Prop :=
  ∀ file ∈ files, ∀ content ∈ contents, file.2.length = content.length →
    sha1 file.2 = sha1 content → file.2 = content

theorem NoCollision.front {sha1 : List UInt8 → Vector UInt8 20} {contents : List (List UInt8)}
    {files more : List PieceFile} (h : NoCollision sha1 contents (files ++ more)) :
    NoCollision sha1 contents files :=
  fun file hfile => h file (List.mem_append_left _ hfile)

theorem written_pieceFile {numberOfPieces : ℕ} {index : UInt32} {piece : Piece}
    {data : List UInt8} :
    written cfg [.write index (pieceFile cfg numberOfPieces index piece) data] =
      [(pieceFileName numberOfPieces index piece, data)] := by
  have hname : (pieceFile cfg numberOfPieces index piece).dropPrefix? (cfg.directory ++ ['/']) =
      some (pieceFileName numberOfPieces index piece) := by
    rw [List.dropPrefix?_eq_some_iff]
    exact ⟨cfg.directory ++ ['/'], by simp [pieceFile, Configuration.directory], by simp⟩
  simp [written, writtenFile, hname]

theorem written_plain (h : ∀ effect ∈ out, effect.IsPlain) : written cfg out = [] := by
  rw [written, List.filterMap_eq_nil_iff]
  intro effect heffect
  have hplain := h effect heffect
  cases effect with
  | write => exact hplain.elim
  | _ => rfl

theorem written_transmit {id : ConnectionId} {message : Message} :
    written cfg (transmit env id message) = [] := by
  unfold transmit
  split <;> rfl

theorem savePiece_whole {piece : Piece} {saved : SavedPiece}
    (hfile : cfg.ndebug = true → env.toFileResults.Succeed)
    (hhash : validatePieceHash cfg.ndebug cfg.sha1 piece = .ok true)
    (hsave : savePiece env.toFileResults piece = .ok saved)
    (hresult : saved.result = true ∨ cfg.ndebug = true) :
    saved.piece = freeChunks { piece with onDisk := true } ∧
      saved.written = some (concatenate piece.chunks) := by
  have hlength := (validatePieceHash_true hhash).1
  have htrue : saved.result = true :=
    hresult.elim id fun hndebug => savePiece_succeed (hfile hndebug) hlength hsave
  rcases savePiece_ok hsave with ⟨hfalse, -⟩ | ⟨-, hpiece, data, hdata, hprefix, -, hwhole⟩
  · rw [hfalse] at htrue
    cases htrue
  · have hsame : data.length = piece.length.toNat := by simpa [htrue] using hwhole.symm
    have hequal : data = concatenate piece.chunks :=
      hprefix.eq_of_length (hsame.trans hlength.symm)
    exact ⟨hpiece, by rw [hdata, hequal]⟩

/-- What becomes of the pieces when a block of one has been received. -/
inductive Received (cfg : Configuration) (index : UInt32) (s : SessionState) :
    SessionState → List Effect → Prop where
  | unchanged : Received cfg index s s []
  | chunks {piece : Piece} {chunks : List PieceChunk}
      (hpiece : s.pieces[index.toNat]? = some piece) (hmissing : piece.onDisk = false)
      (hchunks : chunks = [] ∨ isPieceComplete piece.length chunks = false) :
      Received cfg index s (s.setPiece index { piece with chunks := chunks }) []
  | saved {piece : Piece} {data : List UInt8} (hpiece : s.pieces[index.toNat]? = some piece)
      (hmissing : piece.onDisk = false) (hlength : data.length = piece.length.toNat)
      (hhash : cfg.sha1 data = piece.hash) :
      Received cfg index s (s.setPiece index (freeChunks { piece with onDisk := true }))
        [.write index (pieceFile cfg s.pieces.length index piece) data]

theorem pieceReceived_received {key index begin : UInt32} {block : Option MessageBlock}
    {flags : Option PieceFlags} (hfile : cfg.ndebug = true → env.toFileResults.Succeed)
    (h : pieceReceived cfg env key index begin block s = .ok (flags, t, out)) :
    Received cfg index s t out := by
  obtain ⟨houtcome, -⟩ := pieceReceived_outcome h
  cases houtcome with
  | unchanged => exact .unchanged
  | chunks chunks hpiece hmissing hchunks =>
    exact .chunks hpiece (isMissing_onDisk hmissing) hchunks
  | @saved piece chunks saved hpiece hmissing hvalid hsave hresult =>
    obtain ⟨hsaved, hwritten⟩ := savePiece_whole hfile hvalid hsave hresult
    obtain ⟨hlength, hhash⟩ := validatePieceHash_true hvalid
    rw [hsaved, hwritten]
    change Received cfg index s (s.setPiece index (freeChunks { piece with onDisk := true }))
      [.write index (pieceFile cfg s.pieces.length index piece) (concatenate chunks)]
    exact .saved hpiece (isMissing_onDisk hmissing) hlength hhash

section Runs

variable {contents : List (List UInt8)} {files : List PieceFile}

/-- A received block keeps the pieces beside the directory. -/
theorem Received.tracks {index : UInt32} (h : Received cfg index s t out)
    (htracks : Tracks cfg.sha1 contents files s.pieces) (hcount : contents.length < 2 ^ 32)
    (hcollision : NoCollision cfg.sha1 contents (written cfg out)) :
    Tracks cfg.sha1 contents (files ++ written cfg out) t.pieces := by
  cases h with
  | unchanged => simpa [written] using htracks
  | chunks hpiece hmissing hchunks =>
    rw [show written cfg [] = [] from rfl, List.append_nil]
    refine htracks.setChunks hpiece fun _ => ?_
    rcases hchunks with rfl | hchunks
    · obtain ⟨content, -, hsetUp⟩ := htracks.content hpiece
      exact hsetUp.incomplete
    · exact hchunks
  | @saved piece data hpiece hmissing hlength hhash =>
    obtain ⟨content, hcontent, hsetUp⟩ := htracks.content hpiece
    rw [written_pieceFile] at hcollision ⊢
    have hsame : data = content := by
      apply hcollision _ List.mem_cons_self content (List.mem_of_getElem? hcontent)
      · exact hlength.trans hsetUp.length
      · exact hhash.trans hsetUp.hash
    subst hsame
    exact htracks.save hcount hpiece hmissing hcontent

/-- Reading a piece on disk for a REQUEST does so as well. -/
theorem attachChunk_tracks {index begin length : UInt32} {data : Option (List UInt8)}
    (h : attachChunk cfg env index begin length s = .ok (data, t, out))
    (htracks : Tracks cfg.sha1 contents files s.pieces) :
    Tracks cfg.sha1 contents (files ++ written cfg out) t.pieces := by
  obtain ⟨hstate, hplain⟩ := attachChunk_cases h
  rw [written_plain hplain, List.append_nil]
  rcases hstate with rfl | ⟨piece, chunks, hpiece, honDisk, rfl⟩
  · exact htracks
  · exact htracks.setChunks hpiece fun hmissing => by
      rw [honDisk] at hmissing
      cases hmissing

theorem written_append (effects more : List Effect) :
    written cfg (effects ++ more) = written cfg effects ++ written cfg more :=
  List.filterMap_append

/-- Along every interleaving of the handlers of a session, the pieces that come to be on disk
are those that are written, each of them once and with its contents. -/
theorem run_tracks {events : List (PoolEvent Job)} {pool : SessionPool}
    (hfollows : Follows cfg { started := StoresPieces cfg } s events)
    (hrun : runPool cfg s events = .ok pool) (hcount : contents.length < 2 ^ 32)
    (htracks : Tracks cfg.sha1 contents files s.pieces)
    (hcollision : NoCollision cfg.sha1 contents (written cfg (effectsOf pool.history))) :
    Tracks cfg.sha1 contents (files ++ written cfg (effectsOf pool.history)) pool.state.pieces := by
  refine Pool.run_yields
    (fun history t => NoCollision cfg.sha1 contents (written cfg (effectsOf history)) →
      Tracks cfg.sha1 contents (files ++ written cfg (effectsOf history)) t.pieces)
    (fun job _ => job.yields (J := fun _ => True)) (fun _ _ _ hstores => hstores)
    (fun _ _ _ => trivial) ?_ ?_ hfollows hrun hcollision
  · intro job history l t t' out hstores hinv hdoes hcollision
    rw [effectsOf_append_step, written_append] at hcollision ⊢
    have htracks := hinv hcollision.front
    have hnew : NoCollision cfg.sha1 contents (written cfg out) :=
      fun file hfile => hcollision file (List.mem_append_right _ hfile)
    rw [← List.append_assoc]
    generalize hr : Except.ok (t', out) = r at hdoes
    cases hdoes with
    | plain hpieces hout =>
      obtain ⟨rfl, rfl⟩ := Prod.mk.inj (Except.ok.inj hr)
      rw [written_plain hout, List.append_nil, hpieces]
      exact htracks
    | request =>
      obtain ⟨rfl, rfl⟩ := Prod.mk.inj (Except.ok.inj hr)
      rw [written_transmit, List.append_nil]
      exact htracks
    | pieceReceived =>
      obtain ⟨flags, hflags⟩ := outcome_ok.mp hr.symm
      exact (pieceReceived_received hstores hflags).tracks htracks hcount hnew
    | attachChunk =>
      obtain ⟨data, hdata⟩ := outcome_ok.mp hr.symm
      exact attachChunk_tracks hdata htracks
    | fault => cases hr
  · intro _
    simpa [effectsOf, written] using htracks

end Runs

/-- A session that is set up on a directory, and run up to some point. -/
structure SessionRun (cfg : Configuration) (metaInfo : Dictionary) (files : List PieceFile) where
  tempFilename : ℕ → List Char
  names : List (List Char)
  state : SessionState
  events : List (PoolEvent Job)
  pool : SessionPool
  temporary : ∀ i, IsTemporary (tempFilename i)
  listed : names.Perm (files.map Prod.fst)
  setUp : initializePieces tempFilename names metaInfo = some state.pieces
  follows : Follows cfg { started := StoresPieces cfg } state events
  run : runPool cfg state events = .ok pool

/-- The piece files that have been found and written. They are left where pieces are missing; behind
the last piece `assembleFiles` deletes them. -/
def SessionRun.stored {metaInfo : Dictionary} {files : List PieceFile}
    (session : SessionRun cfg metaInfo files) : List PieceFile :=
  files ++ written cfg (effectsOf session.pool.history)

/-- The directories that sessions leave which end with pieces missing. -/
inductive Directory (cfg : Configuration) (metaInfo : Dictionary) : List PieceFile → Prop where
  | new : Directory cfg metaInfo []
  | session {files : List PieceFile} (h : Directory cfg metaInfo files)
      (session : SessionRun cfg metaInfo files)
      (hmissing : isMissingPiece session.pool.state.pieces = true) :
      Directory cfg metaInfo session.stored

section Sessions

variable {metaInfo : Dictionary} {lengths : List Int64} {length : Int64}
  {contents : List (List UInt8)} {files : List PieceFile}

theorem SessionRun.tracks (session : SessionRun cfg metaInfo files)
    (hpublishes : Publishes cfg.sha1 metaInfo lengths length contents)
    (hholds : HoldsPieces contents files) (hcollision : NoCollision cfg.sha1 contents session.stored) :
    Tracks cfg.sha1 contents session.stored session.pool.state.pieces := by
  obtain ⟨pieces, hpieces, htracks, -⟩ :=
    hpublishes.resume session.temporary hholds session.listed
  obtain rfl := Option.some.inj (hpieces.symm.trans session.setUp)
  exact run_tracks session.follows session.run hpublishes.count htracks
    fun file hfile => hcollision file (List.mem_append_right _ hfile)

/-- So do all sessions in front of it: the induction is on the sessions. -/
theorem Directory.holds (hpublishes : Publishes cfg.sha1 metaInfo lengths length contents)
    (h : Directory cfg metaInfo files) (hcollision : NoCollision cfg.sha1 contents files) :
    HoldsPieces contents files := by
  induction h with
  | new => exact ⟨by simp, by simp⟩
  | session h session _ ih =>
    exact (session.tracks hpublishes (ih hcollision.front) hcollision).holds

/-- A session that ends with pieces missing loses nothing: the next one finds on disk the pieces
that it had there, and the one file of each of them has its contents. -/
theorem restart_keeps {tempFilename : ℕ → List Char} {names : List (List Char)}
    (hpublishes : Publishes cfg.sha1 metaInfo lengths length contents)
    (hdirectory : Directory cfg metaInfo files) (session : SessionRun cfg metaInfo files)
    (hcollision : NoCollision cfg.sha1 contents session.stored)
    (hmissing : isMissingPiece session.pool.state.pieces = true)
    (htemp : ∀ i, IsTemporary (tempFilename i)) (hnames : names.Perm (session.stored.map Prod.fst)) :
    Directory cfg metaInfo session.stored ∧
    ∃ pieces, initializePieces tempFilename names metaInfo = some pieces ∧
      pieces.map Piece.onDisk = session.pool.state.pieces.map Piece.onDisk ∧
      ∀ (i : ℕ) (piece : Piece), pieces[i]? = some piece → piece.onDisk = true →
        ∃! file, file ∈ session.stored ∧ fileIndex file = i ∧ contents[i]? = some file.2 := by
  have hbefore := session.tracks hpublishes (hdirectory.holds hpublishes hcollision.front) hcollision
  obtain ⟨pieces, hpieces, hafter, -⟩ := hpublishes.resume htemp hbefore.holds hnames
  refine ⟨.session hdirectory session hmissing, pieces, hpieces, ?_,
    fun i piece hpiece honDisk => ?_⟩
  · apply List.ext_getElem
    · rw [List.length_map, List.length_map, hafter.length, hbefore.length]
    · intro i hi hi'
      rw [List.length_map] at hi hi'
      rw [List.getElem_map, List.getElem_map, Bool.eq_iff_iff,
        hafter.onDisk i _ (List.getElem?_eq_getElem hi),
        hbefore.onDisk i _ (List.getElem?_eq_getElem hi')]
  · obtain ⟨file, hfile, rfl⟩ := List.mem_map.mp ((hafter.onDisk i piece hpiece).mp honDisk)
    have hcontent := (hbefore.holds.isPieceFile file hfile).content hpublishes.count
    refine ⟨file, ⟨hfile, rfl, hcontent⟩, ?_⟩
    rintro other ⟨hother, hindex, -⟩
    exact List.inj_on_of_nodup_map hbefore.holds.nodup hother hfile hindex

end Sessions

/-- A torrent of three bytes in two pieces, in a single file. -/
def infoOfThreeBytes : Dictionary :=
  [(infoLengthKey.map Char.toUInt8, .integer 3),
    (infoNameKey.map Char.toUInt8, .string ['t'.toUInt8]),
    (infoPieceLengthKey.map Char.toUInt8, .integer 2),
    (infoPiecesKey.map Char.toUInt8, .string (List.replicate 40 0))]

def metaInfoOfThreeBytes : Dictionary :=
  [(infoKey.map Char.toUInt8, .dictionary infoOfThreeBytes)]

theorem publishes_metaInfoOfThreeBytes :
    Publishes (sampleConfiguration true).sha1 metaInfoOfThreeBytes [3] 2 [[7, 8], [9]] where
  describes := ⟨⟨infoOfThreeBytes, rfl, rfl, rfl, rfl⟩,
    List.forall_mem_singleton.mpr (by decide), by decide, by decide, by decide, by decide⟩
  total := by decide
  full := by decide
  count := by decide
  rest := by decide

def sampleArrival (index : UInt32) (data : List UInt8) : List (PoolEvent Job) :=
  [.start ⟨1, .record ⟨UInt32.ofNat (9 + data.length), some .piece, [], ⟨index, 0, 0⟩⟩
    (some ⟨data, []⟩), sampleEnvironment⟩, .schedule 0]

theorem succeed_sampleEnvironment : sampleEnvironment.toFileResults.Succeed :=
  ⟨rfl, rfl, rfl, rfl, rfl⟩

theorem follows_sampleArrival (s : SessionState) (index : UInt32) (data : List UInt8) :
    Follows (sampleConfiguration true) { started := StoresPieces (sampleConfiguration true) } s
      (sampleArrival index data) :=
  ⟨fun _ => succeed_sampleEnvironment, fun _ _ => ⟨fun _ _ => ⟨trivial,
    fun _ _ _ _ => trivial⟩, fun _ _ => trivial⟩⟩

def samplePieces (onDisk : Bool) : List Piece :=
  [samplePiece false, { samplePiece onDisk with length := 1 }]

theorem isTemporary_samplePiece : IsTemporary (samplePiece true).filename :=
  ⟨rfl, List.all_eq_true.mp rfl⟩

theorem listed_new : ([] : List (List Char)).Perm (([] : List PieceFile).map Prod.fst) :=
  .nil

def sampleReceiving (onDisk : Bool) (index : UInt32) (data : List UInt8) : SessionPool :=
  match runPool (sampleConfiguration true)
      (sampleSession (samplePieces onDisk) [(0x0A000001, { connections := [1] })])
      (sampleArrival index data) with
  | .ok pool => pool
  | .error _ => Pool.initial (sampleSession [] [])

def sampleFirst : SessionRun (sampleConfiguration true) metaInfoOfThreeBytes [] where
  tempFilename _ := (samplePiece true).filename
  names := []
  state := sampleSession (samplePieces false) [(0x0A000001, { connections := [1] })]
  events := sampleArrival 1 [9]
  pool := sampleReceiving false 1 [9]
  temporary _ := isTemporary_samplePiece
  listed := listed_new
  setUp := by decide
  follows := follows_sampleArrival _ _ _
  run := rfl

def sampleFile : PieceFile :=
  (['1', '_', 'a', 'b', 'c', 'd', 'e', 'f', '.', 'p', 'i', 'e', 'c', 'e'], [9])

theorem stored_sampleFirst : sampleFirst.stored = [sampleFile] := rfl

theorem restart_keeps_one :
    Directory (sampleConfiguration true) metaInfoOfThreeBytes sampleFirst.stored ∧
    ∃ pieces, initializePieces (fun _ => (samplePiece true).filename) [sampleFile.1]
        metaInfoOfThreeBytes = some pieces ∧
      pieces.map Piece.onDisk = sampleFirst.pool.state.pieces.map Piece.onDisk ∧
      ∀ (i : ℕ) (piece : Piece), pieces[i]? = some piece → piece.onDisk = true →
        ∃! file, file ∈ sampleFirst.stored ∧ fileIndex file = i ∧
          ([[7, 8], [9]] : List (List UInt8))[i]? = some file.2 :=
  restart_keeps publishes_metaInfoOfThreeBytes .new sampleFirst
    (by rw [stored_sampleFirst, NoCollision]; decide) (by decide) (fun _ => isTemporary_samplePiece)
    (by rw [stored_sampleFirst]; decide)

section Completion

variable {metaInfo : Dictionary} {length : Int64} {contents : List (List UInt8)}
  {files : List PieceFile}

/-- However often a download is interrupted, however the handlers of its sessions interleave and
whatever the peers send: when no piece is missing any more, the files of the torrent are assembled
from the directory, each with its part of what has been published, exactly when their lengths and
paths allow it. -/
theorem download_assembles {targets : List (List UInt8 × Int64)} {single : Bool}
    {results : AssemblyResults}
    (hpublishes : Publishes cfg.sha1 metaInfo (targets.map Prod.snd) length contents)
    (hdirectory : Directory cfg metaInfo files) (session : SessionRun cfg metaInfo files)
    (hcollision : NoCollision cfg.sha1 contents session.stored)
    (hcomplete : isMissingPiece session.pool.state.pieces = false)
    (hreads : ReadsBack cfg.directory session.stored results) (hworks : results.Works)
    (htargets : filesOf results metaInfo = some (single, targets)) :
    (∃ assembled, assembleFiles results metaInfo = .ok assembled ∧
      Assembles results (targets.map sized) contents assembled) ↔
      Assemblable single (targets.map sized) (contents.map List.length) := by
  have htracks := session.tracks hpublishes (hdirectory.holds hpublishes hcollision.front) hcollision
  exact htracks.holds.assembles_iff hpublishes (fun i hi => htracks.every hcomplete hi) hreads hworks
    htargets

end Completion

def sampleSecond :
    SessionRun (sampleConfiguration true) metaInfoOfThreeBytes sampleFirst.stored where
  tempFilename _ := (samplePiece true).filename
  names := [sampleFile.1]
  state := sampleSession (samplePieces true) [(0x0A000001, { connections := [1] })]
  events := sampleArrival 0 [7, 8]
  pool := sampleReceiving true 0 [7, 8]
  temporary _ := isTemporary_samplePiece
  listed := by decide
  setUp := by decide
  follows := follows_sampleArrival _ _ _
  run := rfl

def nameSorter : Sorter fun name name' : List Char => decide (name < name') :=
  Sorter.insertion _
    (fun a b => by
      simp only [decide_eq_false_iff_not, not_lt]
      exact le_total a b)
    (fun a b c hab hbc => by
      simp only [decide_eq_false_iff_not, not_lt] at *
      exact hab.trans hbc)

def sampleResults : AssemblyResults where
  ndebug := false
  piecesPath := (sampleConfiguration true).directory.map Char.toUInt8
  names := (nameSorter.run (sampleSecond.stored.map Prod.fst)).map (List.map Char.toUInt8)
  load path := (sampleSecond.stored.find? fun file =>
    ((sampleConfiguration true).directory ++ '/' :: file.1).map Char.toUInt8 = path).map Prod.snd
  stored _ := true

theorem download_assembles_two :
    ∃ assembled, assembleFiles sampleResults metaInfoOfThreeBytes = .ok assembled ∧
      Assembles sampleResults [(sampleResults.piecesPath ++ [directorySeparator, 't'.toUInt8], 3)]
        [[7, 8], [9]] assembled :=
  (@download_assembles (sampleConfiguration true) metaInfoOfThreeBytes 2 [[7, 8], [9]] _
    [(sampleResults.piecesPath ++ [directorySeparator, 't'.toUInt8], 3)] true sampleResults
    publishes_metaInfoOfThreeBytes (.session .new sampleFirst (by decide)) sampleSecond
    (by rw [NoCollision]; decide) (by decide)
    ⟨rfl, ⟨_, nameSorter, fun _ _ => decide_eq_true_iff, rfl⟩, by decide⟩
    ⟨rfl, fun _ => rfl⟩ rfl).mpr
    ⟨by decide, fun _ => by decide, nofun, nofun, nofun, ownPaths_of_nodup (by decide)⟩

end ACENetwork.BitTorrent.Session
