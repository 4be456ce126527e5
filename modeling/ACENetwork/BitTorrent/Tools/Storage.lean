import ACENetwork.BitTorrent.Tools.Chunks

/-!
# Pieces on disk

A complete piece is hashed, written to a file of its own and dropped from memory.
When it is requested, its file is read back. The results of the file operations are
parameters.
-/
namespace ACENetwork.BitTorrent

/-- What the file operations of one call return. -/
structure FileResults where
  /-- the directory of the piece files exists or is created -/
  directory : Bool
  opened : Bool
  /-- the number of bytes after which `send_n` stops; `none`: it writes all of them -/
  transferred : Option ℕ
  closed : Bool
  /-- `assembleFiles` succeeds -/
  assembled : Bool
  /-- the names of the piece files, sorted -/
  files : List (List Char)
  load : List Char → Option (List UInt8)

/-- The calls that store and assemble pieces succeed. -/
structure FileResults.Succeed (file : FileResults) : Prop where
  directory : file.directory = true
  opened : file.opened = true
  transferred : file.transferred = none
  closed : file.closed = true
  assembled : file.assembled = true

namespace Tools

def aceBasename (path : List Char) : List Char :=
  (path.reverse.takeWhile (· ≠ '/')).reverse

/-- `Common_File_Tools::basename` without the extension. -/
def fileBasename (path : List Char) : List Char :=
  let name := aceBasename path
  match name.reverse.dropWhile (· ≠ '.') with
  | [] => name
  | _ :: stem => stem.reverse

def piecesDirectorySuffix : List Char := ['_', 'p', 'i', 'e', 'c', 'e', 's']

def pieceFilenameSuffix : List Char := ['.', 'p', 'i', 'e', 'c', 'e']

def piecesPath (downloadDirectory metaInfoFileName : List Char) : List Char :=
  downloadDirectory ++ '/' :: aceBasename metaInfoFileName ++ piecesDirectorySuffix

def pieceFileName (numberOfPieces : ℕ) (index : UInt32) (piece : Piece) : List Char :=
  let digits := Nat.toDigits 10 index.toNat
  List.replicate ((Nat.toDigits 10 numberOfPieces).length - digits.length) '0' ++ digits ++
    '_' :: piece.filename ++ pieceFilenameSuffix

/-- `converter >> result`: too large a number is read as the largest one. -/
def readUnsigned (digits : List Char) : UInt32 :=
  UInt32.ofNat
    (min (digits.foldl (fun value digit => 10 * value + (digit.toNat - '0'.toNat)) 0) (2 ^ 32 - 1))

/-- The number in front of `_XXXXXX.piece`, where the dot is any character of the line;
-1 for other names. -/
def pieceFileNameToIndex (fileName : List Char) : UInt32 :=
  let filename := aceBasename fileName
  let digits := filename.takeWhile Char.isDigit
  match filename.drop digits.length with
  | '_' :: rest =>
    if digits ≠ [] ∧ rest.length = 12 ∧ (rest.take 6).all Char.isAlphanum ∧
        rest[6]?.all (fun c => c ≠ '\n' ∧ c ≠ '\r') ∧ rest.drop 7 = pieceFilenameSuffix.drop 1 then
      readUnsigned digits
    else -1
  | _ => -1

def validatePieceHash (ndebug : Bool) (sha1 : List UInt8 → Vector UInt8 20) (piece : Piece) :
    Except Fault Bool := do
  let data := concatenate piece.chunks
  if piece.length.toNat < data.length then .error .bufferOverflow
  else do
    aceAssert ndebug (data.length = piece.length.toNat)
    if data.length < piece.length.toNat then .error .uninitialized
    else .ok (sha1 data = piece.hash)

/-- What `savePiece` returns, the piece it leaves and what it wrote to the file. -/
structure SavedPiece where
  result : Bool
  piece : Piece
  written : Option (List UInt8)

def freeChunks (piece : Piece) : Piece := { piece with chunks := [] }

def savePiece (file : FileResults) (piece : Piece) : Except Fault SavedPiece :=
  if !file.directory then .ok ⟨false, piece, none⟩
  -- `(*iterator).data` of the first chunk
  else if piece.chunks = [] then .error .endIterator
  else if !file.opened then .ok ⟨false, piece, none⟩
  else
    let data := concatenate piece.chunks
    let written := match file.transferred with
      | none => data
      | some bytes => data.take bytes
    let result := decide (written.length = piece.length.toNat)
    if file.closed then .ok ⟨result, freeChunks { piece with onDisk := true }, some written⟩
    else .ok ⟨false, piece, some written⟩

/-- What `loadPiece` returns, the piece it leaves and what it read from a file. -/
structure LoadedPiece where
  result : Bool
  piece : Piece
  read : Option (List UInt8)

def loadPiece (ndebug : Bool) (file : FileResults) (path : List Char) (index : UInt32)
    (piece : Piece) : Except Fault LoadedPiece := do
  aceAssert ndebug (piece.chunks = [] ∧ piece.onDisk)
  match file.files.find? fun name => pieceFileNameToIndex name = index with
  | none => .ok ⟨true, piece, none⟩
  | some name =>
    match file.load (path ++ '/' :: name) with
    | none => .ok ⟨false, piece, none⟩
    | some data =>
      .ok ⟨true, { piece with chunks := piece.chunks ++ [⟨⟨data, []⟩, 0⟩] }, some data⟩

theorem validatePieceHash_true {ndebug : Bool} {sha1 : List UInt8 → Vector UInt8 20}
    {piece : Piece} (h : validatePieceHash ndebug sha1 piece = .ok true) :
    (concatenate piece.chunks).length = piece.length.toNat ∧
      sha1 (concatenate piece.chunks) = piece.hash := by
  simp only [validatePieceHash] at h
  split at h
  · cases h
  · rename_i hlong
    obtain ⟨-, -, h⟩ := fault_bind_ok.mp h
    split at h
    · cases h
    · rename_i hshort
      exact ⟨by omega, by simpa using h⟩

/-- The piece is left alone, or its file has been closed: then the piece counts as on disk,
whatever part of it was written. -/
theorem savePiece_ok {file : FileResults} {piece : Piece} {saved : SavedPiece}
    (h : savePiece file piece = .ok saved) :
    saved.result = false ∧ saved.piece = piece ∨
      file.closed = true ∧ saved.piece = freeChunks { piece with onDisk := true } ∧
        ∃ written, saved.written = some written ∧ written <+: concatenate piece.chunks ∧
          (file.transferred = none → written = concatenate piece.chunks) ∧
          saved.result = decide (written.length = piece.length.toNat) := by
  simp only [savePiece] at h
  split at h
  · obtain rfl := Except.ok.inj h
    exact .inl ⟨rfl, rfl⟩
  · split at h
    · cases h
    · split at h
      · obtain rfl := Except.ok.inj h
        exact .inl ⟨rfl, rfl⟩
      · split at h
        · rename_i hclosed
          obtain rfl := Except.ok.inj h
          refine .inr ⟨hclosed, rfl, _, rfl, ?_, ?_, rfl⟩
          · cases file.transferred with
            | none => exact List.prefix_refl _
            | some bytes => exact List.take_prefix _ _
          · intro htransferred
            rw [htransferred]
        · obtain rfl := Except.ok.inj h
          exact .inl ⟨rfl, rfl⟩

/-- The piece is on disk and its file has all of its bytes, or it is in memory as before. -/
def AllOrNothing (piece : Piece) (saved : SavedPiece) : Prop :=
  if saved.result then
    saved.piece.onDisk = true ∧ saved.piece.chunks = [] ∧
      saved.written = some (concatenate piece.chunks)
  else saved.piece.onDisk = piece.onDisk ∧ saved.piece.chunks = piece.chunks

instance (piece : Piece) (saved : SavedPiece) : Decidable (AllOrNothing piece saved) :=
  inferInstanceAs (Decidable (ite ..))

def WrittenWhenClosed (file : FileResults) (piece : Piece) : Prop :=
  file.directory = true → file.opened = true → file.closed = true →
    (concatenate piece.chunks).length = piece.length.toNat ∧
      ∀ bytes ∈ file.transferred, piece.length.toNat ≤ bytes

/-- What has been transferred is the piece, unless the transfer stopped before its end. -/
theorem transferred_eq (data : List UInt8) (transferred : Option ℕ) :
    (match transferred with
      | none => data
      | some bytes => data.take bytes) = data ↔ ∀ bytes ∈ transferred, data.length ≤ bytes := by
  cases transferred with
  | none => simp
  | some bytes => simp [List.take_eq_self_iff]

/-- The chunks are released whenever the file is closed, so `savePiece` is all or nothing
exactly when no file is closed that has not received the whole piece. -/
theorem savePiece_allOrNothing {file : FileResults} {piece : Piece} (hchunks : piece.chunks ≠ []) :
    (∃ saved, savePiece file piece = .ok saved ∧ AllOrNothing piece saved) ↔
      WrittenWhenClosed file piece := by
  by_cases hfile : file.directory = true ∧ file.opened = true ∧ file.closed = true
  · obtain ⟨hdirectory, hopened, hclosed⟩ := hfile
    have htransferred := transferred_eq (concatenate piece.chunks) file.transferred
    simp only [savePiece, WrittenWhenClosed, hdirectory, hopened, hclosed, hchunks, Bool.not_true,
      Bool.false_eq_true, if_false, if_true, forall_const, Except.ok.injEq, exists_eq_left']
    generalize (match file.transferred with
      | none => concatenate piece.chunks
      | some bytes => (concatenate piece.chunks).take bytes) = written at htransferred ⊢
    by_cases hlength : written.length = piece.length.toNat
    · simp only [AllOrNothing, freeChunks, hlength, decide_true, if_true, true_and,
        Option.some.injEq]
      constructor
      · rintro rfl
        exact ⟨hlength, fun bytes hbytes => hlength ▸ htransferred.mp rfl bytes hbytes⟩
      · rintro ⟨hdata, hbytes⟩
        exact htransferred.mpr fun bytes h => hdata ▸ hbytes bytes h
    · simp only [AllOrNothing, freeChunks, hlength, decide_false, Bool.false_eq_true, if_false]
      constructor
      · rintro ⟨-, hnone⟩
        exact absurd hnone.symm hchunks
      · rintro ⟨hdata, hbytes⟩
        refine absurd ?_ hlength
        rw [htransferred.mpr fun bytes h => hdata ▸ hbytes bytes h, hdata]
  · -- the piece is left alone
    have hleft : ∃ written, savePiece file piece = .ok ⟨false, piece, written⟩ := by
      simp only [savePiece, hchunks, if_false]
      cases hdirectory : file.directory <;> cases hopened : file.opened <;>
        cases hclosed : file.closed <;> simp_all
    obtain ⟨written, hsaved⟩ := hleft
    refine iff_of_true ⟨_, hsaved, ?_⟩ fun hdirectory hopened hclosed =>
      absurd ⟨hdirectory, hopened, hclosed⟩ hfile
    simp [AllOrNothing]

def pieceOfTwoChunks : Piece :=
  { chunks := [⟨⟨[1], [[2]]⟩, 0⟩, ⟨⟨[3], []⟩, 2⟩], filename := [], hash := Vector.replicate 20 0
    length := 3, onDisk := false }

/-- File operations that succeed, where `send_n` stops after the given number of bytes. -/
def filesTransferring (transferred : Option ℕ) : FileResults :=
  { directory := true, opened := true, transferred := transferred, closed := true
    assembled := true, files := [], load := fun _ => none }

theorem savePiece_allOrNothing_whole :
    ∃ saved, savePiece (filesTransferring none) pieceOfTwoChunks = .ok saved ∧
      AllOrNothing pieceOfTwoChunks saved :=
  (savePiece_allOrNothing (by decide)).mpr fun _ _ _ => ⟨by decide, by simp [filesTransferring]⟩

/-- The disk is full after two bytes, and the file is closed: the third byte is lost. -/
theorem not_allOrNothing : ¬ ∀ (file : FileResults) (piece : Piece), piece.chunks ≠ [] →
    ∃ saved, savePiece file piece = .ok saved ∧ AllOrNothing piece saved := by
  intro h
  obtain ⟨saved, hsaved, hall⟩ := h (filesTransferring (some 2)) pieceOfTwoChunks (by decide)
  obtain rfl := Except.ok.inj hsaved
  revert hall
  decide

theorem savePiece_succeed {file : FileResults} {piece : Piece} {saved : SavedPiece}
    (hfile : file.Succeed) (hlength : (concatenate piece.chunks).length = piece.length.toNat)
    (h : savePiece file piece = .ok saved) : saved.result = true := by
  simp only [savePiece, hfile.directory, hfile.opened, hfile.transferred, hfile.closed,
    Bool.not_true, Bool.false_eq_true, if_false, if_true] at h
  split at h
  · cases h
  · obtain rfl := Except.ok.inj h
    simpa using hlength

theorem loadPiece_ok {ndebug : Bool} {file : FileResults} {path : List Char} {index : UInt32}
    {piece : Piece} {loaded : LoadedPiece}
    (h : loadPiece ndebug file path index piece = .ok loaded) :
    loaded.piece = piece ∧ loaded.read = none ∨
      ∃ data, loaded.read = some data ∧
        loaded.piece = { piece with chunks := piece.chunks ++ [⟨⟨data, []⟩, 0⟩] } := by
  obtain ⟨-, -, h⟩ := fault_bind_ok.mp h
  cases hfind : file.files.find? fun name => pieceFileNameToIndex name = index with
  | none =>
    simp only [hfind] at h
    obtain rfl := Except.ok.inj h
    exact .inl ⟨rfl, rfl⟩
  | some name =>
    cases hload : file.load (path ++ '/' :: name) with
    | none =>
      simp only [hfind, hload] at h
      obtain rfl := Except.ok.inj h
      exact .inl ⟨rfl, rfl⟩
    | some data =>
      simp only [hfind, hload] at h
      obtain rfl := Except.ok.inj h
      exact .inr ⟨data, rfl, rfl⟩

end Tools
end ACENetwork.BitTorrent
