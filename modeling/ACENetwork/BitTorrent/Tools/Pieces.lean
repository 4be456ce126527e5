import ACENetwork.BitTorrent.Tools.Chunks

/-!
# Which pieces are missing

A peer's bitfield has its first piece in the high bit of its first byte. A piece is
missing unless it is on disk or its chunks add up to its length; what is missing of
it is asked for in blocks of at most 16384 bytes.
-/
namespace ACENetwork.BitTorrent.Tools

/-- `0x80 >> array_offset_i`, the place of a piece in its byte. -/
def bitMask (index : UInt32) : UInt8 := 0x80 >>> UInt8.ofNat (index.toNat % 8)

def havePiece (ndebug : Bool) (index : UInt32) (bitfield : List UInt8) : Except Fault Bool := do
  aceAssert ndebug (index.toNat / 8 ≤ bitfield.length)
  match bitfield[index.toNat / 8]? with
  | none => .error .outOfRange
  | some byte => .ok (byte &&& bitMask index ≠ 0)

def hasMissingPieceFrom (ndebug : Bool) (bitfield : List UInt8) :
    (index : ℕ) → List Piece → Except Fault Bool
  | _, [] => .ok false
  | index, piece :: pieces =>
    if piece.onDisk then hasMissingPieceFrom ndebug bitfield (index + 1) pieces
    else if isPieceComplete piece.length piece.chunks then
      hasMissingPieceFrom ndebug bitfield (index + 1) pieces
    else do
      if ← havePiece ndebug (UInt32.ofNat index) bitfield then .ok true
      else hasMissingPieceFrom ndebug bitfield (index + 1) pieces

def hasMissingPiece (ndebug : Bool) (pieces : List Piece) (bitfield : List UInt8) :
    Except Fault Bool :=
  hasMissingPieceFrom ndebug bitfield 0 pieces

def isMissing (piece : Piece) : Bool :=
  !piece.onDisk && !isPieceComplete piece.length piece.chunks

def isMissingPiece (pieces : List Piece) : Bool := pieces.any isMissing

def getPieceIndexes (pieces : List Piece) (getMissing : Bool) : List ℕ :=
  (List.range pieces.length).filter fun index =>
    pieces[index]?.any fun piece => isMissing piece == getMissing

def requestBlockLengthMax : UInt32 := 16384

/-- A block to be requested: its offset in the piece and its length. -/
structure Block where
  begin : UInt32
  length : UInt32
  deriving DecidableEq, Repr

/-- The inner loop of `getMissingChunks`, which ends when nothing is missing. -/
def splitMissing : (fuel : ℕ) → (offset missing : UInt32) → List Block
  | 0, _, _ => []
  | fuel + 1, offset, missing =>
    if missing = 0 then []
    else
      let length := if missing < requestBlockLengthMax then missing else requestBlockLengthMax
      ⟨offset, length⟩ :: splitMissing fuel (offset + length) (missing - length)

def missingBlocks (offset missing : UInt32) : List Block :=
  splitMissing missing.toNat offset missing

def getMissingChunksFrom (ndebug : Bool) (pieceLength : UInt32) :
    (offset : UInt32) → List PieceChunk → Except Fault (List Block)
  | offset, [] => .ok (missingBlocks offset (pieceLength - offset))
  | offset, chunk :: chunks =>
    if chunk.offset = offset then
      getMissingChunksFrom ndebug pieceLength
        (chunk.offset + UInt32.ofNat chunk.data.totalLength) chunks
    else do
      aceAssert ndebug (offset < chunk.offset)
      -- behind the hole, `continue` passes over the chunk without its length
      let rest ← getMissingChunksFrom ndebug pieceLength chunk.offset chunks
      .ok (missingBlocks offset (chunk.offset - offset) ++ rest)

def getMissingChunks (ndebug : Bool) (pieceLength : UInt32) (chunks : List PieceChunk) :
    Except Fault (List Block) :=
  getMissingChunksFrom ndebug pieceLength 0 chunks

def hasBit (index : UInt32) (bitfield : List UInt8) : Bool :=
  bitfield[index.toNat / 8]?.any fun byte => byte &&& bitMask index ≠ 0

theorem havePiece_eq {ndebug : Bool} {index : UInt32} {bitfield : List UInt8}
    (h : index.toNat / 8 < bitfield.length) :
    havePiece ndebug index bitfield = .ok (hasBit index bitfield) := by
  simp [havePiece, hasBit, h.le, h, bind, Except.bind]

theorem havePiece_ok {ndebug : Bool} {index : UInt32} {bitfield : List UInt8} {b : Bool}
    (h : havePiece ndebug index bitfield = .ok b) : b = hasBit index bitfield := by
  by_cases hindex : index.toNat / 8 < bitfield.length
  · rw [havePiece_eq hindex] at h
    simpa using h.symm
  · simp [havePiece, fault_bind_ok, List.getElem?_eq_none (not_lt.mp hindex)] at h

/-- The loop finds the first missing piece from `index` on that the peer has. -/
theorem hasMissingPieceFrom_ok {ndebug : Bool} {bitfield : List UInt8} {index : ℕ}
    {pieces : List Piece} {b : Bool}
    (h : hasMissingPieceFrom ndebug bitfield index pieces = .ok b) :
    b = true ↔ ∃ i, ∃ piece, pieces[i]? = some piece ∧ isMissing piece = true ∧
      hasBit (UInt32.ofNat (index + i)) bitfield = true := by
  induction pieces generalizing index with
  | nil =>
    obtain rfl : false = b := by simpa [hasMissingPieceFrom] using h
    simp
  | cons piece pieces ih =>
    -- a piece that is not taken leaves the question to the pieces behind it
    have hskip (hrest : hasMissingPieceFrom ndebug bitfield (index + 1) pieces = .ok b)
        (hpiece : ¬ (isMissing piece = true ∧
          hasBit (UInt32.ofNat index) bitfield = true)) :
        b = true ↔ ∃ i, ∃ p, (piece :: pieces)[i]? = some p ∧ isMissing p = true ∧
          hasBit (UInt32.ofNat (index + i)) bitfield = true := by
      rw [ih hrest]
      constructor
      · rintro ⟨i, p, hp, hrest⟩
        exact ⟨i + 1, p, by simpa using hp, by rwa [show index + (i + 1) = index + 1 + i by omega]⟩
      · rintro ⟨i, p, hp, hmissing, hbit⟩
        cases i with
        | zero =>
          obtain rfl : piece = p := by simpa using hp
          exact absurd ⟨hmissing, by simpa using hbit⟩ hpiece
        | succ i =>
          exact ⟨i, p, by simpa using hp, hmissing,
            by rwa [show index + 1 + i = index + (i + 1) by omega]⟩
    unfold hasMissingPieceFrom at h
    by_cases honDisk : piece.onDisk = true
    · rw [if_pos honDisk] at h
      exact hskip h (by simp [isMissing, honDisk])
    · rw [if_neg honDisk] at h
      by_cases hcomplete : isPieceComplete piece.length piece.chunks = true
      · rw [if_pos hcomplete] at h
        exact hskip h (by simp [isMissing, hcomplete])
      · rw [if_neg hcomplete] at h
        obtain ⟨bit, hbit, h⟩ := fault_bind_ok.mp h
        have hbit := havePiece_ok hbit
        cases bit with
        | false => exact hskip (by simpa using h) (by simp [← hbit])
        | true =>
          obtain rfl : true = b := by simpa using h
          exact iff_of_true rfl ⟨0, piece, rfl, by simp [isMissing, honDisk, hcomplete],
            by simpa using hbit.symm⟩

/-- The bytes that `populatePeerPiecesBitfield` gives a bitfield of `n` pieces. -/
def bitfieldLength (n : ℕ) : ℕ := if n % 8 = 0 then n / 8 else n / 8 + 1

theorem div_lt_bitfieldLength {i n : ℕ} (h : i < n) : i / 8 < bitfieldLength n := by
  unfold bitfieldLength
  split <;> omega

theorem word_div_lt_bitfieldLength {i n : ℕ} (h : i < n) :
    (UInt32.ofNat i).toNat / 8 < bitfieldLength n := by
  have hle : (UInt32.ofNat i).toNat ≤ i := by
    rw [UInt32.toNat_ofNat']
    exact Nat.mod_le _ _
  exact (Nat.div_le_div_right hle).trans_lt (div_lt_bitfieldLength h)

/-- A bitfield with a byte for every piece is read within its bounds. -/
theorem hasMissingPieceFrom_error {ndebug : Bool} {bitfield : List UInt8} {index : ℕ}
    {pieces : List Piece} {e : Fault}
    (hlength : bitfield.length = bitfieldLength (index + pieces.length)) :
    hasMissingPieceFrom ndebug bitfield index pieces ≠ .error e := by
  induction pieces generalizing index with
  | nil => simp [hasMissingPieceFrom]
  | cons piece pieces ih =>
    have hrest : hasMissingPieceFrom ndebug bitfield (index + 1) pieces ≠ .error e :=
      ih (by rw [hlength, List.length_cons]; congr 1; omega)
    have hbyte : (UInt32.ofNat index).toNat / 8 < bitfield.length := by
      rw [hlength]
      exact word_div_lt_bitfieldLength (by rw [List.length_cons]; omega)
    unfold hasMissingPieceFrom
    split
    · exact hrest
    · split
      · exact hrest
      · rw [havePiece_eq hbyte]
        simp only [Except.bind, bind]
        split
        · simp
        · exact hrest

theorem mem_getPieceIndexes {pieces : List Piece} {i : ℕ} {getMissing : Bool} :
    i ∈ getPieceIndexes pieces getMissing ↔
      ∃ piece, pieces[i]? = some piece ∧ isMissing piece = getMissing := by
  simp only [getPieceIndexes, List.mem_filter, List.mem_range, Option.any_eq_true, beq_iff_eq]
  constructor
  · rintro ⟨-, piece, hpiece, hmissing⟩
    exact ⟨piece, hpiece, hmissing⟩
  · rintro ⟨piece, hpiece, hmissing⟩
    exact ⟨(List.getElem?_eq_some_iff.mp hpiece).1, piece, hpiece, hmissing⟩

end ACENetwork.BitTorrent.Tools
