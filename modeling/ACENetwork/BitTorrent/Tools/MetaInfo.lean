import ACENetwork.BitTorrent.Bencoding.Values
import ACENetwork.BitTorrent.Tools.Storage

/-!
# The pieces of a torrent

The metainfo has the length of the torrent, the length of its pieces and their hashes. A session
sets up a piece for every hash: the last one has the rest of the torrent. A piece whose file is
found in the download directory is on disk.
-/
namespace ACENetwork.BitTorrent
open Bencoding (Value)

abbrev Dictionary := List (List UInt8 × Value)

namespace Tools

def entry (key : List Char) (dictionary : Dictionary) : Option Value :=
  (dictionary.find? fun entry => entry.1 = key.map Char.toUInt8).map Prod.snd

def infoKey : List Char := ['i', 'n', 'f', 'o']

def infoLengthKey : List Char := ['l', 'e', 'n', 'g', 't', 'h']

def infoFilesKey : List Char := ['f', 'i', 'l', 'e', 's']

def infoPiecesKey : List Char := ['p', 'i', 'e', 'c', 'e', 's']

def infoPieceLengthKey : List Char :=
  ['p', 'i', 'e', 'c', 'e', ' ', 'l', 'e', 'n', 'g', 't', 'h']

/-- The dictionary of the info key; `none`: an assertion fails, here and below. -/
def info (metaInfo : Dictionary) : Option Dictionary :=
  match entry infoKey metaInfo with
  | some (.dictionary info) => some info
  | _ => none

def fileLength : Value → Option Int64
  | .dictionary file =>
    match entry infoLengthKey file with
    | some (.integer length) => some length
    | _ => none
  | _ => none

def fileLengths (info : Dictionary) : Option (List Int64) :=
  match entry infoLengthKey info with
  -- single-file mode
  | some (.integer length) => some [length]
  | some _ => none
  | none =>
    match entry infoFilesKey info with
    | some (.list files) => files.mapM fileLength
    | _ => none

/-- `static_cast<unsigned int>` of an integer element. -/
def unsignedInt (n : Int64) : UInt32 := n.toUInt64.toUInt32

def metaInfoToLength (metaInfo : Dictionary) : Option UInt32 := do
  let lengths ← fileLengths (← info metaInfo)
  some (lengths.map unsignedInt).sum

def pieceHashes (info : Dictionary) : Option (List UInt8) :=
  match entry infoPiecesKey info with
  | some (.string hashes) => some hashes
  | _ => none

def pieceLength (info : Dictionary) : Option Int64 :=
  match entry infoPieceLengthKey info with
  | some (.integer length) => some length
  | _ => none

def lengthOfPiece (totalLength pieceLength : UInt32) (last : Bool) : UInt32 :=
  let length := if last then totalLength % pieceLength else pieceLength
  if length = 0 then pieceLength else length

def setUpPieces (tempFilename : ℕ → List Char) (totalLength pieceLength : UInt32)
    (hashes : List UInt8) (number : ℕ) : List Piece :=
  (List.range number).map fun i =>
    { chunks := [], filename := tempFilename i
      hash := Vector.ofFn fun j : Fin 20 => hashes.getD (20 * i + j) 0
      length := lengthOfPiece totalLength pieceLength (i + 1 = number), onDisk := false }

/-- The pieces before their files are looked for; `none` stands for a division by zero as well. -/
def initialPieces (tempFilename : ℕ → List Char) (metaInfo : Dictionary) :
    Option (List Piece) := do
  let info ← info metaInfo
  let hashes ← pieceHashes info
  let length ← pieceLength info
  let totalLength ← metaInfoToLength metaInfo
  if hashes.length % 20 = 0 ∧ unsignedInt length ≠ 0 then
    some (setUpPieces tempFilename totalLength (unsignedInt length) hashes (hashes.length / 20))
  else none

/-- The loop of `loadPieces` that does not load to memory, over the names of the files. -/
def markPieces : (files : List (List Char)) → List Piece → Option (List Piece)
  | [], pieces => some pieces
  | name :: files, pieces =>
    let index := (pieceFileNameToIndex name).toNat
    match pieces[index]? with
    | none => none
    | some piece => markPieces files (pieces.set index { piece with onDisk := true })

def loadPieces (files : List (List Char)) (pieces : List Piece) : Option (List Piece) :=
  if pieces = [] then none else markPieces files pieces

def initializePieces (tempFilename : ℕ → List Char) (files : List (List Char))
    (metaInfo : Dictionary) : Option (List Piece) := do
  loadPieces files (← initialPieces tempFilename metaInfo)

def torrentLength (metaInfo : Dictionary) : Option ℤ := do
  let lengths ← fileLengths (← info metaInfo)
  some (lengths.map Int64.toInt).sum

/-- The lengths are unsigned numbers of 32 bits, and there is a hash for every piece. -/
structure Sized (lengths : List Int64) (length : Int64) (hashes : List UInt8) : Prop where
  nonneg : ∀ n ∈ lengths, 0 ≤ n.toInt
  total_lt : (lengths.map Int64.toInt).sum < 2 ^ 32
  pos : 0 < length.toInt
  length_lt : length.toInt < 2 ^ 32
  hashes_length : (hashes.length : ℤ) =
    20 * (((lengths.map Int64.toInt).sum + length.toInt - 1) / length.toInt)

/-- The lengths and the hashes of the metainfo fit together. -/
def Consistent (metaInfo : Dictionary) : Prop :=
  ∀ dictionary lengths length hashes, info metaInfo = some dictionary →
    fileLengths dictionary = some lengths → pieceLength dictionary = some length →
    pieceHashes dictionary = some hashes → Sized lengths length hashes

theorem toNat_unsignedInt_emod (n : Int64) : ((unsignedInt n).toNat : ℤ) = n.toInt % 2 ^ 32 := by
  have hword : (n.toUInt64.toNat : ℤ) = n.toInt % 2 ^ 64 := by
    have hlt := n.toBitVec.isLt
    rw [← Int64.toNat_toBitVec, ← Int64.toInt_toBitVec, BitVec.toInt_eq_toNat_cond]
    split <;> omega
  rw [unsignedInt, UInt64.toNat_toUInt32, Int.natCast_emod, hword]
  omega

theorem toNat_unsignedInt {n : Int64} (hnonneg : 0 ≤ n.toInt) (hlt : n.toInt < 2 ^ 32) :
    ((unsignedInt n).toNat : ℤ) = n.toInt := by
  rw [toNat_unsignedInt_emod, Int.emod_eq_of_lt hnonneg hlt]

theorem toNat_sum {words : List UInt32} (hlt : (words.map UInt32.toNat).sum < 2 ^ 32) :
    words.sum.toNat = (words.map UInt32.toNat).sum := by
  induction words with
  | nil => rfl
  | cons word words ih =>
    rw [List.map_cons, List.sum_cons] at hlt ⊢
    rw [List.sum_cons, UInt32.toNat_add, ih (by omega), Nat.mod_eq_of_lt hlt]

section Sum

variable {lengths : List Int64}

theorem sum_toInt_nonneg (hnonneg : ∀ n ∈ lengths, 0 ≤ n.toInt) :
    0 ≤ (lengths.map Int64.toInt).sum := by
  apply List.sum_nonneg
  intro x hx
  obtain ⟨n, hn, rfl⟩ := List.mem_map.mp hx
  exact hnonneg n hn

theorem sum_toNat_unsignedInt (hnonneg : ∀ n ∈ lengths, 0 ≤ n.toInt)
    (hlt : (lengths.map Int64.toInt).sum < 2 ^ 32) :
    ((((lengths.map unsignedInt).map UInt32.toNat).sum : ℕ) : ℤ) =
      (lengths.map Int64.toInt).sum := by
  induction lengths with
  | nil => rfl
  | cons n lengths ih =>
    obtain ⟨hn, hrest⟩ := List.forall_mem_cons.mp hnonneg
    have hsum := sum_toInt_nonneg hrest
    simp only [List.map_cons, List.sum_cons] at hlt ⊢
    rw [Nat.cast_add, ih hrest (by omega), toNat_unsignedInt hn (by omega)]

theorem toNat_sum_unsignedInt (hnonneg : ∀ n ∈ lengths, 0 ≤ n.toInt)
    (hlt : (lengths.map Int64.toInt).sum < 2 ^ 32) :
    ((lengths.map unsignedInt).sum.toNat : ℤ) = (lengths.map Int64.toInt).sum := by
  have hwords := sum_toNat_unsignedInt hnonneg hlt
  rw [toNat_sum (by omega), hwords]

end Sum

theorem sum_setUpPieces {tempFilename : ℕ → List Char} {totalLength pieceLength : UInt32}
    {hashes : List UInt8} {number : ℕ} (hpos : 0 < pieceLength.toNat)
    (hnumber : number = (totalLength.toNat + pieceLength.toNat - 1) / pieceLength.toNat)
    (hsome : number ≠ 0) :
    ((setUpPieces tempFilename totalLength pieceLength hashes number).map
      fun piece => piece.length.toNat).sum = totalLength.toNat := by
  obtain ⟨m, rfl⟩ := Nat.exists_eq_succ_of_ne_zero hsome
  have hfront : (List.range m).map (fun i =>
      (lengthOfPiece totalLength pieceLength (i + 1 = m + 1)).toNat) =
        (List.range m).map fun _ => pieceLength.toNat := by
    apply List.map_congr_left
    intro i hi
    have hne : i ≠ m := (List.mem_range.mp hi).ne
    simp [lengthOfPiece, hne]
  have hrest := Nat.div_add_mod (totalLength.toNat + pieceLength.toNat - 1) pieceLength.toNat
  have hmod := Nat.mod_lt (totalLength.toNat + pieceLength.toNat - 1) hpos
  rw [← hnumber, Nat.mul_succ] at hrest
  generalize hr : (totalLength.toNat + pieceLength.toNat - 1) % pieceLength.toNat = r at *
  -- all pieces but the last one are full, and the last one is not empty
  have htotal : totalLength.toNat = pieceLength.toNat * m + (r + 1) := by omega
  have hlast : (lengthOfPiece totalLength pieceLength true).toNat = r + 1 := by
    have hdiv : (totalLength % pieceLength).toNat = (r + 1) % pieceLength.toNat := by
      rw [UInt32.toNat_mod, htotal, Nat.mul_add_mod]
    by_cases hfull : r + 1 = pieceLength.toNat
    · have hzero : totalLength % pieceLength = 0 := by
        rw [← UInt32.toNat_inj, hdiv, hfull, Nat.mod_self]
        rfl
      simp [lengthOfPiece, hzero, hfull]
    · have hkept : (totalLength % pieceLength).toNat = r + 1 := by
        rw [hdiv, Nat.mod_eq_of_lt (by omega)]
      have hne : totalLength % pieceLength ≠ 0 := by
        intro hzero
        simp [hzero] at hkept
      simp [lengthOfPiece, hne, hkept]
  rw [setUpPieces, List.map_map, Function.comp_def, List.range_succ, List.map_append, hfront]
  simp [hlast, htotal, Nat.mul_comm]

theorem markPieces_lengths {files : List (List Char)} {pieces marked : List Piece}
    (h : markPieces files pieces = some marked) :
    marked.map Piece.length = pieces.map Piece.length := by
  induction files generalizing pieces with
  | nil =>
    obtain rfl := Option.some.inj h
    rfl
  | cons name files ih =>
    rw [markPieces] at h
    cases hpiece : pieces[(pieceFileNameToIndex name).toNat]? with
    | none => simp [hpiece] at h
    | some piece =>
      simp only [hpiece] at h
      obtain ⟨hlt, rfl⟩ := List.getElem?_eq_some_iff.mp hpiece
      have hkeep : (pieces.map Piece.length).set (pieceFileNameToIndex name).toNat
          pieces[(pieceFileNameToIndex name).toNat].length = pieces.map Piece.length := by
        rw [← List.getElem_map Piece.length (h := by simpa using hlt), List.set_getElem_self]
      rw [ih h, List.map_set, hkeep]

theorem markPieces_chunks {files : List (List Char)} {pieces marked : List Piece}
    (h : markPieces files pieces = some marked) (hempty : ∀ piece ∈ pieces, piece.chunks = []) :
    ∀ piece ∈ marked, piece.chunks = [] := by
  induction files generalizing pieces with
  | nil =>
    obtain rfl := Option.some.inj h
    exact hempty
  | cons name files ih =>
    rw [markPieces] at h
    cases hpiece : pieces[(pieceFileNameToIndex name).toNat]? with
    | none => simp [hpiece] at h
    | some piece =>
      simp only [hpiece] at h
      apply ih h
      intro other hother
      rcases List.mem_or_eq_of_mem_set hother with hold | rfl
      · exact hempty other hold
      · exact hempty piece (List.mem_of_getElem? hpiece)

/-- The pieces of a consistent torrent start without chunks, and have its length. -/
theorem initializePieces_ok {tempFilename : ℕ → List Char} {files : List (List Char)}
    {metaInfo : Dictionary} {pieces : List Piece} (hconsistent : Consistent metaInfo)
    (h : initializePieces tempFilename files metaInfo = some pieces) :
    (∀ piece ∈ pieces, piece.chunks = []) ∧
      ∃ totalLength, metaInfoToLength metaInfo = some totalLength ∧
        torrentLength metaInfo = some (totalLength.toNat : ℤ) ∧
        (pieces.map fun piece => piece.length.toNat).sum = totalLength.toNat := by
  simp only [initializePieces, initialPieces, Option.bind_eq_bind, Option.bind_eq_some_iff] at h
  obtain ⟨first, ⟨dictionary, hinfo, hashes, hhashes, length, hlength, totalLength, htotal, hfirst⟩,
    hload⟩ := h
  have hlengths := htotal
  simp only [metaInfoToLength, hinfo, Option.bind_eq_bind, Option.bind_some,
    Option.bind_eq_some_iff, Option.some.injEq] at hlengths
  obtain ⟨lengths, hlengths, rfl⟩ := hlengths
  obtain ⟨hnonneg, hlt, hpos, hlength_lt, hnumber⟩ :=
    hconsistent dictionary lengths length hashes hinfo hlengths hlength hhashes
  have hsum := toNat_sum_unsignedInt hnonneg hlt
  have hword := toNat_unsignedInt hpos.le hlength_lt
  split_ifs at hfirst with hset
  obtain rfl := Option.some.inj hfirst
  rw [loadPieces] at hload
  split_ifs at hload with hempty
  refine ⟨markPieces_chunks hload ?_, _, htotal, ?_, ?_⟩
  · simp [setUpPieces]
  · simp [torrentLength, hinfo, hlengths, hsum]
  · have hmarked := congrArg (fun l => (l.map UInt32.toNat).sum) (markPieces_lengths hload)
    simp only [List.map_map, Function.comp_def] at hmarked
    rw [hmarked]
    have hone : ((lengths.map unsignedInt).sum.toNat + (unsignedInt length).toNat - 1 : ℤ) =
        (((lengths.map unsignedInt).sum.toNat + (unsignedInt length).toNat - 1 : ℕ) : ℤ) := by
      omega
    have hhashes : hashes.length = 20 * (((lengths.map unsignedInt).sum.toNat +
        (unsignedInt length).toNat - 1) / (unsignedInt length).toNat) := by
      rw [← hsum, ← hword, hone] at hnumber
      exact_mod_cast hnumber
    apply sum_setUpPieces
    · omega
    · rw [hhashes, Nat.mul_div_cancel_left _ (by norm_num)]
    · rintro hzero
      simp [setUpPieces, hzero] at hempty

end Tools
end ACENetwork.BitTorrent
