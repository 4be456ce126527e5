import ACENetwork.BitTorrent.Tools.MetaInfo

/-!
# The lengths of the pieces

The length of a torrent is added up in 32 bits. All pieces but the last one are full whatever it
is, and the last one is the true rest exactly when the lost multiple of 2^32 is a multiple of the
piece length.
-/
namespace ACENetwork.BitTorrent.Tools

/-- Lengths that divide a total: all of them but the last one are full, and the last one is not
empty. -/
structure Divide (total full : ℤ) (lengths : List UInt32) : Prop where
  sum_eq : (lengths.map fun length => (length.toNat : ℤ)).sum = total
  front : ∀ length ∈ lengths.dropLast, (length.toNat : ℤ) = full
  last : ∀ length ∈ lengths.getLast?, 1 ≤ (length.toNat : ℤ) ∧ (length.toNat : ℤ) ≤ full

/-- The metainfo has files of these lengths, pieces of this length and a hash for every piece. -/
structure Describes (metaInfo : Dictionary) (lengths : List Int64) (length : Int64)
    (hashes : List UInt8) : Prop where
  parts : ∃ dictionary, info metaInfo = some dictionary ∧
    fileLengths dictionary = some lengths ∧ pieceLength dictionary = some length ∧
    pieceHashes dictionary = some hashes
  nonneg : ∀ n ∈ lengths, 0 ≤ n.toInt
  total_pos : 0 < (lengths.map Int64.toInt).sum
  pos : 0 < length.toInt
  length_lt : length.toInt < 2 ^ 32
  hashes_length : (hashes.length : ℤ) =
    20 * (((lengths.map Int64.toInt).sum + length.toInt - 1) / length.toInt)

/-- The total keeps the length of the torrent modulo 2^32. -/
theorem toNat_sum_unsignedInt_emod (lengths : List Int64) :
    ((lengths.map unsignedInt).sum.toNat : ℤ) = (lengths.map Int64.toInt).sum % 2 ^ 32 := by
  induction lengths with
  | nil => rfl
  | cons n lengths ih =>
    rw [List.map_cons, List.sum_cons, List.map_cons, List.sum_cons, UInt32.toNat_add,
      Int.natCast_emod, Nat.cast_add, ih, toNat_unsignedInt_emod]
    omega

theorem setUpPieces_lengths (tempFilename : ℕ → List Char) (totalLength pieceLength : UInt32)
    (hashes : List UInt8) (m : ℕ) :
    (setUpPieces tempFilename totalLength pieceLength hashes (m + 1)).map Piece.length =
      List.replicate m pieceLength ++ [lengthOfPiece totalLength pieceLength true] := by
  have hfull : ∀ i ∈ List.range m,
      lengthOfPiece totalLength pieceLength (i + 1 = m + 1) = pieceLength := by
    intro i hi
    have hne : i ≠ m := (List.mem_range.mp hi).ne
    simp [lengthOfPiece, hne]
  rw [setUpPieces, List.map_map, Function.comp_def, List.range_succ, List.map_append,
    List.map_congr_left hfull]
  simp

theorem toNat_lengthOfPiece_last {totalLength pieceLength : UInt32} :
    (lengthOfPiece totalLength pieceLength true).toNat =
      if totalLength.toNat % pieceLength.toNat = 0 then pieceLength.toNat
      else totalLength.toNat % pieceLength.toNat := by
  have hzero : totalLength % pieceLength = 0 ↔ totalLength.toNat % pieceLength.toNat = 0 := by
    rw [← UInt32.toNat_inj, UInt32.toNat_mod]
    rfl
  by_cases hrest : totalLength.toNat % pieceLength.toNat = 0
  · simp [lengthOfPiece, hzero.mpr hrest, hrest]
  · simp [lengthOfPiece, mt hzero.mp hrest, hrest]

theorem lengthOfPiece_last_bounds {totalLength pieceLength : UInt32}
    (hpos : 0 < pieceLength.toNat) :
    1 ≤ (lengthOfPiece totalLength pieceLength true).toNat ∧
      (lengthOfPiece totalLength pieceLength true).toNat ≤ pieceLength.toNat := by
  have hlt := Nat.mod_lt totalLength.toNat hpos
  rw [toNat_lengthOfPiece_last]
  split <;> omega

theorem lengthOfPiece_last_emod {totalLength pieceLength : UInt32} :
    ((lengthOfPiece totalLength pieceLength true).toNat : ℤ) % pieceLength.toNat =
      totalLength.toNat % pieceLength.toNat := by
  rw [toNat_lengthOfPiece_last]
  split
  · rename_i hzero
    rw [Int.emod_self]
    omega
  · rw [Int.natCast_emod, Int.emod_emod]

/-- So many full pieces and a last one divide a total exactly when the last one is its rest. -/
theorem divide_replicate {total : ℤ} {full last : UInt32} {m : ℕ} (hpos : 0 < full.toNat)
    (hlast : 1 ≤ last.toNat ∧ last.toNat ≤ full.toNat)
    (hnumber : ((m + 1 : ℕ) : ℤ) = (total + full.toNat - 1) / full.toNat) :
    Divide total full.toNat (List.replicate m full ++ [last]) ↔
      (last.toNat : ℤ) % full.toNat = total % full.toNat := by
  have hmul : (full.toNat : ℤ) * (m : ℤ) < total ∧ total ≤ full.toNat * (m : ℤ) + full.toNat := by
    have hdiv := Int.mul_ediv_add_emod (total + full.toNat - 1) full.toNat
    have hmod := Int.emod_lt_of_pos (total + full.toNat - 1) (b := full.toNat) (by omega)
    have hnonneg := Int.emod_nonneg (total + full.toNat - 1) (b := full.toNat) (by omega)
    rw [← hnumber, Nat.cast_add, Nat.cast_one, mul_add, mul_one] at hdiv
    omega
  have hsum : ((List.replicate m full ++ [last]).map fun length => (length.toNat : ℤ)).sum =
      full.toNat * (m : ℤ) + last.toNat := by
    simp [mul_comm]
  constructor
  · rintro ⟨h, -, -⟩
    rw [hsum] at h
    rw [← h, Int.mul_add_emod_self_left]
  · intro h
    refine ⟨?_, fun length hlength => ?_, fun length hlength => ?_⟩
    · -- two rests that are congruent and lie in one period are equal
      obtain ⟨k, hk⟩ := Int.ModEq.dvd (n := full.toNat) (a := last.toNat) (b := total) h
      rw [hsum]
      have hkm : k = m := by nlinarith
      subst hkm
      omega
    · rw [List.dropLast_concat] at hlength
      rw [List.eq_of_mem_replicate hlength]
    · rw [List.getLast?_concat] at hlength
      obtain rfl := Option.some.inj hlength
      omega

/-- A total that has lost a multiple of 2^32 keeps its rest when the multiple is divided. -/
theorem emod_emod_word (total length : ℤ) :
    total % 2 ^ 32 % length = total % length ↔ length ∣ 2 ^ 32 * (total / 2 ^ 32) := by
  have hsplit := Int.mul_ediv_add_emod total (2 ^ 32)
  constructor
  · intro h
    have hdvd := Int.ModEq.dvd (n := length) (a := total % 2 ^ 32) (b := total) h
    rwa [show total - total % 2 ^ 32 = 2 ^ 32 * (total / 2 ^ 32) by omega] at hdvd
  · rintro ⟨k, hk⟩
    rw [hk] at hsplit
    nth_rewrite 2 [← hsplit]
    rw [Int.mul_add_emod_self_left]

theorem initialPieces_eq {metaInfo : Dictionary} {lengths : List Int64} {length : Int64}
    {hashes : List UInt8} (tempFilename : ℕ → List Char)
    (h : Describes metaInfo lengths length hashes) :
    ∃ m : ℕ, ((m + 1 : ℕ) : ℤ) =
        ((lengths.map Int64.toInt).sum + length.toInt - 1) / length.toInt ∧
      initialPieces tempFilename metaInfo = some (setUpPieces tempFilename
        (lengths.map unsignedInt).sum (unsignedInt length) hashes (m + 1)) := by
  obtain ⟨dictionary, hinfo, hlengths, hlength, hhashes⟩ := h.parts
  have hnumber : 1 ≤ ((lengths.map Int64.toInt).sum + length.toInt - 1) / length.toInt := by
    rw [Int.le_ediv_iff_mul_le h.pos]
    have htotal := h.total_pos
    omega
  have hpositive : unsignedInt length ≠ 0 := by
    have hword := toNat_unsignedInt h.pos.le h.length_lt
    have hpos := h.pos
    intro hzero
    rw [hzero] at hword
    simp only [UInt32.toNat_zero, Nat.cast_zero] at hword
    omega
  have hhash := h.hashes_length
  refine ⟨hashes.length / 20 - 1, by omega, ?_⟩
  have hset : hashes.length % 20 = 0 ∧ unsignedInt length ≠ 0 := ⟨by omega, hpositive⟩
  simp only [initialPieces, metaInfoToLength, hinfo, hlengths, hlength, hhashes,
    Option.bind_eq_bind, Option.bind_some, if_pos hset]
  rw [show hashes.length / 20 - 1 + 1 = hashes.length / 20 by omega]

/-- The pieces of a torrent divide it exactly when their length divides the multiple of 2^32 by
which the total of 32 bits falls short. -/
theorem initializePieces_divide {metaInfo : Dictionary} {lengths : List Int64} {length : Int64}
    {hashes : List UInt8} (tempFilename : ℕ → List Char)
    (h : Describes metaInfo lengths length hashes) :
    (∃ pieces, initializePieces tempFilename [] metaInfo = some pieces) ∧
      (∀ files pieces, initializePieces tempFilename files metaInfo = some pieces →
        Divide (lengths.map Int64.toInt).sum length.toInt (pieces.map Piece.length)) ↔
      length.toInt ∣ 2 ^ 32 * ((lengths.map Int64.toInt).sum / 2 ^ 32) := by
  obtain ⟨m, hnumber, hinitial⟩ := initialPieces_eq tempFilename h
  have hword := toNat_unsignedInt h.pos.le h.length_lt
  have hpos : 0 < (unsignedInt length).toNat := by
    have := h.pos
    omega
  set first := setUpPieces tempFilename (lengths.map unsignedInt).sum (unsignedInt length) hashes
    (m + 1) with hfirst
  have hlengths := setUpPieces_lengths tempFilename (lengths.map unsignedInt).sum
    (unsignedInt length) hashes m
  have hne : first ≠ [] := by
    intro hnil
    rw [← hfirst, hnil] at hlengths
    simp at hlengths
  have hsome : initializePieces tempFilename [] metaInfo = some first := by
    simp [initializePieces, hinitial, loadPieces, hne, markPieces]
  -- files that are found leave the lengths as they are
  have hall (files : List (List Char)) (pieces : List Piece)
      (hpieces : initializePieces tempFilename files metaInfo = some pieces) :
      pieces.map Piece.length = first.map Piece.length := by
    simp only [initializePieces, hinitial, Option.bind_eq_bind, Option.bind_some, loadPieces,
      if_neg hne] at hpieces
    exact markPieces_lengths hpieces
  have hdivide : Divide (lengths.map Int64.toInt).sum length.toInt (first.map Piece.length) ↔
      length.toInt ∣ 2 ^ 32 * ((lengths.map Int64.toInt).sum / 2 ^ 32) := by
    rw [hlengths, ← hword]
    rw [divide_replicate hpos (lengthOfPiece_last_bounds hpos) (by rw [hword]; exact hnumber),
      lengthOfPiece_last_emod, toNat_sum_unsignedInt_emod, hword]
    exact emod_emod_word _ _
  rw [← hdivide]
  constructor
  · rintro ⟨-, hpieces⟩
    exact hpieces [] first hsome
  · intro hfirst
    exact ⟨⟨first, hsome⟩, fun files pieces hpieces => by rwa [hall files pieces hpieces]⟩

def infoOfTwoPieces (length : Int64) : Dictionary :=
  [(infoLengthKey.map Char.toUInt8, .integer 4294967296),
    (infoPieceLengthKey.map Char.toUInt8, .integer length),
    (infoPiecesKey.map Char.toUInt8, .string (List.replicate 40 0))]

def metaInfoOfTwoPieces (length : Int64) : Dictionary :=
  [(infoKey.map Char.toUInt8, .dictionary (infoOfTwoPieces length))]

theorem describes_metaInfoOfTwoPieces (length : Int64) (hlow : 2147483648 ≤ length.toInt)
    (hlt : length.toInt < 2 ^ 32) : Describes (metaInfoOfTwoPieces length) [4294967296] length
      (List.replicate 40 0) where
  parts := ⟨infoOfTwoPieces length, rfl, rfl, rfl, rfl⟩
  nonneg := List.forall_mem_singleton.mpr (by decide)
  total_pos := by decide
  pos := by omega
  length_lt := hlt
  hashes_length := by
    have htwo : (4294967296 + length.toInt - 1) / length.toInt = 2 := by
      have hlow : 2 ≤ (4294967296 + length.toInt - 1) / length.toInt := by
        rw [Int.le_ediv_iff_mul_le (by omega)]
        omega
      have hhigh : (4294967296 + length.toInt - 1) / length.toInt < 3 := by
        rw [Int.ediv_lt_iff_lt_mul (by omega)]
        omega
      omega
    have hsum : ([4294967296].map Int64.toInt).sum = 4294967296 := by decide
    rw [hsum, htwo]
    rfl

theorem initializePieces_divide_half :
    (∃ pieces, initializePieces (fun _ => []) [] (metaInfoOfTwoPieces 2147483648) = some pieces) ∧
      ∀ files pieces,
        initializePieces (fun _ => []) files (metaInfoOfTwoPieces 2147483648) = some pieces →
          Divide ([4294967296].map Int64.toInt).sum (2147483648 : Int64).toInt
            (pieces.map Piece.length) :=
  (initializePieces_divide (fun _ => []) (describes_metaInfoOfTwoPieces _ (by decide)
    (by decide))).mpr (by decide)

/-- 2^32 bytes in pieces of 3 * 2^30 bytes: the second piece is full as well. -/
theorem not_divide : ¬ ∀ (metaInfo : Dictionary) (lengths : List Int64) (length : Int64)
    (hashes : List UInt8), Describes metaInfo lengths length hashes →
      (∃ pieces, initializePieces (fun _ => []) [] metaInfo = some pieces) ∧
        ∀ files pieces, initializePieces (fun _ => []) files metaInfo = some pieces →
          Divide (lengths.map Int64.toInt).sum length.toInt (pieces.map Piece.length) := by
  intro h
  obtain ⟨⟨pieces, hpieces⟩, hdivide⟩ := h _ _ _ _
    (describes_metaInfoOfTwoPieces 3221225472 (by decide) (by decide))
  have hlengths : (initializePieces (fun _ => []) [] (metaInfoOfTwoPieces 3221225472)).map
      (fun pieces => pieces.map Piece.length) = some [3221225472, 3221225472] := by
    decide
  rw [hpieces, Option.map_some, Option.some.injEq] at hlengths
  have hsum := (hdivide [] pieces hpieces).sum_eq
  rw [hlengths] at hsum
  exact absurd hsum (by decide)

end ACENetwork.BitTorrent.Tools
