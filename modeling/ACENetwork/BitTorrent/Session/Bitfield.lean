import ACENetwork.BitTorrent.Session.Handlers

/-!
# The bitfield that is sent

Behind the handshake a session tells the peer which pieces are complete. Every complete piece has
its bit and no other bit is set, but the record has a byte where it should have a bit: its length
is right for a torrent of one piece only.
-/
namespace ACENetwork.BitTorrent.Session
open Tools

/-- Setting the bit of one piece leaves those of the others alone. -/
theorem or_bitMask_ne_zero (byte : UInt8) (index i : UInt32) :
    (byte ||| bitMask index) &&& bitMask i ≠ 0 ↔
      byte &&& bitMask i ≠ 0 ∨ index.toNat % 8 = i.toNat % 8 := by
  have hdistrib : (byte ||| bitMask index) &&& bitMask i =
      (byte &&& bitMask i) ||| (bitMask index &&& bitMask i) := by
    apply UInt8.toBitVec_inj.mp
    ext j hj
    simp [Bool.and_or_distrib_right]
  have hmask : ∀ j < 8, ∀ k < 8,
      ((0x80 >>> UInt8.ofNat j) &&& (0x80 >>> UInt8.ofNat k) : UInt8) = 0 ↔ j ≠ k := by
    decide
  have hsame := hmask (index.toNat % 8) (Nat.mod_lt _ (by norm_num)) (i.toNat % 8)
    (Nat.mod_lt _ (by norm_num))
  rw [hdistrib, ne_eq, UInt8.or_eq_zero_iff, bitMask, bitMask, hsame, not_and_or, not_not]

theorem hasBit_modify {bitfield : List UInt8} {index i : ℕ} (hindex : index < 2 ^ 32)
    (hi : i < 2 ^ 32) (hbyte : i / 8 < bitfield.length) :
    hasBit (UInt32.ofNat i)
        (bitfield.modify (index / 8) (· ||| bitMask (UInt32.ofNat index))) =
      (hasBit (UInt32.ofNat i) bitfield || decide (i = index)) := by
  rw [Bool.eq_iff_iff, Bool.or_eq_true, decide_eq_true_iff, hasBit, hasBit, toNat_word hi,
    List.getElem?_modify, List.getElem?_eq_getElem hbyte]
  by_cases hsame : index / 8 = i / 8
  · have hor := or_bitMask_ne_zero bitfield[i / 8] (UInt32.ofNat index) (UInt32.ofNat i)
    rw [toNat_word hindex, toNat_word hi] at hor
    simp only [if_pos hsame, Option.map_eq_map, Option.map_some, Option.any_some,
      decide_eq_true_iff]
    rw [hor]
    have hequal : index % 8 = i % 8 ↔ i = index := by omega
    rw [hequal]
  · have hne : i ≠ index := by
      rintro rfl
      exact hsame rfl
    simp [hsame, hne]

theorem hasBit_foldl {indexes : List ℕ} {bitfield : List UInt8} {i : ℕ}
    (hindexes : ∀ index ∈ indexes, index < 2 ^ 32) (hi : i < 2 ^ 32)
    (hbyte : i / 8 < bitfield.length) :
    hasBit (UInt32.ofNat i) (indexes.foldl (fun bitfield index =>
        bitfield.modify (index / 8) (· ||| bitMask (UInt32.ofNat index))) bitfield) =
      (hasBit (UInt32.ofNat i) bitfield || decide (i ∈ indexes)) := by
  induction indexes generalizing bitfield with
  | nil => simp
  | cons index indexes ih =>
    obtain ⟨hindex, hindexes⟩ := List.forall_mem_cons.mp hindexes
    rw [List.foldl_cons, ih hindexes (by rwa [List.length_modify]), hasBit_modify hindex hi hbyte,
      Bool.or_assoc]
    simp [List.mem_cons, Bool.decide_or]

theorem length_pieceBitfield (pieces : List Piece) :
    (pieceBitfield pieces).length = pieces.length := by
  have hfold : ∀ (indexes : List ℕ) (bitfield : List UInt8), (indexes.foldl
      (fun bitfield index => bitfield.modify (index / 8) (· ||| bitMask (UInt32.ofNat index)))
        bitfield).length = bitfield.length := by
    intro indexes
    induction indexes with
    | nil => exact fun _ => rfl
    | cons index indexes ih =>
      intro bitfield
      rw [List.foldl_cons, ih, List.length_modify]
  rw [pieceBitfield, hfold, List.length_replicate]

theorem hasBit_pieceBitfield {pieces : List Piece} {i : ℕ} (hword : pieces.length ≤ 2 ^ 32)
    (hi : i < 2 ^ 32) (hbyte : i / 8 < pieces.length) :
    hasBit (UInt32.ofNat i) (pieceBitfield pieces) =
      decide (i ∈ getPieceIndexes pieces false) := by
  have hzero : hasBit (UInt32.ofNat i) (List.replicate pieces.length 0) = false := by
    rw [hasBit, toNat_word hi, List.getElem?_replicate, if_pos hbyte]
    simp
  rw [pieceBitfield, hasBit_foldl _ hi (by simpa using hbyte), hzero, Bool.false_or]
  intro index hindex
  obtain ⟨piece, hpiece, -⟩ := mem_getPieceIndexes.mp hindex
  exact (List.getElem?_eq_some_iff.mp hpiece).1.trans_le hword

/-- The bitfield of a torrent: it has the length that its receiver gives it, a bit for each of the
complete pieces, and no others. -/
structure Faithful (ndebug : Bool) (pieces : List Piece) (bitfield : List UInt8) : Prop where
  length_eq : bitfield.length = bitfieldLength pieces.length
  havePiece_eq : ∀ i < pieces.length, havePiece ndebug (UInt32.ofNat i) bitfield =
    .ok (i ∈ getPieceIndexes pieces false)
  spare : ∀ i, pieces.length ≤ i → i < 8 * bitfield.length →
    hasBit (UInt32.ofNat i) bitfield = false

/-- The bitfield is faithful for a torrent of one piece only. -/
theorem pieceBitfield_faithful {ndebug : Bool} {pieces : List Piece}
    (hcomplete : getPieceIndexes pieces false ≠ []) :
    Faithful ndebug pieces (pieceBitfield pieces) ↔ pieces.length = 1 := by
  have hlength := length_pieceBitfield pieces
  constructor
  · intro h
    have hbytes := h.length_eq
    have hpos : pieces ≠ [] := by
      rintro rfl
      exact hcomplete rfl
    have hpos := List.length_pos_iff.mpr hpos
    rw [hlength, bitfieldLength] at hbytes
    split at hbytes <;> omega
  · intro hone
    refine ⟨by rw [hlength, hone]; rfl, fun i hi => ?_, fun i hle hi => ?_⟩
    · have hword : (UInt32.ofNat i).toNat = i := toNat_word (by omega)
      rw [Tools.havePiece_eq (by rw [hword, hlength]; omega),
        hasBit_pieceBitfield (by omega) (by omega) (by omega)]
    · rw [hlength] at hi
      rw [hasBit_pieceBitfield (by omega) (by omega) (by omega), decide_eq_false_iff_not]
      intro hmem
      obtain ⟨piece, hpiece, -⟩ := mem_getPieceIndexes.mp hmem
      exact absurd (List.getElem?_eq_some_iff.mp hpiece).1 (not_lt.mpr hle)

theorem pieceBitfield_faithful_single :
    Faithful false [samplePiece true] (pieceBitfield [samplePiece true]) :=
  (pieceBitfield_faithful (by decide)).mpr rfl

/-- The bitfield of two pieces has two bytes. -/
theorem not_faithful : ¬ ∀ pieces : List Piece, getPieceIndexes pieces false ≠ [] →
    Faithful false pieces (pieceBitfield pieces) := by
  intro h
  have hbytes := (h [samplePiece true, samplePiece false] (by decide)).length_eq
  rw [length_pieceBitfield] at hbytes
  exact absurd hbytes (by decide)

end ACENetwork.BitTorrent.Session
