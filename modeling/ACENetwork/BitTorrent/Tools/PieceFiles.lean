import ACENetwork.BitTorrent.Tools.Storage
import ACENetwork.Library.Numerals
import ACENetwork.Library.Sorting

/-!
# Names of piece files

The name that `savePiece` builds gives its index back, and the names of the pieces of one torrent
are ordered like their indexes. How many digits a number has, and how file identifiers are
compared, comes from another library.
-/
namespace ACENetwork.BitTorrent.Tools
open Library

/-- The name that `savePiece` builds, over `Common_Math_Tools::digitsBase10`. -/
def savedFileName (digitsBase10 : ℤ → ℕ) (numberOfPieces index : UInt32) (filename : List Char) :
    List Char :=
  zeroPadded (digitsBase10 numberOfPieces.toInt32.toInt) index.toNat ++
    '_' :: filename ++ pieceFilenameSuffix

/-- The decimal width of the number of pieces is what `digitsBase10` gives for it. -/
def GivesWidth (digitsBase10 : ℤ → ℕ) (numberOfPieces : UInt32) : Prop :=
  digitsBase10 numberOfPieces.toInt32.toInt = (Nat.toDigits 10 numberOfPieces.toNat).length

/-- The temporary names: six characters. -/
structure IsTemporary (filename : List Char) : Prop where
  length : filename.length = 6
  alphanum : ∀ c ∈ filename, c.isAlphanum = true

theorem savedFileName_eq {digitsBase10 : ℤ → ℕ} {numberOfPieces : UInt32} (index : UInt32)
    (piece : Piece) (h : GivesWidth digitsBase10 numberOfPieces) :
    savedFileName digitsBase10 numberOfPieces index piece.filename =
      pieceFileName numberOfPieces.toNat index piece := by
  unfold savedFileName pieceFileName zeroPadded
  rw [h]

section Basename

variable {path name : List Char}

theorem aceBasename_of_notMem (h : '/' ∉ name) : aceBasename name = name := by
  have hall : ∀ c ∈ name.reverse, decide (c ≠ '/') = true := by
    intro c hc
    refine decide_eq_true ?_
    rintro rfl
    exact h (List.mem_reverse.mp hc)
  rw [aceBasename, List.takeWhile_eq_self_iff.mpr hall, List.reverse_reverse]

theorem aceBasename_append (path : List Char) (h : '/' ∉ name) :
    aceBasename (path ++ '/' :: name) = name := by
  have hall : ∀ c ∈ name.reverse, decide (c ≠ '/') = true := by
    intro c hc
    refine decide_eq_true ?_
    rintro rfl
    exact h (List.mem_reverse.mp hc)
  have hstops : Stops (fun c => decide (c ≠ '/')) ('/' :: path.reverse) := by
    rintro c ⟨⟩
    rfl
  have hreverse : (path ++ '/' :: name).reverse = name.reverse ++ '/' :: path.reverse := by simp
  rw [aceBasename, hreverse, takeWhile_run hall hstops, List.reverse_reverse]

end Basename

section Names

variable {digitsBase10 : ℤ → ℕ} {numberOfPieces index : UInt32} {filename : List Char}

theorem slash_notMem_savedFileName (hfilename : IsTemporary filename) :
    '/' ∉ savedFileName digitsBase10 numberOfPieces index filename := by
  intro hmem
  rcases List.mem_append.mp hmem with hmem | hsuffix
  · rcases List.mem_append.mp hmem with hdigit | hname
    · exact absurd (isDigit_of_mem_zeroPadded hdigit) (by decide)
    · rcases List.mem_cons.mp hname with heq | hname
      · exact absurd heq (by decide)
      · exact absurd (hfilename.alphanum _ hname) (by decide)
  · exact absurd hsuffix (by decide)

theorem readUnsigned_zeroPadded (width : ℕ) (index : UInt32) :
    readUnsigned (zeroPadded width index.toNat) = index := by
  have hvalue : (zeroPadded width index.toNat).foldl
      (fun value digit => 10 * value + (digit.toNat - '0'.toNat)) 0 = index.toNat :=
    Nat.ofDigitChars_eq_foldl.symm.trans (ofDigitChars_zeroPadded width index.toNat)
  have hle : index.toNat ≤ 2 ^ 32 - 1 := Nat.le_sub_one_of_lt index.toNat_lt
  rw [readUnsigned, hvalue, min_eq_left hle, UInt32.ofNat_toNat]

/-- The digits end at the underscore, and what follows has the form of the expression. -/
theorem index_of_basename {name : List Char} (hfilename : IsTemporary filename)
    (h : aceBasename name = savedFileName digitsBase10 numberOfPieces index filename) :
    pieceFileNameToIndex name = index := by
  have hsplit : savedFileName digitsBase10 numberOfPieces index filename =
      zeroPadded (digitsBase10 numberOfPieces.toInt32.toInt) index.toNat ++
        '_' :: (filename ++ pieceFilenameSuffix) := by simp [savedFileName]
  generalize digitsBase10 numberOfPieces.toInt32.toInt = width at hsplit
  have hstops : Stops Char.isDigit ('_' :: (filename ++ pieceFilenameSuffix)) := by
    rintro c ⟨⟩
    rfl
  have hdigits := takeWhile_run (fun _ => @isDigit_of_mem_zeroPadded width index.toNat _) hstops
  have hfront : (filename ++ pieceFilenameSuffix).take 6 = filename :=
    List.take_left' hfilename.length
  have hdot : (filename ++ pieceFilenameSuffix)[6]? = some '.' := by
    rw [List.getElem?_append_right hfilename.length.le, hfilename.length]
    rfl
  have hback : (filename ++ pieceFilenameSuffix).drop 7 = pieceFilenameSuffix.drop 1 := by
    rw [List.drop_append, hfilename.length, List.drop_eq_nil_of_le (by simp [hfilename.length])]
    rfl
  unfold pieceFileNameToIndex
  simp only [h, hsplit, hdigits, List.drop_left]
  rw [if_pos, readUnsigned_zeroPadded]
  refine ⟨zeroPadded_ne_nil width _, ?_, ?_, ?_, hback⟩
  · rw [List.length_append, hfilename.length]
    rfl
  · rw [hfront]
    exact List.all_eq_true.mpr hfilename.alphanum
  · rw [hdot]
    rfl

theorem pieceFileNameToIndex_savedFileName (hfilename : IsTemporary filename) :
    pieceFileNameToIndex (savedFileName digitsBase10 numberOfPieces index filename) = index :=
  index_of_basename hfilename (aceBasename_of_notMem (slash_notMem_savedFileName hfilename))

theorem pieceFileNameToIndex_path (path : List Char) (hfilename : IsTemporary filename) :
    pieceFileNameToIndex (path ++ '/' ::
      savedFileName digitsBase10 numberOfPieces index filename) = index :=
  index_of_basename hfilename (aceBasename_append path (slash_notMem_savedFileName hfilename))

/-- The names have one width, so that their numbers decide their order. -/
theorem savedFileName_lt {index' : UInt32} {filename' : List Char}
    (hwidth : GivesWidth digitsBase10 numberOfPieces) (hindex' : index' < numberOfPieces)
    (h : index < index') :
    savedFileName digitsBase10 numberOfPieces index filename <
      savedFileName digitsBase10 numberOfPieces index' filename' := by
  have hpos : 0 < (Nat.toDigits 10 numberOfPieces.toNat).length := Nat.length_toDigits_pos
  have hlt : numberOfPieces.toNat < 10 ^ (Nat.toDigits 10 numberOfPieces.toNat).length :=
    (Nat.length_toDigits_le_iff (by decide) hpos).mp le_rfl
  have hn' : index'.toNat < numberOfPieces.toNat := hindex'
  have hn : index.toNat < index'.toNat := h
  unfold savedFileName
  rw [List.append_assoc, List.append_assoc, hwidth]
  refine append_lt_append ?_ (zeroPadded_lt hpos (by omega) (by omega) hn)
  rw [zeroPadded_length hpos (by omega), zeroPadded_length hpos (by omega)]

end Names

def AreSaved (digitsBase10 : ℤ → ℕ) (numberOfPieces : UInt32) (files : List (List Char)) : Prop :=
  ∀ name ∈ files, ∃ index < numberOfPieces, ∃ filename, IsTemporary filename ∧
    name = savedFileName digitsBase10 numberOfPieces index filename

/-- The index of the name of a piece is that of the piece, with the directory in front as well; the
names of two pieces are ordered like their indexes, and every sort by name visits the pieces in the
order of their indexes. -/
theorem savedFileNames_in_order (digitsBase10 : ℤ → ℕ)
    (less : List Char → List Char → Bool) (hless : ∀ name name', less name name' ↔ name < name')
    (numberOfPieces : UInt32) (hwidth : GivesWidth digitsBase10 numberOfPieces) :
    (∀ index < numberOfPieces, ∀ filename, IsTemporary filename → ∀ path : List Char,
      pieceFileNameToIndex (savedFileName digitsBase10 numberOfPieces index filename) = index ∧
        pieceFileNameToIndex (path ++ '/' ::
          savedFileName digitsBase10 numberOfPieces index filename) = index) ∧
      (∀ index < numberOfPieces, ∀ index' < numberOfPieces, index < index' →
        ∀ filename filename', IsTemporary filename → IsTemporary filename' →
          savedFileName digitsBase10 numberOfPieces index filename <
            savedFileName digitsBase10 numberOfPieces index' filename') ∧
      ∀ (sorter : Sorter less) (files : List (List Char)),
        AreSaved digitsBase10 numberOfPieces files →
          ((sorter.run files).map pieceFileNameToIndex).Pairwise (· ≤ ·) := by
  refine ⟨fun index _ filename hfilename path => ⟨pieceFileNameToIndex_savedFileName hfilename,
    pieceFileNameToIndex_path path hfilename⟩, ?_, ?_⟩
  · intro index _ index' hindex' hlt filename filename' _ _
    exact savedFileName_lt hwidth hindex' hlt
  · intro sorter files hfiles
    rw [List.pairwise_map]
    refine (sorter.ordered files).imp_of_mem ?_
    intro name name' hname hname' hordered
    obtain ⟨index, hindex, filename, hfilename, rfl⟩ := hfiles name (sorter.mem_run.mp hname)
    obtain ⟨index', _, filename', hfilename', rfl⟩ := hfiles name' (sorter.mem_run.mp hname')
    rw [pieceFileNameToIndex_savedFileName hfilename, pieceFileNameToIndex_savedFileName hfilename']
    by_contra hnot
    have hlt : savedFileName digitsBase10 numberOfPieces index' filename' <
        savedFileName digitsBase10 numberOfPieces index filename :=
      savedFileName_lt hwidth hindex (UInt32.not_le.mp hnot)
    have hless := (hless _ _).mpr hlt
    exact absurd hless (by simp [hordered])

def decimalWidth (number : ℤ) : ℕ := (Nat.toDigits 10 number.toNat).length

/-- The names of the third and of the last of eleven pieces. -/
theorem savedFileNames_of_eleven :
    pieceFileNameToIndex (savedFileName decimalWidth 11 2 ['a', 'B', '3', 'd', 'E', '6']) = 2 ∧
      savedFileName decimalWidth 11 2 ['a', 'B', '3', 'd', 'E', '6'] <
        savedFileName decimalWidth 11 10 ['Z', 'z', '9', 'y', 'X', '8'] := by
  have hsaved := savedFileNames_in_order decimalWidth (fun name name' => decide (name < name'))
    (fun _ _ => decide_eq_true_iff) 11 rfl
  have htemporary : IsTemporary ['a', 'B', '3', 'd', 'E', '6'] :=
    ⟨rfl, List.all_eq_true.mp rfl⟩
  have htemporary' : IsTemporary ['Z', 'z', '9', 'y', 'X', '8'] :=
    ⟨rfl, List.all_eq_true.mp rfl⟩
  exact ⟨(hsaved.1 2 (by decide) _ htemporary []).1,
    hsaved.2.1 2 (by decide) 10 (by decide) (by decide) _ _ htemporary htemporary'⟩

end ACENetwork.BitTorrent.Tools
