import ACENetwork.BitTorrent.Tools.AssemblyContents
import ACENetwork.BitTorrent.Tools.PieceFiles
import ACENetwork.BitTorrent.Tools.PieceLengths
import ACENetwork.BitTorrent.Tools.Pieces

/-!
# The directory of the piece files

The pieces on disk are in a directory of their own, each in one file. A session that is set up on
such a directory marks the pieces that have a file, and once every piece has one, the files of the
torrent are assembled from them in the order of the pieces.
-/
namespace ACENetwork.BitTorrent.Tools
open Library

abbrev PieceFile := List Char × List UInt8

def fileIndex (file : PieceFile) : ℕ := (pieceFileNameToIndex file.1).toNat

def IsPieceFile (contents : List (List UInt8)) (file : PieceFile) : Prop :=
  ∃ (index : UInt32) (piece : Piece), IsTemporary piece.filename ∧
    file.1 = pieceFileName contents.length index piece ∧ contents[index.toNat]? = some file.2

structure HoldsPieces (contents : List (List UInt8)) (files : List PieceFile) : Prop where
  isPieceFile : ∀ file ∈ files, IsPieceFile contents file
  nodup : (files.map fileIndex).Nodup

section PieceFile

variable {contents : List (List UInt8)} {file file' : PieceFile}

theorem pieceFileName_eq (hcount : contents.length < 2 ^ 32) (index : UInt32) (piece : Piece) :
    pieceFileName contents.length index piece =
      savedFileName (fun _ => (Nat.toDigits 10 contents.length).length)
        (UInt32.ofNat contents.length) index piece.filename := by
  have hword : (UInt32.ofNat contents.length).toNat = contents.length := toNat_word hcount
  rw [savedFileName_eq index piece (by rw [GivesWidth, hword]), hword]

theorem fileIndex_pieceFileName (hcount : contents.length < 2 ^ 32) (index : UInt32)
    {piece : Piece} (hfilename : IsTemporary piece.filename) (data : List UInt8) :
    fileIndex (pieceFileName contents.length index piece, data) = index.toNat := by
  rw [fileIndex, pieceFileName_eq hcount, pieceFileNameToIndex_savedFileName hfilename]

theorem IsPieceFile.content (hcount : contents.length < 2 ^ 32) (h : IsPieceFile contents file) :
    contents[fileIndex file]? = some file.2 := by
  obtain ⟨index, piece, hfilename, hname, hcontent⟩ := h
  have hindex := fileIndex_pieceFileName hcount index hfilename file.2
  rw [← hname] at hindex
  rwa [hindex]

theorem IsPieceFile.index_lt (hcount : contents.length < 2 ^ 32)
    (h : IsPieceFile contents file) : fileIndex file < contents.length :=
  (List.getElem?_eq_some_iff.mp (h.content hcount)).1

theorem IsPieceFile.name_lt (hcount : contents.length < 2 ^ 32) (h : IsPieceFile contents file)
    (h' : IsPieceFile contents file') (hlt : fileIndex file < fileIndex file') :
    file.1 < file'.1 := by
  have hindex' := h'.index_lt hcount
  obtain ⟨index, piece, hfilename, hname, -⟩ := h
  obtain ⟨index', piece', hfilename', hname', -⟩ := h'
  have hword : (UInt32.ofNat contents.length).toNat = contents.length := toNat_word hcount
  have heq := fileIndex_pieceFileName hcount index hfilename file.2
  have heq' := fileIndex_pieceFileName hcount index' hfilename' file'.2
  rw [← hname] at heq
  rw [← hname'] at heq'
  rw [hname, hname', pieceFileName_eq hcount, pieceFileName_eq hcount]
  apply savedFileName_lt
  · rw [GivesWidth, hword]
  · rw [UInt32.lt_iff_toNat_lt, hword, ← heq']
    exact hindex'
  · rw [UInt32.lt_iff_toNat_lt, ← heq, ← heq']
    exact hlt

end PieceFile

section Marking

def markPiece (names : List (List Char)) (i : ℕ) (piece : Piece) : Piece :=
  { piece with
    onDisk := piece.onDisk || decide (i ∈ names.map fun name => (pieceFileNameToIndex name).toNat) }

/-- The pieces whose index some name has are marked, and nothing else changes. -/
theorem markPieces_eq {names : List (List Char)} {pieces : List Piece}
    (hnames : ∀ name ∈ names, (pieceFileNameToIndex name).toNat < pieces.length) :
    markPieces names pieces = some (pieces.mapIdx (markPiece names)) := by
  induction names generalizing pieces with
  | nil =>
    have hsame : pieces.mapIdx (markPiece []) = pieces := by
      apply List.ext_getElem? fun i => ?_
      rw [List.getElem?_mapIdx]
      cases pieces[i]? <;> simp [markPiece]
    rw [markPieces, hsame]
  | cons name names ih =>
    obtain ⟨hname, hrest⟩ := List.forall_mem_cons.mp hnames
    rw [markPieces, List.getElem?_eq_getElem hname]
    simp only
    rw [ih (by simpa using hrest)]
    congr 1
    apply List.ext_getElem? fun i => ?_
    rw [List.getElem?_mapIdx, List.getElem?_mapIdx, List.getElem?_set]
    by_cases hi : (pieceFileNameToIndex name).toNat = i
    · subst hi
      simp [hname, markPiece]
    · rw [if_neg hi]
      cases pieces[i]? with
      | none => rfl
      | some piece => simp [markPiece, Ne.symm hi]

end Marking

structure IsSetUp (sha1 : List UInt8 → Vector UInt8 20) (content : List UInt8) (piece : Piece) :
    Prop where
  nonempty : content ≠ []
  length : piece.length.toNat = content.length
  hash : piece.hash = sha1 content
  filename : IsTemporary piece.filename

/-- The metainfo that has been made for the contents of the pieces: all of them but the last one
are full, their lengths add up to those of the files, and the hashes are theirs. -/
structure Publishes (sha1 : List UInt8 → Vector UInt8 20) (metaInfo : Dictionary)
    (lengths : List Int64) (length : Int64) (contents : List (List UInt8)) : Prop where
  describes : Describes metaInfo lengths length (contents.flatMap fun content => (sha1 content).toList)
  total : ((contents.map List.length).sum : ℤ) = (lengths.map Int64.toInt).sum
  full : ∀ content ∈ contents.dropLast, (content.length : ℤ) = length.toInt
  count : contents.length < 2 ^ 32
  /-- what 32 bits lose of the total is a number of full pieces -/
  rest : length.toInt ∣ 2 ^ 32 * ((lengths.map Int64.toInt).sum / 2 ^ 32)

section Publishes

variable {sha1 : List UInt8 → Vector UInt8 20} {contents : List (List UInt8)}

theorem getD_hashes {i : ℕ} {content : List UInt8} (h : contents[i]? = some content) (j : Fin 20) :
    (contents.flatMap fun content => (sha1 content).toList).getD (20 * i + j) 0 =
      (sha1 content)[j] := by
  induction contents generalizing i with
  | nil => simp at h
  | cons first contents ih =>
    rw [List.flatMap_cons, List.getD_eq_getElem?_getD]
    cases i with
    | zero =>
      obtain rfl : first = content := by simpa using h
      have hj : 20 * 0 + (j : ℕ) < (sha1 first).toList.length := by simp
      rw [List.getElem?_append_left hj, List.getElem?_eq_getElem hj, Option.getD_some]
      simp
    | succ i =>
      have hlen : (sha1 first).toList.length = 20 := by simp
      rw [List.getElem?_append_right (by omega), hlen,
        show 20 * (i + 1) + (j : ℕ) - 20 = 20 * i + j by omega, ← List.getD_eq_getElem?_getD]
      exact ih (by simpa using h)

theorem length_hashes :
    (contents.flatMap fun content => (sha1 content).toList).length = 20 * contents.length := by
  induction contents with
  | nil => rfl
  | cons first contents ih =>
    rw [List.flatMap_cons, List.length_append, ih, Vector.length_toList, List.length_cons]
    omega

variable {metaInfo : Dictionary} {lengths : List Int64} {length : Int64}

theorem Publishes.length_eq {m : ℕ} (h : Publishes sha1 metaInfo lengths length contents)
    (hnumber : ((m + 1 : ℕ) : ℤ) =
      ((lengths.map Int64.toInt).sum + length.toInt - 1) / length.toInt) :
    contents.length = m + 1 := by
  have hhashes := h.describes.hashes_length
  rw [length_hashes, ← hnumber] at hhashes
  omega

theorem Publishes.lengths_eq {m : ℕ} (h : Publishes sha1 metaInfo lengths length contents)
    (tempFilename : ℕ → List Char) (hashes : List UInt8)
    (hnumber : ((m + 1 : ℕ) : ℤ) =
      ((lengths.map Int64.toInt).sum + length.toInt - 1) / length.toInt) :
    (setUpPieces tempFilename (lengths.map unsignedInt).sum (unsignedInt length) hashes
      (m + 1)).map (fun piece => piece.length.toNat) = contents.map List.length := by
  have hlen := h.length_eq hnumber
  have hword := toNat_unsignedInt h.describes.pos.le h.describes.length_lt
  have hpos : 0 < (unsignedInt length).toNat := by
    have := h.describes.pos
    omega
  obtain ⟨front, last, rfl⟩ : ∃ front last, contents = front ++ [last] := by
    have hne : contents ≠ [] := by
      rintro rfl
      cases hlen
    exact ⟨_, _, (List.dropLast_append_getLast hne).symm⟩
  have hfront : front.map List.length = List.replicate m (unsignedInt length).toNat := by
    refine List.eq_replicate_iff.mpr ⟨by simpa using hlen, fun n hn => ?_⟩
    obtain ⟨content, hcontent, rfl⟩ := List.mem_map.mp hn
    have hfull := h.full content (by simpa using hcontent)
    omega
  -- both last pieces are what the full ones leave of the total
  have hdivide := (divide_replicate hpos (lengthOfPiece_last_bounds hpos)
    (by rw [hword]; exact hnumber)).mpr (show ((lengthOfPiece (lengths.map unsignedInt).sum
      (unsignedInt length) true).toNat : ℤ) % (unsignedInt length).toNat =
        (lengths.map Int64.toInt).sum % (unsignedInt length).toNat by
      rw [lengthOfPiece_last_emod, toNat_sum_unsignedInt_emod, hword]
      exact (emod_emod_word _ _).mpr h.rest)
  have hsum := hdivide.sum_eq
  have htotal := h.total
  rw [List.map_append, List.sum_append] at hsum htotal
  rw [hfront] at htotal
  have hlast : (lengthOfPiece (lengths.map unsignedInt).sum (unsignedInt length) true).toNat =
      last.length := by
    simp only [List.map_replicate, List.sum_replicate, List.map_singleton, List.sum_singleton,
      smul_eq_mul, nsmul_eq_mul, Nat.cast_add, Nat.cast_mul] at hsum htotal
    omega
  have hwords := congrArg (List.map UInt32.toNat) (setUpPieces_lengths tempFilename
    (lengths.map unsignedInt).sum (unsignedInt length) hashes m)
  rw [List.map_map, List.map_append, List.map_replicate, List.map_singleton] at hwords
  rw [List.map_append, hfront, List.map_singleton, ← hlast]
  exact hwords

theorem lengthOfPiece_pos (totalLength : UInt32) {pieceLength : UInt32}
    (hpos : 0 < pieceLength.toNat) (last : Bool) :
    0 < (lengthOfPiece totalLength pieceLength last).toNat := by
  cases last with
  | false => simpa [lengthOfPiece] using hpos
  | true => exact (lengthOfPiece_last_bounds hpos).1

theorem Publishes.setUp {tempFilename : ℕ → List Char}
    (h : Publishes sha1 metaInfo lengths length contents)
    (htemp : ∀ i, IsTemporary (tempFilename i)) :
    ∃ pieces : List Piece, initialPieces tempFilename metaInfo = some pieces ∧
      pieces.length = contents.length ∧
      (∀ piece ∈ pieces, piece.chunks = [] ∧ piece.onDisk = false) ∧
      ∀ (i : ℕ) (piece : Piece) (content : List UInt8), pieces[i]? = some piece → contents[i]? = some content →
        IsSetUp sha1 content piece := by
  obtain ⟨m, hnumber, hinitial⟩ := initialPieces_eq tempFilename h.describes
  have hlengths := h.lengths_eq tempFilename
    (contents.flatMap fun content => (sha1 content).toList) hnumber
  refine ⟨_, hinitial, ?_, ?_, ?_⟩
  · have := congrArg List.length hlengths
    simpa using this
  · simp [setUpPieces]
  · intro i piece content hpiece hcontent
    have hlength : piece.length.toNat = content.length := by
      have := congrArg (fun l => l[i]?) hlengths
      simpa [hpiece, hcontent] using this
    obtain ⟨hi, hget⟩ := List.getElem?_eq_some_iff.mp hpiece
    simp only [setUpPieces, List.getElem_map, List.getElem_range] at hget
    refine ⟨?_, hlength, ?_, ?_⟩
    · rintro rfl
      have hcast := toNat_unsignedInt h.describes.pos.le h.describes.length_lt
      have hfull := h.describes.pos
      have hword : 0 < (unsignedInt length).toNat := by omega
      have hpos := lengthOfPiece_pos (lengths.map unsignedInt).sum hword (i + 1 = m + 1)
      rw [← hget, List.length_nil] at hlength
      exact absurd hlength hpos.ne'
    · rw [← hget]
      apply Vector.ext fun j hj => ?_
      rw [Vector.getElem_ofFn]
      exact getD_hashes hcontent ⟨j, hj⟩
    · rw [← hget]
      exact htemp i

end Publishes

/-- The pieces of a session beside the directory: those on disk are the ones that have a file, and
no other piece is complete in memory. -/
structure Tracks (sha1 : List UInt8 → Vector UInt8 20) (contents : List (List UInt8))
    (files : List PieceFile) (pieces : List Piece) : Prop where
  holds : HoldsPieces contents files
  length : pieces.length = contents.length
  setUp : ∀ (i : ℕ) (piece : Piece) (content : List UInt8), pieces[i]? = some piece →
    contents[i]? = some content → IsSetUp sha1 content piece
  onDisk : ∀ (i : ℕ) (piece : Piece), pieces[i]? = some piece →
    (piece.onDisk = true ↔ i ∈ files.map fileIndex)
  incomplete : ∀ piece ∈ pieces, piece.onDisk = false →
    isPieceComplete piece.length piece.chunks = false

section Tracks

variable {sha1 : List UInt8 → Vector UInt8 20} {contents : List (List UInt8)}
  {files : List PieceFile} {pieces : List Piece}

theorem IsSetUp.incomplete {content : List UInt8} {piece : Piece} (h : IsSetUp sha1 content piece) :
    isPieceComplete piece.length [] = false := by
  have hpos := List.length_pos_iff.mpr h.nonempty
  have hlength := h.length
  refine decide_eq_false fun hzero => ?_
  rw [hzero] at hlength
  simp at hlength
  omega

theorem Tracks.content (h : Tracks sha1 contents files pieces) {i : ℕ} {piece : Piece}
    (hpiece : pieces[i]? = some piece) :
    ∃ content, contents[i]? = some content ∧ IsSetUp sha1 content piece := by
  have hi := (List.getElem?_eq_some_iff.mp hpiece).1
  rw [h.length] at hi
  exact ⟨contents[i], List.getElem?_eq_getElem hi,
    h.setUp i piece _ hpiece (List.getElem?_eq_getElem hi)⟩

/-- On whatever directory earlier sessions left, a session is set up with the pieces that have a
file marked, and with nothing in memory. -/
theorem Publishes.resume {metaInfo : Dictionary} {lengths : List Int64} {length : Int64}
    {tempFilename : ℕ → List Char} {names : List (List Char)}
    (h : Publishes sha1 metaInfo lengths length contents)
    (htemp : ∀ i, IsTemporary (tempFilename i)) (hholds : HoldsPieces contents files)
    (hnames : names.Perm (files.map Prod.fst)) :
    ∃ pieces, initializePieces tempFilename names metaInfo = some pieces ∧
      Tracks sha1 contents files pieces ∧ ∀ piece ∈ pieces, piece.chunks = [] := by
  obtain ⟨first, hinitial, hlength, hfirst, hsetUp⟩ := h.setUp htemp
  have hmem (name : List Char) : name ∈ names ↔ ∃ file ∈ files, file.1 = name := by
    rw [hnames.mem_iff, List.mem_map]
  have hmarked : markPieces names first = some (first.mapIdx (markPiece names)) := by
    refine markPieces_eq fun name hname => ?_
    obtain ⟨file, hfile, rfl⟩ := (hmem name).mp hname
    rw [hlength]
    exact (hholds.isPieceFile file hfile).index_lt h.count
  have hne : first ≠ [] := by
    rintro rfl
    have hcount := h.describes.hashes_length
    have htotal := h.total
    have hpos := h.describes.total_pos
    obtain rfl : contents = [] := List.length_eq_zero_iff.mp hlength.symm
    simp only [List.map_nil, List.sum_nil, Nat.cast_zero] at htotal
    omega
  have hindexes (i : ℕ) : i ∈ names.map (fun name => (pieceFileNameToIndex name).toNat) ↔
      i ∈ files.map fileIndex := by
    rw [(hnames.map _).mem_iff, List.map_map]
    rfl
  have hchunks : ∀ piece ∈ first.mapIdx (markPiece names), piece.chunks = [] := by
    intro piece hpiece
    obtain ⟨i, hi⟩ := List.mem_iff_getElem?.mp hpiece
    rw [List.getElem?_mapIdx, Option.map_eq_some_iff] at hi
    obtain ⟨before, hbefore, rfl⟩ := hi
    exact (hfirst before (List.mem_of_getElem? hbefore)).1
  refine ⟨first.mapIdx (markPiece names), ?_, ⟨hholds, by simpa using hlength, ?_, ?_, ?_⟩,
    hchunks⟩
  · rw [initializePieces, hinitial, Option.bind_eq_bind, Option.bind_some, loadPieces, if_neg hne,
      hmarked]
  · intro i piece content hpiece hcontent
    rw [List.getElem?_mapIdx, Option.map_eq_some_iff] at hpiece
    obtain ⟨before, hbefore, rfl⟩ := hpiece
    obtain ⟨hnonempty, hlength, hhash, hfilename⟩ := hsetUp i before content hbefore hcontent
    exact ⟨hnonempty, hlength, hhash, hfilename⟩
  · intro i piece hpiece
    rw [List.getElem?_mapIdx, Option.map_eq_some_iff] at hpiece
    obtain ⟨before, hbefore, rfl⟩ := hpiece
    have hfalse := (hfirst before (List.mem_of_getElem? hbefore)).2
    simp only [markPiece, hfalse, Bool.false_or, decide_eq_true_eq]
    exact hindexes i
  · intro piece hpiece _
    rw [hchunks piece hpiece]
    obtain ⟨i, hi⟩ := List.mem_iff_getElem?.mp hpiece
    rw [List.getElem?_mapIdx, Option.map_eq_some_iff] at hi
    obtain ⟨before, hbefore, rfl⟩ := hi
    have hlt := (List.getElem?_eq_some_iff.mp hbefore).1
    rw [hlength] at hlt
    exact (hsetUp i before _ hbefore (List.getElem?_eq_getElem hlt)).incomplete

theorem set_cases {α : Type} {l : List α} {i j : ℕ} {a b : α} (h : (l.set i a)[j]? = some b) :
    i = j ∧ a = b ∨ i ≠ j ∧ l[j]? = some b := by
  rw [List.getElem?_set] at h
  split at h
  · rename_i hij
    split at h
    · exact .inl ⟨hij, Option.some.inj h⟩
    · cases h
  · exact .inr ⟨‹_›, h⟩

theorem Tracks.setChunks (h : Tracks sha1 contents files pieces) {i : ℕ} {piece : Piece}
    (hpiece : pieces[i]? = some piece) {chunks : List PieceChunk}
    (hchunks : piece.onDisk = false → isPieceComplete piece.length chunks = false) :
    Tracks sha1 contents files (pieces.set i { piece with chunks := chunks }) where
  holds := h.holds
  length := by rw [List.length_set, h.length]
  setUp j other content hother hcontent := by
    rcases set_cases hother with ⟨rfl, rfl⟩ | ⟨-, hother⟩
    · obtain ⟨hnonempty, hlength, hhash, hfilename⟩ := h.setUp i piece content hpiece hcontent
      exact ⟨hnonempty, hlength, hhash, hfilename⟩
    · exact h.setUp j other content hother hcontent
  onDisk j other hother := by
    rcases set_cases hother with ⟨rfl, rfl⟩ | ⟨-, hother⟩
    · exact h.onDisk i piece hpiece
    · exact h.onDisk j other hother
  incomplete other hother := by
    rcases List.mem_or_eq_of_mem_set hother with hold | rfl
    · exact h.incomplete other hold
    · exact hchunks

theorem Tracks.save (h : Tracks sha1 contents files pieces) (hcount : contents.length < 2 ^ 32)
    {index : UInt32} {piece : Piece} (hpiece : pieces[index.toNat]? = some piece)
    (hmissing : piece.onDisk = false) {data : List UInt8}
    (hdata : contents[index.toNat]? = some data) :
    Tracks sha1 contents (files ++ [(pieceFileName pieces.length index piece, data)])
      (pieces.set index.toNat (freeChunks { piece with onDisk := true })) := by
  obtain ⟨hnonempty, hlength, hhash, hfilename⟩ := h.setUp _ piece data hpiece hdata
  have hindex := fileIndex_pieceFileName hcount index hfilename data
  rw [← h.length] at hindex
  have hnew : index.toNat ∉ files.map fileIndex := fun hmem => by
    rw [(h.onDisk _ piece hpiece).mpr hmem] at hmissing
    cases hmissing
  have hindexes (j : ℕ) :
      j ∈ (files ++ [(pieceFileName pieces.length index piece, data)]).map fileIndex ↔
        j ∈ files.map fileIndex ∨ j = index.toNat := by
    rw [List.map_append, List.mem_append, List.map_singleton, List.mem_singleton, hindex]
  refine ⟨⟨fun file hfile => ?_, ?_⟩, by rw [List.length_set, h.length], ?_, ?_, ?_⟩
  · rcases List.mem_append.mp hfile with hold | hnew
    · exact h.holds.isPieceFile file hold
    · obtain rfl := List.mem_singleton.mp hnew
      exact ⟨index, piece, hfilename, by rw [h.length], hdata⟩
  · rw [List.map_append, List.map_singleton, hindex, List.nodup_append]
    refine ⟨h.holds.nodup, List.nodup_singleton _, fun a ha b hb => ?_⟩
    obtain rfl := List.mem_singleton.mp hb
    rintro rfl
    exact hnew ha
  · intro j other content hother hcontent
    rcases set_cases hother with ⟨rfl, rfl⟩ | ⟨-, hother⟩
    · obtain rfl := Option.some.inj (hdata.symm.trans hcontent)
      exact ⟨hnonempty, hlength, hhash, hfilename⟩
    · exact h.setUp j other content hother hcontent
  · intro j other hother
    rw [hindexes]
    rcases set_cases hother with ⟨rfl, rfl⟩ | ⟨hne, hother⟩
    · simp [freeChunks]
    · rw [h.onDisk j other hother]
      simp [Ne.symm hne]
  · intro other hother
    rcases List.mem_or_eq_of_mem_set hother with hold | rfl
    · exact h.incomplete other hold
    · simp [freeChunks]

theorem Tracks.every (h : Tracks sha1 contents files pieces)
    (hcomplete : isMissingPiece pieces = false) {i : ℕ} (hi : i < contents.length) :
    i ∈ files.map fileIndex := by
  rw [← h.length] at hi
  have hmem := List.getElem_mem hi
  have hnotMissing : isMissing pieces[i] = false := by
    simpa using (List.any_eq_false.mp hcomplete) _ hmem
  refine (h.onDisk i _ (List.getElem?_eq_getElem hi)).mp ?_
  by_contra hnot
  rw [Bool.not_eq_true] at hnot
  simp [isMissing, hnot, h.incomplete _ hmem hnot] at hnotMissing

end Tracks

/-- What `assembleFiles` finds in the directory: the names of the files in the order of the names,
and what has been written to each of them. -/
structure ReadsBack (path : List Char) (files : List PieceFile) (results : AssemblyResults) :
    Prop where
  piecesPath : results.piecesPath = path.map Char.toUInt8
  names : ∃ (less : List Char → List Char → Bool) (sorter : Sorter less),
    (∀ name name', less name name' = true ↔ name < name') ∧
      results.names = (sorter.run (files.map Prod.fst)).map (List.map Char.toUInt8)
  load : ∀ file ∈ files,
    results.load ((path ++ '/' :: file.1).map Char.toUInt8) = some file.2

section Loading

variable {contents : List (List UInt8)} {files : List PieceFile}

theorem HoldsPieces.sorted (hcount : contents.length < 2 ^ 32) (h : HoldsPieces contents files)
    (hevery : ∀ i < contents.length, i ∈ files.map fileIndex)
    {less : List Char → List Char → Bool} (hless : ∀ name name', less name name' = true ↔ name < name')
    (sorter : Sorter less) :
    (sorter.run (files.map Prod.fst)).map (fun name => (pieceFileNameToIndex name).toNat) =
      List.range contents.length := by
  have hindexes : ((files.map Prod.fst).map fun name => (pieceFileNameToIndex name).toNat) =
      files.map fileIndex := by
    rw [List.map_map]
    rfl
  have hperm : ((sorter.run (files.map Prod.fst)).map fun name =>
      (pieceFileNameToIndex name).toNat).Perm (List.range contents.length) := by
    refine ((sorter.perm _).map _).trans ?_
    rw [hindexes]
    refine (List.perm_ext_iff_of_nodup h.nodup List.nodup_range).mpr fun i => ?_
    rw [List.mem_range]
    refine ⟨fun hi => ?_, hevery i⟩
    obtain ⟨file, hfile, rfl⟩ := List.mem_map.mp hi
    exact (h.isPieceFile file hfile).index_lt hcount
  have hordered : ((sorter.run (files.map Prod.fst)).map fun name =>
      (pieceFileNameToIndex name).toNat).Pairwise (· ≤ ·) := by
    rw [List.pairwise_map]
    refine (sorter.ordered _).imp_of_mem fun {name name'} hname hname' hordered => ?_
    obtain ⟨file, hfile, rfl⟩ := List.mem_map.mp (sorter.mem_run.mp hname)
    obtain ⟨file', hfile', rfl⟩ := List.mem_map.mp (sorter.mem_run.mp hname')
    by_contra hnot
    have hlt := (h.isPieceFile file' hfile').name_lt hcount (h.isPieceFile file hfile)
      (not_le.mp hnot)
    rw [(hless _ _).mpr hlt] at hordered
    cases hordered
  exact hperm.eq_of_pairwise' hordered List.pairwise_le_range

theorem HoldsPieces.loads {path : List Char} {results : AssemblyResults}
    (hcount : contents.length < 2 ^ 32) (h : HoldsPieces contents files)
    (hevery : ∀ i < contents.length, i ∈ files.map fileIndex)
    (hreads : ReadsBack path files results) : Loads results results.names contents := by
  obtain ⟨less, sorter, hless, hnames⟩ := hreads.names
  have hsorted := h.sorted hcount hevery hless sorter
  have hread : ∀ name ∈ sorter.run (files.map Prod.fst),
      results.load (results.piecesPath ++ directorySeparator :: name.map Char.toUInt8) =
        contents[(pieceFileNameToIndex name).toNat]? := by
    intro name hname
    obtain ⟨file, hfile, rfl⟩ := List.mem_map.mp (sorter.mem_run.mp hname)
    have hload := hreads.load file hfile
    rw [List.map_append, List.map_cons, ← hreads.piecesPath] at hload
    exact hload.trans ((h.isPieceFile file hfile).content hcount).symm
  rw [Loads, hnames, List.map_map]
  calc (sorter.run (files.map Prod.fst)).map _
      = (sorter.run (files.map Prod.fst)).map
          (fun name => contents[(pieceFileNameToIndex name).toNat]?) := List.map_congr_left hread
    _ = ((sorter.run (files.map Prod.fst)).map
          (fun name => (pieceFileNameToIndex name).toNat)).map (contents[·]?) := by
        rw [List.map_map]
        rfl
    _ = (List.range contents.length).map (contents[·]?) := by rw [hsorted]
    _ = contents.map some := by
        apply List.ext_getElem (by simp) fun i hi hi' => ?_
        simp at hi
        simp [hi]

theorem filesOf_single {results : AssemblyResults} {metaInfo : Dictionary}
    {targets : List (List UInt8 × Int64)} (h : filesOf results metaInfo = some (true, targets)) :
    ∃ path length, targets = [(path, length)] := by
  simp only [filesOf, Option.bind_eq_bind, Option.bind_eq_some_iff] at h
  obtain ⟨dictionary, -, name, -, h⟩ := h
  cases hentry : entry infoFilesKey dictionary with
  | none =>
    simp only [hentry, Option.bind_eq_some_iff] at h
    obtain ⟨length, -, hequal⟩ := h
    exact ⟨_, length, by simpa using hequal.symm⟩
  | some value => cases value <;> simp [hentry, Option.bind_eq_some_iff] at h

/-- The lengths that the metainfo lists for the files are those that the pieces add up to. -/
theorem Publishes.total_eq {sha1 : List UInt8 → Vector UInt8 20} {metaInfo : Dictionary}
    {length : Int64} {targets : List (List UInt8 × Int64)}
    (h : Publishes sha1 metaInfo (targets.map Prod.snd) length contents) :
    (contents.map List.length).sum = ((targets.map sized).map Prod.snd).sum := by
  have htotal := h.total
  have hnonneg := h.describes.nonneg
  have hsum : (((targets.map sized).map Prod.snd).sum : ℤ) =
      ((targets.map Prod.snd).map Int64.toInt).sum := by
    clear htotal h
    induction targets with
    | nil => rfl
    | cons target targets ih =>
      obtain ⟨hfirst, hrest⟩ := List.forall_mem_cons.mp hnonneg
      have ih := ih hrest
      simp only [List.map_cons, List.sum_cons, Nat.cast_add, sized, ih]
      omega
  rw [← hsum] at htotal
  exact_mod_cast htotal

/-- Once every piece has its file, the files of the torrent are assembled from them, exactly when
their lengths and paths allow it. -/
theorem HoldsPieces.assembles_iff {sha1 : List UInt8 → Vector UInt8 20} {metaInfo : Dictionary}
    {length : Int64} {path : List Char} {results : AssemblyResults} {single : Bool}
    {targets : List (List UInt8 × Int64)} (h : HoldsPieces contents files)
    (hpublishes : Publishes sha1 metaInfo (targets.map Prod.snd) length contents)
    (hevery : ∀ i < contents.length, i ∈ files.map fileIndex)
    (hreads : ReadsBack path files results) (hworks : results.Works)
    (htargets : filesOf results metaInfo = some (single, targets)) :
    (∃ assembled, assembleFiles results metaInfo = .ok assembled ∧
      Assembles results (targets.map sized) contents assembled) ↔
      Assemblable single (targets.map sized) (contents.map List.length) := by
  have hloads := h.loads hpublishes.count hevery hreads
  have htotal := hpublishes.total_eq
  have hnonneg : ∀ target ∈ targets, 0 ≤ target.2.toInt := fun target htarget =>
    hpublishes.describes.nonneg _ (List.mem_map_of_mem htarget)
  cases single with
  | false =>
    have hne : targets ≠ [] := by
      rintro rfl
      have hpos := hpublishes.describes.total_pos
      simp at hpos
    exact assembleFiles_multiple_iff hworks hloads hne htargets hnonneg htotal
  | true =>
    obtain ⟨name, size, rfl⟩ := filesOf_single htargets
    exact assembleFiles_single_iff hworks hloads htargets (hnonneg _ List.mem_cons_self)
      (by simpa [sized] using htotal)

end Loading

end ACENetwork.BitTorrent.Tools
