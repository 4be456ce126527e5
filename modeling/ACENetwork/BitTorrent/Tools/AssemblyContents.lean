import ACENetwork.BitTorrent.Tools.AssemblyRuns

/-!
# The contents of the files

A run that completes leaves in every file that it reaches the bytes of the payload that belong to
it, unless another file of the same path holds bytes as well. A file at the end of the list that is
empty is reached only by an empty piece.
-/
namespace ACENetwork.BitTorrent.Tools
open Bencoding (Value)
open Library

def segment (payload : List UInt8) (files : List (List UInt8 × ℕ)) (i : ℕ)
    (file : List UInt8 × ℕ) : List UInt8 :=
  (payload.drop ((files.take i).map Prod.snd).sum).take file.2

def storedAt (stores : Stores) (path : List UInt8) : List UInt8 :=
  (stores.filter fun store => store.1 = path).flatMap Prod.snd

def OwnPaths (files : List (List UInt8 × ℕ)) : Prop :=
  ∀ (i j : ℕ) (file other : List UInt8 × ℕ), files[i]? = some file → files[j]? = some other →
    i ≠ j → file.1 = other.1 → file.2 = 0

section Fill

variable {files : List (List UInt8 × ℕ)} {stores : Stores} {path : List UInt8}

theorem storedAt_append (stores more : Stores) :
    storedAt (stores ++ more) path = storedAt stores path ++ storedAt more path := by
  simp [storedAt, List.filter_append]

theorem storedAt_group (owner : List UInt8) (group : List (List UInt8)) :
    storedAt (group.map fun data => (owner, data)) path =
      if owner = path then group.flatten else [] := by
  induction group with
  | nil => simp [storedAt]
  | cons data group ih =>
    rw [storedAt] at ih
    by_cases howner : owner = path
    · simp [storedAt, howner, List.filter_map] at ih ⊢
      rw [ih]
    · simp [storedAt, howner, List.filter_map] at ih ⊢

theorem bytes_group (owner : List UInt8) (group : List (List UInt8)) :
    (group.map fun data => (owner, data)).flatMap Prod.snd = group.flatten := by
  induction group with
  | nil => rfl
  | cons data group ih => rw [List.map_cons, List.flatMap_cons, ih, List.flatten_cons]

theorem Fill.length_bytes (h : Fill files stores) :
    (stores.flatMap Prod.snd).length = (files.map Prod.snd).sum := by
  induction files generalizing stores with
  | nil =>
    obtain rfl : stores = [] := h
    rfl
  | cons file files ih =>
    obtain ⟨group, rest, rfl, -, hlength, hrest⟩ := h
    rw [List.flatMap_append, bytes_group, List.length_append, hlength, ih hrest, List.map_cons,
      List.sum_cons]

theorem Fill.exists_store (h : Fill files stores) :
    (∃ store ∈ stores, store.1 = path) ↔ ∃ file ∈ files, file.1 = path := by
  induction files generalizing stores with
  | nil =>
    obtain rfl : stores = [] := h
    simp
  | cons file files ih =>
    obtain ⟨group, rest, rfl, hgroup, -, hrest⟩ := h
    obtain ⟨data, hdata⟩ := List.exists_mem_of_ne_nil group hgroup
    rw [List.exists_mem_cons_iff, ← ih hrest]
    constructor
    · rintro ⟨store, hstore, hpath⟩
      rcases List.mem_append.mp hstore with hhere | hlater
      · obtain ⟨data, -, rfl⟩ := List.mem_map.mp hhere
        exact .inl hpath
      · exact .inr ⟨store, hlater, hpath⟩
    · rintro (hpath | ⟨store, hstore, hpath⟩)
      · exact ⟨(file.1, data), List.mem_append_left _ (List.mem_map_of_mem hdata), hpath⟩
      · exact ⟨store, List.mem_append_right _ hstore, hpath⟩

theorem Fill.length_storedAt (h : Fill files stores) :
    (storedAt stores path).length =
      ((files.filter fun file => file.1 = path).map Prod.snd).sum := by
  induction files generalizing stores with
  | nil =>
    obtain rfl : stores = [] := h
    rfl
  | cons file files ih =>
    obtain ⟨group, rest, rfl, -, hlength, hrest⟩ := h
    rw [storedAt_append, storedAt_group, List.length_append, ih hrest]
    by_cases hpath : file.1 = path
    · simp [hpath, hlength]
    · simp [hpath]

/-- A file that does not share its path with other bytes holds its part of the payload. -/
theorem Fill.storedAt_eq (h : Fill files stores) {i : ℕ} {file : List UInt8 × ℕ}
    (hfile : files[i]? = some file)
    (hothers : ∀ j other, files[j]? = some other → j ≠ i → other.1 = file.1 → other.2 = 0) :
    storedAt stores file.1 = segment (stores.flatMap Prod.snd) files i file := by
  induction files generalizing stores i with
  | nil => simp at hfile
  | cons first files ih =>
    obtain ⟨group, rest, rfl, -, hlength, hrest⟩ := h
    rw [storedAt_append, storedAt_group, List.flatMap_append, bytes_group]
    cases i with
    | zero =>
      obtain rfl : first = file := by simpa using hfile
      have hempty : storedAt rest first.1 = [] := by
        rw [← List.length_eq_zero_iff, hrest.length_storedAt, List.sum_eq_zero_iff]
        intro n hn
        obtain ⟨other, hother, rfl⟩ := List.mem_map.mp hn
        obtain ⟨hmem, hpath⟩ := List.mem_filter.mp hother
        obtain ⟨j, hj⟩ := List.mem_iff_getElem?.mp hmem
        exact hothers (j + 1) other (by simpa using hj) (by omega) (by simpa using hpath)
      rw [hempty, if_pos rfl, List.append_nil, segment, List.take_zero, List.map_nil, List.sum_nil,
        List.drop_zero, ← hlength, List.take_left]
    | succ i =>
      have hfile : files[i]? = some file := by simpa using hfile
      have hgroup : (if first.1 = file.1 then group.flatten else []) = [] := by
        by_cases hpath : first.1 = file.1
        · have hzero := hothers 0 first (by simp) (by omega) hpath
          rw [if_pos hpath, ← List.length_eq_zero_iff, hlength, hzero]
        · rw [if_neg hpath]
      rw [hgroup, List.nil_append, ih hrest hfile fun j other hother hne hpath =>
        hothers (j + 1) other (by simpa using hother) (by omega) hpath]
      rw [segment, segment, List.take_succ_cons, List.map_cons, List.sum_cons, ← hlength,
        ← List.drop_drop, List.drop_left]

theorem add_le_sum_filter {i j : ℕ} {file other : List UInt8 × ℕ} (hfile : files[i]? = some file)
    (hother : files[j]? = some other) (hlt : i < j) (hpath : file.1 = path)
    (hpath' : other.1 = path) :
    file.2 + other.2 ≤ ((files.filter fun file => file.1 = path).map Prod.snd).sum := by
  induction files generalizing i j with
  | nil => simp at hfile
  | cons first files ih =>
    cases i with
    | zero =>
      obtain rfl : first = file := by simpa using hfile
      obtain ⟨j, rfl⟩ := Nat.exists_eq_succ_of_ne_zero hlt.ne'
      have hmem : other ∈ files.filter fun file => file.1 = path :=
        List.mem_filter.mpr ⟨List.mem_of_getElem? (by simpa using hother), by simpa using hpath'⟩
      have hle := List.single_le_sum (fun n _ => Nat.zero_le n) other.2
        (List.mem_map_of_mem (f := Prod.snd) hmem)
      rw [List.filter_cons_of_pos (by simpa using hpath), List.map_cons, List.sum_cons]
      omega
    | succ i =>
      obtain ⟨j, rfl⟩ := Nat.exists_eq_succ_of_ne_zero (Nat.ne_zero_of_lt hlt)
      have hrest := ih (i := i) (j := j) (by simpa using hfile) (by simpa using hother) (by omega)
      by_cases hfirst : first.1 = path
      · rw [List.filter_cons_of_pos (by simpa using hfirst), List.map_cons, List.sum_cons]
        omega
      · rwa [List.filter_cons_of_neg (by simpa using hfirst)]

theorem length_segment {payload : List UInt8} {i : ℕ} {file : List UInt8 × ℕ}
    (hfile : files[i]? = some file) (hpayload : payload.length = (files.map Prod.snd).sum) :
    (segment payload files i file).length = file.2 := by
  obtain ⟨hlt, hget⟩ := List.getElem?_eq_some_iff.mp hfile
  have hsum : (files.map Prod.snd).sum = ((files.take i).map Prod.snd).sum +
      (file.2 + ((files.drop (i + 1)).map Prod.snd).sum) := by
    conv_lhs => rw [← List.take_append_drop i files, List.drop_eq_getElem_cons hlt, hget]
    rw [List.map_append, List.sum_append, List.map_cons, List.sum_cons]
  rw [segment, List.length_take, List.length_drop]
  omega

/-- When the files that are not reached are empty, all files have their contents exactly when each
path is reached, and files that share a path are empty. -/
theorem contents_iff {payload : List UInt8} {k : ℕ} (h : Fill (files.take k) stores)
    (hpayload : stores.flatMap Prod.snd = payload) (hzero : ∀ file ∈ files.drop k, file.2 = 0) :
    (∀ i file, files[i]? = some file →
      content stores file.1 = some (segment payload files i file)) ↔
      (∀ file ∈ files, ∃ reached ∈ files.take k, reached.1 = file.1) ∧ OwnPaths files := by
  have hdropped : ((files.drop k).map Prod.snd).sum = 0 := by
    rw [List.sum_eq_zero_iff]
    intro n hn
    obtain ⟨file, hfile, rfl⟩ := List.mem_map.mp hn
    exact hzero file hfile
  have hlength : payload.length = (files.map Prod.snd).sum := by
    rw [← hpayload, h.length_bytes]
    conv_rhs => rw [← List.take_append_drop k files, List.map_append, List.sum_append, hdropped]
    rfl
  have hcontent (p : List UInt8) : content stores p =
      if ∃ reached ∈ files.take k, reached.1 = p then some (storedAt stores p) else none := by
    rw [content, storedAt]
    simp only [h.exists_store]
  constructor
  · intro hall
    have hreached : ∀ file ∈ files, ∃ reached ∈ files.take k, reached.1 = file.1 := by
      intro file hfile
      obtain ⟨i, hi⟩ := List.mem_iff_getElem?.mp hfile
      by_contra hnot
      have hsome := hall i file hi
      rw [hcontent, if_neg hnot] at hsome
      cases hsome
    have hstored (i : ℕ) (file : List UInt8 × ℕ) (hfile : files[i]? = some file) :
        (storedAt stores file.1).length = file.2 := by
      have hsome := hall i file hfile
      rw [hcontent, if_pos (hreached file (List.mem_of_getElem? hfile)), Option.some.injEq] at hsome
      rw [hsome, length_segment hfile hlength]
    -- the bytes under a path are those of all the files that have it
    have hfiltered (p : List UInt8) : (storedAt stores p).length =
        ((files.filter fun file => file.1 = p).map Prod.snd).sum := by
      have hrest : (((files.drop k).filter fun file => file.1 = p).map Prod.snd).sum = 0 := by
        rw [List.sum_eq_zero_iff]
        intro n hn
        obtain ⟨file, hfile, rfl⟩ := List.mem_map.mp hn
        exact hzero file (List.mem_filter.mp hfile).1
      rw [h.length_storedAt]
      conv_rhs => rw [← List.take_append_drop k files, List.filter_append, List.map_append,
        List.sum_append, hrest]
      rfl
    refine ⟨hreached, fun i j file other hfile hother hne hpath => ?_⟩
    have hfileLength := hstored i file hfile
    have hotherLength := hstored j other hother
    rw [← hpath] at hotherLength
    rw [hfiltered] at hfileLength hotherLength
    rcases Nat.lt_or_gt_of_ne hne with hlt | hlt
    · have hle := add_le_sum_filter hfile hother hlt rfl hpath.symm
      omega
    · have hle := add_le_sum_filter hother hfile hlt hpath.symm rfl
      omega
  · rintro ⟨hreached, hpaths⟩ i file hfile
    rw [hcontent, if_pos (hreached file (List.mem_of_getElem? hfile))]
    by_cases hi : i < k
    · have htake : (files.take k)[i]? = some file := by rw [List.getElem?_take, if_pos hi, hfile]
      rw [h.storedAt_eq htake fun j other hother hne hpath => hpaths j i other file
        (by
          rw [List.getElem?_take] at hother
          split at hother
          · exact hother
          · cases hother) hfile hne hpath, hpayload, segment, segment, List.take_take,
        Nat.min_eq_left hi.le]
    · have hempty : file.2 = 0 := by
        apply hzero
        rw [List.mem_iff_getElem?]
        exact ⟨i - k, by rw [List.getElem?_drop, Nat.add_sub_cancel' (not_lt.mp hi), hfile]⟩
      have hstored : storedAt stores file.1 = [] := by
        rw [← List.length_eq_zero_iff, h.length_storedAt, List.sum_eq_zero_iff]
        intro n hn
        obtain ⟨other, hother, rfl⟩ := List.mem_map.mp hn
        obtain ⟨hmem, hpath⟩ := List.mem_filter.mp hother
        obtain ⟨j, hj⟩ := List.mem_iff_getElem?.mp hmem
        rw [List.getElem?_take] at hj
        split at hj
        · rename_i hjk
          exact hpaths j i other file hj hfile (by omega) (by simpa using hpath)
        · cases hj
      rw [hstored, segment, hempty, List.take_zero]

end Fill

theorem assemblePieces_single {results : AssemblyResults} (directory path : List UInt8)
    {names pieces : List (List UInt8)} {length : ℕ} (start : ℕ) (stores : Stores) (h : results.Works)
    (hloads : Loads results names pieces) (htotal : (pieces.map List.length).sum = length) :
    (ShareLess (2 ^ 32) start (pieces.map List.length) [length] →
      ∃ assembly, assemblePieces results true directory names ⟨path, length, [], stores⟩ =
          .ok (true, assembly) ∧
        assembly.stores = stores ++ pieces.map fun data => (path, data)) ∧
      (¬ ShareLess (2 ^ 32) start (pieces.map List.length) [length] →
        ∃ e, assemblePieces results true directory names ⟨path, length, [], stores⟩ = .error e) := by
  induction names generalizing pieces length start stores with
  | nil =>
    obtain rfl : pieces = [] := by simpa [Loads] using hloads
    exact ⟨fun _ => ⟨_, rfl, by simp⟩, fun hnot => absurd (by simp) hnot⟩
  | cons name names ih =>
    obtain ⟨data, rest, rfl, hload, hrest⟩ := loads_cons.mp hloads
    rw [List.map_cons, List.sum_cons] at htotal
    have hle : data.length ≤ length := by omega
    have hshares : ShareLess (2 ^ 32) start ((data :: rest).map List.length) [length] ↔
        data.length < 2 ^ 32 ∧
          ShareLess (2 ^ 32) (start + data.length) (rest.map List.length)
            [length - data.length] := by
      rw [List.map_cons, shareLess_step (by norm_num), Nat.min_eq_left hle, Nat.sub_self,
        shareLess_zero_left (by norm_num)]
    rw [assemblePieces_cons hload, hshares]
    by_cases hsmall : data.length < 2 ^ 32
    · have hwritten : writeFile results true directory [] path length stores data = .ok _ :=
        writeFile_short h hsmall (Nat.lt_or_eq_of_le hle |>.imp id fun hequal => ⟨rfl, hequal⟩)
      have hleft : (rest.map List.length).sum = length - data.length := by omega
      obtain ⟨hcompletes, hfaults⟩ :=
        @ih _ _ (start + data.length) (stores ++ [(path, data)]) hrest hleft
      rw [hwritten]
      constructor
      · rintro ⟨-, hshare⟩
        obtain ⟨assembly, hrun, hstores⟩ := hcompletes hshare
        exact ⟨assembly, hrun, by rw [hstores, List.append_assoc]; rfl⟩
      · exact fun hnot => hfaults fun hshare => hnot ⟨hsmall, hshare⟩
    · refine ⟨fun hshare => absurd hshare.1 hsmall, fun _ => ⟨.assertion, ?_⟩⟩
      have hlarge : 2 ^ 32 ≤ min data.length length := by omega
      rw [writeFile_large h hlarge]
      rfl

/-- The files that the metainfo lists, with their paths on disk, and whether it is a single one. -/
def filesOf (results : AssemblyResults) (metaInfo : Dictionary) :
    Option (Bool × List (List UInt8 × Int64)) := do
  let info ← info metaInfo
  let name ← nameOf info
  match entry infoFilesKey info with
  | none =>
    some (true, [(results.piecesPath ++ directorySeparator :: name, ← singleLength info)])
  | some (.list files) =>
    some (false, (← files.mapM listedFile).map fun file =>
      (pathOnDisk results name file.path, file.length))
  | some _ => none

def sized (file : List UInt8 × Int64) : List UInt8 × ℕ := (file.1, file.2.toInt.toNat)

/-- The files are assembled: every one of them has its part of the payload, and the piece files are
deleted behind that. `store` appends: none of the files is there before, and none has the path of a
piece file. -/
structure Assembles (results : AssemblyResults) (files : List (List UInt8 × ℕ))
    (pieces : List (List UInt8)) (assembled : Assembled) : Prop where
  result : assembled.result = true
  payload : assembled.stores.flatMap Prod.snd = pieces.flatten
  contents : ∀ i file, files[i]? = some file →
    content assembled.stores file.1 = some (segment pieces.flatten files i file)
  deleted : assembled.deleted =
    results.names.map fun name => results.piecesPath ++ directorySeparator :: name

/-- What the lengths of the pieces and of the files have to satisfy. -/
structure Assemblable (single : Bool) (files : List (List UInt8 × ℕ)) (sizes : List ℕ) : Prop where
  shares : ShareLess (2 ^ 32) 0 sizes (files.map Prod.snd)
  pieces : single = true → sizes ≠ []
  lengths : single = false → ∀ file ∈ files.tail, file.2 < 2 ^ 32
  trailing : single = false → trailingZeros sizes ≤ trailingZeros (files.map Prod.snd)
  reached : single = false → ∀ file ∈ files,
    ∃ reached ∈ files.take (reach (files.map Prod.snd) sizes), reached.1 = file.1
  paths : OwnPaths files

theorem mapM_eq_some_iff {α β : Type} {f : α → Option β} {l : List α} {m : List β} :
    l.mapM f = some m ↔ l.map f = m.map some := by
  induction l generalizing m with
  | nil => cases m <;> simp
  | cons a l ih =>
    rw [List.mapM_cons, List.map_cons]
    cases f a with
    | none => cases m <;> simp
    | some b =>
      cases hrest : l.mapM f with
      | none =>
        cases m with
        | nil => simp
        | cons c m => simp [← ih, hrest]
      | some rest =>
        cases m with
        | nil => simp
        | cons c m => simp [← ih, hrest]

section Assemble

variable {results : AssemblyResults} {metaInfo : Dictionary} {pieces : List (List UInt8)}

theorem assembleFiles_single {path : List UInt8} {length : Int64}
    (hfiles : filesOf results metaInfo = some (true, [(path, length)])) :
    assembleFiles results metaInfo =
      assembleFrom results true [] ⟨path, length.toUInt64.toNat, [], []⟩ := by
  simp only [filesOf, Option.bind_eq_bind, Option.bind_eq_some_iff] at hfiles
  obtain ⟨dictionary, hinfo, name, hname, hfiles⟩ := hfiles
  cases hentry : entry infoFilesKey dictionary with
  | none =>
    simp only [hentry, Option.bind_eq_some_iff] at hfiles
    obtain ⟨found, hfound, hequal⟩ := hfiles
    obtain ⟨rfl, rfl⟩ : _ = path ∧ found = length := by simpa using hequal
    simp [assembleFiles, hinfo, hname, hentry, hfound, assertSome, bind, Except.bind]
  | some value =>
    cases value <;> simp [hentry, Option.bind_eq_some_iff] at hfiles

theorem assembleFiles_multiple {files : List (List UInt8 × Int64)} (hne : files ≠ [])
    (hfiles : filesOf results metaInfo = some (false, files)) :
    ∃ (name : List UInt8) (file : ListedFile) (listed : List ListedFile) (value : Value)
      (values : List Value),
      files = (file :: listed).map (fun file => (pathOnDisk results name file.path, file.length)) ∧
        values.map listedFile = listed.map some ∧
        assembleFiles results metaInfo = assembleFrom results false name
          ⟨pathOnDisk results name file.path, file.length.toUInt64.toNat, value :: values, []⟩ := by
  simp only [filesOf, Option.bind_eq_bind, Option.bind_eq_some_iff] at hfiles
  obtain ⟨dictionary, hinfo, name, hname, hfiles⟩ := hfiles
  cases hentry : entry infoFilesKey dictionary with
  | none => simp [hentry, Option.bind_eq_some_iff] at hfiles
  | some entries =>
    cases entries with
    | list values =>
      simp only [hentry, Option.bind_eq_some_iff, mapM_eq_some_iff] at hfiles
      obtain ⟨listed, hlisted, hequal⟩ := hfiles
      obtain rfl : _ = files := by simpa using hequal
      cases listed with
      | nil => exact absurd rfl hne
      | cons file listed =>
        cases values with
        | nil => simp at hlisted
        | cons value values =>
          obtain ⟨hfile, hrest⟩ : listedFile value = some file ∧
              values.map listedFile = listed.map some := by simpa using hlisted
          refine ⟨name, file, listed, value, values, rfl, hrest, ?_⟩
          simp [assembleFiles, hinfo, hname, hentry, firstFile, hfile, assertSome, bind,
            Except.bind]
    | _ => simp [hentry] at hfiles

theorem assembleFrom_ok {single : Bool} {directory : List UInt8} {start assembly : Assembly}
    (hrun : assemblePieces results single directory results.names start = .ok (true, assembly)) :
    assembleFrom results single directory start = .ok ⟨true, assembly.stores,
      results.names.map fun name => results.piecesPath ++ directorySeparator :: name⟩ := by
  rw [assembleFrom, hrun]
  rfl

theorem assembleFrom_error {single : Bool} {directory : List UInt8} {start : Assembly} {e : Fault}
    (hrun : assemblePieces results single directory results.names start = .error e) :
    assembleFrom results single directory start = .error e := by
  rw [assembleFrom, hrun]
  rfl

theorem toNat_toUInt64_length {length : Int64} (hnonneg : 0 ≤ length.toInt) :
    length.toUInt64.toNat = length.toInt.toNat := by
  rw [Int64.toNat_toUInt64_of_le (Int64.le_iff_toInt_le.mpr (by simpa using hnonneg)),
    Int64.toNatClampNeg]

/-- A single file is assembled unless it is empty and has no piece, or a piece is too long. -/
theorem assembleFiles_single_iff {path : List UInt8} {length : Int64} (h : results.Works)
    (hloads : Loads results results.names pieces)
    (hfiles : filesOf results metaInfo = some (true, [(path, length)]))
    (hnonneg : 0 ≤ length.toInt) (htotal : (pieces.map List.length).sum = length.toInt.toNat) :
    (∃ assembled, assembleFiles results metaInfo = .ok assembled ∧
      Assembles results [(path, length.toInt.toNat)] pieces assembled) ↔
      Assemblable true [(path, length.toInt.toNat)] (pieces.map List.length) := by
  obtain ⟨hcompletes, hfaults⟩ := assemblePieces_single [] path 0 [] h hloads htotal
  rw [assembleFiles_single hfiles, toNat_toUInt64_length hnonneg]
  by_cases hshares : ShareLess (2 ^ 32) 0 (pieces.map List.length) [length.toInt.toNat]
  · obtain ⟨assembly, hrun, hstores⟩ := hcompletes hshares
    rw [assembleFrom_ok hrun, hstores, List.nil_append]
    have hlength : pieces.flatten.length = length.toInt.toNat := by
      rw [List.length_flatten, htotal]
    constructor
    · rintro ⟨assembled, hassembled, hresult⟩
      obtain rfl := Except.ok.inj hassembled
      refine ⟨hshares, fun _ hnil => ?_, nofun, nofun, nofun, ?_⟩
      · have hcontent := hresult.contents 0 _ rfl
        simp [List.map_eq_nil_iff.mp hnil, content] at hcontent
      · intro i j file other hfile hother hne
        obtain ⟨hi, -⟩ := List.getElem?_eq_some_iff.mp hfile
        obtain ⟨hj, -⟩ := List.getElem?_eq_some_iff.mp hother
        simp only [List.length_singleton] at hi hj
        omega
    · intro hassemblable
      refine ⟨_, rfl, rfl, bytes_group path pieces, fun i file hfile => ?_, rfl⟩
      obtain ⟨hi, hget⟩ := List.getElem?_eq_some_iff.mp hfile
      obtain rfl : i = 0 := by simpa using hi
      change (path, length.toInt.toNat) = file at hget
      subst hget
      have hne : pieces ≠ [] := fun hnil => hassemblable.pieces rfl (by rw [hnil]; rfl)
      obtain ⟨data, hdata⟩ := List.exists_mem_of_ne_nil pieces hne
      have hexists : ∃ store ∈ pieces.map fun data => (path, data), store.1 = path :=
        ⟨(path, data), List.mem_map_of_mem hdata, rfl⟩
      rw [content, if_pos hexists, ← storedAt, storedAt_group, if_pos rfl, segment, List.take_zero,
        List.map_nil, List.sum_nil, List.drop_zero, List.take_of_length_le hlength.le]
  · obtain ⟨e, hrun⟩ := hfaults hshares
    rw [assembleFrom_error hrun]
    refine iff_of_false ?_ fun hassemblable => hshares hassemblable.shares
    rintro ⟨assembled, hassembled, -⟩
    cases hassembled

theorem eq_zero_behind_reach {files : List (List UInt8 × ℕ)} {sizes : List ℕ} :
    ∀ file ∈ files.drop (reach (files.map Prod.snd) sizes), file.2 = 0 := by
  intro file hfile
  have hle : trailingZeros (files.map Prod.snd) ≤ (files.map Prod.snd).length :=
    trailingZeros_le_length
  have hdrop : file.2 ∈ (files.map Prod.snd).drop (reach (files.map Prod.snd) sizes) := by
    rw [← List.map_drop]
    exact List.mem_map_of_mem hfile
  apply eq_zero_of_mem_drop _ hdrop
  simp only [reach]
  omega

/-- A list of files is assembled when the walks through the pieces and through the files fit. -/
theorem assembleFiles_multiple_iff {files : List (List UInt8 × Int64)} (h : results.Works)
    (hloads : Loads results results.names pieces) (hne : files ≠ [])
    (hfiles : filesOf results metaInfo = some (false, files))
    (hnonneg : ∀ file ∈ files, 0 ≤ file.2.toInt)
    (htotal : (pieces.map List.length).sum = ((files.map sized).map Prod.snd).sum) :
    (∃ assembled, assembleFiles results metaInfo = .ok assembled ∧
      Assembles results (files.map sized) pieces assembled) ↔
      Assemblable false (files.map sized) (pieces.map List.length) := by
  obtain ⟨name, first, listed, value, values, rfl, hlisted, hassemble⟩ :=
    assembleFiles_multiple hne hfiles
  have htargets : ((first :: listed).map fun file =>
      (pathOnDisk results name file.path, file.length)).map sized =
        (pathOnDisk results name first.path, first.length.toInt.toNat) ::
          listed.map (target results name) := by
    rw [List.map_map]
    rfl
  rw [htargets, List.map_cons, List.sum_cons] at htotal
  rw [List.map_cons, List.forall_mem_cons] at hnonneg
  obtain ⟨hfirst, hrest⟩ := hnonneg
  have hrest : ∀ file ∈ listed, 0 ≤ file.length.toInt := fun file hfile =>
    hrest _ (List.mem_map_of_mem hfile)
  have houtcome : Outcome (Fits (2 ^ 32) 0 first.length.toInt.toNat (lengthsOf results name listed)
      (pieces.map List.length)) [] ((pathOnDisk results name first.path,
        first.length.toInt.toNat) :: listed.map (target results name)) pieces
      (assemblePieces results false name results.names
        ⟨pathOnDisk results name first.path, first.length.toInt.toNat, value :: values, []⟩) :=
    assemblePieces_outcome h hloads hlisted hrest htotal.ge
  obtain ⟨hcompletes, hfaults⟩ := houtcome
  rw [hassemble, htargets, toNat_toUInt64_length hfirst]
  generalize hF : (pathOnDisk results name first.path, first.length.toInt.toNat) ::
    listed.map (target results name) = files at hcompletes ⊢
  have hlengths : first.length.toInt.toNat :: lengthsOf results name listed =
      files.map Prod.snd := by
    rw [← hF]
    rfl
  have htail : lengthsOf results name listed = files.tail.map Prod.snd := by
    rw [← hF]
    rfl
  by_cases hfits : Fits (2 ^ 32) 0 first.length.toInt.toNat (lengthsOf results name listed)
      (pieces.map List.length)
  · obtain ⟨assembly, new, hrun, hstores, hpayload, hfill⟩ := hcompletes hfits
    rw [assembleFrom_ok hrun, hstores, List.nil_append]
    have hreach := hfits.trailing
    have hshares := hfits.shares
    rw [hlengths] at hreach hshares
    have hcontents := contents_iff hfill hpayload eq_zero_behind_reach
    constructor
    · rintro ⟨assembled, hassembled, hresult⟩
      obtain rfl := Except.ok.inj hassembled
      obtain ⟨hreached, hpaths⟩ := hcontents.mp hresult.contents
      refine ⟨hshares, fun h => absurd h Bool.false_ne_true, fun _ file hfile => ?_, fun _ => hreach, fun _ => hreached, hpaths⟩
      exact hfits.lengths_lt _ (htail ▸ List.mem_map_of_mem hfile)
    · intro hassemblable
      exact ⟨_, rfl, rfl, hpayload,
        hcontents.mpr ⟨hassemblable.reached rfl, hassemblable.paths⟩, rfl⟩
  · obtain ⟨e, hrun⟩ := hfaults hfits
    rw [assembleFrom_error hrun]
    refine iff_of_false ?_ fun hassemblable => hfits ⟨htotal, fun n hn => ?_, ?_, ?_⟩
    · rintro ⟨assembled, hassembled, -⟩
      cases hassembled
    · rw [htail] at hn
      obtain ⟨file, hfile, rfl⟩ := List.mem_map.mp hn
      exact hassemblable.lengths rfl file hfile
    · rw [hlengths]
      exact hassemblable.shares
    · rw [hlengths]
      exact hassemblable.trailing rfl

/-- The files are assembled from the pieces exactly when their lengths and paths allow it. -/
theorem assembleFiles_assembles {single : Bool} {files : List (List UInt8 × Int64)}
    (h : results.Works) (hloads : Loads results results.names pieces)
    (hfiles : filesOf results metaInfo = some (single, files)) (hne : files ≠ [])
    (hnonneg : ∀ file ∈ files, 0 ≤ file.2.toInt)
    (htotal : (pieces.map List.length).sum = ((files.map sized).map Prod.snd).sum) :
    (∃ assembled, assembleFiles results metaInfo = .ok assembled ∧
      Assembles results (files.map sized) pieces assembled) ↔
      Assemblable single (files.map sized) (pieces.map List.length) := by
  cases single with
  | false => exact assembleFiles_multiple_iff h hloads hne hfiles hnonneg htotal
  | true =>
    have hone : ∃ path length, files = [(path, length)] := by
      simp only [filesOf, Option.bind_eq_bind, Option.bind_eq_some_iff] at hfiles
      obtain ⟨dictionary, -, name, -, hfiles⟩ := hfiles
      cases hentry : entry infoFilesKey dictionary with
      | none =>
        simp only [hentry, Option.bind_eq_some_iff] at hfiles
        obtain ⟨length, -, hequal⟩ := hfiles
        exact ⟨_, length, by simpa using hequal.symm⟩
      | some value =>
        cases value <;> simp [hentry, Option.bind_eq_some_iff] at hfiles
    obtain ⟨path, length, rfl⟩ := hone
    exact assembleFiles_single_iff h hloads hfiles (hnonneg _ List.mem_cons_self)
      (by simpa [sized] using htotal)

end Assemble

theorem ownPaths_of_nodup {files : List (List UInt8 × ℕ)} (h : (files.map Prod.fst).Nodup) :
    OwnPaths files := by
  intro i j file other hfile hother hne hpath
  have hi : (files.map Prod.fst)[i]? = some file.1 := by rw [List.getElem?_map, hfile]; rfl
  have hj : (files.map Prod.fst)[j]? = some other.1 := by rw [List.getElem?_map, hother]; rfl
  have hlt := (List.getElem?_eq_some_iff.mp hi).1
  exact absurd ((List.getElem?_inj hlt h).mp (by rw [hi, hj, hpath])) hne

/-- A torrent of the files `a` and `b` in a directory. -/
def infoOfTwoFiles (length : Int64) : Dictionary :=
  [(infoFilesKey.map Char.toUInt8, .list
      [.dictionary [(infoLengthKey.map Char.toUInt8, .integer 2),
        (infoFilesPathKey.map Char.toUInt8, .list [.string ['a'.toUInt8]])],
      .dictionary [(infoLengthKey.map Char.toUInt8, .integer length),
        (infoFilesPathKey.map Char.toUInt8, .list [.string ['b'.toUInt8]])]]),
    (infoNameKey.map Char.toUInt8, .string ['t'.toUInt8])]

def metaInfoOfTwoFiles (length : Int64) : Dictionary :=
  [(infoKey.map Char.toUInt8, .dictionary (infoOfTwoFiles length))]

/-- The piece files `0` and `1`, or only the first one. -/
def samplePieceFiles (names : List (List UInt8)) : AssemblyResults where
  ndebug := false
  piecesPath := ['p'.toUInt8]
  names := names
  load path :=
    if path = ['p'.toUInt8, directorySeparator, '0'.toUInt8] then some [1, 2]
    else if path = ['p'.toUInt8, directorySeparator, '1'.toUInt8] then some [3]
    else none
  stored _ := true

def sampleFiles (length : Int64) : List (List UInt8 × Int64) :=
  [(['p'.toUInt8, directorySeparator, 't'.toUInt8, directorySeparator, 'a'.toUInt8], 2),
    (['p'.toUInt8, directorySeparator, 't'.toUInt8, directorySeparator, 'b'.toUInt8], length)]

theorem filesOf_metaInfoOfTwoFiles (names : List (List UInt8)) (length : Int64) :
    filesOf (samplePieceFiles names) (metaInfoOfTwoFiles length) =
      some (false, sampleFiles length) := rfl

theorem works_samplePieceFiles (names : List (List UInt8)) : (samplePieceFiles names).Works where
  asserting := rfl
  stores _ := rfl

theorem assembleFiles_assembles_two :
    ∃ assembled, assembleFiles (samplePieceFiles [['0'.toUInt8], ['1'.toUInt8]])
        (metaInfoOfTwoFiles 1) = .ok assembled ∧
      Assembles (samplePieceFiles [['0'.toUInt8], ['1'.toUInt8]]) ((sampleFiles 1).map sized)
        [[1, 2], [3]] assembled :=
  (@assembleFiles_assembles (samplePieceFiles [['0'.toUInt8], ['1'.toUInt8]])
    (metaInfoOfTwoFiles 1) [[1, 2], [3]] _ _ (works_samplePieceFiles _) rfl
    (filesOf_metaInfoOfTwoFiles _ 1) (by decide) (by decide) (by decide)).mpr
    ⟨by decide, nofun, fun _ => by decide, fun _ => by decide, fun _ => by decide,
      ownPaths_of_nodup (by decide)⟩

/-- The file `b` is empty, and no piece comes to it: it is not created. -/
theorem not_assembles : ¬ ∀ (results : AssemblyResults) (metaInfo : Dictionary) (single : Bool)
    (files : List (List UInt8 × Int64)) (pieces : List (List UInt8)), results.Works →
      Loads results results.names pieces → filesOf results metaInfo = some (single, files) →
      files ≠ [] → (∀ file ∈ files, 0 ≤ file.2.toInt) →
      (pieces.map List.length).sum = ((files.map sized).map Prod.snd).sum →
        ∃ assembled, assembleFiles results metaInfo = .ok assembled ∧
          Assembles results (files.map sized) pieces assembled := by
  intro h
  obtain ⟨assembled, hassembled, hresult⟩ := h (samplePieceFiles [['0'.toUInt8]])
    (metaInfoOfTwoFiles 0) false (sampleFiles 0) [[1, 2]] (works_samplePieceFiles _) rfl
    (filesOf_metaInfoOfTwoFiles _ 0) (by decide) (by decide) (by decide)
  have hrun : assembleFiles (samplePieceFiles [['0'.toUInt8]]) (metaInfoOfTwoFiles 0) = .ok
      ⟨true, [(['p'.toUInt8, directorySeparator, 't'.toUInt8, directorySeparator, 'a'.toUInt8],
        [1, 2])], [['p'.toUInt8, directorySeparator, '0'.toUInt8]]⟩ := rfl
  rw [hrun] at hassembled
  obtain rfl := Except.ok.inj hassembled
  have hcontent := hresult.contents 1 _ rfl
  revert hcontent
  decide

end ACENetwork.BitTorrent.Tools
