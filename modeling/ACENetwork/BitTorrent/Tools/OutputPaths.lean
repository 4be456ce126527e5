import ACENetwork.BitTorrent.Tools.Assembly
import ACENetwork.Library.Directories
import ACENetwork.Library.Joined

/-!
# Paths of the assembled files

`assembleFiles` takes the name and the paths of the files as the dictionary has them. A file is
opened below the directory of the pieces where the segments of its path do not lead out of it.
-/
namespace ACENetwork.BitTorrent.Tools
open Bencoding (Value)
open Library Library.Directories

theorem assertSome_eq_ok {α : Type} {ndebug : Bool} {x : Option α} {a : α} :
    assertSome ndebug x = .ok a ↔ x = some a := by
  cases x <;> simp [assertSome]

section Opened

variable (results : AssemblyResults) (single : Bool) (directory : List UInt8)

/-- The paths that `writeFile` hands to `store`, whether or not it returns. -/
def writePaths : (files : List Value) → (path : List UInt8) → (length calls : ℕ) →
    (data : List UInt8) → List (List UInt8)
  | files, path, length, calls, data =>
    let bytesToWrite := min data.length length % 2 ^ 32
    if !results.stored calls then [path]
    else
      let length := length - bytesToWrite
      let data := data.drop bytesToWrite
      if length ≠ 0 ∨ single then [path]
      else match files with
        | [] | [_] => [path]
        | _ :: next :: files =>
          match listedFile next with
          | none => [path]
          | some file =>
            let path' := pathOnDisk results directory file.path
            let length := (unsignedInt file.length).toNat
            if data ≠ [] then path :: writePaths (next :: files) path' length (calls + 1) data
            else [path]

def piecesPaths : (names : List (List UInt8)) → Assembly → List (List UInt8)
  | [], _ => []
  | name :: names, assembly =>
    match results.load (results.piecesPath ++ directorySeparator :: name) with
    | none => []
    | some data =>
      writePaths results single directory assembly.files assembly.path assembly.length
        assembly.stores.length data ++
        match writeFile results single directory assembly.files assembly.path assembly.length
          assembly.stores data with
        | .ok (true, assembly) => piecesPaths names assembly
        | _ => []

variable {results single directory}

/-- The files behind the current one lead to paths with a property. -/
def Leads (results : AssemblyResults) (directory : List UInt8) (P : List UInt8 → Prop)
    (files : List Value) : Prop :=
  ∀ value ∈ files.tail, ∀ file, listedFile value = some file →
    P (pathOnDisk results directory file.path)

variable {P : List UInt8 → Prop}

theorem Leads.next {value next : Value} {files : List Value}
    (h : Leads results directory P (value :: next :: files)) : Leads results directory P (next :: files) :=
  fun value hvalue => h value (List.mem_cons_of_mem next hvalue)

theorem writePaths_forall {files : List Value} {path data : List UInt8} {length calls : ℕ}
    (hpath : P path) (hfiles : Leads results directory P files) :
    ∀ p ∈ writePaths results single directory files path length calls data, P p := by
  have hsingle : ∀ p ∈ [path], P p := List.forall_mem_singleton.mpr hpath
  induction files generalizing path length calls data with
  | nil =>
    unfold writePaths
    dsimp only
    split_ifs <;> exact hsingle
  | cons value files ih =>
    unfold writePaths
    dsimp only
    split
    · exact hsingle
    · split
      · exact hsingle
      · cases files with
        | nil => exact hsingle
        | cons next files =>
          dsimp only
          split
          · exact hsingle
          · rename_i file hnext
            have hfile : P (pathOnDisk results directory file.path) :=
              hfiles next List.mem_cons_self file hnext
            split
            · rw [List.forall_mem_cons]
              exact ⟨hpath, ih hfile hfiles.next (List.forall_mem_singleton.mpr hfile)⟩
            · exact hsingle

/-- What `writeFile` leaves still leads to paths with the property, and it has stored to those
that it has opened. -/
theorem writeFile_leads {files : List Value} {path data : List UInt8} {length : ℕ} {stores : Stores}
    {assembly : Assembly} (hpath : P path) (hfiles : Leads results directory P files)
    (h : writeFile results single directory files path length stores data = .ok (true, assembly)) :
    P assembly.path ∧ Leads results directory P assembly.files ∧
      assembly.stores.map Prod.fst = stores.map Prod.fst ++
        writePaths results single directory files path length stores.length data := by
  induction files generalizing path length stores data with
  | nil =>
    unfold writeFile at h
    unfold writePaths
    dsimp only at h ⊢
    split at h
    · cases h
    · rename_i hstored
      rw [if_neg hstored]
      split at h
      · rename_i hrest
        rw [if_pos hrest]
        obtain ⟨-, -, h⟩ := fault_bind_ok.mp h
        cases h
        exact ⟨hpath, hfiles, List.map_append⟩
      · cases h
  | cons value files ih =>
    unfold writeFile at h
    unfold writePaths
    dsimp only at h ⊢
    split at h
    · cases h
    · rename_i hstored
      rw [if_neg hstored]
      split at h
      · rename_i hrest
        rw [if_pos hrest]
        obtain ⟨-, -, h⟩ := fault_bind_ok.mp h
        cases h
        exact ⟨hpath, hfiles, List.map_append⟩
      · rename_i hrest
        rw [if_neg hrest]
        cases files with
        | nil =>
          obtain ⟨-, -, h⟩ := fault_bind_ok.mp h
          cases h
          exact ⟨hpath, fun value hvalue => absurd hvalue List.not_mem_nil, List.map_append⟩
        | cons next files =>
          obtain ⟨file, hfile, h⟩ := fault_bind_ok.mp h
          have hnext := assertSome_eq_ok.1 hfile
          have hpath' : P (pathOnDisk results directory file.path) :=
            hfiles next List.mem_cons_self file hnext
          dsimp only
          rw [hnext]
          dsimp only
          split at h
          · rename_i hdata
            rw [if_pos hdata]
            obtain ⟨hlast, hleads, hstores⟩ := ih hpath' hfiles.next h
            refine ⟨hlast, hleads, ?_⟩
            rw [hstores, List.map_append, List.append_assoc, List.length_append]
            rfl
          · rename_i hdata
            rw [if_neg hdata]
            cases h
            exact ⟨hpath', hfiles.next, List.map_append⟩

theorem piecesPaths_forall {names : List (List UInt8)} {assembly : Assembly} (hpath : P assembly.path)
    (hfiles : Leads results directory P assembly.files) :
    ∀ p ∈ piecesPaths results single directory names assembly, P p := by
  induction names generalizing assembly with
  | nil =>
    intro p hp
    cases hp
  | cons name names ih =>
    rw [piecesPaths]
    split
    · intro p hp
      cases hp
    · rw [List.forall_mem_append]
      refine ⟨writePaths_forall hpath hfiles, ?_⟩
      split
      · rename_i hwrite
        obtain ⟨hlast, hleads, -⟩ := writeFile_leads hpath hfiles hwrite
        exact ih hlast hleads
      · intro p hp
        cases hp

end Opened

/-- The paths that `assembleFiles` opens for writing, also where it does not return. -/
def openedPaths (results : AssemblyResults) (metaInfo : Dictionary) : List (List UInt8) :=
  match (info metaInfo).bind fun info => (nameOf info).map fun name => (info, name) with
  | none => []
  | some (info, name) =>
    match entry infoFilesKey info with
    | none =>
      match singleLength info with
      | none => []
      | some length =>
        piecesPaths results true [] results.names
          ⟨results.piecesPath ++ directorySeparator :: name, length.toUInt64.toNat, [], []⟩
    | some files =>
      match firstFile files with
      | none => []
      | some (file, files) =>
        piecesPaths results false name results.names
          ⟨pathOnDisk results name file.path, file.length.toUInt64.toNat, files, []⟩

section Named

theorem joinPath_eq_some {list : List Value} {path : List UInt8} (h : joinPath list = some path) :
    ∃ components : List (List UInt8), list = components.map Value.string ∧
      path = components.flatMap (· ++ [directorySeparator]) := by
  induction list generalizing path with
  | nil =>
    cases h
    exact ⟨[], rfl, rfl⟩
  | cons value list ih =>
    cases value with
    | string octets =>
      obtain ⟨rest, hrest, hpath⟩ := Option.bind_eq_some_iff.mp h
      cases hpath
      obtain ⟨components, rfl, rfl⟩ := ih hrest
      refine ⟨octets :: components, rfl, ?_⟩
      rw [List.flatMap_cons, List.append_assoc]
      rfl
    | integer n => cases h
    | list items => cases h
    | dictionary entries => cases h

theorem listToPath_eq_some {list : List Value} {path : List UInt8} (h : listToPath list = some path) :
    ∃ components : List (List UInt8), components ≠ [] ∧ list = components.map Value.string ∧
      path = joined directorySeparator components := by
  obtain ⟨front, hfront, h⟩ := Option.bind_eq_some_iff.mp h
  obtain ⟨components, rfl, rfl⟩ := joinPath_eq_some hfront
  split at h
  · cases h
  · rename_i hne
    cases h
    have hcomponents : components ≠ [] := fun hnil => hne (by rw [hnil]; rfl)
    refine ⟨components, hcomponents, rfl, ?_⟩
    rw [← joined_append_sep hcomponents, List.dropLast_concat]

def Names (metaInfo : Dictionary) (parts : List (List UInt8)) : Prop :=
  ∃ dictionary name, info metaInfo = some dictionary ∧ nameOf dictionary = some name ∧
    (entry infoFilesKey dictionary = none ∧ parts = [name] ∨
      ∃ files file components, entry infoFilesKey dictionary = some (.list files) ∧
        Value.dictionary file ∈ files ∧
        entry infoFilesPathKey file = some (.list (components.map Value.string)) ∧
        components ≠ [] ∧ parts = name :: components)

theorem Names.ne_nil {metaInfo : Dictionary} {parts : List (List UInt8)} (h : Names metaInfo parts) :
    parts ≠ [] := by
  obtain ⟨dictionary, name, -, -, ⟨-, rfl⟩ | ⟨files, file, components, -, -, -, -, rfl⟩⟩ := h
  · exact List.cons_ne_nil _ _
  · exact List.cons_ne_nil _ _

theorem listedFile_eq_some {value : Value} {listed : ListedFile} (h : listedFile value = some listed) :
    ∃ file components, value = .dictionary file ∧
      entry infoFilesPathKey file = some (.list (components.map Value.string)) ∧
      components ≠ [] ∧ listed.path = joined directorySeparator components := by
  cases value with
  | dictionary file =>
    rw [listedFile] at h
    split at h
    · rename_i length path hlength hpath
      obtain ⟨joinedPath, hjoined, rfl⟩ := Option.map_eq_some_iff.mp h
      obtain ⟨components, hne, rfl, rfl⟩ := listToPath_eq_some hjoined
      exact ⟨file, components, rfl, hpath, hne, rfl⟩
    · cases h
  | integer n => cases h
  | string octets => cases h
  | list items => cases h

theorem firstFile_eq_some {value : Value} {file : ListedFile} {files : List Value}
    (h : firstFile value = some (file, files)) :
    value = .list files ∧ ∃ first ∈ files, listedFile first = some file := by
  unfold firstFile at h
  split at h
  · rename_i first files
    obtain ⟨listed, hlisted, heq⟩ := Option.map_eq_some_iff.mp h
    cases heq
    exact ⟨rfl, first, List.mem_cons_self, hlisted⟩
  · cases h

variable {results : AssemblyResults} {metaInfo : Dictionary}

theorem openedPaths_named : ∀ path ∈ openedPaths results metaInfo,
    ∃ parts, Names metaInfo parts ∧
      path = results.piecesPath ++ directorySeparator :: joined directorySeparator parts := by
  unfold openedPaths
  cases hinfo : info metaInfo with
  | none =>
    intro path hpath
    cases hpath
  | some dictionary =>
    cases hname : nameOf dictionary with
    | none =>
      intro path hpath
      simp [hname] at hpath
    | some name =>
      simp only [Option.bind_some, hname, Option.map_some]
      split
      · rename_i hfiles
        split
        · intro path hpath
          cases hpath
        · have hnames : Names metaInfo [name] :=
            ⟨dictionary, name, hinfo, hname, Or.inl ⟨hfiles, rfl⟩⟩
          refine piecesPaths_forall ⟨[name], hnames, ?_⟩ fun value hvalue =>
            absurd hvalue List.not_mem_nil
          rw [joined, List.intercalate_singleton]
      · rename_i value hfiles
        split
        · intro path hpath
          cases hpath
        · rename_i file files hfirst
          obtain ⟨rfl, first, hmem, hfile⟩ := firstFile_eq_some hfirst
          have hnamed (value : Value) (hvalue : value ∈ files) (listed : ListedFile)
              (hlisted : listedFile value = some listed) : ∃ parts, Names metaInfo parts ∧
                pathOnDisk results name listed.path =
                  results.piecesPath ++ directorySeparator :: joined directorySeparator parts := by
            obtain ⟨file, components, rfl, hpath, hne, hjoined⟩ := listedFile_eq_some hlisted
            have hnames : Names metaInfo (name :: components) :=
              ⟨dictionary, name, hinfo, hname,
                Or.inr ⟨files, file, components, hfiles, hvalue, hpath, hne, rfl⟩⟩
            refine ⟨name :: components, hnames, ?_⟩
            rw [pathOnDisk, hjoined, joined_cons, sep_joined hne]
          exact piecesPaths_forall (hnamed first hmem file hfile) fun value hvalue =>
            hnamed value (List.mem_of_mem_tail hvalue)

end Named

section Resolved

def segmentMove (segment : List UInt8) : Move (List UInt8) :=
  if segment = [] ∨ segment = ['.'.toUInt8] then .stay
  else if segment = ['.'.toUInt8, '.'.toUInt8] then .up
  else .enter segment

def moves (path : List UInt8) : List (Move (List UInt8)) :=
  (path.splitOn directorySeparator).map segmentMove

/-- The directory or file that a path names, with `.` and `..` resolved, from the root for an
absolute path, and from the working directory for another one. -/
def resolve (start : List (List UInt8)) (path : List UInt8) : List (List UInt8) :=
  walk start (moves path)

theorem resolve_append (start : List (List UInt8)) (front back : List UInt8) :
    resolve start (front ++ directorySeparator :: back) = walk (resolve start front) (moves back) := by
  rw [resolve, moves, List.splitOn_append_cons_self, List.map_append, walk_append]
  rfl

def StrictlyInside (start : List (List UInt8)) (directory path : List UInt8) : Prop :=
  Below (resolve start directory) (resolve start path)

instance (start : List (List UInt8)) (directory path : List UInt8) :
    Decidable (StrictlyInside start directory path) :=
  inferInstanceAs (Decidable (Below _ _))

/-- A plain name: it has no separator, and it is not empty, `.` or `..`. -/
def Plain (part : List UInt8) : Prop :=
  directorySeparator ∉ part ∧ segmentMove part = .enter part

theorem moves_joined_of_plain {parts : List (List UInt8)} (hne : parts ≠ [])
    (h : ∀ part ∈ parts, Plain part) :
    moves (joined directorySeparator parts) = parts.map Move.enter := by
  rw [moves, joined, List.splitOn_intercalate _ (fun part hpart => (h part hpart).1) hne]
  exact List.map_congr_left fun part hpart => (h part hpart).2

/-- What is opened is the path of the pieces with the name, and the components of the path of a
file behind it. Where the way along them leads so many directories up, and then into some
names, it lies inside the directory of the pieces exactly when these names begin with the
directories that have been left, and go on. -/
theorem openedPaths_inside_iff (results : AssemblyResults) (metaInfo : Dictionary)
    (start : List (List UInt8)) (path : List UInt8) (hpath : path ∈ openedPaths results metaInfo) :
    ∃ parts, Names metaInfo parts ∧
      path = results.piecesPath ++ directorySeparator :: joined directorySeparator parts ∧
      (StrictlyInside start results.piecesPath path ↔
        Below ((resolve start results.piecesPath).drop ((resolve start results.piecesPath).length -
            (net (moves (joined directorySeparator parts))).ups))
          (net (moves (joined directorySeparator parts))).names) ∧
      ((∀ part ∈ parts, Plain part) → StrictlyInside start results.piecesPath path) := by
  obtain ⟨parts, hnames, rfl⟩ := openedPaths_named path hpath
  have hinside : StrictlyInside start results.piecesPath (results.piecesPath ++
      directorySeparator :: joined directorySeparator parts) ↔
        Below (resolve start results.piecesPath)
          (walk (resolve start results.piecesPath) (moves (joined directorySeparator parts))) := by
    rw [StrictlyInside, resolve_append]
  refine ⟨parts, hnames, rfl, hinside.trans (below_walk_iff _ _), fun hplain => hinside.mpr ?_⟩
  have hmoves := moves_joined_of_plain hnames.ne_nil hplain
  have hnet : net (moves (joined directorySeparator parts)) = ⟨0, parts⟩ := by rw [hmoves, net_enter]
  rw [below_walk_iff_of_ups (by rw [hnet]), hnet]
  exact hnames.ne_nil

/-- A torrent of a single file whose name leads out of the directory. -/
def climbing : Dictionary :=
  [(infoKey.map Char.toUInt8, .dictionary
    [(infoLengthKey.map Char.toUInt8, .integer 1),
      (infoNameKey.map Char.toUInt8, .string ("../a".toList.map Char.toUInt8))])]

def onePiece : AssemblyResults where
  ndebug := false
  piecesPath := "/d/t.pieces".toList.map Char.toUInt8
  names := ["0".toList.map Char.toUInt8]
  load := fun _ => some [97]
  stored := fun _ => true

theorem openedPaths_climbing : ∃ path ∈ openedPaths onePiece climbing,
    ¬ StrictlyInside [] onePiece.piecesPath path := by
  refine ⟨"/d/t.pieces/../a".toList.map Char.toUInt8, ?_, ?_⟩
  · decide
  · decide

theorem openedPaths_inside_iff_climbing : ∃ parts, Names climbing parts ∧
    ¬ ∀ part ∈ parts, Plain part := by
  obtain ⟨parts, hnames, -, -, hplain⟩ := openedPaths_inside_iff onePiece climbing []
    ("/d/t.pieces/../a".toList.map Char.toUInt8) (by decide)
  exact ⟨parts, hnames, fun h => absurd (hplain h) (by decide)⟩

end Resolved

end ACENetwork.BitTorrent.Tools
