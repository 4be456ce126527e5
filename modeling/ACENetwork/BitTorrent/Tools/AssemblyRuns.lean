import ACENetwork.BitTorrent.Tools.Assembly
import ACENetwork.Library.Partitions

/-!
# What is stored where

The pieces and the files are two partitions of the payload, and every call of `store` appends what
a piece has in common with a file. A run comes to the end of both at once, or it faults: on a
common part of 2^32 bytes, on a file behind the first one whose length does not fit in 32 bits, and
on an empty piece behind the last file.
-/
namespace ACENetwork.BitTorrent.Tools
open Bencoding (Value)
open Library

/-- What has been appended to the file of a path; `none`: it has not been created. -/
def content (stores : Stores) (path : List UInt8) : Option (List UInt8) :=
  if ∃ store ∈ stores, store.1 = path then
    some ((stores.filter fun store => store.1 = path).flatMap Prod.snd)
  else none

def Fill : (files : List (List UInt8 × ℕ)) → Stores → Prop
  | [], stores => stores = []
  | file :: files, stores => ∃ group rest, stores = group.map (fun data => (file.1, data)) ++ rest ∧
      group ≠ [] ∧ group.flatten.length = file.2 ∧ Fill files rest

theorem fill_cons {path data : List UInt8} {length : ℕ} {files : List (List UInt8 × ℕ)}
    {stores : Stores} (hlength : data.length = length) (h : Fill files stores) :
    Fill ((path, length) :: files) ((path, data) :: stores) :=
  ⟨[data], stores, rfl, by simp, by simpa using hlength, h⟩

theorem fill_append {path : List UInt8} (data : List UInt8) {length : ℕ} {files : List (List UInt8 × ℕ)}
    {stores : Stores} (h : Fill ((path, length) :: files) stores) :
    Fill ((path, data.length + length) :: files) ((path, data) :: stores) := by
  obtain ⟨group, rest, rfl, -, hlength, hrest⟩ := h
  exact ⟨data :: group, rest, rfl, by simp, by simpa using hlength, hrest⟩

section

variable {results : AssemblyResults} {directory : List UInt8}

/-- The calls of `load` and `store` succeed, and the assertions are evaluated. -/
structure AssemblyResults.Works (results : AssemblyResults) : Prop where
  asserting : results.ndebug = false
  stores : ∀ n, results.stored n = true

/-- A part of 2^32 bytes or more is not written at once, and the rest of the piece is lost. -/
theorem writeFile_large {single : Bool} {files : List Value} {path data : List UInt8} {length : ℕ}
    {stores : Stores} (h : results.Works) (hlarge : 2 ^ 32 ≤ min data.length length) :
    writeFile results single directory files path length stores data = .error .assertion := by
  have hmod := Nat.mod_lt (min data.length length) (show 0 < 2 ^ 32 by norm_num)
  have hlength : length - min data.length length % 2 ^ 32 ≠ 0 := by omega
  have hdata : data.length - min data.length length % 2 ^ 32 ≠ 0 := by omega
  have hdrop : data.drop (min data.length length % 2 ^ 32) ≠ [] := by
    rw [← List.length_pos_iff, List.length_drop]
    omega
  unfold writeFile
  generalize min data.length length % 2 ^ 32 = bytesToWrite at hlength hdrop ⊢
  simp only [h.stores, Bool.not_true, Bool.false_eq_true, if_false]
  rw [if_pos (.inl hlength)]
  simp [hdrop, aceAssert, h.asserting, bind, Except.bind]

theorem writeFile_short {single : Bool} {files : List Value} {path data : List UInt8} {length : ℕ}
    {stores : Stores} (h : results.Works) (hsmall : data.length < 2 ^ 32)
    (hlt : data.length < length ∨ single = true ∧ data.length = length) :
    writeFile results single directory files path length stores data =
      .ok (true, ⟨path, length - data.length, files, stores ++ [(path, data)]⟩) := by
  have hle : data.length ≤ length := hlt.elim Nat.le_of_lt fun hequal => hequal.2.le
  have hmin : min data.length length = data.length := by omega
  have hcase : length - data.length ≠ 0 ∨ single = true :=
    hlt.imp (fun hlt => by omega) And.left
  unfold writeFile
  simp only [h.stores, hmin, Nat.mod_eq_of_lt hsmall, hcase, List.drop_length, List.take_length,
    Bool.not_true, Bool.false_eq_true, if_false, if_true, decide_true, aceAssert_true]
  rfl

section Multiple

variable {value next : Value} {files : List Value} {path data : List UInt8} {length : ℕ}
  {stores : Stores}

theorem writeFile_end (h : results.Works) :
    writeFile results false directory [] path 0 stores data = .error .endIterator := by
  unfold writeFile
  simp [h.stores]

theorem writeFile_last (h : results.Works) (hsmall : length < 2 ^ 32)
    (hle : length ≤ data.length) :
    writeFile results false directory [value] path length stores data =
      if data.length = length then .ok (true, ⟨path, 0, [], stores ++ [(path, data)]⟩)
      else .error .assertion := by
  have hmin : min data.length length = length := by omega
  unfold writeFile
  simp only [h.stores, hmin, Nat.mod_eq_of_lt hsmall, Nat.sub_self, Bool.not_true,
    Bool.false_eq_true, if_false, ne_eq, not_true_eq_false, or_self]
  by_cases hequal : data.length = length
  · rw [if_pos hequal, ← hequal, List.drop_length, List.take_length]
    simp [bind, Except.bind]
  · have hdrop : data.drop length ≠ [] := by
      rw [← List.length_pos_iff, List.length_drop]
      omega
    rw [if_neg hequal]
    simp [hdrop, aceAssert, h.asserting, bind, Except.bind]

/-- The piece has all that is left of a file, and the cursor advances to the next one. -/
theorem writeFile_next {file : ListedFile} (h : results.Works) (hfile : listedFile next = some file)
    (hsmall : length < 2 ^ 32) (hle : length ≤ data.length) :
    writeFile results false directory (value :: next :: files) path length stores data =
      if data.length = length then
        .ok (true, ⟨pathOnDisk results directory file.path, (unsignedInt file.length).toNat,
          next :: files, stores ++ [(path, data)]⟩)
      else writeFile results false directory (next :: files)
        (pathOnDisk results directory file.path) (unsignedInt file.length).toNat
        (stores ++ [(path, data.take length)]) (data.drop length) := by
  have hmin : min data.length length = length := by omega
  conv_lhs => unfold writeFile
  simp only [h.stores, hmin, Nat.mod_eq_of_lt hsmall, Nat.sub_self, Bool.not_true,
    Bool.false_eq_true, if_false, ne_eq, not_true_eq_false, or_self, hfile, assertSome, bind,
    Except.bind]
  by_cases hequal : data.length = length
  · rw [if_pos hequal, ← hequal, List.drop_length, List.take_length]
    simp
  · have hdrop : data.drop length ≠ [] := by
      rw [← List.length_pos_iff, List.length_drop]
      omega
    rw [if_neg hequal, if_pos hdrop]

end Multiple

def Loads (results : AssemblyResults) (names pieces : List (List UInt8)) : Prop :=
  names.map (fun name => results.load (results.piecesPath ++ directorySeparator :: name)) =
    pieces.map some

/-- The run comes to its end, and what it stores are the pieces, in the files that it reaches. -/
def Completes (stores : Stores) (files : List (List UInt8 × ℕ)) (pieces : List (List UInt8))
    (run : Except Fault (Bool × Assembly)) : Prop :=
  ∃ assembly new, run = .ok (true, assembly) ∧ assembly.stores = stores ++ new ∧
    new.flatMap Prod.snd = pieces.flatten ∧
    Fill (files.take (reach (files.map Prod.snd) (pieces.map List.length))) new

def Outcome (fits : Prop) (stores : Stores) (files : List (List UInt8 × ℕ))
    (pieces : List (List UInt8)) (run : Except Fault (Bool × Assembly)) : Prop :=
  (fits → Completes stores files pieces run) ∧ (¬ fits → ∃ e, run = .error e)

theorem outcome_error {fits : Prop} {stores : Stores} {files : List (List UInt8 × ℕ)}
    {pieces : List (List UInt8)} {run : Except Fault (Bool × Assembly)} {e : Fault} (hfits : ¬ fits)
    (hrun : run = .error e) : Outcome fits stores files pieces run :=
  ⟨fun h => absurd h hfits, fun _ => ⟨e, hrun⟩⟩

def target (results : AssemblyResults) (directory : List UInt8) (file : ListedFile) :
    List UInt8 × ℕ :=
  (pathOnDisk results directory file.path, file.length.toInt.toNat)

/-- The length that the cursor takes is the length of the file, modulo 2^32. -/
theorem toNat_unsignedInt_length {file : ListedFile} (hnonneg : 0 ≤ file.length.toInt) :
    (unsignedInt file.length).toNat = file.length.toInt.toNat % 2 ^ 32 := by
  have hword := toNat_unsignedInt_emod file.length
  omega

def continueWith (results : AssemblyResults) (single : Bool) (directory : List UInt8)
    (names : List (List UInt8)) (written : Except Fault (Bool × Assembly)) :
    Except Fault (Bool × Assembly) := do
  let (done, assembly) ← written
  if done then assemblePieces results single directory names assembly else .ok (false, assembly)

section Runs

variable {names : List (List UInt8)} {pieces : List (List UInt8)} {path data : List UInt8}
  {length start : ℕ} {stores : Stores} {value : Value} {values : List Value}
  {listed : List ListedFile}

theorem loads_cons {name : List UInt8} :
    Loads results (name :: names) pieces ↔ ∃ data rest, pieces = data :: rest ∧
      results.load (results.piecesPath ++ directorySeparator :: name) = some data ∧
      Loads results names rest := by
  cases pieces with
  | nil => simp [Loads]
  | cons data rest => simp [Loads]

theorem assemblePieces_cons {single : Bool} {name : List UInt8} {assembly : Assembly}
    (hload : results.load (results.piecesPath ++ directorySeparator :: name) = some data) :
    assemblePieces results single directory (name :: names) assembly =
      continueWith results single directory names (writeFile results single directory
        assembly.files assembly.path assembly.length assembly.stores data) := by
  rw [assemblePieces, hload]
  rfl

theorem assemblePieces_end (h : results.Works) (hloads : Loads results names pieces) :
    Outcome (pieces.map List.length = []) stores [] pieces
      (assemblePieces results false directory names ⟨path, 0, [], stores⟩) := by
  cases names with
  | nil =>
    obtain rfl : pieces = [] := by simpa [Loads] using hloads
    exact ⟨fun _ => ⟨_, [], rfl, by simp, rfl, rfl⟩, fun hne => absurd rfl hne⟩
  | cons name names =>
    obtain ⟨data, rest, rfl, hload, -⟩ := loads_cons.1 hloads
    apply outcome_error (by simp) (e := .endIterator)
    rw [assemblePieces_cons hload, writeFile_end h]
    rfl

theorem Completes.store {path data : List UInt8} {files files' : List (List UInt8 × ℕ)}
    {pieces pieces' : List (List UInt8)} {run : Except Fault (Bool × Assembly)}
    (h : Completes (stores ++ [(path, data)]) files pieces run)
    (hpieces : pieces'.flatten = data ++ pieces.flatten)
    (hfill : ∀ new, Fill (files.take (reach (files.map Prod.snd) (pieces.map List.length))) new →
      Fill (files'.take (reach (files'.map Prod.snd) (pieces'.map List.length)))
        ((path, data) :: new)) : Completes stores files' pieces' run := by
  obtain ⟨assembly, new, hrun, hstores, hbytes, hnew⟩ := h
  refine ⟨assembly, (path, data) :: new, hrun, ?_, ?_, hfill new hnew⟩
  · rw [hstores, List.append_assoc, List.singleton_append]
  · rw [List.flatMap_cons, hbytes, hpieces]

theorem Outcome.of_not {fits fits' : Prop} {stores stores' : Stores}
    {files files' : List (List UInt8 × ℕ)} {pieces pieces' : List (List UInt8)}
    {run : Except Fault (Bool × Assembly)} (hrun : Outcome fits' stores' files' pieces' run)
    (hfits : ¬ fits) (hfits' : ¬ fits') : Outcome fits stores files pieces run :=
  ⟨fun h => absurd h hfits, fun _ => hrun.2 hfits'⟩

section Steps

variable {path' : List UInt8} {next : ℕ} {files : List (List UInt8 × ℕ)}
  {run : Except Fault (Bool × Assembly)}

theorem Outcome.short (hsmall : data.length < 2 ^ 32) (hlt : data.length < length)
    (hrun : Outcome (Fits (2 ^ 32) (start + data.length) (length - data.length)
      (files.map Prod.snd) (pieces.map List.length)) (stores ++ [(path, data)])
      ((path, length - data.length) :: files) pieces run) :
    Outcome (Fits (2 ^ 32) start length (files.map Prod.snd) ((data :: pieces).map List.length))
      stores ((path, length) :: files) (data :: pieces) run := by
  have hfits : Fits (2 ^ 32) start length (files.map Prod.snd)
      (data.length :: pieces.map List.length) ↔ _ :=
    fits_short (by norm_num) hlt
  constructor
  · intro h
    obtain ⟨k, hreach, hreach'⟩ := reach_short hlt h
    apply (hrun.1 (hfits.mp h).2).store (by simp)
    intro new hfill
    rw [List.map_cons, hreach', List.take_succ_cons] at hfill
    rw [List.map_cons, List.map_cons, hreach, List.take_succ_cons]
    have hfill := fill_append data hfill
    rwa [Nat.add_sub_cancel' hlt.le] at hfill
  · exact fun h => hrun.2 fun h' => h (hfits.mpr ⟨hsmall, h'⟩)

theorem Outcome.equal (hsmall : data.length < 2 ^ 32) (hnext : next < 2 ^ 32)
    (hrun : Outcome (Fits (2 ^ 32) (start + data.length) next (files.map Prod.snd)
      (pieces.map List.length)) (stores ++ [(path, data)]) ((path', next) :: files) pieces run) :
    Outcome (Fits (2 ^ 32) start data.length (next :: files.map Prod.snd)
      ((data :: pieces).map List.length)) stores ((path, data.length) :: (path', next) :: files)
      (data :: pieces) run := by
  have hfits : Fits (2 ^ 32) start data.length (next :: files.map Prod.snd)
      (data.length :: pieces.map List.length) ↔ _ :=
    fits_equal (by norm_num)
  constructor
  · intro h
    apply (hrun.1 (hfits.mp h).2.2).store (by simp)
    intro new hfill
    rw [List.map_cons] at hfill
    rw [List.map_cons, List.map_cons, List.map_cons, reach_equal h, List.take_succ_cons]
    exact fill_cons rfl hfill
  · exact fun h => hrun.2 fun h' => h (hfits.mpr ⟨hsmall, hnext, h'⟩)

theorem Outcome.long (hsmall : length < 2 ^ 32) (hnext : next < 2 ^ 32) (hlt : length < data.length)
    (hrun : Outcome (Fits (2 ^ 32) (start + length) next (files.map Prod.snd)
      ((data.drop length :: pieces).map List.length)) (stores ++ [(path, data.take length)])
      ((path', next) :: files) (data.drop length :: pieces) run) :
    Outcome (Fits (2 ^ 32) start length (next :: files.map Prod.snd)
      ((data :: pieces).map List.length)) stores ((path, length) :: (path', next) :: files)
      (data :: pieces) run := by
  have hfits : Fits (2 ^ 32) start length (next :: files.map Prod.snd)
      (data.length :: pieces.map List.length) ↔ _ :=
    fits_long (by norm_num) hlt
  rw [List.map_cons, List.length_drop] at hrun
  constructor
  · intro h
    apply (hrun.1 (hfits.mp h).2.2).store
    · rw [List.flatten_cons, List.flatten_cons, ← List.append_assoc, List.take_append_drop]
    · intro new hfill
      rw [List.map_cons, List.map_cons, List.length_drop] at hfill
      rw [List.map_cons, List.map_cons, List.map_cons, reach_long hlt h, List.take_succ_cons]
      exact fill_cons (by rw [List.length_take, Nat.min_eq_left hlt.le]) hfill
  · exact fun h => hrun.2 fun h' => h (hfits.mpr ⟨hsmall, hnext, h'⟩)

theorem Outcome.last (hsmall : data.length < 2 ^ 32)
    (hrun : Outcome (pieces.map List.length = []) (stores ++ [(path, data)]) [] pieces run) :
    Outcome (Fits (2 ^ 32) start data.length [] ((data :: pieces).map List.length)) stores
      [(path, data.length)] (data :: pieces) run := by
  have hfits : Fits (2 ^ 32) start data.length [] (data.length :: pieces.map List.length) ↔ _ :=
    fits_last (by norm_num)
  constructor
  · intro h
    have hnil := (hfits.mp h).2
    apply (hrun.1 hnil).store (by simp)
    intro new hfill
    have hreach : reach [data.length] [data.length] = 1 := by simp [reach]
    rw [List.map_cons, List.map_cons, hnil, List.map_nil, hreach]
    exact fill_cons rfl (by simpa using hfill)
  · exact fun h => hrun.2 fun h' => h (hfits.mpr ⟨hsmall, h'⟩)

end Steps

def lengthsOf (results : AssemblyResults) (directory : List UInt8) (listed : List ListedFile) :
    List ℕ :=
  (listed.map (target results directory)).map Prod.snd

/-- A piece and those behind it, written from the current file on. The induction is on the files
that are left, since a piece may reach over any number of them. -/
theorem writeFile_outcome (h : results.Works) (hloads : Loads results names pieces)
    (ih : ∀ {path : List UInt8} {length start : ℕ} {stores : Stores} {value : Value}
      {values : List Value} {listed : List ListedFile},
      values.map listedFile = listed.map some → (∀ file ∈ listed, 0 ≤ file.length.toInt) →
      length + (lengthsOf results directory listed).sum ≤ (pieces.map List.length).sum →
      Outcome (Fits (2 ^ 32) start length (lengthsOf results directory listed)
        (pieces.map List.length)) stores
        ((path, length) :: listed.map (target results directory)) pieces
        (assemblePieces results false directory names ⟨path, length, value :: values, stores⟩))
    (hlisted : values.map listedFile = listed.map some)
    (hnonneg : ∀ file ∈ listed, 0 ≤ file.length.toInt)
    (hle : length + (lengthsOf results directory listed).sum ≤
      ((data :: pieces).map List.length).sum) :
    Outcome (Fits (2 ^ 32) start length (lengthsOf results directory listed)
      ((data :: pieces).map List.length)) stores
      ((path, length) :: listed.map (target results directory)) (data :: pieces)
      (continueWith results false directory names
        (writeFile results false directory (value :: values) path length stores data)) := by
  induction values generalizing value listed path length start stores data with
  | nil =>
    obtain rfl : listed = [] := by simpa using hlisted
    by_cases hlarge : 2 ^ 32 ≤ min data.length length
    · exact outcome_error (not_fits_of_le hlarge) (by rw [writeFile_large h hlarge]; rfl)
    · rcases lt_trichotomy data.length length with hlt | rfl | hlt
      · rw [writeFile_short h (by omega) (.inl hlt)]
        rw [List.map_cons, List.sum_cons] at hle
        exact (ih hlisted hnonneg (by omega)).short (by omega) hlt
      · rw [writeFile_last h (by omega) le_rfl, if_pos rfl]
        exact (assemblePieces_end h hloads).last (by omega)
      · rw [writeFile_last h (by omega) hlt.le, if_neg hlt.ne']
        refine outcome_error (fun hfits => ?_) rfl
        have htotal := hfits.total
        simp only [lengthsOf, List.map_nil, List.sum_nil, List.map_cons, List.sum_cons] at htotal
        omega
  | cons nextValue values ihvalues =>
    obtain ⟨file, listed, rfl⟩ : ∃ file rest, listed = file :: rest := by
      cases listed with
      | nil => simp at hlisted
      | cons file rest => exact ⟨file, rest, rfl⟩
    obtain ⟨hfile, hrest⟩ : listedFile nextValue = some file ∧
        values.map listedFile = listed.map some := by simpa using hlisted
    obtain ⟨hfileNonneg, hnonneg'⟩ := List.forall_mem_cons.mp hnonneg
    have hword := toNat_unsignedInt_length hfileNonneg
    have hlengths : lengthsOf results directory (file :: listed) =
        file.length.toInt.toNat :: lengthsOf results directory listed := rfl
    by_cases hlarge : 2 ^ 32 ≤ min data.length length
    · exact outcome_error (not_fits_of_le hlarge) (by rw [writeFile_large h hlarge]; rfl)
    · rcases lt_trichotomy data.length length with hlt | rfl | hlt
      · rw [writeFile_short h (by omega) (.inl hlt)]
        rw [List.map_cons, List.sum_cons] at hle
        exact (ih hlisted hnonneg (by omega)).short (by omega) hlt
      · rw [writeFile_next h hfile (by omega) le_rfl, if_pos rfl, hword]
        rw [hlengths, List.map_cons, List.sum_cons, List.sum_cons] at hle
        have hmod := Nat.mod_le file.length.toInt.toNat (2 ^ 32)
        have hle' : file.length.toInt.toNat % 2 ^ 32 +
            (lengthsOf results directory listed).sum ≤ (pieces.map List.length).sum := by omega
        have hrun := @ih (pathOnDisk results directory file.path) _ (start + data.length)
          (stores ++ [(path, data)]) nextValue _ _ hrest hnonneg' hle'
        by_cases hnext : file.length.toInt.toNat < 2 ^ 32
        · rw [Nat.mod_eq_of_lt hnext] at hrun ⊢
          exact hrun.equal (by omega) hnext
        · refine hrun.of_not (fun hfits => ?_) fun hfits => ?_
          · exact hnext (hfits.lengths_lt _ List.mem_cons_self)
          · have htotal := hfits.total
            have hcut := Nat.mod_lt file.length.toInt.toNat (show 0 < 2 ^ 32 by norm_num)
            omega
      · rw [writeFile_next h hfile (by omega) hlt.le, if_neg hlt.ne', hword]
        rw [hlengths, List.map_cons, List.sum_cons, List.sum_cons] at hle
        have hmod := Nat.mod_le file.length.toInt.toNat (2 ^ 32)
        have hle' : file.length.toInt.toNat % 2 ^ 32 +
            (lengthsOf results directory listed).sum ≤
              ((data.drop length :: pieces).map List.length).sum := by
          rw [List.map_cons, List.sum_cons, List.length_drop]
          omega
        have hrun := @ihvalues (pathOnDisk results directory file.path) (data.drop length) _
          (start + length) (stores ++ [(path, data.take length)]) nextValue _ hrest hnonneg' hle'
        by_cases hnext : file.length.toInt.toNat < 2 ^ 32
        · rw [Nat.mod_eq_of_lt hnext] at hrun ⊢
          exact hrun.long (by omega) hnext hlt
        · refine hrun.of_not (fun hfits => ?_) fun hfits => ?_
          · exact hnext (hfits.lengths_lt _ List.mem_cons_self)
          · have htotal := hfits.total
            rw [List.map_cons, List.sum_cons, List.length_drop] at htotal
            have hcut := Nat.mod_lt file.length.toInt.toNat (show 0 < 2 ^ 32 by norm_num)
            omega

theorem assemblePieces_outcome (h : results.Works) (hloads : Loads results names pieces)
    (hlisted : values.map listedFile = listed.map some)
    (hnonneg : ∀ file ∈ listed, 0 ≤ file.length.toInt)
    (hle : length + (lengthsOf results directory listed).sum ≤ (pieces.map List.length).sum) :
    Outcome (Fits (2 ^ 32) start length (lengthsOf results directory listed)
      (pieces.map List.length)) stores
      ((path, length) :: listed.map (target results directory)) pieces
      (assemblePieces results false directory names ⟨path, length, value :: values, stores⟩) := by
  induction names generalizing pieces path length start stores value values listed with
  | nil =>
    obtain rfl : pieces = [] := by simpa [Loads] using hloads
    have hsum : (length :: lengthsOf results directory listed).sum = 0 := by
      rw [List.sum_cons]
      simpa using hle
    have hreach : reach (length :: lengthsOf results directory listed) [] = 0 := by
      rw [reach, trailingZeros_of_sum_eq_zero hsum]
      simp [trailingZeros]
    have hzero := List.sum_eq_zero_iff.mp hsum
    have hfits : Fits (2 ^ 32) start length (lengthsOf results directory listed)
        (([] : List (List UInt8)).map List.length) :=
      ⟨by rw [← List.sum_cons, hsum]; rfl,
        fun n hn => by rw [hzero n (List.mem_cons_of_mem _ hn)]; norm_num, by simp,
        Nat.zero_le _⟩
    refine ⟨fun _ => ⟨_, [], rfl, by simp, rfl, ?_⟩, fun hnot => absurd hfits hnot⟩
    rw [List.map_cons, List.map_nil]
    change Fill (List.take (reach (length :: lengthsOf results directory listed) []) _) []
    rw [hreach]
    rfl
  | cons name names ih =>
    obtain ⟨data, rest, rfl, hload, hrest⟩ := loads_cons.1 hloads
    rw [assemblePieces_cons hload]
    exact writeFile_outcome h hrest (ih hrest) hlisted hnonneg hle

end Runs
end
end ACENetwork.BitTorrent.Tools
