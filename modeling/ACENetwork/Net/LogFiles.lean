import ACENetwork.BitTorrent.Common
import ACENetwork.Library.Files
import ACENetwork.Library.OrderedMap
import ACENetwork.Library.Text

/-!
# Log rotation

`Net_Server_Common_Tools::getNextLogFileName`, where the operations on files succeed. The numbers
of the log files are read behind the program name, where an underscore precedes them.
-/
namespace ACENetwork.Net.LogFiles
open BitTorrent (Fault)
open Library

section Source

def suffix : Bytes := text ".log"

def currentLog (name : Bytes) : Bytes := name ++ suffix

def numberedLog (name : Bytes) (number : ℕ) : Bytes :=
  name ++ text "_" ++ decimal number ++ suffix

/-- `%u`, by way of `strtoul`, whose value is cut to an `unsigned int`; what follows the number does
not matter. -/
def scanUnsigned (s : Bytes) : Option UInt32 :=
  let s := s.dropWhile isSpace
  let signed := s.head? = some '-'.toUInt8 ∨ s.head? = some '+'.toUInt8
  let digits := (if signed then s.tail else s).takeWhile isDigit
  if digits = [] then none
  else
    let value := decimalValue digits
    some (UInt32.ofNat (
      if 2 ^ 64 ≤ value then 2 ^ 64 - 1
      else if s.head? = some '-'.toUInt8 then (2 ^ 64 - value) % 2 ^ 64
      else value))

/-- `selector`, for the name of the executable without its extension. -/
def selector (prefixString name : Bytes) : Bool := prefixString.isPrefixOf name

/-- What the loop over the entries has come to. -/
structure Rotation where
  index : UInt32
  foundCurrent : Bool := false
  operations : List (FileOp Bytes) := []

def adjust (index number : UInt32) : UInt32 := if number < index then number + 1 else index

def visit (maximumNumberOfLogFiles : UInt32) (prefixString programName : Bytes) (length : ℕ)
    (r : Rotation) (name : Bytes) : Rotation :=
  if name = currentLog programName then { r with foundCurrent := true }
  else
    match scanUnsigned (name.drop programName.length) with
    | none => r
    | some number =>
      let index := adjust r.index number
      if maximumNumberOfLogFiles - 1 ≤ number ∧ maximumNumberOfLogFiles.toNat ≤ length then
        { r with index := index, operations := r.operations ++ [.delete name] }
      else
        { r with
          index := index - 1
          operations := r.operations ++ [.rename name (numberedLog prefixString index.toNat)] }

def visitAll (maximumNumberOfLogFiles : UInt32) (prefixString programName : Bytes)
    (entries : List Bytes) : Rotation :=
  entries.reverse.foldl (visit maximumNumberOfLogFiles prefixString programName entries.length)
    { index := maximumNumberOfLogFiles - 1 }

/-- `getNextLogFileName` in a log directory with these files: the path, and the operations. -/
def getNextLogFileName (maximumNumberOfLogFiles : UInt32) (prefixString programName : Bytes)
    (directory : Bytes) (files : Finset Bytes) : Except Fault (Bytes × List (FileOp Bytes)) :=
  if programName = [] then .error .assertion
  else
    let entries := (files.filter fun name => selector prefixString name).sort (· ≤ ·)
    let r := visitAll maximumNumberOfLogFiles prefixString programName entries
    let result := currentLog programName
    .ok (directory ++ '/'.toUInt8 :: result,
      r.operations ++ ((if r.foundCurrent then [.rename result (numberedLog prefixString 1)] else []) ++
        [.create result, .delete result]))

end Source

section Rotation

variable (name : Bytes) (files : Finset Bytes) (operations : List (FileOp Bytes))

def IsLog (file : Bytes) : Prop :=
  file = currentLog name ∨ ∃ n, 1 ≤ n ∧ file = numberedLog name n

def after : Directory Bytes := (Directory.ofNames files).performAll operations

def Gone (file : Bytes) : Prop := ∀ other, after files operations other ≠ some (.former file)

/-- Nothing but the oldest files is lost. -/
structure Rotated (maximum : ℕ) (directory path : Bytes) : Prop where
  fresh : ∃ file, path = directory ++ '/'.toUInt8 :: file ∧ after files operations file = none
  current : currentLog name ∈ files →
    after files operations (numberedLog name 1) = some (.former (currentLog name))
  overwrites : (Directory.ofNames files).NoOverwrite operations
  kept : ∀ n, 1 ≤ n → numberedLog name n ∈ files → Gone files operations (numberedLog name n) ∨
    ∃ k, n ≤ k ∧ after files operations (numberedLog name k) = some (.former (numberedLog name n))
  order : ∀ n n' k k', 1 ≤ n → n < n' →
    after files operations (numberedLog name k) = some (.former (numberedLog name n)) →
      after files operations (numberedLog name k') = some (.former (numberedLog name n')) → k < k'
  oldest : ∀ n n', 1 ≤ n → n < n' → numberedLog name n' ∈ files →
    numberedLog name n ∈ files → Gone files operations (numberedLog name n) →
      Gone files operations (numberedLog name n')
  many : ∀ n, 1 ≤ n → numberedLog name n ∈ files → Gone files operations (numberedLog name n) →
    maximum + {file | file ∈ files ∧ IsLog name file ∧ Gone files operations file}.ncard ≤
      {file | file ∈ files ∧ IsLog name file}.ncard + 1
  others : ∀ file ∈ files, ¬ IsLog name file → after files operations file = some (.former file)

/-- No other file goes on with a number behind the program name; and there is no log to be numbered,
or none with the number 1. -/
structure Harmless : Prop where
  others : ∀ file ∈ files, name <+: file → scanUnsigned (file.drop name.length) = none
  first : currentLog name ∈ files → numberedLog name 1 ∉ files

end Rotation

section Names

variable {name file : Bytes} {m n : ℕ}

theorem scanUnsigned_numbered (name : Bytes) (n : ℕ) :
    scanUnsigned ((numberedLog name n).drop name.length) = none := by
  have hdrop : (numberedLog name n).drop name.length =
      '_'.toUInt8 :: (decimal n ++ suffix) := by
    unfold numberedLog
    rw [List.append_assoc, List.append_assoc, List.drop_left]
    rfl
  rw [hdrop]
  rfl

theorem scanUnsigned_current (name : Bytes) :
    scanUnsigned ((currentLog name).drop name.length) = none := by
  unfold currentLog
  rw [List.drop_left]
  rfl

theorem numberedLog_injective (name : Bytes) : Function.Injective (numberedLog name) := by
  intro m n h
  unfold numberedLog at h
  have hdecimal : decimal m = decimal n :=
    List.append_cancel_left (List.append_cancel_right h)
  rw [← decimalValue_decimal m, hdecimal, decimalValue_decimal]

theorem numberedLog_ne_current (name : Bytes) (n : ℕ) : numberedLog name n ≠ currentLog name := by
  intro h
  have hlength := congrArg List.length h
  have hunderscore : (text "_").length = 1 := rfl
  simp only [numberedLog, currentLog, List.length_append, hunderscore] at hlength
  omega

theorem scanUnsigned_of_isLog (h : IsLog name file) : scanUnsigned (file.drop name.length) = none := by
  rcases h with rfl | ⟨n, -, rfl⟩
  · exact scanUnsigned_current name
  · exact scanUnsigned_numbered name n

end Names

section Visit

variable {maximum : UInt32} {name file : Bytes} {length : ℕ} {r : Rotation} {entries : List Bytes}
  {op : FileOp Bytes}

/-- The current log is found, an entry is left alone, or an operation takes its name away. -/
theorem visit_cases (maximum : UInt32) (name : Bytes) (length : ℕ) (r : Rotation) (file : Bytes) :
    (file = currentLog name ∧
        visit maximum name name length r file = { r with foundCurrent := true }) ∨
      (file ≠ currentLog name ∧ scanUnsigned (file.drop name.length) = none ∧
        visit maximum name name length r file = r) ∨
      file ≠ currentLog name ∧ scanUnsigned (file.drop name.length) ≠ none ∧
        ∃ index op, visit maximum name name length r file =
            { r with index := index, operations := r.operations ++ [op] } ∧
          Directory.Takes file op ∧
            ∀ other, Directory.Gives other op → ∃ n, other = numberedLog name n := by
  unfold visit
  by_cases hcurrent : file = currentLog name
  · exact .inl ⟨hcurrent, if_pos hcurrent⟩
  rw [if_neg hcurrent]
  cases hscan : scanUnsigned (file.drop name.length) with
  | none => exact .inr (.inl ⟨hcurrent, rfl, rfl⟩)
  | some number =>
    refine .inr (.inr ⟨hcurrent, nofun, ?_⟩)
    dsimp only
    split_ifs
    · refine ⟨_, _, rfl, .inl rfl, ?_⟩
      rintro other (⟨⟨⟩⟩ | ⟨old, ⟨⟩⟩)
    · refine ⟨_, _, rfl, .inr ⟨_, rfl⟩, ?_⟩
      rintro other (⟨⟨⟩⟩ | ⟨old, heq⟩)
      exact ⟨_, (FileOp.rename.inj heq).2.symm⟩

/-- What the loop comes to: the entries with a number lose their names, and the names that are given
are those of log files. -/
structure Visited (name : Bytes) (entries : List Bytes) (r r' : Rotation) : Prop where
  foundCurrent : r'.foundCurrent = true ↔ r.foundCurrent = true ∨ currentLog name ∈ entries
  operations : ∃ ops, r'.operations = r.operations ++ ops ∧
    (∀ op ∈ ops, ∀ other, Directory.Gives other op → ∃ n, other = numberedLog name n) ∧
      (∀ file ∈ entries, scanUnsigned (file.drop name.length) ≠ none →
        ∃ op ∈ ops, Directory.Takes file op) ∧
          ((∀ file ∈ entries, scanUnsigned (file.drop name.length) = none) → ops = [])

theorem visited_foldl (maximum : UInt32) (name : Bytes) (length : ℕ) (entries : List Bytes)
    (r : Rotation) :
    Visited name entries r (entries.foldl (visit maximum name name length) r) := by
  induction entries generalizing r with
  | nil => exact ⟨by simp, [], by simp, by simp, by simp, fun _ => rfl⟩
  | cons file entries ih =>
    rw [List.foldl_cons]
    obtain ⟨rfl, hvisit⟩ | ⟨hcurrent, hscan, hvisit⟩ | ⟨hcurrent, hscan, index, op, hvisit, htakes, hgives⟩ :=
      visit_cases maximum name length r file
    · rw [hvisit]
      obtain ⟨hfound, ops, hops, hlogs, hnumbers, hnone⟩ := ih { r with foundCurrent := true }
      refine ⟨by simp [hfound], ops, hops, hlogs, fun file hfile hscan => ?_, fun h =>
        hnone fun file hfile => h file (List.mem_cons_of_mem _ hfile)⟩
      rcases List.mem_cons.mp hfile with rfl | hfile
      · exact absurd (scanUnsigned_current name) hscan
      · exact hnumbers file hfile hscan
    · rw [hvisit]
      obtain ⟨hfound, ops, hops, hlogs, hnumbers, hnone⟩ := ih r
      refine ⟨by simp [hfound, Ne.symm hcurrent], ops, hops, hlogs, fun file' hfile' hscan' => ?_,
        fun h => hnone fun file hfile => h file (List.mem_cons_of_mem _ hfile)⟩
      rcases List.mem_cons.mp hfile' with rfl | hfile'
      · exact absurd hscan hscan'
      · exact hnumbers file' hfile' hscan'
    · rw [hvisit]
      obtain ⟨hfound, ops, hops, hlogs, hnumbers, hnone⟩ :=
        ih { r with index := index, operations := r.operations ++ [op] }
      refine ⟨by simp [hfound, Ne.symm hcurrent], op :: ops, by simp [hops],
        List.forall_mem_cons.mpr ⟨hgives, hlogs⟩, fun file' hfile' hscan' => ?_,
          fun h => absurd (h file List.mem_cons_self) hscan⟩
      rcases List.mem_cons.mp hfile' with rfl | hfile'
      · exact ⟨op, List.mem_cons_self, htakes⟩
      · obtain ⟨op', hop', htakes'⟩ := hnumbers file' hfile' hscan'
        exact ⟨op', List.mem_cons_of_mem _ hop', htakes'⟩

end Visit

section Rotate

variable {maximum : UInt32} {name directory path : Bytes} {files : Finset Bytes}
  {operations : List (FileOp Bytes)}

def lastOperations (name : Bytes) (files : Finset Bytes) : List (FileOp Bytes) :=
  (if currentLog name ∈ files then [.rename (currentLog name) (numberedLog name 1)] else []) ++
    [.create (currentLog name), .delete (currentLog name)]

theorem getNextLogFileName_spec (maximum : UInt32) (hname : name ≠ []) (directory : Bytes)
    (files : Finset Bytes) :
    ∃ ops, getNextLogFileName maximum name name directory files =
        .ok (directory ++ '/'.toUInt8 :: currentLog name, ops ++ lastOperations name files) ∧
      (∀ op ∈ ops, ∀ other, Directory.Gives other op → ∃ n, other = numberedLog name n) ∧
        (∀ file ∈ files, name <+: file → scanUnsigned (file.drop name.length) ≠ none →
          ∃ op ∈ ops, Directory.Takes file op) ∧
            ((∀ file ∈ files, name <+: file → scanUnsigned (file.drop name.length) = none) →
              ops = []) := by
  have hentry (file : Bytes) :
      file ∈ ((files.filter fun file => selector name file).sort (· ≤ ·)).reverse ↔
        file ∈ files ∧ name <+: file := by
    simp [selector, List.isPrefixOf_iff_prefix]
  unfold getNextLogFileName
  rw [if_neg hname]
  dsimp only
  unfold visitAll
  generalize ((files.filter fun file => selector name file).sort (· ≤ ·)) = entries at hentry ⊢
  obtain ⟨hfound, ops, hops, hlogs, hnumbers, hnone⟩ :=
    visited_foldl maximum name entries.length entries.reverse { index := maximum - 1 }
  generalize entries.reverse.foldl _ _ = r at hfound hops ⊢
  refine ⟨ops, ?_, hlogs, fun file hfile hprefix => hnumbers file ((hentry file).mpr ⟨hfile, hprefix⟩),
    fun h => hnone fun file hfile => h file ((hentry file).mp hfile).1 ((hentry file).mp hfile).2⟩
  have hcurrent : r.foundCurrent = true ↔ currentLog name ∈ files := by
    rw [hfound, hentry]
    simp [currentLog]
  simp only [hops, List.nil_append, hcurrent, lastOperations]

theorem gives_lastOperations {op : FileOp Bytes} {file : Bytes} (hop : op ∈ lastOperations name files)
    (hgives : Directory.Gives file op) : file = currentLog name ∨ ∃ n, file = numberedLog name n := by
  rcases List.mem_append.mp hop with hop | hop
  · split_ifs at hop with hcurrent
    · obtain rfl := List.mem_singleton.mp hop
      rcases hgives with ⟨⟨⟩⟩ | ⟨old, heq⟩
      exact .inr ⟨1, (FileOp.rename.inj heq).2.symm⟩
    · cases hop
  · simp only [List.mem_cons, List.not_mem_nil, or_false] at hop
    rcases hop with rfl | rfl
    · rcases hgives with heq | ⟨old, ⟨⟩⟩
      exact .inl (FileOp.create.inj heq).symm
    · rcases hgives with ⟨⟨⟩⟩ | ⟨old, ⟨⟩⟩

theorem harmless_of_rotated (hname : name ≠ [])
    (hok : getNextLogFileName maximum name name directory files = .ok (path, operations))
    (h : Rotated name files operations maximum.toNat directory path) : Harmless name files := by
  obtain ⟨ops, hspec, hlogs, hnumbers, hnone⟩ :=
    getNextLogFileName_spec maximum hname directory files
  obtain ⟨rfl, rfl⟩ := Prod.mk.inj (Except.ok.inj (hok.symm.trans hspec))
  have hothers : ∀ file ∈ files, name <+: file → scanUnsigned (file.drop name.length) = none := by
    by_contra hsome
    push Not at hsome
    obtain ⟨file, hfile, hprefix, hscan⟩ := hsome
    have hlog : ¬ IsLog name file := fun hlog => hscan (scanUnsigned_of_isLog hlog)
    have hgives : ∀ n, file ≠ numberedLog name n := fun n heq =>
      hscan (heq ▸ scanUnsigned_numbered name n)
    obtain ⟨op, hop, htakes⟩ := hnumbers file hfile hprefix hscan
    have hgone : after files (ops ++ lastOperations name files) file = none := by
      refine Directory.performAll_gone (.inr ⟨op, List.mem_append_left _ hop, htakes⟩) ?_
      intro op' hop' hgives'
      rcases List.mem_append.mp hop' with hop' | hop'
      · obtain ⟨n, heq⟩ := hlogs op' hop' file hgives'
        exact hgives n heq
      · obtain heq | ⟨n, heq⟩ := gives_lastOperations hop' hgives'
        · exact hlog (.inl heq)
        · exact hgives n heq
    rw [h.others file hfile hlog] at hgone
    cases hgone
  refine ⟨hothers, fun hcurrent hfirst => ?_⟩
  have hoverwrites := h.overwrites
  rw [hnone hothers, lastOperations, if_pos hcurrent] at hoverwrites
  have hempty := hoverwrites.1 _ _ rfl (numberedLog_ne_current name 1).symm
  rw [Directory.ofNames_of_mem hfirst] at hempty
  cases hempty

theorem after_current (name : Bytes) (files : Finset Bytes) (file : Bytes) :
    after files (lastOperations name files) file =
      if file = currentLog name then none
      else if file = numberedLog name 1 ∧ currentLog name ∈ files then
        some (.former (currentLog name))
      else Directory.ofNames files file := by
  have hlast (d : Directory Bytes) : d.performAll [.create (currentLog name), .delete (currentLog name)]
      file = if file = currentLog name then none else d file := by
    simp only [Directory.performAll, List.foldl_cons, List.foldl_nil, Directory.perform]
    split_ifs with hfile
    · rw [hfile, Function.update_self]
    · rw [Function.update_of_ne hfile, Function.update_of_ne hfile]
  unfold after lastOperations
  rw [Directory.performAll, List.foldl_append]
  refine (hlast _).trans ?_
  split_ifs with hfile hcurrent hfirst hfirst
  · rfl
  · rw [List.foldl_cons, List.foldl_nil, Directory.perform, hfirst.1, Function.update_self,
      Directory.ofNames_of_mem hcurrent]
  · have hne : file ≠ numberedLog name 1 := fun heq => hfirst ⟨heq, hcurrent⟩
    rw [List.foldl_cons, List.foldl_nil, Directory.perform, Function.update_of_ne hne,
      Function.update_of_ne hfile]
  · exact absurd hfirst.2 hcurrent
  · rfl

theorem rotated_of_harmless (hname : name ≠ []) (h : Harmless name files)
    (hok : getNextLogFileName maximum name name directory files = .ok (path, operations)) :
    Rotated name files operations maximum.toNat directory path := by
  obtain ⟨ops, hspec, -, -, hnone⟩ := getNextLogFileName_spec maximum hname directory files
  obtain ⟨rfl, rfl⟩ := Prod.mk.inj (Except.ok.inj (hok.symm.trans hspec))
  rw [hnone h.others, List.nil_append]
  have hafter := after_current name files
  have hnumbered (n : ℕ) (hn : numberedLog name n ∈ files) :
      after files (lastOperations name files) (numberedLog name n) = some (.former (numberedLog name n)) := by
    rw [hafter, if_neg (numberedLog_ne_current name n), if_neg, Directory.ofNames_of_mem hn]
    rintro ⟨heq, hcurrent⟩
    exact h.first hcurrent (heq ▸ hn)
  have hkept {p : Prop} (n : ℕ) (hn : numberedLog name n ∈ files)
      (hgone : Gone files (lastOperations name files) (numberedLog name n)) : p := absurd (hnumbered n hn) (hgone _)
  constructor
  · exact ⟨currentLog name, rfl, by rw [hafter, if_pos rfl]⟩
  · intro hcurrent
    rw [hafter, if_neg (numberedLog_ne_current name 1), if_pos ⟨rfl, hcurrent⟩]
  · unfold lastOperations
    split_ifs with hcurrent
    · refine ⟨?_, nofun, nofun, trivial⟩
      rintro old new ⟨⟩ -
      exact Directory.ofNames_of_notMem (h.first hcurrent)
    · exact ⟨nofun, nofun, trivial⟩
  · exact fun n _ hn => .inr ⟨n, le_rfl, hnumbered n hn⟩
  · have hsame (n k : ℕ) (hk : after files (lastOperations name files) (numberedLog name k) =
        some (.former (numberedLog name n))) : k = n := by
      rw [hafter, if_neg (numberedLog_ne_current name k)] at hk
      split_ifs at hk with hfirst
      · exact absurd (File.former.inj (Option.some.inj hk)).symm (numberedLog_ne_current name n)
      · unfold Directory.ofNames at hk
        split_ifs at hk
        exact numberedLog_injective name (File.former.inj (Option.some.inj hk))
    intro n n' k k' _ hlt hk hk'
    rw [hsame n k hk, hsame n' k' hk']
    exact hlt
  · exact fun n n' _ _ _ hn hgone => hkept n hn hgone
  · exact fun n _ hn hgone => hkept n hn hgone
  · intro file hfile hlog
    rw [hafter, if_neg fun heq => hlog (.inl heq), if_neg fun hfirst =>
      hlog (.inr ⟨1, le_rfl, hfirst.1⟩), Directory.ofNames_of_mem hfile]

end Rotate

/-- The rotation loses nothing but the oldest file, exactly where no file goes on with a number
behind the program name and the log with the number 1 does not exist together with the current
one. -/
theorem getNextLogFileName_rotates_iff (maximum : UInt32) {name : Bytes} (hname : name ≠ [])
    (directory : Bytes) (files : Finset Bytes) :
    (∃ path operations,
        getNextLogFileName maximum name name directory files = .ok (path, operations) ∧
          Rotated name files operations maximum.toNat directory path) ↔ Harmless name files := by
  constructor
  · rintro ⟨path, operations, hok, h⟩
    exact harmless_of_rotated hname hok h
  · intro h
    obtain ⟨ops, hok, -⟩ := getNextLogFileName_spec maximum hname directory files
    exact ⟨_, _, hok, rotated_of_harmless hname h hok⟩

/-- A directory with a current log only. -/
theorem getNextLogFileName_rotates :
    ∃ path operations,
      getNextLogFileName 10 (text "server") (text "server") (text "/var/log")
          {currentLog (text "server")} = .ok (path, operations) ∧
        Rotated (text "server") {currentLog (text "server")} operations 10 (text "/var/log") path := by
  refine (getNextLogFileName_rotates_iff 10 (by decide +kernel) _ _).mpr ⟨?_, ?_⟩
  · intro file hfile _
    rw [Finset.mem_singleton.mp hfile]
    exact scanUnsigned_current _
  · intro _ hfirst
    exact numberedLog_ne_current _ 1 (Finset.mem_singleton.mp hfirst)

/-- The current log is renamed over the log with the number 1, which is not seen. -/
theorem getNextLogFileName_overwrites :
    ¬ ∃ path operations,
      getNextLogFileName 10 (text "server") (text "server") (text "/var/log")
          {currentLog (text "server"), numberedLog (text "server") 1} = .ok (path, operations) ∧
        Rotated (text "server") {currentLog (text "server"), numberedLog (text "server") 1} operations
          10 (text "/var/log") path := by
  rintro ⟨path, operations, hok, h⟩
  have hharmless := harmless_of_rotated (by decide +kernel) hok h
  exact hharmless.first (by simp) (by simp)

end ACENetwork.Net.LogFiles
