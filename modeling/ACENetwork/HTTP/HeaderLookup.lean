import ACENetwork.HTTP.Headers

/-!
# The lookup of headers

A header is found under every spelling of its name, whatever the table does with names of
different hashes, exactly where all spellings of the stored names have one hash.
-/
namespace ACENetwork.HTTP
open BitTorrent (Fault)
open Library Library.HashTable

/-- An operation without its value: its kind, and its name where it has one. -/
def HeaderOperation.shape : HeaderOperation → ℕ × Option Bytes
  | .line header => (0, (headerLine header).map Prod.fst)
  | .insert name _ => (1, some name)
  | .supply name _ => (2, some name)

/-- The key of an operation, which its shape determines. -/
def shapeKey (shape : ℕ × Option Bytes) : Option Bytes :=
  shape.2.map fun name => if shape.1 = 0 then tolower name else name

/-- The headers have the values that were stored last, under every spelling, and the format of
the session follows them, for every table. -/
def LooksUp (hash : Bytes → UInt64) (operations : List HeaderOperation) : Prop :=
  ∀ c : Comparison ciKey hash, ∃ headers, build c operations = .ok headers ∧
    (∀ name, find c headers name = contents ciKey (accesses operations) (ciKey name)) ∧
    ∀ format, recordFormat c headers format =
      (contents ciKey (accesses operations) (ciKey contentEncoding)).elim format
        encodingToCompressionFormat

/-- No line has the name `Content-Encoding` in its canonical case. -/
def Unencoded (operations : List HeaderOperation) : Prop :=
  ∀ operation ∈ operations, operation.shape ≠ (0, some contentEncoding)

theorem key_of_access (operation : HeaderOperation) :
    operation.access.map Access.key = shapeKey operation.shape := by
  cases operation with
  | line header =>
    simp only [HeaderOperation.access, HeaderOperation.shape, shapeKey, Option.map_map]
    rfl
  | insert name value => rfl
  | supply name value => rfl

theorem keys_of_accesses (operations : List HeaderOperation) :
    (accesses operations).map Access.key =
      (operations.map HeaderOperation.shape).filterMap shapeKey := by
  rw [accesses, List.map_filterMap, List.filterMap_map]
  exact List.filterMap_congr fun operation _ => key_of_access operation

theorem consistent_of_shape {hash : Bytes → UInt64} {operations operations' : List HeaderOperation}
    (hshape : operations'.map HeaderOperation.shape = operations.map HeaderOperation.shape)
    (h : Consistent ciKey hash (accesses operations)) :
    Consistent ciKey hash (accesses operations') := by
  intro a ha
  have hkey : a.key ∈ (accesses operations').map Access.key := List.mem_map_of_mem ha
  rw [keys_of_accesses, hshape, ← keys_of_accesses] at hkey
  obtain ⟨b, hb, heq⟩ := List.mem_map.mp hkey
  exact heq ▸ h b hb

theorem Unencoded.of_shape {operations operations' : List HeaderOperation}
    (hshape : operations'.map HeaderOperation.shape = operations.map HeaderOperation.shape)
    (h : Unencoded operations) : Unencoded operations' := by
  intro operation hin
  have hmem : operation.shape ∈ operations'.map HeaderOperation.shape := List.mem_map_of_mem hin
  rw [hshape] at hmem
  obtain ⟨operation', hin', heq⟩ := List.mem_map.mp hmem
  exact heq ▸ h operation' hin'

section Build

variable {hash : Bytes → UInt64} (c : Comparison ciKey hash)

/-- An operation is its access, unless it is a line that the parser asks the encoding of. -/
theorem apply_eq (headers : List (Bytes × Bytes)) {operation : HeaderOperation}
    (h : operation.shape ≠ (0, some contentEncoding)) :
    apply c headers operation = .ok (operation.access.toList.foldl (put c) headers) := by
  cases operation with
  | line header =>
    have hname : (headerLine header).map Prod.fst ≠ some contentEncoding := fun heq =>
      h (congrArg (Prod.mk 0) heq)
    cases hline : headerLine header with
    | none => simp [apply, HeaderOperation.access, hline]
    | some pair =>
      rw [hline] at hname
      simp only [apply, HeaderOperation.access, hline, Option.map_some] at hname ⊢
      rw [if_neg hname]
      rfl
  | insert name value => rfl
  | supply name value => rfl

theorem apply_encoding (headers : List (Bytes × Bytes)) {operation : HeaderOperation}
    (h : operation.shape = (0, some contentEncoding)) :
    apply c headers operation = .error .assertion := by
  cases operation with
  | line header =>
    have hname : (headerLine header).map Prod.fst = some contentEncoding := congrArg Prod.snd h
    obtain ⟨pair, hline, -⟩ := Option.map_eq_some_iff.mp hname
    simp only [apply, HeaderOperation.access, hline, Option.map_some] at hname ⊢
    rw [if_pos hname]
  | insert name value => cases h
  | supply name value => cases h

theorem build_append (operations : List HeaderOperation) (operation : HeaderOperation) :
    build c (operations ++ [operation]) = build c operations >>= (apply c · operation) := by
  rw [build, List.foldlM_append]
  simp [build]

theorem build_of_unencoded {operations : List HeaderOperation} (h : Unencoded operations) :
    build c operations = .ok (table c (accesses operations)) := by
  induction operations using List.reverseRecOn with
  | nil => rfl
  | append_singleton operations operation ih =>
    rw [build_append, ih fun o ho => h o (List.mem_append_left _ ho)]
    refine (apply_eq c _ (h operation (List.mem_append_right _ List.mem_cons_self))).trans ?_
    rw [table, table, ← List.foldl_append, accesses, accesses, List.filterMap_append]
    cases haccess : operation.access <;> simp [haccess]

theorem unencoded_of_build {operations : List HeaderOperation} {headers : List (Bytes × Bytes)}
    (h : build c operations = .ok headers) : Unencoded operations := by
  induction operations using List.reverseRecOn generalizing headers with
  | nil => simp [Unencoded]
  | append_singleton operations operation ih =>
    rw [build_append] at h
    cases hbuild : build c operations with
    | error f =>
      rw [hbuild] at h
      cases h
    | ok headers' =>
      intro o ho hshape
      rcases List.mem_append.mp ho with hold | hnew
      · exact ih hbuild o hold hshape
      · obtain rfl := List.mem_singleton.mp hnew
        rw [hbuild] at h
        have hfails := apply_encoding c headers' hshape
        cases hfails.symm.trans h

end Build

section Values

def word (n : ℕ) : Bytes := List.replicate (n + 1) 0x61

theorem word_injective : Function.Injective word := fun m n h => by
  have hlength := congrArg List.length h
  simpa [word] using hlength

def HeaderOperation.withValue (value : Bytes) : HeaderOperation → HeaderOperation
  | .line header =>
    match headerLine header with
    | some (name, _) => .line (name ++ 0x3A :: value)
    | none => .line header
  | .insert name _ => .insert name value
  | .supply name _ => .supply name value

def revalue : ℕ → List HeaderOperation → List HeaderOperation
  | _, [] => []
  | n, operation :: operations => operation.withValue (word n) :: revalue (n + 1) operations

theorem headerLine_some {header name value : Bytes} (h : headerLine header = some (name, value)) :
    name ≠ [] ∧ ∀ b ∈ name, (b != 0x3A) = true := by
  unfold headerLine at h
  cases hrest : header.dropWhile (· != 0x3A) with
  | nil => simp [hrest] at h
  | cons b rest =>
    simp only [hrest] at h
    split_ifs at h with hbad
    obtain ⟨rfl, -⟩ := Prod.mk.inj (Option.some.inj h)
    exact ⟨fun hnil => hbad (Or.inl hnil),
      fun b hb => List.mem_takeWhile_imp (p := fun b => b != 0x3A) hb⟩

theorem headerLine_word {name : Bytes} (hne : name ≠ []) (hname : ∀ b ∈ name, (b != 0x3A) = true)
    (n : ℕ) : headerLine (name ++ 0x3A :: word n) = some (name, word n) := by
  have hstops : Stops (fun b : UInt8 => b != 0x3A) (0x3A :: word n) := by simp [Stops]
  have hspace : (word n).dropWhile isSpace = word n := by
    rw [word, List.replicate_succ, List.dropWhile_cons_of_neg (by decide)]
  have hend : (word n).any isLineEnd = false := by
    simp [word, isLineEnd]
  unfold headerLine
  rw [takeWhile_run hname hstops, dropWhile_run hname hstops]
  simp [hspace, hend, hne]

theorem shape_withValue (operation : HeaderOperation) (n : ℕ) :
    (operation.withValue (word n)).shape = operation.shape := by
  cases operation with
  | line header =>
    cases hline : headerLine header with
    | none => simp [HeaderOperation.withValue, HeaderOperation.shape, hline]
    | some pair =>
      obtain ⟨name, value⟩ := pair
      obtain ⟨hne, hname⟩ := headerLine_some hline
      simp [HeaderOperation.withValue, HeaderOperation.shape, hline, headerLine_word hne hname n]
  | insert name value => rfl
  | supply name value => rfl

theorem value_withValue {operation : HeaderOperation} {n : ℕ} {a : Access Bytes Bytes}
    (h : (operation.withValue (word n)).access = some a) : a.value = word n := by
  cases operation with
  | line header =>
    cases hline : headerLine header with
    | none => simp [HeaderOperation.withValue, HeaderOperation.access, hline] at h
    | some pair =>
      obtain ⟨name, value⟩ := pair
      obtain ⟨hne, hname⟩ := headerLine_some hline
      simp only [HeaderOperation.withValue, HeaderOperation.access, hline,
        headerLine_word hne hname n, Option.map_some, Option.some.injEq] at h
      rw [← h]
  | insert name value => exact (Option.some.inj h) ▸ rfl
  | supply name value => exact (Option.some.inj h) ▸ rfl

theorem shape_revalue (n : ℕ) (operations : List HeaderOperation) :
    (revalue n operations).map HeaderOperation.shape = operations.map HeaderOperation.shape := by
  induction operations generalizing n with
  | nil => rfl
  | cons operation operations ih =>
    rw [revalue, List.map_cons, List.map_cons, shape_withValue, ih]

theorem value_revalue {n : ℕ} {operations : List HeaderOperation} {a : Access Bytes Bytes}
    (h : a ∈ accesses (revalue n operations)) : ∃ m, n ≤ m ∧ a.value = word m := by
  induction operations generalizing n with
  | nil => simp [revalue, accesses] at h
  | cons operation operations ih =>
    obtain ⟨operation', hin, haccess⟩ := List.mem_filterMap.mp h
    rw [revalue] at hin
    rcases List.mem_cons.mp hin with rfl | hrest
    · exact ⟨n, le_rfl, value_withValue haccess⟩
    · obtain ⟨m, hm, hvalue⟩ := ih (List.mem_filterMap.mpr ⟨operation', hrest, haccess⟩)
      exact ⟨m, by omega, hvalue⟩

theorem nodup_revalue (n : ℕ) (operations : List HeaderOperation) :
    ((accesses (revalue n operations)).map Access.value).Nodup := by
  induction operations generalizing n with
  | nil => exact List.nodup_nil
  | cons operation operations ih =>
    have hrest := ih (n + 1)
    cases haccess : (operation.withValue (word n)).access with
    | none =>
      rw [revalue, accesses, List.filterMap_cons_none haccess]
      exact hrest
    | some a =>
      rw [revalue, accesses, List.filterMap_cons_some haccess, List.map_cons, List.nodup_cons]
      refine ⟨fun hin => ?_, hrest⟩
      obtain ⟨b, hb, heq⟩ := List.mem_map.mp hin
      obtain ⟨m, hm, hvalue⟩ := value_revalue hb
      have hsame : word m = word n := hvalue.symm.trans (heq.trans (value_withValue haccess))
      have := word_injective hsame
      omega

end Values

theorem stores_missing {operations : List HeaderOperation} {a : Access Bytes Bytes}
    (h : a ∈ accesses operations) : a.stores none = true := by
  obtain ⟨operation, -, haccess⟩ := List.mem_filterMap.mp h
  cases operation with
  | line header =>
    obtain ⟨pair, -, rfl⟩ := Option.map_eq_some_iff.mp haccess
    rfl
  | insert name value => exact (Option.some.inj haccess) ▸ rfl
  | supply name value => exact (Option.some.inj haccess) ▸ rfl

/-- Headers are looked up without regard to case, whatever their values, exactly where all
spellings of the names have one hash and no line asks for the encoding. -/
theorem looksUp_iff_consistent (hash : Bytes → UInt64) (operations : List HeaderOperation) :
    (∀ operations', operations'.map HeaderOperation.shape = operations.map HeaderOperation.shape →
      LooksUp hash operations') ↔
    Unencoded operations ∧ Consistent ciKey hash (accesses operations) := by
  constructor
  · intro h
    have hunencoded : Unencoded operations := by
      obtain ⟨headers, hbuild, -⟩ := h operations rfl (hashFirst ciKey hash)
      exact unencoded_of_build (hashFirst ciKey hash) hbuild
    have hshape := shape_revalue 0 operations
    obtain ⟨headers, hbuild, hfind, -⟩ := h (revalue 0 operations) hshape (hashFirst ciKey hash)
    rw [build_of_unencoded (hashFirst ciKey hash) (hunencoded.of_shape hshape)] at hbuild
    obtain rfl := Except.ok.inj hbuild
    refine ⟨hunencoded, consistent_of_shape hshape.symm ?_⟩
    exact consistent_of_find (fun a ha => stores_missing ha) (nodup_revalue 0 operations) hfind
  · rintro ⟨hunencoded, hconsistent⟩ operations' hshape c
    have hfind := find_table c (consistent_of_shape hshape hconsistent)
    refine ⟨_, build_of_unencoded c (hunencoded.of_shape hshape), hfind, fun format => ?_⟩
    rw [recordFormat, hfind]
    cases contents ciKey (accesses operations') (ciKey contentEncoding) <;> rfl

def shiftMix (v : UInt64) : UInt64 := v ^^^ (v >>> 47)

def hashFactor : UInt64 := 0xC6A4A7935BD1E995

def loadBytes (bytes : Bytes) : UInt64 := bytes.foldr (fun b v => v <<< 8 ||| b.toUInt64) 0

def hashWords (hash : UInt64) : Bytes → UInt64
  | b₀ :: b₁ :: b₂ :: b₃ :: b₄ :: b₅ :: b₆ :: b₇ :: rest =>
    let word := loadBytes [b₀, b₁, b₂, b₃, b₄, b₅, b₆, b₇]
    hashWords ((hash ^^^ shiftMix (word * hashFactor) * hashFactor) * hashFactor) rest
  | [] => hash
  | rest => (hash ^^^ loadBytes rest) * hashFactor

/-- `std::hash` of libstdc++ on a machine with 64 bits, a Murmur hash. -/
def hashBytes (s : Bytes) : UInt64 :=
  shiftMix (shiftMix (hashWords (0xC70F6907 ^^^ UInt64.ofNat s.length * hashFactor) s) * hashFactor)

/-- The parser stores the header in lower case, and `record` looks for it in canonical case. The
tables of libstdc++ compare the hashes first up to GCC 11. -/
theorem contentEncoding_not_found :
    ¬ LooksUp hashBytes [.line (text "content-encoding: gzip")] := by
  intro h
  obtain ⟨headers, hbuild, hfind, -⟩ := h (hashFirst ciKey hashBytes)
  have hmissed : (build (hashFirst ciKey hashBytes) [.line (text "content-encoding: gzip")]).toOption.map
      (find (hashFirst ciKey hashBytes) · contentEncoding) = some none := by decide +kernel
  have hthere : (contents ciKey (accesses [.line (text "content-encoding: gzip")])
      (ciKey contentEncoding)).isSome = true := by decide +kernel
  have hnone : find (hashFirst ciKey hashBytes) headers contentEncoding = none := by
    simpa [hbuild, Except.toOption] using hmissed
  rw [← hfind, hnone] at hthere
  cases hthere

end ACENetwork.HTTP
