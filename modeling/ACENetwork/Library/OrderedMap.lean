import Mathlib

/-!
# Maps with their entries in order

A map from ordered keys is the list of its entries, in strictly increasing order
of the keys. Inserting a key that is there keeps its value, and entries that are
inserted in order make up the map.
-/
namespace ACENetwork.Library

instance byteLinearOrder : LinearOrder UInt8 where
  le_refl _ := UInt8.le_refl _
  le_trans _ _ _ := UInt8.le_trans
  lt_iff_le_not_ge _ _ := by
    simp only [UInt8.lt_iff_toNat_lt, UInt8.le_iff_toNat_le]
    omega
  le_antisymm _ _ := UInt8.le_antisymm
  le_total := UInt8.le_total
  toDecidableLE := inferInstance

variable {κ ν : Type*} [LinearOrder κ]

/-- Insertion into entries in order; a key that is there keeps its value. -/
def insertEntry (key : κ) (value : ν) : List (κ × ν) → List (κ × ν)
  | [] => [(key, value)]
  | e :: entries =>
    if key < e.1 then (key, value) :: e :: entries
    else if key = e.1 then e :: entries
    else e :: insertEntry key value entries

theorem mem_insertEntry {key : κ} {value : ν} {entries : List (κ × ν)} {e : κ × ν}
    (h : e ∈ insertEntry key value entries) : e = (key, value) ∨ e ∈ entries := by
  induction entries with
  | nil => simpa [insertEntry] using h
  | cons e' entries ih =>
    rw [insertEntry] at h
    split_ifs at h with hlt heq
    · simpa using h
    · exact Or.inr h
    · rcases List.mem_cons.mp h with rfl | hrest
      · exact Or.inr List.mem_cons_self
      · exact (ih hrest).imp_right (List.mem_cons_of_mem e')

theorem sorted_insertEntry (key : κ) (value : ν) {entries : List (κ × ν)}
    (h : entries.Pairwise fun a b => a.1 < b.1) :
    (insertEntry key value entries).Pairwise fun a b => a.1 < b.1 := by
  induction entries with
  | nil => exact List.pairwise_singleton _ _
  | cons e entries ih =>
    obtain ⟨hhead, htail⟩ := List.pairwise_cons.mp h
    rw [insertEntry]
    split_ifs with hlt heq
    · refine List.pairwise_cons.mpr ⟨fun e' he' => ?_, h⟩
      rcases List.mem_cons.mp he' with rfl | hin
      · exact hlt
      · exact hlt.trans (hhead e' hin)
    · exact h
    · refine List.pairwise_cons.mpr ⟨fun e' he' => ?_, ih htail⟩
      rcases mem_insertEntry he' with rfl | hin
      · exact lt_of_le_of_ne (not_lt.mp hlt) (Ne.symm heq)
      · exact hhead e' hin

theorem insertEntry_last {key : κ} {entries : List (κ × ν)} (value : ν)
    (h : ∀ e ∈ entries, e.1 < key) : insertEntry key value entries = entries ++ [(key, value)] := by
  induction entries with
  | nil => rfl
  | cons e entries ih =>
    have hlt := h e List.mem_cons_self
    rw [insertEntry, if_neg hlt.not_gt, if_neg hlt.ne', ih fun e' he' => h e' (List.mem_cons_of_mem _ he')]
    rfl

def assignEntry (key : κ) (value : ν) : List (κ × ν) → List (κ × ν)
  | [] => [(key, value)]
  | e :: entries =>
    if key < e.1 then (key, value) :: e :: entries
    else if key = e.1 then (key, value) :: entries
    else e :: assignEntry key value entries

theorem mem_assignEntry {key : κ} {value : ν} {entries : List (κ × ν)} {e : κ × ν}
    (h : e ∈ assignEntry key value entries) : e = (key, value) ∨ e ∈ entries := by
  induction entries with
  | nil => simpa [assignEntry] using h
  | cons e' entries ih =>
    rw [assignEntry] at h
    split_ifs at h with hlt heq
    · simpa using h
    · exact (List.mem_cons.mp h).imp_right (List.mem_cons_of_mem e')
    · rcases List.mem_cons.mp h with rfl | hrest
      · exact Or.inr List.mem_cons_self
      · exact (ih hrest).imp_right (List.mem_cons_of_mem e')

theorem sorted_assignEntry (key : κ) (value : ν) {entries : List (κ × ν)}
    (h : entries.Pairwise fun a b => a.1 < b.1) :
    (assignEntry key value entries).Pairwise fun a b => a.1 < b.1 := by
  induction entries with
  | nil => exact List.pairwise_singleton _ _
  | cons e entries ih =>
    obtain ⟨hhead, htail⟩ := List.pairwise_cons.mp h
    rw [assignEntry]
    split_ifs with hlt heq
    · refine List.pairwise_cons.mpr ⟨fun e' he' => ?_, h⟩
      rcases List.mem_cons.mp he' with rfl | hin
      · exact hlt
      · exact hlt.trans (hhead e' hin)
    · exact List.pairwise_cons.mpr ⟨fun e' he' => heq ▸ hhead e' he', htail⟩
    · refine List.pairwise_cons.mpr ⟨fun e' he' => ?_, ih htail⟩
      rcases mem_assignEntry he' with rfl | hin
      · exact lt_of_le_of_ne (not_lt.mp hlt) (Ne.symm heq)
      · exact hhead e' hin

@[ext]
structure OrderedMap (κ ν : Type*) [LinearOrder κ] where
  entries : List (κ × ν)
  sorted : entries.Pairwise fun a b => a.1 < b.1
  deriving DecidableEq

namespace OrderedMap

/-- The map without entries. -/
def empty : OrderedMap κ ν := ⟨[], List.Pairwise.nil⟩

def insert (m : OrderedMap κ ν) (key : κ) (value : ν) : OrderedMap κ ν :=
  ⟨insertEntry key value m.entries, sorted_insertEntry key value m.sorted⟩

def assign (m : OrderedMap κ ν) (key : κ) (value : ν) : OrderedMap κ ν :=
  ⟨assignEntry key value m.entries, sorted_assignEntry key value m.sorted⟩

def find? (m : OrderedMap κ ν) (key : κ) : Option ν :=
  (m.entries.find? fun e => e.1 = key).map Prod.snd

theorem mem_of_find? {m : OrderedMap κ ν} {key : κ} {value : ν} (h : m.find? key = some value) :
    (key, value) ∈ m.entries := by
  obtain ⟨e, he, rfl⟩ := Option.map_eq_some_iff.mp h
  have hkey := List.find?_some he
  obtain rfl : e.1 = key := by simpa using hkey
  exact List.mem_of_find?_eq_some he

theorem find?_of_mem {m : OrderedMap κ ν} {key : κ} {value : ν} (h : (key, value) ∈ m.entries) :
    m.find? key = some value := by
  have hnodup : (m.entries.map Prod.fst).Nodup :=
    (List.pairwise_map.mpr m.sorted).imp fun hlt => hlt.ne
  cases hfound : m.entries.find? fun e => e.1 = key with
  | none => simpa using List.find?_eq_none.mp hfound _ h
  | some e =>
    have hkey : e.1 = key := by simpa using List.find?_some hfound
    have hsame : e = (key, value) :=
      List.inj_on_of_nodup_map hnodup (List.mem_of_find?_eq_some hfound) h hkey
    rw [find?, hfound, hsame]
    rfl

@[simp] theorem find?_empty (key : κ) : (empty : OrderedMap κ ν).find? key = none := rfl

theorem isSome_find?_insert (m : OrderedMap κ ν) (key key' : κ) (value : ν) :
    ((m.insert key value).find? key').isSome = (key' = key ∨ (m.find? key').isSome) := by
  obtain ⟨entries, hsorted⟩ := m
  simp only [find?, insert, Option.isSome_map, List.find?_isSome, decide_eq_true_eq, eq_iff_iff]
  clear hsorted
  induction entries with
  | nil => simp [insertEntry, eq_comm]
  | cons e entries ih =>
    rw [insertEntry]
    split_ifs with hlt heq
    · simp [eq_comm]
    · simp only [List.mem_cons, exists_eq_or_imp, ← heq]
      tauto
    · simp only [List.mem_cons, exists_eq_or_imp, ih]
      tauto

theorem isSome_find?_assign {m : OrderedMap κ ν} {key key' : κ} (value : ν)
    (h : (m.find? key').isSome = true) : ((m.assign key value).find? key').isSome = true := by
  obtain ⟨entries, hsorted⟩ := m
  simp only [find?, assign, Option.isSome_map, List.find?_isSome, decide_eq_true_eq] at h ⊢
  clear hsorted
  induction entries with
  | nil => simp at h
  | cons e entries ih =>
    rw [assignEntry]
    simp only [List.mem_cons, exists_eq_or_imp] at h
    split_ifs with hlt heq
    · simp only [List.mem_cons, exists_eq_or_imp]
      tauto
    · simp only [List.mem_cons, exists_eq_or_imp, heq]
      tauto
    · simp only [List.mem_cons, exists_eq_or_imp]
      exact h.imp_right ih

theorem find?_assign (m : OrderedMap κ ν) (key key' : κ) (value : ν) :
    (m.assign key value).find? key' = if key = key' then some value else m.find? key' := by
  obtain ⟨entries, hsorted⟩ := m
  simp only [find?, assign]
  clear hsorted
  induction entries with
  | nil =>
    rw [assignEntry, List.find?_cons]
    by_cases h : key = key'
    · simp [h]
    · simp [h]
  | cons e entries ih =>
    rw [assignEntry]
    by_cases hkey : key = key'
    · subst hkey
      rw [if_pos rfl] at ih ⊢
      split_ifs with hlt heq
      · simp
      · simp
      · have hne : e.1 ≠ key := fun h => heq h.symm
        simpa [hne] using ih
    · rw [if_neg hkey] at ih ⊢
      split_ifs with hlt heq
      · simp [hkey]
      · have hne : e.1 ≠ key' := fun h => hkey (heq.trans h)
        simp [hkey, hne]
      · by_cases he : e.1 = key'
        · simp [he]
        · simpa [he] using ih

theorem foldl_insert (m : OrderedMap κ ν) {entries : List (κ × ν)}
    (h : (m.entries ++ entries).Pairwise fun a b => a.1 < b.1) :
    (entries.foldl (fun m e => m.insert e.1 e.2) m).entries = m.entries ++ entries := by
  induction entries generalizing m with
  | nil => simp
  | cons e entries ih =>
    have hlast : (m.insert e.1 e.2).entries = m.entries ++ [e] :=
      insertEntry_last e.2 fun e' he' => (List.pairwise_append.mp h).2.2 e' he' e List.mem_cons_self
    rw [List.foldl_cons, ih (m.insert e.1 e.2) (by simpa [hlast] using h), hlast]
    simp

theorem foldl_insert_entries (m : OrderedMap κ ν) :
    m.entries.foldl (fun m e => m.insert e.1 e.2) empty = m :=
  OrderedMap.ext (foldl_insert empty m.sorted)

end OrderedMap

end ACENetwork.Library
