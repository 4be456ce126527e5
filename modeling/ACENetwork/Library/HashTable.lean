import Mathlib

/-!
# Hash tables

A hash table compares keys by an equality and by their hashes, and requires that equal keys
have equal hashes. What it does with equal keys of different hashes depends on the table:
on the number of its buckets, and on whether it compares hashes or keys first. The entries
are what the abstract contents say, for every table and all values, exactly where the
equal keys have equal hashes.
-/
namespace ACENetwork.Library.HashTable

variable {κ φ η ν : Type*} [DecidableEq φ]

/-- How a table compares a stored key with the one that it looks for. Keys are equal where they
fold alike. Only equal keys are taken, and equal keys with equal hashes always. -/
structure Comparison (fold : κ → φ) (hash : κ → η) where
  sees : List κ → κ → κ → Bool
  sound : ∀ keys stored key, sees keys stored key = true → fold stored = fold key
  complete : ∀ keys stored key, fold stored = fold key → hash stored = hash key →
    sees keys stored key = true

def hashFirst [DecidableEq η] (fold : κ → φ) (hash : κ → η) : Comparison fold hash where
  sees _ stored key := hash stored = hash key ∧ fold stored = fold key
  sound _ _ _ h := (of_decide_eq_true h).2
  complete _ _ _ hfold hhash := decide_eq_true ⟨hhash, hfold⟩

/-- A value for a key, which is stored or not, as the value that is there decides. -/
structure Access (κ ν : Type*) where
  key : κ
  value : ν
  stores : Option ν → Bool

def replace (taken : κ → Bool) (value : ν) : List (κ × ν) → List (κ × ν)
  | [] => []
  | e :: t => if taken e.1 then (e.1, value) :: t else e :: replace taken value t

section

variable {fold : κ → φ} {hash : κ → η} (c : Comparison fold hash)

def find (t : List (κ × ν)) (key : κ) : Option ν :=
  (t.find? fun e => c.sees (t.map Prod.fst) e.1 key).map Prod.snd

def put (t : List (κ × ν)) (a : Access κ ν) : List (κ × ν) :=
  if a.stores (find c t a.key) then
    if (find c t a.key).isSome then replace (fun k => c.sees (t.map Prod.fst) k a.key) a.value t
    else t ++ [(a.key, a.value)]
  else t

def table (accesses : List (Access κ ν)) : List (κ × ν) := accesses.foldl (put c) []

end

def contents (fold : κ → φ) (accesses : List (Access κ ν)) : φ → Option ν :=
  accesses.foldl (fun m a =>
    if a.stores (m (fold a.key)) then Function.update m (fold a.key) (some a.value) else m)
    fun _ => none

def Consistent (fold : κ → φ) (hash : κ → η) (accesses : List (Access κ ν)) : Prop :=
  ∀ a ∈ accesses, ∀ key, fold key = fold a.key → hash key = hash a.key

section Consistent

variable {fold : κ → φ} {hash : κ → η} (c : Comparison fold hash)

def lookup (fold : κ → φ) (t : List (κ × ν)) (folded : φ) : Option ν :=
  (t.find? fun e => fold e.1 = folded).map Prod.snd

theorem sees_eq {keys : List κ} {stored key : κ}
    (h : fold key = fold stored → hash key = hash stored) :
    c.sees keys stored key = decide (fold stored = fold key) := by
  rw [Bool.eq_iff_iff, decide_eq_true_eq]
  exact ⟨c.sound keys stored key, fun hfold => c.complete keys stored key hfold (h hfold.symm).symm⟩

theorem find_eq_lookup {t : List (κ × ν)}
    (h : ∀ e ∈ t, ∀ key, fold key = fold e.1 → hash key = hash e.1) (key : κ) :
    find c t key = lookup fold t (fold key) := by
  unfold find lookup
  congr 1
  refine List.find?_congr fun e he => ?_
  exact sees_eq c (h e he key)

theorem lookup_append (t : List (κ × ν)) (key : κ) (value : ν)
    (h : lookup fold t (fold key) = none) :
    lookup fold (t ++ [(key, value)]) = Function.update (lookup fold t) (fold key) (some value) := by
  funext folded
  rcases eq_or_ne folded (fold key) with rfl | hne
  · have hnone : t.find? (fun e => decide (fold e.1 = fold key)) = none := by
      simpa [lookup] using h
    simp [lookup, List.find?_append, hnone]
  · rw [Function.update_of_ne hne]
    simp [lookup, List.find?_append, hne.symm]

theorem lookup_replace {t : List (κ × ν)} {taken : κ → Bool} {key : κ} (value : ν)
    (h : ∀ e ∈ t, taken e.1 = decide (fold e.1 = fold key))
    (hsome : (lookup fold t (fold key)).isSome = true) :
    lookup fold (replace taken value t) =
      Function.update (lookup fold t) (fold key) (some value) := by
  induction t with
  | nil => simp [lookup] at hsome
  | cons e t ih =>
    have hhead := h e List.mem_cons_self
    have htail : ∀ e' ∈ t, taken e'.1 = decide (fold e'.1 = fold key) := fun e' he' =>
      h e' (List.mem_cons_of_mem e he')
    rw [replace, hhead]
    by_cases heq : fold e.1 = fold key
    · rw [if_pos (decide_eq_true heq)]
      funext folded
      rcases eq_or_ne folded (fold key) with rfl | hne
      · simp [lookup, heq]
      · simp [lookup, heq, hne, hne.symm]
    · rw [if_neg (by simpa using heq)]
      have hsome' : (lookup fold t (fold key)).isSome = true := by simpa [lookup, heq] using hsome
      have hrest := ih htail hsome'
      funext folded
      have hat := congrFun hrest folded
      by_cases hfold : fold e.1 = folded
      · have hne : folded ≠ fold key := fun h => heq (hfold.trans h)
        simp [lookup, hfold, hne]
      · simp only [lookup, List.find?_cons, hfold, decide_false] at hat ⊢
        rw [hat]
        simp [Function.update_apply, lookup, hfold]

/-- An entry of the new list is an old one, or an old one that was taken with the new value. -/
theorem mem_replace {t : List (κ × ν)} {taken : κ → Bool} {value : ν} {e : κ × ν}
    (h : e ∈ replace taken value t) :
    e ∈ t ∨ (∃ e' ∈ t, e'.1 = e.1) ∧ taken e.1 = true ∧ e.2 = value := by
  induction t with
  | nil => simp [replace] at h
  | cons e' t ih =>
    rw [replace] at h
    split_ifs at h with htaken
    · rcases List.mem_cons.mp h with rfl | htail
      · exact Or.inr ⟨⟨e', List.mem_cons_self, rfl⟩, htaken, rfl⟩
      · exact Or.inl (List.mem_cons_of_mem e' htail)
    · rcases List.mem_cons.mp h with rfl | htail
      · exact Or.inl List.mem_cons_self
      · rcases ih htail with hold | ⟨⟨e'', he'', heq⟩, hnew⟩
        · exact Or.inl (List.mem_cons_of_mem e' hold)
        · exact Or.inr ⟨⟨e'', List.mem_cons_of_mem e' he'', heq⟩, hnew⟩

omit [DecidableEq φ] in
/-- An access adds an entry of its own key, or replaces the value of one that is seen. -/
theorem mem_put {t : List (κ × ν)} {a : Access κ ν} {e : κ × ν} (h : e ∈ put c t a) :
    e ∈ t ∨ e.2 = a.value ∧
      (e.1 = a.key ∨ (∃ e' ∈ t, e'.1 = e.1) ∧ c.sees (t.map Prod.fst) e.1 a.key = true) := by
  unfold put at h
  split_ifs at h
  · rcases mem_replace h with hold | ⟨hkey, htaken, hvalue⟩
    · exact Or.inl hold
    · exact Or.inr ⟨hvalue, Or.inr ⟨hkey, htaken⟩⟩
  · rcases List.mem_append.mp h with hold | hnew
    · exact Or.inl hold
    · rw [List.mem_singleton.mp hnew]
      exact Or.inr ⟨rfl, Or.inl rfl⟩
  · exact Or.inl h

theorem lookup_put {t : List (κ × ν)} (a : Access κ ν)
    (h : ∀ e ∈ t, ∀ key, fold key = fold e.1 → hash key = hash e.1) :
    lookup fold (put c t a) =
      if a.stores (lookup fold t (fold a.key)) then
        Function.update (lookup fold t) (fold a.key) (some a.value)
      else lookup fold t := by
  unfold put
  rw [find_eq_lookup c h]
  split_ifs with hstores hsome
  · exact lookup_replace a.value (fun e he => sees_eq c (h e he a.key)) hsome
  · exact lookup_append t a.key a.value (Option.not_isSome_iff_eq_none.mp hsome)
  · rfl

theorem find_table {accesses : List (Access κ ν)} (h : Consistent fold hash accesses) (key : κ) :
    find c (table c accesses) key = contents fold accesses (fold key) := by
  have hboth : (∀ e ∈ table c accesses, ∀ key, fold key = fold e.1 → hash key = hash e.1) ∧
      lookup fold (table c accesses) = contents fold accesses := by
    induction accesses using List.reverseRecOn with
    | nil => exact ⟨by simp [table], rfl⟩
    | append_singleton accesses a ih =>
      obtain ⟨hkeys, hlookup⟩ := ih fun b hb => h b (List.mem_append_left _ hb)
      have htable : table c (accesses ++ [a]) = put c (table c accesses) a := by
        rw [table, List.foldl_append]
        rfl
      rw [htable]
      constructor
      · intro e he
        rcases mem_put c he with hold | ⟨-, heq | ⟨⟨e', he', heq⟩, -⟩⟩
        · exact hkeys e hold
        · exact heq ▸ h a (List.mem_append_right _ List.mem_cons_self)
        · exact heq ▸ hkeys e' he'
      · rw [lookup_put c a hkeys, hlookup, contents, contents, List.foldl_append]
        rfl
  rw [find_eq_lookup c hboth.1, hboth.2]

end Consistent

section Contents

variable {fold : κ → φ} {accesses : List (Access κ ν)}

theorem contents_some {folded : φ} {value : ν} (h : contents fold accesses folded = some value) :
    ∃ a ∈ accesses, fold a.key = folded ∧ a.value = value := by
  induction accesses using List.reverseRecOn with
  | nil => simp [contents] at h
  | append_singleton accesses a ih =>
    have hold (h' : contents fold accesses folded = some value) :
        ∃ b ∈ accesses ++ [a], fold b.key = folded ∧ b.value = value := by
      obtain ⟨b, hb, heq⟩ := ih h'
      exact ⟨b, List.mem_append_left _ hb, heq⟩
    rw [contents, List.foldl_append] at h
    change (if a.stores (contents fold accesses (fold a.key)) then
      Function.update (contents fold accesses) (fold a.key) (some a.value)
      else contents fold accesses) folded = some value at h
    split_ifs at h with hstores
    · rcases eq_or_ne folded (fold a.key) with rfl | hne
      · rw [Function.update_self] at h
        exact ⟨a, List.mem_append_right _ List.mem_cons_self, rfl, Option.some.inj h⟩
      · rw [Function.update_of_ne hne] at h
        exact hold h
    · exact hold h

/-- Where every access stores a value that is missing, every key has one. -/
theorem contents_isSome (hstores : ∀ a ∈ accesses, a.stores none = true) {a : Access κ ν}
    (ha : a ∈ accesses) : (contents fold accesses (fold a.key)).isSome = true := by
  induction accesses using List.reverseRecOn with
  | nil => simp at ha
  | append_singleton accesses b ih =>
    rw [contents, List.foldl_append]
    change ((if b.stores (contents fold accesses (fold b.key)) then
      Function.update (contents fold accesses) (fold b.key) (some b.value)
      else contents fold accesses) (fold a.key)).isSome = true
    have hold (hin : a ∈ accesses) : (contents fold accesses (fold a.key)).isSome = true :=
      ih (fun a' ha' => hstores a' (List.mem_append_left _ ha')) hin
    split_ifs with hb
    · rcases eq_or_ne (fold a.key) (fold b.key) with heq | hne
      · rw [heq, Function.update_self]
        rfl
      · rw [Function.update_of_ne hne]
        refine hold ((List.mem_append.mp ha).resolve_right fun hin => hne ?_)
        rw [List.mem_singleton.mp hin]
    · rcases List.mem_append.mp ha with hin | hin
      · exact hold hin
      · obtain rfl := List.mem_singleton.mp hin
        cases hfound : contents fold accesses (fold a.key) with
        | some value => rfl
        | none =>
          have hnone := hstores a (List.mem_append_right _ List.mem_cons_self)
          rw [hfound] at hb
          exact absurd hnone hb

end Contents

section Converse

variable [DecidableEq η] {fold : κ → φ} {hash : κ → η}

theorem hash_of_mem_table {accesses : List (Access κ ν)} {e : κ × ν}
    (h : e ∈ table (hashFirst fold hash) accesses) :
    ∃ a ∈ accesses, a.value = e.2 ∧ hash a.key = hash e.1 := by
  induction accesses using List.reverseRecOn with
  | nil => simp [table] at h
  | append_singleton accesses a ih =>
    rw [table, List.foldl_append] at h
    rcases mem_put (hashFirst fold hash) h with hold | ⟨hvalue, hkey | ⟨-, hsees⟩⟩
    · obtain ⟨b, hb, heq⟩ := ih hold
      exact ⟨b, List.mem_append_left _ hb, heq⟩
    · exact ⟨a, List.mem_append_right _ List.mem_cons_self, hvalue.symm, by rw [hkey]⟩
    · exact ⟨a, List.mem_append_right _ List.mem_cons_self, hvalue.symm,
        (of_decide_eq_true hsees).1.symm⟩

/-- Where a table that compares hashes first has the contents of accesses with different
values, the accesses are consistent. -/
theorem consistent_of_find {accesses : List (Access κ ν)}
    (hstores : ∀ a ∈ accesses, a.stores none = true) (hvalues : (accesses.map Access.value).Nodup)
    (hfind : ∀ key, find (hashFirst fold hash) (table (hashFirst fold hash) accesses) key =
      contents fold accesses (fold key)) : Consistent fold hash accesses := by
  intro a ha key hfold
  have hsome : (contents fold accesses (fold a.key)).isSome = true := contents_isSome hstores ha
  obtain ⟨value, hvalue⟩ := Option.isSome_iff_exists.mp hsome
  obtain ⟨b, hb, -, rfl⟩ := contents_some hvalue
  -- every spelling finds the value of `b`, and so has its hash
  have hspelling (g : κ) (hg : fold g = fold a.key) : hash g = hash b.key := by
    have hfound := hfind g
    rw [hg, hvalue] at hfound
    obtain ⟨e, he, hvalue'⟩ := Option.map_eq_some_iff.mp hfound
    obtain ⟨b', hb', hsame, hhash⟩ := hash_of_mem_table (List.mem_of_find?_eq_some he)
    obtain rfl : b' = b := List.inj_on_of_nodup_map hvalues hb' hb (hsame.trans hvalue')
    have hsees := List.find?_some he
    exact ((of_decide_eq_true hsees).1.symm).trans hhash.symm
  exact (hspelling key hfold).trans (hspelling a.key rfl).symm

end Converse

end ACENetwork.Library.HashTable
