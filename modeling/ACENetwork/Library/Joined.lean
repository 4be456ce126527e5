import Mathlib

/-!
# Texts in parts

Parts joined by a separator. Where no part contains the separator, the text tells its
parts.
-/
namespace ACENetwork.Library

variable {α : Type*} {sep : α}

def joined (sep : α) (parts : List (List α)) : List α := [sep].intercalate parts

theorem joined_snoc (front : List (List α)) (last : List α) :
    joined sep (front ++ [last]) = front.flatMap (· ++ [sep]) ++ last := by
  induction front with
  | nil => simp [joined]
  | cons part front ih =>
    rw [List.cons_append, joined, List.intercalate_cons_of_ne_nil (by simp), ← joined, ih]
    simp

theorem joined_cons (first : List α) (back : List (List α)) :
    joined sep (first :: back) = first ++ back.flatMap (sep :: ·) := by
  induction back generalizing first with
  | nil => simp [joined]
  | cons part back ih =>
    rw [joined, List.intercalate_cons_of_ne_nil (by simp), ← joined, ih]
    simp

theorem joined_append_sep {parts : List (List α)} (h : parts ≠ []) :
    joined sep parts ++ [sep] = parts.flatMap (· ++ [sep]) := by
  rcases List.eq_nil_or_concat parts with rfl | ⟨front, last, rfl⟩
  · exact absurd rfl h
  · rw [List.concat_eq_append, joined_snoc]
    simp

theorem sep_joined {parts : List (List α)} (h : parts ≠ []) :
    sep :: joined sep parts = parts.flatMap (sep :: ·) := by
  obtain ⟨first, back, rfl⟩ := List.exists_cons_of_ne_nil h
  rw [joined_cons]
  simp

theorem joined_append (front : List (List α)) (part : List α) (back : List (List α)) :
    joined sep (front ++ part :: back) =
      front.flatMap (· ++ [sep]) ++ part ++ back.flatMap (sep :: ·) := by
  induction front with
  | nil => rw [List.nil_append, joined_cons, List.flatMap_nil, List.nil_append]
  | cons first front ih =>
    rw [List.cons_append, joined, List.intercalate_cons_of_ne_nil (by simp), ← joined, ih]
    simp

theorem mem_joined {parts : List (List α)} {a : α} (h : a ∈ joined sep parts) :
    a = sep ∨ ∃ part ∈ parts, a ∈ part := by
  cases parts with
  | nil => simp [joined] at h
  | cons first back =>
    rw [joined_cons, List.mem_append, List.mem_flatMap] at h
    rcases h with hfirst | ⟨part, hpart, ha⟩
    · exact .inr ⟨first, List.mem_cons_self, hfirst⟩
    · rcases List.mem_cons.mp ha with rfl | ha
      · exact .inl rfl
      · exact .inr ⟨part, List.mem_cons_of_mem _ hpart, ha⟩

theorem notMem_joined {parts : List (List α)} {a : α} (hsep : a ≠ sep)
    (h : ∀ part ∈ parts, a ∉ part) : a ∉ joined sep parts := by
  intro ha
  rcases mem_joined ha with rfl | ⟨part, hpart, hmem⟩
  · exact hsep rfl
  · exact h part hpart hmem

theorem joined_injective [BEq α] [LawfulBEq α] {parts parts' : List (List α)}
    (hparts : ∀ part ∈ parts, sep ∉ part) (hparts' : ∀ part ∈ parts', sep ∉ part)
    (hnil : parts ≠ []) (hnil' : parts' ≠ []) (h : joined sep parts = joined sep parts') :
    parts = parts' := by
  rw [← List.splitOn_intercalate sep hparts hnil, ← List.splitOn_intercalate sep hparts' hnil']
  exact congrArg (List.splitOn sep) h

end ACENetwork.Library
