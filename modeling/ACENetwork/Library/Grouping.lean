import Mathlib

/-!
# Groups of bounded size

A list taken in groups, each as long as its sizes do not exceed a limit. Where no element
exceeds the limit, the groups are within it, they make up the list, and only a single
group can have the size zero.
-/
namespace ACENetwork.Library

variable {α β : Type*} (size : α → ℕ) (limit : ℕ)

/-- The elements that still fit behind a length, and the rest. -/
def takeGroup : ℕ → List α → List α × List α
  | _, [] => ([], [])
  | length, a :: rest =>
    if length + size a ≤ limit then
      (a :: (takeGroup (length + size a) rest).1, (takeGroup (length + size a) rest).2)
    else ([], a :: rest)

theorem takeGroup_append (length : ℕ) (l : List α) :
    (takeGroup size limit length l).1 ++ (takeGroup size limit length l).2 = l := by
  induction l generalizing length with
  | nil => rfl
  | cons a rest ih =>
    rw [takeGroup]
    split_ifs
    · rw [List.cons_append, ih]
    · rfl

theorem takeGroup_length_le (length : ℕ) (l : List α) :
    (takeGroup size limit length l).2.length ≤ l.length := by
  have hlength := congrArg List.length (takeGroup_append size limit length l)
  rw [List.length_append] at hlength
  omega

theorem takeGroup_sum_le {length : ℕ} (hlength : length ≤ limit) (l : List α) :
    length + ((takeGroup size limit length l).1.map size).sum ≤ limit := by
  induction l generalizing length with
  | nil => simpa [takeGroup] using hlength
  | cons a rest ih =>
    rw [takeGroup]
    split_ifs with h
    · rw [List.map_cons, List.sum_cons, ← Nat.add_assoc]
      exact ih h
    · simpa using hlength

theorem takeGroup_behind {length : ℕ} {l : List α} {a : α} {rest : List α}
    (h : (takeGroup size limit length l).2 = a :: rest) :
    limit < length + ((takeGroup size limit length l).1.map size).sum + size a := by
  induction l generalizing length with
  | nil => cases h
  | cons b l ih =>
    rw [takeGroup] at h ⊢
    split_ifs at h ⊢ with hfits
    · have hbehind := ih h
      simp only [List.map_cons, List.sum_cons]
      omega
    · cases h
      simp only [List.map_nil, List.sum_nil]
      omega

/-- The groups of a list; the first element is always taken. -/
def groups : List α → List (List α)
  | [] => []
  | a :: rest =>
    (a :: (takeGroup size limit (size a) rest).1) ::
      groups (takeGroup size limit (size a) rest).2
  termination_by l => l.length
  decreasing_by exact Nat.lt_succ_of_le (takeGroup_length_le size limit (size a) rest)

variable {size limit}

theorem groups_cons (a : α) (rest : List α) : groups size limit (a :: rest) =
    (a :: (takeGroup size limit (size a) rest).1) ::
      groups size limit (takeGroup size limit (size a) rest).2 := by
  rw [groups]

theorem groups_flatten (l : List α) : (groups size limit l).flatten = l := by
  induction l using groups.induct size limit with
  | case1 => rw [groups, List.flatten_nil]
  | case2 a rest ih => rw [groups_cons, List.flatten_cons, ih, List.cons_append, takeGroup_append]

theorem takeGroup_map (f : β → α) (length : ℕ) (l : List β) :
    takeGroup size limit length (l.map f) =
      ((takeGroup (size ∘ f) limit length l).1.map f, (takeGroup (size ∘ f) limit length l).2.map f) := by
  induction l generalizing length with
  | nil => rfl
  | cons b rest ih =>
    simp only [List.map_cons, takeGroup, ih, Function.comp_apply]
    split_ifs <;> rfl

theorem groups_map (f : β → α) (l : List β) :
    groups size limit (l.map f) = (groups (size ∘ f) limit l).map (List.map f) := by
  induction l using groups.induct (size ∘ f) limit with
  | case1 => simp [groups]
  | case2 b rest ih =>
    rw [List.map_cons, groups_cons, groups_cons, takeGroup_map, List.map_cons, List.map_cons]
    exact congrArg _ ih

theorem groups_sum_le {l : List α} (hl : ∀ a ∈ l, size a ≤ limit) :
    ∀ g ∈ groups size limit l, (g.map size).sum ≤ limit := by
  induction l using groups.induct size limit with
  | case1 => simp [groups]
  | case2 a rest ih =>
    obtain ⟨ha, hrest⟩ := List.forall_mem_cons.mp hl
    rw [groups_cons, List.forall_mem_cons]
    refine ⟨by simpa using takeGroup_sum_le size limit ha rest, ih fun b hb => hrest b ?_⟩
    rw [← takeGroup_append size limit (size a) rest]
    exact List.mem_append_right _ hb

theorem groups_of_sum_eq_zero {l : List α} (hl : ∀ a ∈ l, size a ≤ limit) :
    ∀ g ∈ groups size limit l, (g.map size).sum = 0 → groups size limit l = [g] := by
  induction l using groups.induct size limit with
  | case1 => simp [groups]
  | case2 a rest ih =>
    obtain ⟨ha, hrest⟩ := List.forall_mem_cons.mp hl
    have hsum := takeGroup_sum_le size limit ha rest
    have hmem : ∀ b ∈ (takeGroup size limit (size a) rest).2, size b ≤ limit := fun b hb =>
      hrest b (by
        rw [← takeGroup_append size limit (size a) rest]
        exact List.mem_append_right _ hb)
    rw [groups_cons]
    cases hbehind : (takeGroup size limit (size a) rest).2 with
    | nil =>
      intro g hg _
      rw [groups, List.mem_singleton] at hg
      rw [groups, hg]
    | cons c back =>
      have hfull := takeGroup_behind size limit hbehind
      intro g hg hzero
      rw [hbehind] at ih hmem
      have hc := hmem c List.mem_cons_self
      rcases List.mem_cons.mp hg with rfl | hg
      · simp only [List.map_cons, List.sum_cons] at hzero
        omega
      · -- the first element behind is in the group, and it is not of the size zero
        have hsingle := ih hmem g hg hzero
        have hflat : (groups size limit (c :: back)).flatten = c :: back := groups_flatten _
        rw [hsingle, List.flatten_singleton] at hflat
        rw [hflat, List.map_cons, List.sum_cons] at hzero
        omega

theorem takeGroup_of_sum_le {length : ℕ} {l : List α} (h : length + (l.map size).sum ≤ limit) :
    takeGroup size limit length l = (l, []) := by
  induction l generalizing length with
  | nil => rfl
  | cons a rest ih =>
    rw [List.map_cons, List.sum_cons, ← Nat.add_assoc] at h
    rw [takeGroup, if_pos (Nat.le_of_add_right_le h), ih h]

theorem groups_of_sum_le {l : List α} (hl : l ≠ []) (h : (l.map size).sum ≤ limit) :
    groups size limit l = [l] := by
  cases l with
  | nil => exact absurd rfl hl
  | cons a rest => rw [groups_cons, takeGroup_of_sum_le h, groups]

end ACENetwork.Library
