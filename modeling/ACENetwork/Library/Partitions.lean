import Mathlib

/-!
# Two partitions of one sequence

Parts that follow each other from a position take up intervals. Walking through two partitions at
once, one comes to the next boundary of either; what a part of one has in common with a part of
the other is what is passed between two boundaries.
-/
namespace ACENetwork.Library

def intervals : (start : ℕ) → List ℕ → List (ℕ × ℕ)
  | _, [] => []
  | start, size :: sizes => (start, start + size) :: intervals (start + size) sizes

def shared (a b : ℕ × ℕ) : ℕ := min a.2 b.2 - max a.1 b.1

/-- The parts of the one partition have less than `bound` in common with those of the other. -/
def ShareLess (bound start : ℕ) (sizes lengths : List ℕ) : Prop :=
  ∀ a ∈ intervals start sizes, ∀ b ∈ intervals start lengths, shared a b < bound

instance (bound start : ℕ) (sizes lengths : List ℕ) :
    Decidable (ShareLess bound start sizes lengths) :=
  inferInstanceAs (Decidable (∀ a ∈ intervals start sizes, ∀ b ∈ intervals start lengths, _))

/-- The length of the longest end of the list that holds zeros only. -/
def trailingZeros : List ℕ → ℕ
  | [] => 0
  | n :: ns => if (n :: ns).sum = 0 then ns.length + 1 else trailingZeros ns

theorem start_le_of_mem_intervals {start : ℕ} {sizes : List ℕ} {a : ℕ × ℕ}
    (h : a ∈ intervals start sizes) : start ≤ a.1 ∧ a.1 ≤ a.2 := by
  induction sizes generalizing start with
  | nil => cases h
  | cons size sizes ih =>
    rcases List.mem_cons.mp h with rfl | hrest
    · exact ⟨le_rfl, Nat.le_add_right _ _⟩
    · have hbound := ih hrest
      exact ⟨by omega, hbound.2⟩

section ShareLess

variable {bound start size length : ℕ} {sizes lengths : List ℕ}

theorem shareLess_cons_cons : ShareLess bound start (size :: sizes) (length :: lengths) ↔
    min size length < bound ∧
      (∀ a ∈ intervals (start + size) sizes, shared a (start, start + length) < bound) ∧
      (∀ b ∈ intervals (start + length) lengths, shared (start, start + size) b < bound) ∧
      ∀ a ∈ intervals (start + size) sizes, ∀ b ∈ intervals (start + length) lengths,
        shared a b < bound := by
  have hfirst : shared (start, start + size) (start, start + length) = min size length := by
    simp only [shared]
    omega
  simp only [ShareLess, intervals, List.forall_mem_cons, hfirst, forall_and, and_assoc]

theorem shareLess_step (hbound : 0 < bound) :
    ShareLess bound start (size :: sizes) (length :: lengths) ↔ min size length < bound ∧
      ShareLess bound (start + min size length) ((size - min size length) :: sizes)
        ((length - min size length) :: lengths) := by
  have hsize : start + min size length + (size - min size length) = start + size := by omega
  have hlength : start + min size length + (length - min size length) = start + length := by omega
  have hzero : min (size - min size length) (length - min size length) < bound := by omega
  rw [shareLess_cons_cons, shareLess_cons_cons, hsize, hlength]
  have hleft : (∀ b ∈ intervals (start + length) lengths, shared (start, start + size) b < bound) ↔
      ∀ b ∈ intervals (start + length) lengths,
        shared (start + min size length, start + size) b < bound := by
    refine forall₂_congr fun b hb => ?_
    have hle := start_le_of_mem_intervals hb
    rw [show shared (start, start + size) b = shared (start + min size length, start + size) b by
      simp only [shared]
      omega]
  have hright : (∀ a ∈ intervals (start + size) sizes, shared a (start, start + length) < bound) ↔
      ∀ a ∈ intervals (start + size) sizes,
        shared a (start + min size length, start + length) < bound := by
    refine forall₂_congr fun a ha => ?_
    have hle := start_le_of_mem_intervals ha
    rw [show shared a (start, start + length) = shared a (start + min size length, start + length) by
      simp only [shared]
      omega]
  rw [hleft, hright]
  simp only [hzero, true_and]

/-- A part of size 0 has nothing in common with another one. -/
theorem shareLess_zero_left (hbound : 0 < bound) :
    ShareLess bound start (0 :: sizes) lengths ↔ ShareLess bound start sizes lengths := by
  have hnone : ∀ b ∈ intervals start lengths, shared (start, start + 0) b < bound := by
    intro b hb
    have hle := start_le_of_mem_intervals hb
    simp only [shared]
    omega
  simp only [ShareLess, intervals, List.forall_mem_cons, Nat.add_zero] at hnone ⊢
  exact and_iff_right hnone

theorem shareLess_zero_right (hbound : 0 < bound) :
    ShareLess bound start sizes (0 :: lengths) ↔ ShareLess bound start sizes lengths := by
  have hnone : ∀ a ∈ intervals start sizes, shared a (start, start + 0) < bound := by
    intro a ha
    have hle := start_le_of_mem_intervals ha
    simp only [shared]
    omega
  simp only [ShareLess, intervals, List.forall_mem_cons, Nat.add_zero] at hnone ⊢
  exact forall₂_congr fun a ha => and_iff_right (hnone a ha)

@[simp] theorem shareLess_nil_left : ShareLess bound start [] lengths := by
  simp [ShareLess, intervals]

@[simp] theorem shareLess_nil_right : ShareLess bound start sizes [] := by
  simp [ShareLess, intervals]

end ShareLess

section TrailingZeros

variable {n : ℕ} {ns : List ℕ}

theorem trailingZeros_of_sum_eq_zero (h : ns.sum = 0) : trailingZeros ns = ns.length := by
  cases ns with
  | nil => rfl
  | cons n ns => rw [trailingZeros, if_pos h, List.length_cons]

theorem trailingZeros_cons_of_ne_zero (h : (n :: ns).sum ≠ 0) :
    trailingZeros (n :: ns) = trailingZeros ns := by
  rw [trailingZeros, if_neg h]

theorem trailingZeros_le_length : trailingZeros ns ≤ ns.length := by
  induction ns with
  | nil => exact le_rfl
  | cons n ns ih =>
    rw [trailingZeros, List.length_cons]
    split <;> omega

/-- A part that shrinks but does not vanish leaves the zeros at the end as they are. -/
theorem trailingZeros_cons_congr {m : ℕ} (h : n = 0 ↔ m = 0) :
    trailingZeros (n :: ns) = trailingZeros (m :: ns) := by
  have hsum : (n :: ns).sum = 0 ↔ (m :: ns).sum = 0 := by
    simp only [List.sum_cons, Nat.add_eq_zero_iff, h]
  rw [trailingZeros, trailingZeros]
  by_cases hzero : (n :: ns).sum = 0
  · rw [if_pos hzero, if_pos (hsum.mp hzero)]
  · rw [if_neg hzero, if_neg (mt hsum.mpr hzero)]

/-- Two lists of one sum keep the difference of their zeros behind a common first number. -/
theorem trailingZeros_cons_of_sum_eq {ms : List ℕ} (h : ms.sum = ns.sum) :
    (trailingZeros (n :: ms) = trailingZeros ms ∧ trailingZeros (n :: ns) = trailingZeros ns) ∨
      (trailingZeros (n :: ms) = trailingZeros ms + 1 ∧
        trailingZeros (n :: ns) = trailingZeros ns + 1) := by
  by_cases hzero : (n :: ns).sum = 0
  · right
    have hzero' : (n :: ms).sum = 0 := by rwa [List.sum_cons, h, ← List.sum_cons]
    have hns : ns.sum = 0 := by
      rw [List.sum_cons] at hzero
      omega
    rw [trailingZeros_of_sum_eq_zero hzero, trailingZeros_of_sum_eq_zero hzero',
      trailingZeros_of_sum_eq_zero hns, trailingZeros_of_sum_eq_zero (h.trans hns),
      List.length_cons, List.length_cons]
    exact ⟨rfl, rfl⟩
  · left
    have hzero' : (n :: ms).sum ≠ 0 := by rwa [List.sum_cons, h, ← List.sum_cons]
    exact ⟨trailingZeros_cons_of_ne_zero hzero', trailingZeros_cons_of_ne_zero hzero⟩

theorem trailingZeros_lt_length (h : ns.sum ≠ 0) : trailingZeros ns < ns.length := by
  induction ns with
  | nil => exact absurd rfl h
  | cons n ns ih =>
    rw [trailingZeros_cons_of_ne_zero h, List.length_cons]
    exact Nat.lt_succ_of_le trailingZeros_le_length

theorem eq_zero_of_mem_drop {k m : ℕ} (hk : ns.length ≤ k + trailingZeros ns)
    (h : m ∈ ns.drop k) : m = 0 := by
  induction ns generalizing k with
  | nil => simp at h
  | cons n ns ih =>
    by_cases hzero : (n :: ns).sum = 0
    · exact List.sum_eq_zero_iff.mp hzero m (List.mem_of_mem_drop h)
    · rw [trailingZeros_cons_of_ne_zero hzero, List.length_cons] at hk
      have hle : trailingZeros ns ≤ ns.length := trailingZeros_le_length
      cases k with
      | zero => omega
      | succ k => exact ih (k := k) (by omega) (by simpa using h)

end TrailingZeros
/-- A walk through two partitions of one total: the part that is walked first has `length` left,
and `lengths` follow it. Common parts and the lengths behind the first one stay below the bound, and
the zeros at the end of `sizes` find one of `lengths` each. -/
structure Fits (bound start length : ℕ) (lengths sizes : List ℕ) : Prop where
  total : sizes.sum = length + lengths.sum
  lengths_lt : ∀ n ∈ lengths, n < bound
  shares : ShareLess bound start sizes (length :: lengths)
  trailing : trailingZeros sizes ≤ trailingZeros (length :: lengths)

def reach (lengths sizes : List ℕ) : ℕ :=
  lengths.length - (trailingZeros lengths - trailingZeros sizes)

section Fits

variable {bound start length next size : ℕ} {lengths sizes : List ℕ}

theorem not_fits_of_le (h : bound ≤ min size length) :
    ¬ Fits bound start length lengths (size :: sizes) := by
  intro hfits
  have hlt := (shareLess_cons_cons.1 hfits.shares).1
  omega

theorem fits_short (hbound : 0 < bound) (hlt : size < length) :
    Fits bound start length lengths (size :: sizes) ↔
      size < bound ∧ Fits bound (start + size) (length - size) lengths sizes := by
  have hshares : ShareLess bound start (size :: sizes) (length :: lengths) ↔
      size < bound ∧ ShareLess bound (start + size) sizes ((length - size) :: lengths) := by
    rw [shareLess_step hbound, Nat.min_eq_left hlt.le, Nat.sub_self, shareLess_zero_left hbound]
  have hlength : trailingZeros (length :: lengths) = trailingZeros ((length - size) :: lengths) :=
    trailingZeros_cons_congr (by omega)
  constructor
  · rintro ⟨htotal, hlengths, hshare, htrailing⟩
    obtain ⟨hsize, hshare⟩ := hshares.mp hshare
    rw [trailingZeros_cons_of_ne_zero (by omega), hlength] at htrailing
    rw [List.sum_cons] at htotal
    exact ⟨hsize, by omega, hlengths, hshare, htrailing⟩
  · rintro ⟨hsize, htotal, hlengths, hshare, htrailing⟩
    refine ⟨?_, hlengths, hshares.mpr ⟨hsize, hshare⟩, ?_⟩
    · rw [List.sum_cons]
      omega
    · rwa [trailingZeros_cons_of_ne_zero (by rw [List.sum_cons]; omega), hlength]

theorem reach_short (hlt : size < length)
    (hfits : Fits bound start length lengths (size :: sizes)) :
    ∃ k, reach (length :: lengths) (size :: sizes) = k + 1 ∧
      reach ((length - size) :: lengths) sizes = k + 1 := by
  have hlength : trailingZeros ((length - size) :: lengths) = trailingZeros (length :: lengths) :=
    trailingZeros_cons_congr (by omega)
  have hsize : trailingZeros (size :: sizes) = trailingZeros sizes :=
    trailingZeros_cons_of_ne_zero (by rw [hfits.total]; omega)
  have hsum : (length :: lengths).sum ≠ 0 := by
    rw [List.sum_cons]
    omega
  have hbehind := trailingZeros_lt_length hsum
  rw [List.length_cons] at hbehind
  refine ⟨reach (length :: lengths) (size :: sizes) - 1, ?_, ?_⟩ <;>
    · simp only [reach, List.length_cons, hlength, hsize]
      omega

theorem fits_equal (hbound : 0 < bound) :
    Fits bound start size (next :: lengths) (size :: sizes) ↔
      size < bound ∧ next < bound ∧ Fits bound (start + size) next lengths sizes := by
  have hshares : ShareLess bound start (size :: sizes) (size :: next :: lengths) ↔
      size < bound ∧ ShareLess bound (start + size) sizes (next :: lengths) := by
    rw [shareLess_step hbound, Nat.min_self, Nat.sub_self, shareLess_zero_left hbound,
      shareLess_zero_right hbound]
  constructor
  · rintro ⟨htotal, hlengths, hshare, htrailing⟩
    obtain ⟨hsize, hshare⟩ := hshares.mp hshare
    obtain ⟨hnext, hlengths⟩ := List.forall_mem_cons.mp hlengths
    rw [List.sum_cons] at htotal
    have hsum : sizes.sum = (next :: lengths).sum := by omega
    have hzeros := trailingZeros_cons_of_sum_eq (n := size) hsum
    exact ⟨hsize, hnext, by rwa [List.sum_cons] at hsum, hlengths, hshare, by omega⟩
  · rintro ⟨hsize, hnext, htotal, hlengths, hshare, htrailing⟩
    have hzeros := trailingZeros_cons_of_sum_eq (n := size)
      (show sizes.sum = (next :: lengths).sum by rw [htotal, List.sum_cons])
    refine ⟨?_, List.forall_mem_cons.mpr ⟨hnext, hlengths⟩, hshares.mpr ⟨hsize, hshare⟩, by omega⟩
    rw [List.sum_cons, List.sum_cons, htotal]

theorem reach_equal (hfits : Fits bound start size (next :: lengths) (size :: sizes)) :
    reach (size :: next :: lengths) (size :: sizes) = reach (next :: lengths) sizes + 1 := by
  have htotal := hfits.total
  rw [List.sum_cons] at htotal
  have hzeros := trailingZeros_cons_of_sum_eq (n := size)
    (show sizes.sum = (next :: lengths).sum by omega)
  have hle : trailingZeros (next :: lengths) ≤ (next :: lengths).length := trailingZeros_le_length
  rw [List.length_cons] at hle
  simp only [reach, List.length_cons]
  omega

theorem fits_last (hbound : 0 < bound) :
    Fits bound start size [] (size :: sizes) ↔ size < bound ∧ sizes = [] := by
  have hshares : ShareLess bound start (size :: sizes) [size] ↔ size < bound := by
    rw [shareLess_step hbound, Nat.min_self, Nat.sub_self, shareLess_zero_left hbound,
      shareLess_zero_right hbound]
    simp
  constructor
  · rintro ⟨htotal, -, hshare, htrailing⟩
    refine ⟨hshares.mp hshare, ?_⟩
    rw [List.sum_cons, List.sum_nil] at htotal
    have hsum : sizes.sum = 0 := by omega
    have hzeros := trailingZeros_cons_of_sum_eq (n := size)
      (show sizes.sum = ([] : List ℕ).sum by rw [hsum, List.sum_nil])
    rw [trailingZeros_of_sum_eq_zero hsum] at hzeros
    exact List.length_eq_zero_iff.mp (by simp only [trailingZeros] at hzeros htrailing; omega)
  · rintro ⟨hsize, rfl⟩
    exact ⟨by simp, by simp, hshares.mpr hsize, le_rfl⟩

theorem fits_long (hbound : 0 < bound) (hlt : length < size) :
    Fits bound start length (next :: lengths) (size :: sizes) ↔ length < bound ∧ next < bound ∧
      Fits bound (start + length) next lengths ((size - length) :: sizes) := by
  have hshares : ShareLess bound start (size :: sizes) (length :: next :: lengths) ↔
      length < bound ∧
        ShareLess bound (start + length) ((size - length) :: sizes) (next :: lengths) := by
    rw [shareLess_step hbound, Nat.min_eq_right hlt.le, Nat.sub_self, shareLess_zero_right hbound]
  have hsize : trailingZeros (size :: sizes) = trailingZeros ((size - length) :: sizes) :=
    trailingZeros_cons_congr (by omega)
  constructor
  · rintro ⟨htotal, hlengths, hshare, htrailing⟩
    obtain ⟨hlength, hshare⟩ := hshares.mp hshare
    obtain ⟨hnext, hlengths⟩ := List.forall_mem_cons.mp hlengths
    rw [List.sum_cons] at htotal
    rw [trailingZeros_cons_of_ne_zero (n := length) (by rw [List.sum_cons]; omega), hsize]
      at htrailing
    rw [List.sum_cons] at htotal
    exact ⟨hlength, hnext, by rw [List.sum_cons]; omega, hlengths, hshare, htrailing⟩
  · rintro ⟨hlength, hnext, htotal, hlengths, hshare, htrailing⟩
    rw [List.sum_cons] at htotal
    refine ⟨?_, List.forall_mem_cons.mpr ⟨hnext, hlengths⟩, hshares.mpr ⟨hlength, hshare⟩, ?_⟩
    · rw [List.sum_cons, List.sum_cons]
      omega
    · rwa [trailingZeros_cons_of_ne_zero (n := length) (by simp only [List.sum_cons]; omega), hsize]

theorem reach_long (hlt : length < size)
    (hfits : Fits bound start length (next :: lengths) (size :: sizes)) :
    reach (length :: next :: lengths) (size :: sizes) =
      reach (next :: lengths) ((size - length) :: sizes) + 1 := by
  have htotal := hfits.total
  rw [List.sum_cons] at htotal
  have hsize : trailingZeros ((size - length) :: sizes) = trailingZeros (size :: sizes) :=
    trailingZeros_cons_congr (by omega)
  have hlength : trailingZeros (length :: next :: lengths) = trailingZeros (next :: lengths) :=
    trailingZeros_cons_of_ne_zero (by rw [List.sum_cons]; omega)
  have hle : trailingZeros (next :: lengths) ≤ (next :: lengths).length := trailingZeros_le_length
  rw [List.length_cons] at hle
  simp only [reach, List.length_cons, hsize, hlength]
  omega

end Fits
end ACENetwork.Library
