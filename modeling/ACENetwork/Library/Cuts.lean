import ACENetwork.Library.Blocks

/-!
# Cutting a text that comes in blocks

The first `n` symbols of the blocks, and what they leave behind. The block in which the cut
falls is divided; a cut at the end of a block leaves no empty block.
-/
namespace ACENetwork.Library.Blocks

variable {α : Type*}

/-- The blocks with the first `n` symbols, of which the last one is cut. -/
def upTo : ℕ → List (List α) → List (List α)
  | _, [] => []
  | n, b :: bs => if b.length < n then b :: upTo (n - b.length) bs else [b.take n]

/-- The blocks behind the first `n` symbols. -/
def behind : ℕ → List (List α) → List (List α)
  | _, [] => []
  | n, b :: bs => if b.length < n then behind (n - b.length) bs else remaining (b.drop n) bs

/-- The symbols of the blocks up to the end of the one in which the first `n` end. -/
def extent : ℕ → List (List α) → ℕ
  | _, [] => 0
  | n, b :: bs => b.length + if b.length < n then extent (n - b.length) bs else 0

section Cut

variable {n : ℕ} {b : List α} {bs : List (List α)}

@[simp] theorem upTo_nil (n : ℕ) : upTo n ([] : List (List α)) = [] := rfl

@[simp] theorem behind_nil (n : ℕ) : behind n ([] : List (List α)) = [] := rfl

theorem upTo_of_lt (h : b.length < n) : upTo n (b :: bs) = b :: upTo (n - b.length) bs := if_pos h

theorem upTo_of_le (h : n ≤ b.length) : upTo n (b :: bs) = [b.take n] := if_neg (not_lt.mpr h)

theorem behind_of_lt (h : b.length < n) : behind n (b :: bs) = behind (n - b.length) bs := if_pos h

theorem behind_of_le (h : n ≤ b.length) : behind n (b :: bs) = remaining (b.drop n) bs :=
  if_neg (not_lt.mpr h)

theorem extent_of_lt (h : b.length < n) :
    extent n (b :: bs) = b.length + extent (n - b.length) bs := by
  rw [extent, if_pos h]

theorem extent_of_le (h : n ≤ b.length) : extent n (b :: bs) = b.length := by
  rw [extent, if_neg (not_lt.mpr h), Nat.add_zero]

theorem flatten_upTo (n : ℕ) (bs : List (List α)) : (upTo n bs).flatten = bs.flatten.take n := by
  induction bs generalizing n with
  | nil => simp
  | cons b bs ih =>
    rcases Nat.lt_or_ge b.length n with h | h
    · rw [upTo_of_lt h, List.flatten_cons, List.flatten_cons, ih, List.take_append,
        List.take_of_length_le h.le]
    · rw [upTo_of_le h, List.flatten_cons, List.flatten_cons, List.take_append_of_le_length h,
        List.flatten_nil, List.append_nil]

theorem flatten_behind (n : ℕ) (bs : List (List α)) :
    (behind n bs).flatten = bs.flatten.drop n := by
  induction bs generalizing n with
  | nil => simp
  | cons b bs ih =>
    rcases Nat.lt_or_ge b.length n with h | h
    · rw [behind_of_lt h, ih, List.flatten_cons, List.drop_append, List.drop_of_length_le h.le,
        List.nil_append]
    · rw [behind_of_le h, flatten_remaining, List.flatten_cons, List.drop_append_of_le_length h]

theorem upTo_ne_nil (h : bs ≠ []) : upTo n bs ≠ [] := by
  cases bs with
  | nil => exact absurd rfl h
  | cons b bs =>
    rw [upTo]
    split <;> simp

/-- Where the cut leaves no block, it divides none. -/
theorem length_upTo (h : behind n bs = []) : (upTo n bs).length = bs.length := by
  induction bs generalizing n with
  | nil => rfl
  | cons b bs ih =>
    rcases Nat.lt_or_ge b.length n with hb | hb
    · rw [behind_of_lt hb] at h
      rw [upTo_of_lt hb, List.length_cons, List.length_cons, ih h]
    · rw [behind_of_le hb, remaining] at h
      split at h
      · rw [upTo_of_le hb, h]
        rfl
      · cases h

theorem le_extent (h : n ≤ bs.flatten.length) : n ≤ extent n bs := by
  induction bs generalizing n with
  | nil => exact h
  | cons b bs ih =>
    rw [List.flatten_cons, List.length_append] at h
    rcases Nat.lt_or_ge b.length n with hb | hb
    · have := ih (n := n - b.length) (by omega)
      rw [extent_of_lt hb]
      omega
    · rwa [extent_of_le hb]

theorem behind_append (hne : bs ≠ []) (hn : n ≤ bs.flatten.length) (cs : List (List α)) :
    behind n (bs ++ cs) = behind n bs ++ cs := by
  induction bs generalizing n with
  | nil => exact absurd rfl hne
  | cons b bs ih =>
    rw [List.flatten_cons, List.length_append] at hn
    rw [List.cons_append]
    rcases Nat.lt_or_ge b.length n with h | h
    · have hbs : bs ≠ [] := by
        rintro rfl
        simp at hn
        omega
      rw [behind_of_lt h, behind_of_lt h, ih hbs (by omega)]
    · rw [behind_of_le h, behind_of_le h, remaining, remaining]
      split <;> rfl

theorem nonempty_behind (h : ∀ b ∈ bs, b ≠ []) (n : ℕ) : ∀ b ∈ behind n bs, b ≠ [] := by
  induction bs generalizing n with
  | nil => simp
  | cons b bs ih =>
    have hbs : ∀ b ∈ bs, b ≠ [] := fun c hc => h c (List.mem_cons_of_mem b hc)
    rcases Nat.lt_or_ge b.length n with hb | hb
    · rw [behind_of_lt hb]
      exact ih hbs (n - b.length)
    · rw [behind_of_le hb]
      exact nonempty_remaining hbs

theorem behind_zero (h : ∀ b ∈ bs, b ≠ []) : behind 0 bs = bs := by
  cases bs with
  | nil => rfl
  | cons b bs =>
    rw [behind_of_le (Nat.zero_le _), List.drop_zero, remaining, if_neg (h b List.mem_cons_self)]

theorem behind_eq_nil (h : ∀ b ∈ bs, b ≠ []) : behind n bs = [] ↔ bs.flatten.length ≤ n := by
  rw [← List.drop_eq_nil_iff, ← flatten_behind]
  constructor
  · intro hnil
    rw [hnil, List.flatten_nil]
  · intro hnil
    apply List.eq_nil_iff_forall_not_mem.mpr
    exact fun b hb => nonempty_behind h n b hb (List.flatten_eq_nil_iff.mp hnil b hb)

theorem behind_concat (h : ∀ c ∈ bs ++ [b], c ≠ []) (hn : n ≤ bs.flatten.length) :
    behind n (bs ++ [b]) = behind n bs ++ [b] := by
  by_cases hbs : bs = []
  · subst hbs
    obtain rfl : n = 0 := by simpa using hn
    exact behind_zero h
  · exact behind_append hbs hn [b]

theorem behind_behind (h : ∀ b ∈ bs, b ≠ []) (m n : ℕ) :
    behind m (behind n bs) = behind (n + m) bs := by
  induction bs generalizing n with
  | nil => rfl
  | cons b bs ih =>
    have hbs : ∀ b ∈ bs, b ≠ [] := fun c hc => h c (List.mem_cons_of_mem b hc)
    rcases Nat.lt_or_ge b.length n with hb | hb
    · have hsub : n + m - b.length = n - b.length + m := by omega
      rw [behind_of_lt hb, ih hbs, behind_of_lt (Nat.lt_add_right m hb), hsub]
    · rw [behind_of_le hb, remaining]
      split_ifs with hdrop
      · have hlen : b.length = n := by
          have := List.drop_eq_nil_iff.mp hdrop
          omega
        rcases Nat.eq_zero_or_pos m with rfl | hm
        · rw [behind_zero hbs, Nat.add_zero, behind_of_le hb, hdrop, remaining_nil]
        · rw [behind_of_lt (by omega), hlen, Nat.add_sub_cancel_left]
      · have hlen : (b.drop n).length = b.length - n := List.length_drop
        rcases Nat.lt_or_ge b.length (n + m) with hm | hm
        · have hsub : m - (b.length - n) = n + m - b.length := by omega
          rw [behind_of_lt hm, behind_of_lt (by omega), hlen, hsub]
        · rw [behind_of_le hm, behind_of_le (by omega), List.drop_drop]

end Cut

/-- A block ends behind the first `k` symbols. -/
def Boundary (k : ℕ) (bs : List (List α)) : Prop := ∃ front, front <+: bs ∧ front.flatten.length = k

section Boundary

variable {k n : ℕ} {b : List α} {bs : List (List α)}

theorem boundary_zero (bs : List (List α)) : Boundary 0 bs := ⟨[], List.nil_prefix, rfl⟩

@[simp] theorem boundary_nil : Boundary k ([] : List (List α)) ↔ k = 0 := by
  constructor
  · rintro ⟨front, hfront, rfl⟩
    rw [List.prefix_nil.mp hfront]
    rfl
  · rintro rfl
    exact boundary_zero []

theorem boundary_cons :
    Boundary k (b :: bs) ↔ k = 0 ∨ b.length ≤ k ∧ Boundary (k - b.length) bs := by
  constructor
  · rintro ⟨front, hfront, hk⟩
    cases front with
    | nil => exact .inl hk.symm
    | cons c front =>
      obtain ⟨rfl, htail⟩ := List.cons_prefix_cons.mp hfront
      rw [List.flatten_cons, List.length_append] at hk
      exact .inr ⟨by omega, front, htail, by omega⟩
  · rintro (rfl | ⟨hle, front, hfront, hk⟩)
    · exact boundary_zero _
    · refine ⟨b :: front, List.cons_prefix_cons.mpr ⟨rfl, hfront⟩, ?_⟩
      rw [List.flatten_cons, List.length_append, hk]
      omega

theorem boundary_behind (hn : n ≤ bs.flatten.length) (hk : 0 < k) :
    Boundary k (behind n bs) ↔ Boundary (n + k) bs := by
  induction bs generalizing n with
  | nil =>
    obtain rfl : n = 0 := by simpa using hn
    rw [behind_nil, Nat.zero_add]
  | cons b bs ih =>
    rw [List.flatten_cons, List.length_append] at hn
    rw [boundary_cons (k := n + k), or_iff_right (by omega)]
    rcases Nat.lt_or_ge b.length n with h | h
    · have hsub : n + k - b.length = n - b.length + k := by omega
      rw [behind_of_lt h, ih (by omega), hsub, and_iff_right (by omega)]
    · rw [behind_of_le h, remaining]
      split_ifs with hdrop
      · have hlen : b.length = n := by
          have := List.drop_eq_nil_iff.mp hdrop
          omega
        rw [hlen, Nat.add_sub_cancel_left, and_iff_right (by omega)]
      · have hsub : k - (b.length - n) = n + k - b.length := by omega
        have hle : b.length - n ≤ k ↔ b.length ≤ n + k := by omega
        rw [boundary_cons, or_iff_right hk.ne', List.length_drop, hsub, hle]

end Boundary

end ACENetwork.Library.Blocks
