import ACENetwork.BitTorrent.Common

/-!
# Status and reference count of a connection

What the connections of the reactor and of the proactor share. The counters come
from another library; the connections rely on the few laws of `Counter`.
-/
namespace ACENetwork.Net

inductive Status where
  | invalid
  | initializing
  | initializationFailed
  | ok
  | closed
  | peerClosed
  deriving DecidableEq, Repr

def intOfSize (n : ℕ) : ℤ := (n : ℤ).bmod (2 ^ 32)

theorem intOfSize_of_lt {n : ℕ} (h : n < 2 ^ 31) : intOfSize n = n := by
  unfold intOfSize
  exact Int.bmod_eq_of_le (by omega) (by omega)

theorem toNat_intOfSize_le (n : ℕ) : (intOfSize n).toNat ≤ n := by
  unfold intOfSize
  rw [Int.bmod_def]
  split
  · omega
  · omega

theorem intOfSize_lt (n : ℕ) : intOfSize n < 2 ^ 31 := by
  unfold intOfSize
  rw [Int.bmod_def]
  split
  · omega
  · omega

/-- A size of which its `int` has been taken away is a multiple of `2 ^ 32`. -/
theorem intOfSize_sub {n : ℕ} (h : 0 ≤ intOfSize n) :
    intOfSize (n - (intOfSize n).toNat) = 0 := by
  have hle := toNat_intOfSize_le n
  have hmod : (intOfSize n) % 2 ^ 32 = n % 2 ^ 32 := Int.bmod_emod
  have hdvd : ((n - (intOfSize n).toNat : ℕ) : ℤ) % 2 ^ 32 = 0 := by omega
  generalize n - (intOfSize n).toNat = m at hdvd ⊢
  unfold intOfSize
  rw [Int.bmod_def]
  split
  · omega
  · omega

theorem exists_around {α : Type} {l : List α} {i : ℕ} {x : α} (h : l[i]? = some x) :
    ∃ front back, l = front ++ x :: back ∧ (∀ y, l.set i y = front ++ y :: back) ∧
      l.eraseIdx i = front ++ back := by
  obtain ⟨hi, rfl⟩ := List.getElem?_eq_some_iff.mp h
  refine ⟨l.take i, l.drop (i + 1), ?_, fun y => List.set_eq_take_append_cons_drop.trans (if_pos hi),
    List.eraseIdx_eq_take_drop_succ ..⟩
  rw [List.cons_getElem_drop_succ, List.take_append_drop]

section CountP

variable {α : Type} {p : α → Bool} {l : List α} {i : ℕ} {x : α}

theorem countP_eraseIdx (h : l[i]? = some x) :
    (l.eraseIdx i).countP p + (p x).toNat = l.countP p := by
  obtain ⟨hi, rfl⟩ := List.getElem?_eq_some_iff.mp h
  rw [← (List.getElem_cons_eraseIdx_perm hi).countP_eq p, List.countP_cons, Bool.toNat]
  cases p l[i] <;> rfl

theorem countP_set (h : l[i]? = some x) (y : α) :
    (l.set i y).countP p + (p x).toNat = l.countP p + (p y).toNat := by
  obtain ⟨hi, -⟩ := List.getElem?_eq_some_iff.mp h
  rw [(List.set_perm_cons_eraseIdx hi y).countP_eq p, List.countP_cons, ← countP_eraseIdx h]
  cases p y <;> simp [Nat.add_right_comm]

end CountP

structure Counter where
  Carrier : Type
  create : ℕ → Carrier
  increase : Carrier → Carrier
  decrease : Carrier → Carrier
  count : Carrier → ℕ
  count_create : ∀ n, count (create n) = n
  count_increase : ∀ c, count (increase c) = count c + 1
  count_decrease : ∀ c, count (decrease c) = count c - 1

attribute [simp] Counter.count_create Counter.count_increase Counter.count_decrease

def Counter.plain : Counter where
  Carrier := ℕ
  create := id
  increase n := n + 1
  decrease n := n - 1
  count := id
  count_create _ := rfl
  count_increase _ := rfl
  count_decrease _ := rfl

/-- The counter of a connection, and how often it has been deleted: it deletes itself
whenever a reference is released and none is left. -/
structure References (κ : Counter) where
  counter : κ.Carrier
  destroyed : ℕ

namespace References

variable {κ : Counter}

def count (r : References κ) : ℕ := κ.count r.counter

/-- The constructor's `inherited (1, true)`. -/
def create : References κ := ⟨κ.create 1, 0⟩

def increase (r : References κ) : References κ := { r with counter := κ.increase r.counter }

def decrease (r : References κ) : References κ where
  counter := κ.decrease r.counter
  destroyed := if κ.count (κ.decrease r.counter) = 0 then r.destroyed + 1 else r.destroyed

@[simp] theorem count_create : (create : References κ).count = 1 := κ.count_create 1

@[simp] theorem destroyed_create : (create : References κ).destroyed = 0 := rfl

@[simp] theorem count_increase (r : References κ) : r.increase.count = r.count + 1 :=
  κ.count_increase r.counter

@[simp] theorem destroyed_increase (r : References κ) : r.increase.destroyed = r.destroyed := rfl

@[simp] theorem count_decrease (r : References κ) : r.decrease.count = r.count - 1 :=
  κ.count_decrease r.counter

theorem destroyed_decrease (r : References κ) :
    r.decrease.destroyed = if r.count - 1 = 0 then r.destroyed + 1 else r.destroyed := by
  rw [← count_decrease]
  rfl

/-- The count is the number of those who hold a reference, and the connection has been
deleted when there are none. -/
structure Holds (r : References κ) (holders : ℕ) : Prop where
  count : r.count = holders
  destroyed : r.destroyed = if holders = 0 then 1 else 0

variable {r : References κ} {holders : ℕ}

theorem Holds.create : (create : References κ).Holds 1 := ⟨by simp, by simp⟩

theorem Holds.pos (h : r.Holds holders) (halive : r.destroyed = 0) : 0 < holders := by
  by_contra hnone
  simp [h.destroyed, Nat.eq_zero_of_not_pos hnone] at halive

theorem Holds.alive (h : r.Holds holders) (hpos : 0 < holders) : r.destroyed = 0 := by
  rw [h.destroyed, if_neg (by omega)]

theorem Holds.increase (h : r.Holds holders) (hpos : 0 < holders) {more : ℕ}
    (hmore : more = holders + 1) : r.increase.Holds more where
  count := by rw [count_increase, h.count, hmore]
  destroyed := by rw [destroyed_increase, h.alive hpos, if_neg (by omega)]

theorem Holds.decrease (h : r.Holds holders) {fewer : ℕ} (hfewer : holders = fewer + 1) :
    r.decrease.Holds fewer where
  count := by
    rw [count_decrease, h.count]
    omega
  destroyed := by
    rw [destroyed_decrease, h.count, h.alive (by omega), hfewer, Nat.add_sub_cancel]

theorem Holds.of_eq (h : r.Holds holders) {same : ℕ} (hsame : same = holders) : r.Holds same :=
  hsame ▸ h

end References

end ACENetwork.Net
