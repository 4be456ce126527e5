import Mathlib

/-!
# Segments of a sequence

A segment is a run of elements placed at a position. Segments that are slices
of one sequence and do not overlap never hold more elements than the sequence
has, and when they hold as many, their concatenation is the sequence.
-/
namespace ACENetwork.Library

/-- Elements placed at a starting position. -/
structure Segment (α : Type*) where
  start : ℕ
  data : List α

namespace Segment

variable {α : Type*}

def stop (a : Segment α) : ℕ := a.start + a.data.length

def Holds (a : Segment α) (p : ℕ) : Prop := a.start ≤ p ∧ p < a.stop

instance (a : Segment α) (p : ℕ) : Decidable (a.Holds p) :=
  inferInstanceAs (Decidable (_ ∧ _))

/-- The segment lies in `s` and agrees with it. -/
structure IsSliceOf (a : Segment α) (s : List α) : Prop where
  stop_le : a.stop ≤ s.length
  isPrefix : a.data <+: s.drop a.start

instance [DecidableEq α] (a : Segment α) (s : List α) : Decidable (a.IsSliceOf s) :=
  decidable_of_iff (a.stop ≤ s.length ∧ a.data <+: s.drop a.start)
    ⟨fun h => ⟨h.1, h.2⟩, fun h => ⟨h.1, h.2⟩⟩

/-- Some segment of the list has an element for position `p`. -/
def Covers (l : List (Segment α)) (p : ℕ) : Prop := ∃ a ∈ l, a.Holds p

instance (l : List (Segment α)) : DecidablePred (Covers l) := fun p =>
  inferInstanceAs (Decidable (∃ a ∈ l, a.Holds p))

def Ordered (l : List (Segment α)) : Prop := l.Pairwise (fun a b => a.stop ≤ b.start)

def total (l : List (Segment α)) : ℕ := (l.map (fun a => a.data.length)).sum

/-- The segment cut off after `n` elements. -/
def take (n : ℕ) (a : Segment α) : Segment α := ⟨a.start, a.data.take n⟩

@[simp] theorem covers_nil (p : ℕ) : ¬ Covers ([] : List (Segment α)) p := by
  simp [Covers]

@[simp] theorem covers_cons (a : Segment α) (l : List (Segment α)) (p : ℕ) :
    Covers (a :: l) p ↔ a.Holds p ∨ Covers l p := by
  simp [Covers]

@[simp] theorem covers_append (l m : List (Segment α)) (p : ℕ) :
    Covers (l ++ m) p ↔ Covers l p ∨ Covers m p := by
  simp [Covers, or_and_right, exists_or]

theorem Covers.perm {l m : List (Segment α)} (h : l.Perm m) (p : ℕ) :
    Covers l p ↔ Covers m p := by
  simp [Covers, h.mem_iff]

@[simp] theorem total_nil : total ([] : List (Segment α)) = 0 := rfl

@[simp] theorem total_cons (a : Segment α) (l : List (Segment α)) :
    total (a :: l) = a.data.length + total l := by
  simp [total]

/-- Segments that do not overlap cover as many positions as they hold elements. -/
theorem card_covered {l : List (Segment α)} {n : ℕ} (hord : Ordered l)
    (hstop : ∀ a ∈ l, a.stop ≤ n) : ((Finset.range n).filter (Covers l)).card = total l := by
  induction l with
  | nil => simp
  | cons a l ih =>
    obtain ⟨hafter, hrest⟩ := List.pairwise_cons.mp hord
    have hhead : (Finset.range n).filter a.Holds = Finset.Ico a.start a.stop := by
      ext p
      have hn := hstop a List.mem_cons_self
      simp only [Finset.mem_filter, Finset.mem_range, Finset.mem_Ico, Holds]
      omega
    have hdisjoint : Disjoint ((Finset.range n).filter a.Holds)
        ((Finset.range n).filter (Covers l)) := by
      apply Finset.disjoint_filter.mpr
      rintro p - ⟨-, hp⟩ ⟨b, hb, hbp, -⟩
      have hab := hafter b hb
      omega
    simp only [covers_cons, Finset.filter_or]
    rw [Finset.card_union_of_disjoint hdisjoint, hhead, Nat.card_Ico,
      ih hrest fun b hb => hstop b (List.mem_cons_of_mem a hb), total_cons, stop,
      Nat.add_sub_cancel_left]

theorem IsSliceOf.take {a : Segment α} {s : List α} (h : a.IsSliceOf s) (n : ℕ) :
    (a.take n).IsSliceOf s where
  stop_le := by
    have hle : (a.data.take n).length ≤ a.data.length := List.length_take_le' n a.data
    have := h.stop_le
    simp only [stop, Segment.take] at *
    omega
  isPrefix := (List.take_prefix n a.data).trans h.isPrefix

theorem holds_take {a : Segment α} {n p : ℕ} :
    (a.take n).Holds p ↔ a.Holds p ∧ p < a.start + n := by
  simp only [Holds, stop, take, List.length_take]
  omega

theorem stop_take_le (a : Segment α) (n : ℕ) : (a.take n).stop ≤ a.start + n := by
  have hle : (a.data.take n).length ≤ n := List.length_take_le n a.data
  simp only [stop, take]
  omega

/-- A slice followed by the rest of the sequence is the sequence from its start on. -/
theorem IsSliceOf.append_drop {a : Segment α} {s : List α} (h : a.IsSliceOf s) :
    a.data ++ s.drop a.stop = s.drop a.start := by
  obtain ⟨rest, hrest⟩ := h.isPrefix
  rw [stop, ← List.drop_drop, ← hrest, List.drop_left]

theorem add_total_le {s : List α} {l : List (Segment α)} {k : ℕ} (hk : k ≤ s.length)
    (hstart : ∀ a ∈ l, k ≤ a.start) (hslice : ∀ a ∈ l, a.IsSliceOf s) (hord : Ordered l) :
    k + total l ≤ s.length := by
  induction l generalizing k with
  | nil => simpa using hk
  | cons a l ih =>
    obtain ⟨hafter, hrest⟩ := List.pairwise_cons.mp hord
    have ha := hslice a List.mem_cons_self
    have hl := ih ha.stop_le hafter (fun b hb => hslice b (List.mem_cons_of_mem a hb)) hrest
    have hka := hstart a List.mem_cons_self
    simp only [total_cons, stop] at *
    omega

/-- Slices that do not overlap and hold as many elements as the sequence has
from `k` on are that part of the sequence, cut up. -/
theorem flatMap_data_eq_drop {s : List α} {l : List (Segment α)} {k : ℕ} (hk : k ≤ s.length)
    (hstart : ∀ a ∈ l, k ≤ a.start) (hslice : ∀ a ∈ l, a.IsSliceOf s) (hord : Ordered l)
    (htotal : k + total l = s.length) : l.flatMap data = s.drop k := by
  induction l generalizing k with
  | nil =>
    have : s.length ≤ k := by simpa using htotal.ge
    simp [List.drop_eq_nil_of_le this]
  | cons a l ih =>
    obtain ⟨hafter, hrest⟩ := List.pairwise_cons.mp hord
    have ha := hslice a List.mem_cons_self
    have hl : ∀ b ∈ l, b.IsSliceOf s := fun b hb => hslice b (List.mem_cons_of_mem a hb)
    have hle := add_total_le ha.stop_le hafter hl hrest
    have hka := hstart a List.mem_cons_self
    simp only [total_cons] at htotal
    have hstop : a.stop = a.start + a.data.length := rfl
    -- a gap before `a` would leave too little room behind it
    have hstart_eq : a.start = k := by omega
    rw [List.flatMap_cons, ih ha.stop_le hafter hl hrest (by omega), ha.append_drop, hstart_eq]

theorem flatMap_data_eq {s : List α} {l : List (Segment α)}
    (hslice : ∀ a ∈ l, a.IsSliceOf s) (hord : Ordered l) (htotal : total l = s.length) :
    l.flatMap data = s := by
  simpa using flatMap_data_eq_drop s.length.zero_le (fun a _ => a.start.zero_le) hslice hord
    (by simpa using htotal)

end Segment
end ACENetwork.Library
