import Mathlib

/-!
# Unstable sorting by a strict weak order

A sort as a C++ standard library specifies it: some permutation of the input in
which no element is less than an earlier one. Elements that the comparison does
not separate may come out in any order, so results are stated for every such
sort; insertion sort is the one that evaluates.
-/
namespace ACENetwork.Library

variable {α : Type*}

/-- A sorting procedure for the comparison `less`, with its contract. -/
structure Sorter (less : α → α → Bool) where
  run : List α → List α
  perm : ∀ l, (run l).Perm l
  ordered : ∀ l, (run l).Pairwise (fun a b => less b a = false)

namespace Sorter

variable {less : α → α → Bool}

theorem mem_run (s : Sorter less) {l : List α} {a : α} : a ∈ s.run l ↔ a ∈ l :=
  (s.perm l).mem_iff

@[simp] theorem run_nil (s : Sorter less) : s.run [] = [] :=
  List.perm_nil.mp (s.perm [])

/-- Insertion sort meets the contract of every strict weak order. -/
def insertion (less : α → α → Bool)
    (htotal : ∀ a b, less b a = false ∨ less a b = false)
    (htrans : ∀ a b c, less b a = false → less c b = false → less c a = false) :
    Sorter less where
  run l := l.insertionSort (fun a b => less b a = false)
  perm l := List.perm_insertionSort _ l
  ordered l := by
    have : Std.Total (fun a b : α => less b a = false) := ⟨htotal⟩
    have : IsTrans α (fun a b : α => less b a = false) := ⟨htrans⟩
    exact List.pairwise_insertionSort _ l

end Sorter
end ACENetwork.Library
