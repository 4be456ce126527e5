import Mathlib

/-!
# A cursor on a chain of blocks

A cursor stands in a block of a chain. Symbols in front of it are taken out of the blocks, or
kept; where symbols to keep end within a block, the block is cut in two. What a cursor does to a
chain is what it does to the symbols of the chain, however they have been cut.
-/
namespace ACENetwork.Library

/-- The blocks behind a cursor, and those from its own block on. -/
structure Cursor (α : Type*) where
  behind : List (List α)
  ahead : List (List α)
  deriving DecidableEq, Repr

namespace Cursor

variable {α : Type*}

def symbols (c : Cursor α) : List α := c.behind.flatten ++ c.ahead.flatten

/-- The symbols in front are taken out of the blocks; there are none behind the last block. -/
def skip (n : ℕ) (behind : List (List α)) : List (List α) → Option (Cursor α)
  | [] => none
  | block :: blocks =>
    if n ≤ block.length then some ⟨behind, block.drop n :: blocks⟩
    else skip (n - block.length) (behind ++ [[]]) blocks

def keep (n : ℕ) (behind : List (List α)) : List (List α) → Option (Cursor α)
  | [] => none
  | block :: blocks =>
    if n < block.length then some ⟨behind ++ [block.take n], block.drop n :: blocks⟩
    else if n = block.length then some ⟨behind ++ [block], blocks⟩
    else keep (n - block.length) (behind ++ [block]) blocks

/-- The next symbol, which is taken out, is `a`. -/
def expect [DecidableEq α] (a : α) (behind : List (List α)) : List (List α) → Option (Cursor α)
  | [] => none
  | [] :: blocks => expect a (behind ++ [[]]) blocks
  | (b :: block) :: blocks => if b = a then some ⟨behind, block :: blocks⟩ else none

def settle : Cursor α → Cursor α
  | ⟨behind, [] :: blocks⟩ => ⟨behind ++ [[]], blocks⟩
  | c => c

def Moves (c : Cursor α) (behind ahead : List α) : Prop :=
  c.behind.flatten = behind ∧ c.ahead.flatten = ahead

variable {n : ℕ} {behind ahead : List (List α)} {c : Cursor α}

theorem ne_nil_of_flatten (h : ahead.flatten ≠ []) : ahead ≠ [] := by
  rintro rfl
  exact h rfl

theorem skip_moves (h : skip n behind ahead = some c) :
    n ≤ ahead.flatten.length ∧ c.Moves behind.flatten (ahead.flatten.drop n) ∧ c.ahead ≠ [] := by
  induction ahead generalizing n behind with
  | nil => cases h
  | cons block blocks ih =>
    rw [skip] at h
    rw [List.flatten_cons, List.length_append]
    split_ifs at h with hle
    · obtain rfl := Option.some.inj h
      refine ⟨by omega, ⟨rfl, ?_⟩, List.cons_ne_nil _ _⟩
      rw [List.drop_append_of_le_length hle, List.flatten_cons]
    · obtain ⟨hlength, ⟨hbehind, hahead⟩, hne⟩ := ih h
      refine ⟨by omega, ⟨?_, ?_⟩, hne⟩
      · simpa using hbehind
      · rw [hahead, List.drop_append, List.drop_eq_nil_of_le (by omega : block.length ≤ n),
          List.nil_append]

variable (behind) in
theorem exists_skip (hne : ahead ≠ []) (h : n ≤ ahead.flatten.length) :
    ∃ c, skip n behind ahead = some c := by
  induction ahead generalizing n behind with
  | nil => exact absurd rfl hne
  | cons block blocks ih =>
    rw [List.flatten_cons, List.length_append] at h
    rw [skip]
    split_ifs with hle
    · exact ⟨_, rfl⟩
    · refine ih _ (ne_nil_of_flatten fun hnil => ?_) (by omega)
      rw [hnil, List.length_nil] at h
      omega

theorem keep_moves (h : keep n behind ahead = some c) : n ≤ ahead.flatten.length ∧
    c.Moves (behind.flatten ++ ahead.flatten.take n) (ahead.flatten.drop n) := by
  induction ahead generalizing n behind with
  | nil => cases h
  | cons block blocks ih =>
    rw [keep] at h
    rw [List.flatten_cons, List.length_append]
    split_ifs at h with hlt heq
    · obtain rfl := Option.some.inj h
      refine ⟨by omega, ?_, ?_⟩
      · simp [List.take_append_of_le_length hlt.le]
      · rw [List.drop_append_of_le_length hlt.le, List.flatten_cons]
    · obtain rfl := Option.some.inj h
      subst heq
      refine ⟨by omega, ?_, ?_⟩
      · simp
      · simp
    · obtain ⟨hlength, hbehind, hahead⟩ := ih h
      refine ⟨by omega, ?_, ?_⟩
      · rw [hbehind, List.take_append, List.take_of_length_le (by omega : block.length ≤ n)]
        simp
      · rw [hahead, List.drop_append, List.drop_eq_nil_of_le (by omega : block.length ≤ n),
          List.nil_append]

variable (behind) in
theorem exists_keep (hpos : 0 < n) (h : n ≤ ahead.flatten.length) :
    ∃ c, keep n behind ahead = some c := by
  induction ahead generalizing n behind with
  | nil => exact absurd h (by simpa using hpos.ne')
  | cons block blocks ih =>
    rw [List.flatten_cons, List.length_append] at h
    rw [keep]
    split_ifs with hlt heq
    · exact ⟨_, rfl⟩
    · exact ⟨_, rfl⟩
    · exact ih _ (by omega) (by omega)

theorem settle_moves (c : Cursor α) : c.settle.Moves c.behind.flatten c.ahead.flatten := by
  rcases c with ⟨behind, _ | ⟨_ | ⟨a, block⟩, blocks⟩⟩ <;> simp [settle, Moves]

section Expect

variable [DecidableEq α] {a : α} {rest : List α}

theorem expect_moves (h : expect a behind ahead = some c) :
    ∃ rest, ahead.flatten = a :: rest ∧ c.Moves behind.flatten rest ∧ c.ahead ≠ [] := by
  induction ahead generalizing behind with
  | nil => cases h
  | cons block blocks ih =>
    cases block with
    | nil =>
      obtain ⟨rest, hahead, ⟨hbehind, hrest⟩, hne⟩ := ih h
      exact ⟨rest, hahead, ⟨by simpa using hbehind, hrest⟩, hne⟩
    | cons b block =>
      rw [expect] at h
      split_ifs at h with heq
      obtain rfl := Option.some.inj h
      subst heq
      exact ⟨block ++ blocks.flatten, rfl, ⟨rfl, rfl⟩, List.cons_ne_nil _ _⟩

variable (behind) in
theorem exists_expect (h : ahead.flatten = a :: rest) : ∃ c, expect a behind ahead = some c := by
  induction ahead generalizing behind with
  | nil => cases h
  | cons block blocks ih =>
    cases block with
    | nil => exact ih _ h
    | cons b block =>
      cases h
      exact ⟨_, if_pos rfl⟩

end Expect

end Cursor

end ACENetwork.Library
