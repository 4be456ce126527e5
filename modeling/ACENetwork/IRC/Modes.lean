import ACENetwork.IRC.Tools
import ACENetwork.Library.Flags

/-!
# Mode strings

A mode string sets modes behind a plus and clears them behind a minus; the sign may change. `merge`
looks at the first sign only.
-/
namespace ACENetwork.IRC
open Library Library.Flags

def plus : UInt8 := 0x2B

def minus : UInt8 := 0x2D

section Signed

variable {μ : Type} (charToMode : UInt8 → Option μ)

/-- The modes of a string with their signs; unknown letters are left out. -/
def signed (sign : Bool) : Bytes → List (μ × Bool)
  | [] => []
  | c :: rest =>
    if c = plus then signed true rest
    else if c = minus then signed false rest
    else
      match charToMode c with
      | none => signed sign rest
      | some mode => (mode, sign) :: signed sign rest

variable [DecidableEq μ]

/-- Each mode is as its last occurrence says, or unchanged, and the changes have been counted. -/
def Applied (modes : Bytes) (current : Finset μ) (result : Finset μ × ℕ) : Prop :=
  (∀ mode, mode ∈ result.1 ↔
      (values mode (signed charToMode true modes)).getLastD (decide (mode ∈ current)) = true) ∧
    result.2 = changes current (signed charToMode true modes)

/-- Every mode behind the other sign than the first one has that value already, has not occurred
behind the first sign before, and does so later. -/
def OneSign (modes : Bytes) (current : Finset μ) : Prop :=
  Steady current (modes.head? == some plus) (signed charToMode true modes)

end Signed

section Merge

variable {μ : Type} [DecidableEq μ] {charToMode : UInt8 → Option μ}

def mergeLetter (charToMode : UInt8 → Option μ) (assign : Bool) (state : Finset μ × ℕ) (c : UInt8) :
    Finset μ × ℕ :=
  match charToMode c with
  | none => (state.1, state.2)
  | some mode =>
    (if assign then insert mode state.1 else state.1.erase mode,
      if decide (mode ∈ state.1) = assign then state.2 else state.2 + 1)

theorem mergeLetter_none {c : UInt8} (hc : charToMode c = none) (assign : Bool)
    (state : Finset μ × ℕ) : mergeLetter charToMode assign state c = state := by
  simp only [mergeLetter, hc]

theorem mergeLetter_some {c : UInt8} {mode : μ} (hc : charToMode c = some mode) (assign : Bool)
    (current : Finset μ) (count : ℕ) : mergeLetter charToMode assign (current, count) c =
      (set current (mode, assign), count + if decide (mode ∈ current) = assign then 0 else 1) := by
  simp only [mergeLetter, hc]
  refine Prod.ext rfl ?_
  show (if decide (mode ∈ current) = assign then count else count + 1) = _
  split_ifs
  · rfl
  · rfl

theorem foldl_mergeLetter (hplus : charToMode plus = none) (hminus : charToMode minus = none)
    (assign sign : Bool) (letters : Bytes) (current : Finset μ) (count : ℕ) :
    letters.foldl (mergeLetter charToMode assign) (current, count) =
      (apply current (uniform assign (signed charToMode sign letters)),
        count + changes current (uniform assign (signed charToMode sign letters))) := by
  induction letters generalizing sign current count with
  | nil => rfl
  | cons c letters ih =>
    rw [List.foldl_cons, signed]
    by_cases hc : c = plus
    · rw [if_pos hc, mergeLetter_none (by rw [hc, hplus])]
      exact ih true current count
    · rw [if_neg hc]
      by_cases hc' : c = minus
      · rw [if_pos hc', mergeLetter_none (by rw [hc', hminus])]
        exact ih false current count
      · rw [if_neg hc']
        cases hmode : charToMode c with
        | none =>
          rw [mergeLetter_none hmode]
          exact ih sign current count
        | some mode =>
          rw [mergeLetter_some hmode, ih sign, Nat.add_assoc]
          rfl

/-- What `merge` computes: all modes of the string get the first sign. -/
theorem merge_eq (hplus : charToMode plus = none) (hminus : charToMode minus = none) {c : UInt8}
    (hc : c = plus ∨ c = minus) (letters : Bytes) (current : Finset μ) :
    merge charToMode (c :: letters) current =
      .ok (apply current (uniform (c == plus) (signed charToMode true (c :: letters))),
        changes current (uniform (c == plus) (signed charToMode true (c :: letters)))) := by
  have hsigned : signed charToMode true (c :: letters) = signed charToMode (c == plus) letters := by
    rw [signed]
    rcases hc with rfl | rfl
    · rfl
    · rfl
  have hfold := foldl_mergeLetter hplus hminus (c == plus) (c == plus) letters current 0
  rw [Nat.zero_add] at hfold
  rw [hsigned, ← hfold]
  rfl

theorem applied_iff {modes : Bytes} {current : Finset μ} {result : Finset μ × ℕ} :
    Applied charToMode modes current result ↔
      result.1 = apply current (signed charToMode true modes) ∧
        result.2 = changes current (signed charToMode true modes) := by
  refine and_congr_left fun _ => ?_
  rw [Finset.ext_iff]
  simp only [mem_apply]

theorem merge_applied_iff (hplus : charToMode plus = none) (hminus : charToMode minus = none)
    {c : UInt8} (hc : c = plus ∨ c = minus) (letters : Bytes) (current : Finset μ) :
    (∃ result, merge charToMode (c :: letters) current = .ok result ∧
        Applied charToMode (c :: letters) current result) ↔
      OneSign charToMode (c :: letters) current := by
  rw [merge_eq hplus hminus hc, OneSign, ← uniform_iff_steady]
  simp [applied_iff]

end Merge

/-- Both variants apply a mode string exactly where its signs make no difference. -/
theorem merges_applied_iff {c : UInt8} (hc : c = plus ∨ c = minus) (letters : Bytes) :
    (∀ current : Finset UserMode, (∃ result, merge charToUserMode (c :: letters) current = .ok result ∧
        Applied charToUserMode (c :: letters) current result) ↔
      OneSign charToUserMode (c :: letters) current) ∧
    ∀ current : Finset ChannelMode, (∃ result,
        merge charToChannelMode (c :: letters) current = .ok result ∧
          Applied charToChannelMode (c :: letters) current result) ↔
      OneSign charToChannelMode (c :: letters) current :=
  ⟨fun current => merge_applied_iff (by decide) (by decide) hc letters current,
    fun current => merge_applied_iff (by decide) (by decide) hc letters current⟩

/-- A string with one sign. -/
theorem merges_applied_one_sign : ∃ result, merge charToUserMode (text "+iw") ∅ = .ok result ∧
    Applied charToUserMode (text "+iw") ∅ result := by
  refine ((merges_applied_iff (Or.inl rfl) (text "iw")).1 ∅).mpr (steady_of_same ?_)
  decide

/-- The minus is taken for an unknown letter: the mode behind it is set. -/
theorem not_applied : merge charToUserMode (text "+i-w") {.recvWallops} =
      .ok ({.invisible, .recvWallops}, 1) ∧
    ¬ Applied charToUserMode (text "+i-w") {.recvWallops} ({.invisible, .recvWallops}, 1) := by
  refine ⟨by decide +kernel, fun h => ?_⟩
  exact absurd h.2 (by decide +kernel)

end ACENetwork.IRC
