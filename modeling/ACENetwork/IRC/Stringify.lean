import ACENetwork.IRC.Tools
import ACENetwork.Library.Joined
import ACENetwork.Net.Common

/-!
# Parameters as one text

`IRC_Tools::stringify` at every index. Its comparisons convert the size to an `int`, and
the blank behind the last parameter is erased under a condition on the index alone.
-/
namespace ACENetwork.IRC
open BitTorrent (Fault)
open Library
open Net (intOfSize)

/-- `static_cast<int> (parameters_in.size () - 1)`. -/
def lastIndex (parameters : List Bytes) : ℤ := intOfSize (parameters.length - 1)

def stringifyFrom (parameters : List Bytes) (index : ℤ) : Except Fault Bytes :=
  if parameters = [] ∨ lastIndex parameters < index then .ok []
  else if index = -1 then back parameters
  else if index < 0 then .error .endIterator
  else do
    let iterator ← advance parameters index.toNat
    let result := iterator.flatMap (· ++ text " ")
    .ok (if index < lastIndex parameters then result.dropLast else result)

def askedFor (parameters : List Bytes) (index : ℤ) : Bytes :=
  if index = -1 then parameters.getLastD [] else joined ' '.toUInt8 (parameters.drop index.toNat)

theorem lastIndex_lt {parameters : List Bytes} (h : parameters ≠ []) :
    lastIndex parameters < parameters.length := by
  have hpos := List.length_pos_iff.mpr h
  have hle := Net.toNat_intOfSize_le (parameters.length - 1)
  unfold lastIndex
  omega

theorem lastIndex_of_le {parameters : List Bytes} (h : parameters.length ≤ 2 ^ 31) :
    lastIndex parameters = (parameters.length - 1 : ℕ) :=
  Net.intOfSize_of_lt (by omega)

theorem flatMap_blank {parameters : List Bytes} (h : parameters ≠ []) :
    parameters.flatMap (· ++ text " ") = joined ' '.toUInt8 parameters ++ text " " :=
  (joined_append_sep h).symm

theorem stringifyFrom_of_le {parameters : List Bytes} {index : ℤ} (hne : parameters ≠ [])
    (hpos : 0 ≤ index) (hle : index ≤ lastIndex parameters) :
    stringifyFrom parameters index =
      .ok (askedFor parameters index ++
        (if index < lastIndex parameters then [] else text " ")) := by
  have hlt := lastIndex_lt hne
  have hdrop : parameters.drop index.toNat ≠ [] := by
    intro hnil
    rw [List.drop_eq_nil_iff] at hnil
    omega
  have hblank := flatMap_blank hdrop
  unfold stringifyFrom askedFor
  rw [if_neg (by simp only [not_or]; exact ⟨hne, by omega⟩), if_neg (by omega),
    if_neg (by omega), if_neg (by omega), advance_of_le (by omega)]
  simp only [bind, Except.bind, hblank]
  by_cases hlast : index < lastIndex parameters
  · rw [if_pos hlast, if_pos hlast, List.append_nil]
    exact congrArg Except.ok List.dropLast_concat
  · rw [if_neg hlast, if_neg hlast]

/-- Beyond the converted size nothing is shown. -/
theorem stringifyFrom_of_lt {parameters : List Bytes} {index : ℤ}
    (h : lastIndex parameters < index) : stringifyFrom parameters index = .ok [] :=
  if_pos (.inr h)

theorem stringifyFrom_last {parameters : List Bytes} (hne : parameters ≠ [])
    (h : -1 ≤ lastIndex parameters) :
    stringifyFrom parameters (-1) = .ok (askedFor parameters (-1)) := by
  unfold stringifyFrom askedFor back
  rw [if_neg (by simp only [not_or]; exact ⟨hne, by omega⟩), if_pos rfl, if_pos rfl,
    List.getLast?_eq_some_getLast hne, List.getLastD_eq_getLast?, List.getLast?_eq_some_getLast hne]
  rfl

theorem joined_ne_nil {parameters : List Bytes} (h : 2 ≤ parameters.length) :
    joined ' '.toUInt8 parameters ≠ [] := by
  match parameters, h with
  | first :: second :: rest, _ =>
    rw [joined_cons]
    simp

/-- The text is the asked one where the index is below the converted last position, or is -1
and not above it. There is nothing to show of an empty last parameter either. -/
theorem stringifyFrom_iff (parameters : List Bytes) (index : ℤ) (hlow : -1 ≤ index)
    (hhigh : index < parameters.length) (hint : index < 2 ^ 31) :
    stringifyFrom parameters index = .ok (askedFor parameters index) ↔
      (if index = -1 then -1 ≤ lastIndex parameters ∨ parameters.getLastD [] = []
        else index < lastIndex parameters) := by
  rcases eq_or_ne parameters [] with rfl | hne
  · have hindex : index = -1 := by
      rw [List.length_nil] at hhigh
      omega
    subst hindex
    exact iff_of_true rfl (.inr rfl)
  by_cases hindex : index = -1
  · subst hindex
    rw [if_pos rfl]
    by_cases hlast : -1 ≤ lastIndex parameters
    · simp [stringifyFrom_last hne hlast, hlast]
    · rw [stringifyFrom_of_lt (by omega), or_iff_right hlast]
      exact ⟨fun h => (Except.ok.inj h).symm, fun h => congrArg Except.ok h.symm⟩
  rw [if_neg hindex]
  have hpos : 0 ≤ index := by omega
  rcases lt_trichotomy index (lastIndex parameters) with hlt | heq | hgt
  · rw [stringifyFrom_of_le hne hpos hlt.le, if_pos hlt, List.append_nil]
    simp [hlt]
  · rw [stringifyFrom_of_le hne hpos heq.le, if_neg heq.not_lt]
    have hblank : text " " ≠ [] := List.cons_ne_nil _ _
    simp [hblank, heq]
  · rw [stringifyFrom_of_lt hgt]
    have hlong : 2 ^ 31 < parameters.length := by
      by_contra hshort
      have hlast := lastIndex_of_le (not_lt.mp hshort)
      omega
    have hwide : 2 ≤ (parameters.drop index.toNat).length := by
      rw [List.length_drop]
      omega
    have hshown : joined ' '.toUInt8 (parameters.drop index.toNat) ≠ [] := joined_ne_nil hwide
    unfold askedFor
    rw [if_neg hindex]
    constructor
    · intro h
      exact absurd (Except.ok.inj h).symm hshown
    · intro h
      exact absurd h hgt.not_gt

theorem stringifyFrom_shown : stringifyFrom [text "a", text "b"] 0 = .ok (text "a b") :=
  (stringifyFrom_iff [text "a", text "b"] 0 (by decide) (by decide) (by decide)).mpr
    (by decide +kernel)

/-- The last parameter alone keeps the blank behind it. -/
theorem stringifyFrom_blank :
    ¬ stringifyFrom [text "a"] 0 = .ok (askedFor [text "a"] 0) := by
  decide +kernel

end ACENetwork.IRC
