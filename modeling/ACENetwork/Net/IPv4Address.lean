import ACENetwork.Library.Backtracking
import ACENetwork.Library.Joined
import ACENetwork.Library.Text

/-!
# Texts of IPv4 addresses

`Net_Common_Tools::matchIPv4Address`: an expression with four groups of up to three
digits, and a loop that checks the number of each group. An empty group leaves the
number of the group before it, so it passes the check.
-/
namespace ACENetwork.Net.Addresses
open Library

/-- `[[:digit:]]{0,3}` -/
def shortDigits : Pattern UInt8 := .chars isDigit 0 (some 3)

/-- `(\.[[:digit:]]{0,3})?` -/
def dotGroup (n : ℕ) : Pattern UInt8 := .opt (.group n (.seq (.word (text ".")) shortDigits))

def ipv4Pattern : Pattern UInt8 :=
  .seq (.group 1 shortDigits) (.seq (dotGroup 2) (.seq (dotGroup 3) (dotGroup 4)))

/-- `converter >> group`, which reads nothing from an empty text. -/
def readGroup (group : ℕ) (digits : Bytes) : ℕ := if digits = [] then group else decimalValue digits

/-- The text of a group without its dot. -/
def groupDigits (i : ℕ) (groupText : Bytes) : Bytes :=
  if 1 < i then groupText.drop 1 else groupText

def checkGroups (groups : Groups UInt8) : List ℕ → ℕ → Bool
  | [], _ => true
  | i :: places, group =>
    match groups i with
    | none => false
    | some groupText =>
      let digits := groupDigits i groupText
      let value := readGroup group digits
      if 255 < value then false
      else if digits.head? = some '0'.toUInt8 ∧ 1 < digits.length then false
      else checkGroups groups places value

def matchIPv4Address (s : Bytes) : Bool :=
  match ipv4Pattern.fullMatch s with
  | none => false
  | some groups => checkGroups groups [1, 2, 3, 4] 0

/-- A decimal octet, without leading zeros. -/
def IsOctet (digits : Bytes) : Prop := ∃ n ≤ 255, digits = decimal n

def IsIPv4 (s : Bytes) : Prop :=
  ∃ octets : List Bytes, octets.length = 4 ∧ (∀ t ∈ octets, IsOctet t) ∧ s = joined '.'.toUInt8 octets

/-- Octets joined by dots, with an empty text in the place of at least one. -/
def Gap (s : Bytes) : Prop :=
  ∃ octets : List Bytes, octets.length = 4 ∧ (∀ t ∈ octets, t = [] ∨ IsOctet t) ∧ [] ∈ octets ∧
    s = joined '.'.toUInt8 octets

section Octets

variable {t : Bytes}

/-- A text of digits without leading zeros is the numeral of its value. -/
theorem decimal_decimalValue (hdigits : ∀ b ∈ t, isDigit b = true) (hnil : t ≠ [])
    (hzero : t.head? = some '0'.toUInt8 → t.length = 1) : decimal (decimalValue t) = t := by
  obtain ⟨b, rest, rfl⟩ := List.exists_cons_of_ne_nil hnil
  by_cases hb : b = '0'.toUInt8
  · subst hb
    obtain rfl : rest = [] := by simpa using hzero rfl
    rfl
  · have hvalue : digitValue b ≠ 0 := by
      have hb' := hdigits b List.mem_cons_self
      clear hzero hdigits hnil
      revert b
      decide +kernel
    have hlt : ∀ d ∈ (b :: rest).reverse.map digitValue, d < 10 := by
      intro d hd
      obtain ⟨b', hb', rfl⟩ := List.mem_map.mp hd
      exact digitValue_lt (hdigits b' (List.mem_reverse.mp hb'))
    have hnumber : Nat.digits 10 (decimalValue (b :: rest)) =
        (b :: rest).reverse.map digitValue := by
      refine Nat.digits_ofDigits 10 (by decide) _ hlt fun hne => ?_
      simpa [List.getLast_append] using hvalue
    have hpos : decimalValue (b :: rest) ≠ 0 := by
      intro h
      rw [h, Nat.digits_zero] at hnumber
      simp at hnumber
    have hback : ((b :: rest).map digitValue).map digit = b :: rest := by
      rw [List.map_map]
      exact (List.map_congr_left fun b' hb' => digit_digitValue (hdigits b' hb')).trans (List.map_id _)
    rw [decimal, if_neg hpos, hnumber, List.map_reverse, List.map_reverse, List.reverse_reverse, hback]

theorem octet_facts : ∀ n < 256, (decimal n).length ≤ 3 ∧ '.'.toUInt8 ∉ decimal n ∧
    ¬ ((decimal n).head? = some '0'.toUInt8 ∧ 1 < (decimal n).length) := by
  decide +kernel

theorem IsOctet.digits (h : IsOctet t) : ∀ b ∈ t, isDigit b = true := by
  obtain ⟨n, -, rfl⟩ := h
  exact fun b => isDigit_of_mem_decimal

theorem IsOctet.length_le (h : IsOctet t) : t.length ≤ 3 := by
  obtain ⟨n, hn, rfl⟩ := h
  exact (octet_facts n (by omega)).1

theorem IsOctet.ne_nil (h : IsOctet t) : t ≠ [] := by
  obtain ⟨n, -, rfl⟩ := h
  exact decimal_ne_nil n

theorem octet_iff (hdigits : ∀ b ∈ t, isDigit b = true) :
    (decimalValue t ≤ 255 ∧ ¬ (t.head? = some '0'.toUInt8 ∧ 1 < t.length)) ↔
      t = [] ∨ IsOctet t := by
  constructor
  · rintro ⟨hvalue, hzero⟩
    by_cases hnil : t = []
    · exact .inl hnil
    · refine .inr ⟨decimalValue t, hvalue, (decimal_decimalValue hdigits hnil fun hhead => ?_).symm⟩
      have hlength : ¬ 1 < t.length := fun hlong => hzero ⟨hhead, hlong⟩
      have hpos : 0 < t.length := List.length_pos_iff.mpr hnil
      omega
  · rintro (rfl | ⟨n, hn, rfl⟩)
    · simp [decimalValue]
    · rw [decimalValue_decimal]
      exact ⟨hn, (octet_facts n (by omega)).2.2⟩

end Octets

theorem checkGroups_iff {groups : Groups UInt8} {places : List ℕ} {group : ℕ} (hgroup : group ≤ 255) :
    checkGroups groups places group = true ↔ ∀ i ∈ places, ∃ t, groups i = some t ∧
      decimalValue (groupDigits i t) ≤ 255 ∧
      ¬ ((groupDigits i t).head? = some '0'.toUInt8 ∧ 1 < (groupDigits i t).length) := by
  induction places generalizing group with
  | nil => simp [checkGroups]
  | cons i places ih =>
    rw [checkGroups, List.forall_mem_cons]
    cases hi : groups i with
    | none => simp
    | some t =>
      simp only [Option.some.injEq, exists_eq_left']
      have hread : readGroup group (groupDigits i t) ≤ 255 ↔
          decimalValue (groupDigits i t) ≤ 255 := by
        unfold readGroup
        split_ifs with hnil
        · simp [hnil, decimalValue, hgroup]
        · rfl
      split_ifs with hlarge hzero
      · refine iff_of_false (by simp) fun h => ?_
        have := hread.mpr h.1.1
        omega
      · exact iff_of_false (by simp) fun h => h.1.2 hzero
      · rw [ih (by omega)]
        exact ⟨fun h => ⟨⟨hread.mp (by omega), hzero⟩, h⟩, fun h => h.2⟩

section Matcher

open Pattern

variable {s : Bytes} {n : ℕ} {g groups : Groups UInt8}
  {k : Bytes → Groups UInt8 → Option (Groups UInt8)}

theorem dot_eq : text "." = ['.'.toUInt8] := rfl

theorem stops_dot {rest : Bytes} : Stops isDigit ('.'.toUInt8 :: rest) := by
  rintro b ⟨⟩
  decide

theorem dotGroup_some (h : (dotGroup n).run k s g = some groups) :
    k s g = some groups ∨ ∃ digits rest, s = '.'.toUInt8 :: (digits ++ rest) ∧
      (∀ b ∈ digits, isDigit b = true) ∧ digits.length ≤ 3 ∧
      k rest (Function.update g n (some ('.'.toUInt8 :: digits))) = some groups := by
  rw [dotGroup, run] at h
  rcases Option.or_eq_some_iff.mp h with htaken | ⟨-, hskipped⟩
  · right
    simp only [run] at htaken
    split_ifs at htaken with hprefix
    rw [dot_eq] at hprefix htaken
    obtain ⟨behind, rfl⟩ := List.isPrefixOf_iff_prefix.mp hprefix
    obtain ⟨digits, rest, hbehind, hdigits, -, hmost, hk⟩ := run_chars_some htaken
    obtain rfl : behind = digits ++ rest := by simpa using hbehind
    refine ⟨digits, rest, rfl, hdigits, hmost 3 rfl, ?_⟩
    rw [← List.append_assoc, take_group] at hk
    exact hk
  · exact .inl hskipped

theorem dotGroup_first {digits rest : Bytes} (hdigits : ∀ b ∈ digits, isDigit b = true)
    (hrest : Stops isDigit rest) (hlength : digits.length ≤ 3)
    (hk : k rest (Function.update g n (some ('.'.toUInt8 :: digits))) = some groups) :
    (dotGroup n).run k ('.'.toUInt8 :: (digits ++ rest)) g = some groups := by
  have htaken : (group n (seq (word (text ".")) shortDigits)).run k
      ('.'.toUInt8 :: (digits ++ rest)) g = some groups := by
    have hprefix : ['.'.toUInt8].isPrefixOf ('.'.toUInt8 :: (digits ++ rest)) = true :=
      List.isPrefixOf_iff_prefix.mpr ⟨digits ++ rest, rfl⟩
    rw [run, run, run, dot_eq, if_pos hprefix]
    refine run_chars_atMost hdigits hrest (Nat.zero_le _) hlength ?_
    rw [← List.cons_append, take_group ('.'.toUInt8 :: digits) rest, hk]
  rw [dotGroup, run, htaken, Option.some_or]

theorem dotGroup_keeps {m : ℕ} (hm : m ≠ n)
    (hk : ∀ rest g', k rest g' = some groups → groups m = g' m)
    (h : (dotGroup n).run k s g = some groups) : groups m = g m := by
  rcases dotGroup_some h with hskipped | ⟨digits, rest, -, -, -, htaken⟩
  · exact hk s g hskipped
  · rw [hk rest _ htaken, Function.update_of_ne hm]

theorem atEnd_some (h : atEnd s g = some groups) : s = [] ∧ g = groups := by
  unfold atEnd at h
  split_ifs at h with hnil
  exact ⟨hnil, by simpa using h⟩

end Matcher

/-- The expression and the loop accept four texts of digits that are empty or octets. -/
theorem matchIPv4Address_iff {s : Bytes} : matchIPv4Address s = true ↔
    ∃ octets : List Bytes, octets.length = 4 ∧ (∀ t ∈ octets, t = [] ∨ IsOctet t) ∧
      s = joined '.'.toUInt8 octets := by
  constructor
  · intro h
    unfold matchIPv4Address at h
    cases hmatch : ipv4Pattern.fullMatch s with
    | none => simp [hmatch] at h
    | some groups =>
      simp only [hmatch, checkGroups_iff (Nat.zero_le 255), List.forall_mem_cons] at h
      obtain ⟨⟨t₁, h₁, hoctet₁⟩, ⟨t₂, h₂, hoctet₂⟩, ⟨t₃, h₃, hoctet₃⟩, ⟨t₄, h₄, hoctet₄⟩, -⟩ := h
      have hlast (m : ℕ) (rest : Bytes) (g : Groups UInt8)
          (h : Pattern.atEnd rest g = some groups) : groups m = g m := by
        rw [(atEnd_some h).2]
      rw [Pattern.fullMatch, ipv4Pattern, Pattern.run, Pattern.run] at hmatch
      obtain ⟨a, rest, rfl, ha, -, -, hmatch⟩ := Pattern.run_chars_some hmatch
      rw [Pattern.take_group, Pattern.run] at hmatch
      -- a group that is skipped stays unset, and the loop refuses the text
      rcases dotGroup_some hmatch with hskipped | ⟨b, rest, rfl, hb, -, hmatch⟩
      · have hunset : groups 2 = none := by
          rw [Pattern.run] at hskipped
          refine (dotGroup_keeps (by decide) ?_ hskipped).trans rfl
          exact fun _ _ => dotGroup_keeps (by decide) (hlast 2)
        rw [hunset] at h₂
        cases h₂
      rw [Pattern.run] at hmatch
      rcases dotGroup_some hmatch with hskipped | ⟨c, rest, rfl, hc, -, hmatch⟩
      · have hunset : groups 3 = none := (dotGroup_keeps (by decide) (hlast 3) hskipped).trans rfl
        rw [hunset] at h₃
        cases h₃
      rcases dotGroup_some hmatch with hskipped | ⟨d, rest, rfl, hd, -, hmatch⟩
      · have hunset : groups 4 = none := (hlast 4 _ _ hskipped).trans rfl
        rw [hunset] at h₄
        cases h₄
      obtain ⟨rfl, rfl⟩ := atEnd_some hmatch
      obtain rfl : a = t₁ := by simpa using h₁
      obtain rfl : '.'.toUInt8 :: b = t₂ := by simpa using h₂
      obtain rfl : '.'.toUInt8 :: c = t₃ := by simpa using h₃
      obtain rfl : '.'.toUInt8 :: d = t₄ := by simpa using h₄
      refine ⟨[a, b, c, d], rfl, ?_, by simp [joined]⟩
      simp only [List.forall_mem_cons]
      exact ⟨(octet_iff ha).mp hoctet₁, (octet_iff hb).mp hoctet₂, (octet_iff hc).mp hoctet₃,
        (octet_iff hd).mp hoctet₄, by simp⟩
  · rintro ⟨octets, hlength, hoctets, rfl⟩
    obtain ⟨a, b, c, d, rfl⟩ := List.length_eq_four.mp hlength
    simp only [List.forall_mem_cons] at hoctets
    obtain ⟨ha, hb, hc, hd, -⟩ := hoctets
    have hdigits {t : Bytes} (h : t = [] ∨ IsOctet t) :
        (∀ b ∈ t, isDigit b = true) ∧ t.length ≤ 3 := by
      rcases h with rfl | h
      · simp
      · exact ⟨h.digits, h.length_le⟩
    have hmatch : ipv4Pattern.fullMatch (joined '.'.toUInt8 [a, b, c, d]) =
        some (Function.update (Function.update (Function.update (Function.update (fun _ => none)
          1 (some a)) 2 (some ('.'.toUInt8 :: b))) 3 (some ('.'.toUInt8 :: c))) 4
          (some ('.'.toUInt8 :: d))) := by
      have htext : joined '.'.toUInt8 [a, b, c, d] = a ++ '.'.toUInt8 :: (b ++ '.'.toUInt8 ::
          (c ++ '.'.toUInt8 :: (d ++ []))) := by simp [joined]
      rw [htext, Pattern.fullMatch, ipv4Pattern, Pattern.run, Pattern.run]
      refine Pattern.run_chars_atMost (hdigits ha).1 stops_dot (Nat.zero_le _) (hdigits ha).2 ?_
      rw [Pattern.take_group, Pattern.run]
      refine dotGroup_first (hdigits hb).1 stops_dot (hdigits hb).2 ?_
      rw [Pattern.run]
      refine dotGroup_first (hdigits hc).1 stops_dot (hdigits hc).2 ?_
      refine dotGroup_first (hdigits hd).1 (by simp [Stops]) (hdigits hd).2 ?_
      rfl
    rw [matchIPv4Address, hmatch]
    simp only [checkGroups_iff (Nat.zero_le 255), List.forall_mem_cons]
    refine ⟨⟨a, rfl, (octet_iff (hdigits ha).1).mpr ha⟩, ⟨_, rfl, (octet_iff (hdigits hb).1).mpr hb⟩,
      ⟨_, rfl, (octet_iff (hdigits hc).1).mpr hc⟩, ⟨_, rfl, (octet_iff (hdigits hd).1).mpr hd⟩, by simp⟩

/-- The recogniser is exact but for texts in which an octet is missing. -/
theorem matchIPv4Address_exact_iff (s : Bytes) : (matchIPv4Address s = true ↔ IsIPv4 s) ↔ ¬ Gap s := by
  rw [matchIPv4Address_iff]
  constructor
  · rintro h ⟨octets, hlength, hoctets, hgap, hs⟩
    obtain ⟨octets', hlength', hoctets', hs'⟩ := h.mp ⟨octets, hlength, hoctets, hs⟩
    have hdot {t : Bytes} (h : t = [] ∨ IsOctet t) : '.'.toUInt8 ∉ t := by
      rcases h with rfl | ⟨n, hn, rfl⟩
      · simp
      · exact (octet_facts n (by omega)).2.1
    have heq : octets = octets' := joined_injective (fun t ht => hdot (hoctets t ht))
      (fun t ht => hdot (.inr (hoctets' t ht))) (by rintro rfl; cases hlength)
      (by rintro rfl; cases hlength') (hs.symm.trans hs')
    exact (hoctets' [] (heq ▸ hgap)).ne_nil rfl
  · intro hgap
    constructor
    · rintro ⟨octets, hlength, hoctets, hs⟩
      refine ⟨octets, hlength, fun t ht => ?_, hs⟩
      rcases hoctets t ht with rfl | hoctet
      · exact absurd ⟨octets, hlength, hoctets, ht, hs⟩ hgap
      · exact hoctet
    · rintro ⟨octets, hlength, hoctets, hs⟩
      exact ⟨octets, hlength, fun t ht => .inr (hoctets t ht), hs⟩

end ACENetwork.Net.Addresses
