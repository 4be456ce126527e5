import Mathlib

/-!
# Decimal numerals

The decimal text of a natural number over octets, the number that a text of digits
stands for, and the longest run of octets of a class in front of a text.
-/
namespace ACENetwork.Library

def isDigit (b : UInt8) : Bool := '0'.toUInt8 ≤ b && b ≤ '9'.toUInt8

def digit (n : ℕ) : UInt8 := '0'.toUInt8 + UInt8.ofNat n

def digitValue (b : UInt8) : ℕ := (b - '0'.toUInt8).toNat

/-- The number that a text of digits stands for; the empty text stands for zero. -/
def decimalValue (text : List UInt8) : ℕ := Nat.ofDigits 10 (text.reverse.map digitValue)

/-- The numeral of a number, without leading zeros. -/
def decimal (n : ℕ) : List UInt8 :=
  if n = 0 then ['0'.toUInt8] else ((Nat.digits 10 n).map digit).reverse

theorem isDigit_digit {n : ℕ} (h : n < 10) : isDigit (digit n) = true := by
  interval_cases n <;> rfl

theorem digitValue_digit {n : ℕ} (h : n < 10) : digitValue (digit n) = n := by
  interval_cases n <;> rfl

theorem decimal_ne_nil (n : ℕ) : decimal n ≠ [] := by
  unfold decimal
  split <;> simp_all [Nat.digits_ne_nil_iff_ne_zero]

theorem isDigit_of_mem_decimal {n : ℕ} {b : UInt8} (h : b ∈ decimal n) : isDigit b = true := by
  unfold decimal at h
  split at h
  · obtain rfl := List.mem_singleton.mp h
    rfl
  · obtain ⟨k, hk, rfl⟩ := List.mem_map.mp (List.mem_reverse.mp h)
    exact isDigit_digit (Nat.digits_lt_base (by decide) hk)

theorem decimalValue_decimal (n : ℕ) : decimalValue (decimal n) = n := by
  unfold decimal
  split
  · next h => rw [h]; rfl
  · have hmap : ((Nat.digits 10 n).map digit).map digitValue = Nat.digits 10 n := by
      rw [List.map_map]
      refine (List.map_congr_left fun k hk => ?_).trans (List.map_id _)
      exact digitValue_digit (Nat.digits_lt_base (by decide) hk)
    rw [decimalValue, List.reverse_reverse, hmap, Nat.ofDigits_digits]

theorem digitValue_lt {b : UInt8} (h : isDigit b = true) : digitValue b < 10 := by
  revert b
  decide +kernel

theorem digit_digitValue {b : UInt8} (h : isDigit b = true) : digit (digitValue b) = b := by
  revert b
  decide +kernel

/-- Numerals of one length stand for different numbers. -/
theorem decimalValue_injective {text text' : List UInt8} (htext : text.all isDigit = true)
    (htext' : text'.all isDigit = true) (hlength : text.length = text'.length)
    (h : decimalValue text = decimalValue text') : text = text' := by
  have hlt {text : List UInt8} (htext : text.all isDigit = true) :
      ∀ d ∈ text.reverse.map digitValue, d < 10 := by
    intro d hd
    obtain ⟨b, hb, rfl⟩ := List.mem_map.mp hd
    exact digitValue_lt (List.all_eq_true.mp htext b (List.mem_reverse.mp hb))
  have hback {text : List UInt8} (htext : text.all isDigit = true) :
      ((text.reverse.map digitValue).map digit).reverse = text := by
    rw [List.map_map, List.map_reverse, List.reverse_reverse]
    refine (List.map_congr_left fun b hb => ?_).trans (List.map_id text)
    exact digit_digitValue (List.all_eq_true.mp htext b hb)
  have hvalues := Nat.ofDigits_inj_of_len_eq (by decide) (by simpa using hlength) (hlt htext)
    (hlt htext') h
  rw [← hback htext, ← hback htext', hvalues]

section Run

variable {α : Type*} {p : α → Bool} {text rest : List α}

/-- A text does not go on with an element of the class. -/
def Stops (p : α → Bool) (rest : List α) : Prop := ∀ b ∈ rest.head?, p b = false

theorem takeWhile_run (htext : ∀ b ∈ text, p b = true) (hrest : Stops p rest) :
    (text ++ rest).takeWhile p = text := by
  rw [List.takeWhile_append_of_pos htext]
  cases rest with
  | nil => simp
  | cons b rest => simp [hrest b rfl]

theorem dropWhile_run (htext : ∀ b ∈ text, p b = true) (hrest : Stops p rest) :
    (text ++ rest).dropWhile p = rest := by
  rw [List.dropWhile_append_of_pos htext]
  cases rest with
  | nil => rfl
  | cons b rest => simp [hrest b rfl]

theorem takeWhile_length_le (hrest : Stops p rest) :
    ((text ++ rest).takeWhile p).length ≤ text.length := by
  induction text with
  | nil =>
    cases rest with
    | nil => exact le_rfl
    | cons b rest => simp [hrest b rfl]
  | cons b text ih =>
    rw [List.cons_append, List.takeWhile_cons]
    split
    · exact Nat.succ_le_succ ih
    · exact Nat.zero_le _

theorem exists_run (p : α → Bool) (input : List α) :
    ∃ text rest, input = text ++ rest ∧ (∀ b ∈ text, p b = true) ∧ Stops p rest := by
  refine ⟨input.takeWhile p, input.dropWhile p, (List.takeWhile_append_dropWhile).symm,
    fun b hb => List.mem_takeWhile_imp hb, fun b hb => ?_⟩
  have := List.head?_dropWhile_not p input
  simp_all

theorem run_unique {text' rest' : List α} (htext : ∀ b ∈ text, p b = true)
    (htext' : ∀ b ∈ text', p b = true) (hrest : Stops p rest) (hrest' : Stops p rest')
    (h : text ++ rest = text' ++ rest') : text = text' ∧ rest = rest' := by
  constructor
  · rw [← takeWhile_run htext hrest, h, takeWhile_run htext' hrest']
  · rw [← dropWhile_run htext hrest, h, dropWhile_run htext' hrest']

end Run
end ACENetwork.Library
