import ACENetwork.Library.Text

/-!
# Formatted output

Hexadecimal numerals, and an output stream whose width holds for one insertion: a
number that is narrower is filled up in front, and the width is zero again. Numerals
of one width stand for different numbers.
-/
namespace ACENetwork.Library

def hexDigit (n : ℕ) : UInt8 := if n < 10 then digit n else 'a'.toUInt8 + UInt8.ofNat (n - 10)

def isHexDigit (b : UInt8) : Bool := isDigit b || 'a'.toUInt8 ≤ b && b ≤ 'f'.toUInt8

def hexDigitValue (b : UInt8) : ℕ :=
  if isDigit b then digitValue b else (b - 'a'.toUInt8).toNat + 10

/-- The hexadecimal numeral of a number, without leading zeros. -/
def hexadecimal (n : ℕ) : Bytes :=
  if n = 0 then ['0'.toUInt8] else ((Nat.digits 16 n).map hexDigit).reverse

def hexadecimalValue (text : Bytes) : ℕ := Nat.ofDigits 16 (text.reverse.map hexDigitValue)

theorem isHexDigit_hexDigit {n : ℕ} (h : n < 16) : isHexDigit (hexDigit n) = true := by
  interval_cases n <;> rfl

theorem hexDigitValue_hexDigit {n : ℕ} (h : n < 16) : hexDigitValue (hexDigit n) = n := by
  interval_cases n <;> rfl

theorem isHexDigit_of_mem_hexadecimal {n : ℕ} {b : UInt8} (h : b ∈ hexadecimal n) :
    isHexDigit b = true := by
  unfold hexadecimal at h
  split at h
  · obtain rfl := List.mem_singleton.mp h
    rfl
  · obtain ⟨k, hk, rfl⟩ := List.mem_map.mp (List.mem_reverse.mp h)
    exact isHexDigit_hexDigit (Nat.digits_lt_base (by decide) hk)

theorem hexadecimal_length_le {n w : ℕ} (hw : 0 < w) : (hexadecimal n).length ≤ w ↔ n < 16 ^ w := by
  unfold hexadecimal
  split
  · next h =>
    subst h
    simp only [List.length_singleton, pow_pos (by decide : 0 < 16), iff_true]
    omega
  · rw [List.length_reverse, List.length_map, Nat.digits_length_le_iff (by decide)]

theorem decimal_length_le {n w : ℕ} (hw : 0 < w) : (decimal n).length ≤ w ↔ n < 10 ^ w := by
  rw [decimal]
  split_ifs with h
  · rw [h]
    exact iff_of_true hw (by positivity)
  · rw [List.length_reverse, List.length_map]
    exact Nat.digits_length_le_iff (by norm_num) n

theorem hexadecimal_ne_nil (n : ℕ) : hexadecimal n ≠ [] := by
  unfold hexadecimal
  split <;> simp_all [Nat.digits_ne_nil_iff_ne_zero]

theorem hexadecimalValue_hexadecimal (n : ℕ) : hexadecimalValue (hexadecimal n) = n := by
  unfold hexadecimal
  split
  · next h => rw [h]; rfl
  · have hmap : ((Nat.digits 16 n).map hexDigit).map hexDigitValue = Nat.digits 16 n := by
      rw [List.map_map]
      refine (List.map_congr_left fun k hk => ?_).trans (List.map_id _)
      exact hexDigitValue_hexDigit (Nat.digits_lt_base (by decide) hk)
    rw [hexadecimalValue, List.reverse_reverse, hmap, Nat.ofDigits_digits]

def fillUp (fill : UInt8) (width : ℕ) (text : Bytes) : Bytes :=
  List.replicate (width - text.length) fill ++ text

@[simp] theorem fillUp_zero (fill : UInt8) (text : Bytes) : fillUp fill 0 text = text := by
  simp [fillUp]

theorem fillUp_length {fill : UInt8} {width : ℕ} {text : Bytes} (h : text.length ≤ width) :
    (fillUp fill width text).length = width := by
  simp [fillUp, h]

/-- A number with leading zeros, on at least that many digits. -/
def hexPadded (width n : ℕ) : Bytes := fillUp '0'.toUInt8 width (hexadecimal n)

theorem hexPadded_length {width n : ℕ} (hwidth : 0 < width) (h : n < 16 ^ width) :
    (hexPadded width n).length = width :=
  fillUp_length ((hexadecimal_length_le hwidth).mpr h)

theorem isHexDigit_of_mem_hexPadded {width n : ℕ} {b : UInt8} (h : b ∈ hexPadded width n) :
    isHexDigit b = true := by
  rcases List.mem_append.mp h with hzero | hnumeral
  · rw [(List.mem_replicate.mp hzero).2]
    rfl
  · exact isHexDigit_of_mem_hexadecimal hnumeral

theorem hexadecimalValue_hexPadded (width n : ℕ) : hexadecimalValue (hexPadded width n) = n := by
  have hzero : hexDigitValue '0'.toUInt8 = 0 := rfl
  calc hexadecimalValue (hexPadded width n)
      = hexadecimalValue (hexadecimal n) := by
        simp only [hexadecimalValue, hexPadded, fillUp, List.reverse_append, List.reverse_replicate,
          List.map_append, List.map_replicate, hzero, Nat.ofDigits_append_replicate_zero]
    _ = n := hexadecimalValue_hexadecimal n

theorem hexPadded_injective (width : ℕ) : Function.Injective (hexPadded width) := fun m n h => by
  rw [← hexadecimalValue_hexPadded width m, h, hexadecimalValue_hexPadded]

structure OutputStream where
  text : Bytes := []
  width : ℕ := 0
  fill : UInt8 := ' '.toUInt8
  base16 : Bool := false

/-- What can be inserted: the manipulators, a character and an unsigned number. -/
inductive Insertion where
  | setfill (fill : UInt8)
  | setw (width : ℕ)
  | hex
  | dec
  | char (c : UInt8)
  | number (n : ℕ)

namespace OutputStream

def put (s : OutputStream) (text : Bytes) : OutputStream :=
  { s with text := s.text ++ fillUp s.fill s.width text, width := 0 }

def insert (s : OutputStream) : Insertion → OutputStream
  | .setfill fill => { s with fill := fill }
  | .setw width => { s with width := width }
  | .hex => { s with base16 := true }
  | .dec => { s with base16 := false }
  | .char c => s.put [c]
  | .number n => s.put (if s.base16 then hexadecimal n else decimal n)

def insertAll (s : OutputStream) (insertions : List Insertion) : OutputStream :=
  insertions.foldl insert s

/-- A stream that writes hexadecimal numbers, one with its width and one without. -/
example : (insertAll {} [.setfill '0'.toUInt8, .hex, .setw 4, .number 10, .number 10]).text =
    Library.text "000aa" := by decide +kernel

end OutputStream

end ACENetwork.Library
