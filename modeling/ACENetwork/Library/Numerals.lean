import ACENetwork.Library.Decimal

/-!
# Numerals with leading zeros

Decimal numerals filled up with zeros to a width. Numerals of one width are ordered as texts
like their numbers.
-/
namespace ACENetwork.Library

section Texts

variable {α : Type*} [LinearOrder α] {l l' s s' : List α}

/-- What follows two texts of one length does not change their order. -/
theorem append_lt_append (hlength : l.length = l'.length) (h : l < l') : l ++ s < l' ++ s' := by
  induction l generalizing l' with
  | nil =>
    obtain rfl := List.length_eq_zero_iff.mp hlength.symm
    exact absurd h (lt_irrefl _)
  | cons a l ih =>
    obtain ⟨a', l', rfl⟩ := List.exists_cons_of_length_eq_add_one hlength.symm
    rw [List.cons_append, List.cons_append, List.cons_lt_cons_iff]
    rcases List.cons_lt_cons_iff.mp h with hlt | ⟨heq, hlt⟩
    · exact .inl hlt
    · exact .inr ⟨heq, ih (Nat.succ.inj hlength) hlt⟩

end Texts

section Digits

variable {l l' : List Char}

theorem ofDigitChars_cons (c : Char) (l : List Char) :
    Nat.ofDigitChars 10 (c :: l) 0 =
      10 ^ l.length * (c.toNat - '0'.toNat) + Nat.ofDigitChars 10 l 0 := by
  rw [Nat.ofDigitChars_cons, Nat.ofDigitChars_eq_ofDigitChars_zero, Nat.mul_zero, Nat.zero_add]

theorem digit_bounds {c : Char} (h : c.isDigit = true) : 48 ≤ c.toNat ∧ c.toNat ≤ 57 := by
  simpa [Char.isDigit, UInt32.le_iff_toNat_le] using h

theorem ofDigitChars_lt (h : ∀ c ∈ l, c.isDigit = true) : Nat.ofDigitChars 10 l 0 < 10 ^ l.length := by
  induction l with
  | nil => exact Nat.one_pos
  | cons c l ih =>
    obtain ⟨hc, hl⟩ := List.forall_mem_cons.mp h
    have hdigit : c.toNat - '0'.toNat ≤ 9 := by
      have := (digit_bounds hc).2
      exact Nat.sub_le_of_le_add this
    calc Nat.ofDigitChars 10 (c :: l) 0
        = 10 ^ l.length * (c.toNat - '0'.toNat) + Nat.ofDigitChars 10 l 0 := ofDigitChars_cons c l
      _ < 10 ^ l.length * (c.toNat - '0'.toNat) + 10 ^ l.length := Nat.add_lt_add_left (ih hl) _
      _ = 10 ^ l.length * (c.toNat - '0'.toNat + 1) := (Nat.mul_succ _ _).symm
      _ ≤ 10 ^ l.length * 10 := Nat.mul_le_mul_left _ (Nat.succ_le_succ hdigit)
      _ = 10 ^ (c :: l).length := rfl

/-- Texts of digits of one length are ordered as their numbers; the first digit that differs
decides both. -/
theorem lt_of_ofDigitChars_lt (h : ∀ c ∈ l, c.isDigit = true) (h' : ∀ c ∈ l', c.isDigit = true)
    (hlength : l.length = l'.length)
    (hlt : Nat.ofDigitChars 10 l 0 < Nat.ofDigitChars 10 l' 0) : l < l' := by
  induction l generalizing l' with
  | nil =>
    obtain rfl := List.length_eq_zero_iff.mp hlength.symm
    exact absurd hlt (lt_irrefl _)
  | cons c l ih =>
    obtain ⟨c', l', rfl⟩ := List.exists_cons_of_length_eq_add_one hlength.symm
    have hrest := Nat.succ.inj hlength
    obtain ⟨hc, hl⟩ := List.forall_mem_cons.mp h
    obtain ⟨hc', hl'⟩ := List.forall_mem_cons.mp h'
    rw [ofDigitChars_cons, ofDigitChars_cons, hrest] at hlt
    rw [List.cons_lt_cons_iff]
    rcases lt_trichotomy c c' with hless | rfl | hgreater
    · exact .inl hless
    · exact .inr ⟨rfl, ih hl hl' hrest (Nat.lt_of_add_lt_add_left hlt)⟩
    · refine absurd hlt (not_lt.mpr ?_)
      have hdigits : c'.toNat - '0'.toNat + 1 ≤ c.toNat - '0'.toNat := by
        have hlow : '0'.toNat ≤ c'.toNat := (digit_bounds hc').1
        have hnext : c'.toNat < c.toNat := hgreater
        omega
      calc 10 ^ l'.length * (c'.toNat - '0'.toNat) + Nat.ofDigitChars 10 l' 0
          ≤ 10 ^ l'.length * (c'.toNat - '0'.toNat) + 10 ^ l'.length :=
            Nat.add_le_add_left (ofDigitChars_lt hl').le _
        _ = 10 ^ l'.length * (c'.toNat - '0'.toNat + 1) := (Nat.mul_succ _ _).symm
        _ ≤ 10 ^ l'.length * (c.toNat - '0'.toNat) := Nat.mul_le_mul_left _ hdigits
        _ ≤ 10 ^ l'.length * (c.toNat - '0'.toNat) + Nat.ofDigitChars 10 l 0 := Nat.le_add_right _ _

end Digits

/-- A number with leading zeros, on at least that many digits. -/
def zeroPadded (width n : ℕ) : List Char :=
  List.replicate (width - (Nat.toDigits 10 n).length) '0' ++ Nat.toDigits 10 n

theorem isDigit_of_mem_zeroPadded {width n : ℕ} {c : Char} (h : c ∈ zeroPadded width n) :
    c.isDigit = true := by
  rcases List.mem_append.mp h with hzero | hdigit
  · rw [(List.mem_replicate.mp hzero).2]
    rfl
  · exact Nat.isDigit_of_mem_toDigits (by decide) (by decide) hdigit

theorem zeroPadded_ne_nil (width n : ℕ) : zeroPadded width n ≠ [] :=
  List.append_ne_nil_of_right_ne_nil _ Nat.toDigits_ne_nil

theorem zeroPadded_length {width n : ℕ} (hwidth : 0 < width) (h : n < 10 ^ width) :
    (zeroPadded width n).length = width := by
  have hle := (Nat.length_toDigits_le_iff (by decide) hwidth).mpr h
  rw [zeroPadded, List.length_append, List.length_replicate, Nat.sub_add_cancel hle]

theorem ofDigitChars_zeroPadded (width n : ℕ) : Nat.ofDigitChars 10 (zeroPadded width n) 0 = n := by
  rw [zeroPadded, Nat.ofDigitChars_append, Nat.ofDigitChars_replicate_zero, Nat.mul_zero,
    Nat.ofDigitChars_ten_toDigits]

theorem zeroPadded_lt {width m n : ℕ} (hwidth : 0 < width) (hm : m < 10 ^ width)
    (hn : n < 10 ^ width) (h : m < n) : zeroPadded width m < zeroPadded width n := by
  refine lt_of_ofDigitChars_lt (fun _ => isDigit_of_mem_zeroPadded)
    (fun _ => isDigit_of_mem_zeroPadded) ?_ ?_
  · rw [zeroPadded_length hwidth hm, zeroPadded_length hwidth hn]
  · rwa [ofDigitChars_zeroPadded, ofDigitChars_zeroPadded]

end ACENetwork.Library
