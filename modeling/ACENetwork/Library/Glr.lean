import Mathlib

/-!
# How a GLR parser ends

A parser that does not accept reports an error, of the input or of a stack that cannot
grow, or it leaves the defined behaviour with a fault. Symbols that are pushed need
room on the stack.
-/
namespace ACENetwork.Library.Glr

/-- How a parse ends without accepting. -/
inductive Abort (φ : Type) where
  | syntaxError
  | memoryExhausted
  | fault (f : φ)
  deriving DecidableEq, Repr

@[simp] def Abort.Reported {φ : Type} : Abort φ → Prop
  | .syntaxError => True
  | .memoryExhausted => True
  | .fault _ => False

def maxItems : ℕ := 9998

variable {φ : Type}

def reserve (items : ℕ) : Except (Abort φ) Unit :=
  if items ≤ maxItems then .ok () else .error .memoryExhausted

theorem reserve_ok {items : ℕ} (h : items ≤ maxItems) :
    (reserve items : Except (Abort φ) Unit) = .ok () := if_pos h

theorem reserve_exhausted {items : ℕ} (h : ¬ items ≤ maxItems) :
    (reserve items : Except (Abort φ) Unit) = .error .memoryExhausted := if_neg h

section Bind

variable {α β : Type} {k : α → Except (Abort φ) β}

theorem bind_eq_ok {x : Except (Abort φ) α} {b : β} :
    (x >>= k) = .ok b ↔ ∃ a, x = .ok a ∧ k a = .ok b := by
  cases x <;> simp [bind, Except.bind]

theorem ok_bind (a : α) : (Except.ok a >>= k) = k a := rfl

theorem error_bind (e : Abort φ) : (Except.error e >>= k) = .error e := rfl

end Bind

section Safely

variable {α β : Type}

/-- The parse reports an error, or accepts with a result that has the property. -/
def Safely (P : α → Prop) : Except (Abort φ) α → Prop
  | .ok a => P a
  | .error e => e.Reported

variable {P : β → Prop}

@[simp] theorem safely_error (e : Abort φ) :
    Safely P (.error e : Except (Abort φ) β) ↔ e.Reported := Iff.rfl

end Safely

section Accepts

variable {α β : Type}

def Accepts (P : α → Prop) : Except (Abort φ) α → Prop
  | .ok a => P a
  | .error _ => False

variable {P : β → Prop}

@[simp] theorem accepts_ok (b : β) : Accepts P (.ok b : Except (Abort φ) β) ↔ P b := Iff.rfl

@[simp] theorem accepts_error (e : Abort φ) :
    ¬ Accepts P (.error e : Except (Abort φ) β) := id

theorem accepts_bind {x : Except (Abort φ) α} {k : α → Except (Abort φ) β} :
    Accepts P (x >>= k) ↔ Accepts (fun a => Accepts P (k a)) x := by
  cases x <;> exact Iff.rfl

theorem accepts_iff {x : Except (Abort φ) β} : Accepts P x ↔ ∃ b, x = .ok b ∧ P b := by
  cases x <;> simp

theorem accepts_reserve {items : ℕ} {k : Unit → Except (Abort φ) β} :
    Accepts P (reserve items >>= k) ↔ items ≤ maxItems ∧ Accepts P (k ()) := by
  by_cases h : items ≤ maxItems
  · simp [reserve_ok h, h, ok_bind]
  · simp [reserve_exhausted h, h, error_bind]

end Accepts

end ACENetwork.Library.Glr
