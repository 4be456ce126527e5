import ACENetwork.Library.Lines

/-!
# Texts that are ended by a dot

A text is ended by a line that consists of a dot. The receiver takes one dot away from each line
that begins with one; so a text arrives as it is, and ends where it ends, exactly if none of its
lines begins with a dot.
-/
namespace ACENetwork.Library

def dot : UInt8 := 0x2E

def dotLine : Bytes := [carriageReturn, lineFeed, dot]

def endMark : Bytes := [carriageReturn, lineFeed, dot, carriageReturn, lineFeed]

/-- Where an octet stands: at the beginning of a line, behind a carriage return, or elsewhere. -/
inductive Place where
  | start
  | afterReturn
  | inside
  deriving DecidableEq, Repr

namespace Place

def next (place : Place) (b : UInt8) : Place :=
  if b = carriageReturn then .afterReturn
  else if place = .afterReturn ∧ b = lineFeed then .start
  else .inside

def seen : Place → Bytes
  | start => crlf
  | afterReturn => [carriageReturn]
  | inside => []

end Place

def unstuff : Place → Bytes → Bytes
  | _, [] => []
  | place, b :: rest =>
    if place = .start ∧ b = dot then unstuff .inside rest else b :: unstuff (place.next b) rest

/-- The text ends with the end mark, which does not occur in front of there, and is received as
`message`. -/
structure Transparent (message bytes : Bytes) : Prop where
  ends : endMark <:+ bytes
  once : ∀ front back, bytes = front ++ endMark ++ back → back = []
  received : unstuff .start (bytes.take (bytes.length - endMark.length)) = message

section Transparency
variable {place : Place} {b : UInt8} {text rest message : Bytes}

theorem unstuff_length_le (place : Place) (text : Bytes) :
    (unstuff place text).length ≤ text.length := by
  induction text generalizing place with
  | nil => exact le_rfl
  | cons b rest ih =>
    rw [unstuff]
    split_ifs
    · exact (ih _).trans (Nat.le_succ _)
    · exact Nat.succ_le_succ (ih _)

theorem dotLine_next (h : ¬ (place = .start ∧ b = dot)) :
    dotLine <:+: place.seen ++ b :: rest ↔ dotLine <:+: (place.next b).seen ++ rest := by
  have hdot : carriageReturn ≠ dot := by decide
  have hfeed : carriageReturn ≠ lineFeed := by decide
  cases place with
  | inside =>
    by_cases hb : b = carriageReturn
    · subst hb
      rfl
    · simp [Place.next, Place.seen, hb, dotLine, List.infix_cons_iff, Ne.symm hb]
  | afterReturn =>
    by_cases hb : b = carriageReturn
    · subst hb
      simp [Place.next, Place.seen, dotLine, List.infix_cons_iff, hfeed.symm]
    · by_cases hline : b = lineFeed
      · subst hline
        simp [Place.next, Place.seen, crlf, hb]
      · simp [Place.next, Place.seen, hb, hline, dotLine, List.infix_cons_iff, Ne.symm hb,
          Ne.symm hline]
  | start =>
    have hb : b ≠ dot := fun heq => h ⟨rfl, heq⟩
    by_cases hreturn : b = carriageReturn
    · subst hreturn
      simp [Place.next, Place.seen, crlf, dotLine, List.infix_cons_iff, hfeed, hdot.symm]
    · simp [Place.next, Place.seen, crlf, dotLine, List.infix_cons_iff, hreturn, hfeed, Ne.symm hb,
        Ne.symm hreturn]

theorem unstuff_eq_iff : unstuff place text = text ↔ ¬ dotLine <:+: place.seen ++ text := by
  induction text generalizing place with
  | nil =>
    have hshort : ¬ dotLine <:+: place.seen ++ [] := fun h => by
      have hle := h.length_le
      cases place <;> simp [dotLine, Place.seen, crlf] at hle
    exact ⟨fun _ => hshort, fun _ => rfl⟩
  | cons b rest ih =>
    rw [unstuff]
    split_ifs with hdot
    · obtain ⟨rfl, rfl⟩ := hdot
      have hlength := unstuff_length_le .inside rest
      constructor
      · intro heq
        rw [heq, List.length_cons] at hlength
        omega
      · intro hnot
        exact absurd ⟨[], rest, rfl⟩ hnot
    · rw [List.cons_inj_right, ih, dotLine_next hdot]

theorem dotLine_start_iff : dotLine <:+: crlf ++ text ↔ text.head? = some dot ∨ dotLine <:+: text := by
  have hfeed : carriageReturn ≠ lineFeed := by decide
  cases text with
  | nil => simp [dotLine, crlf, List.infix_cons_iff]
  | cons c text => simp [dotLine, crlf, List.infix_cons_iff, hfeed, eq_comm]

theorem dotLine_plain (h : carriageReturn ∉ text) : dotLine <:+: text ++ rest ↔ dotLine <:+: rest := by
  induction text with
  | nil => rfl
  | cons c text ih =>
    obtain ⟨hc, htext⟩ := not_or.mp (List.mem_cons.not.mp h)
    rw [List.cons_append, List.infix_cons_iff, ih htext]
    simp [dotLine, hc]

theorem dotLine_line (h : carriageReturn ∉ text) (hhead : ∃ c ∈ text.head?, c ≠ dot) :
    dotLine <:+: crlf ++ (text ++ rest) ↔ dotLine <:+: rest := by
  obtain ⟨c, hc, hne⟩ := hhead
  have hfirst : (text ++ rest).head? ≠ some dot := by
    rw [List.head?_append, Option.mem_def.mp hc]
    exact fun heq => hne (Option.some.inj heq)
  rw [dotLine_start_iff, dotLine_plain h]
  exact or_iff_right hfirst

theorem dotLine_crlf :
    dotLine <:+: text ++ (crlf ++ rest) ↔ dotLine <:+: text ∨ dotLine <:+: crlf ++ rest := by
  constructor
  · intro h
    rcases List.infix_append_iff.mp h with h | h | ⟨front, back, heq, hfront, hback⟩
    · exact .inl h
    · exact .inr h
    · rcases front with _ | ⟨b, _ | ⟨c, _ | ⟨d, front⟩⟩⟩
      · rw [List.nil_append] at heq
        exact .inr (heq ▸ hback.isInfix)
      · cases heq
        exact absurd (List.cons_prefix_cons.mp hback).1 (by decide)
      · cases heq
        exact absurd (List.cons_prefix_cons.mp hback).1 (by decide)
      · cases front with
        | nil =>
          cases heq
          exact .inl hfront.isInfix
        | cons e front => cases heq
  · rintro (h | h)
    · exact List.infix_append_of_infix_left h
    · exact List.infix_append_of_infix_right h

/-- The mark that ends a text does not occur earlier if no line begins with a dot. -/
theorem once_of_not_dotLine (h : ¬ dotLine <:+: text) (front back : Bytes)
    (heq : text ++ endMark = front ++ endMark ++ back) : back = [] := by
  rw [List.append_assoc] at heq
  rcases List.append_eq_append_iff.mp heq with ⟨more, -, hmark⟩ | ⟨more, htext, hmark⟩
  · have hlength := congrArg List.length hmark
    simp only [List.length_append] at hlength
    exact List.length_eq_zero_iff.mp (by omega)
  · rcases more with _ | ⟨b, _ | ⟨c, _ | ⟨d, more⟩⟩⟩
    · exact List.append_right_eq_self.mp hmark
    · cases hmark
    · cases hmark
    · simp only [endMark, List.cons_append, List.cons.injEq] at hmark
      obtain ⟨rfl, rfl, rfl, -⟩ := hmark
      exact absurd ⟨front, more, by simp [htext, dotLine]⟩ h

/-- A text that is ended by the mark is transparent exactly if no line of it begins with a dot. -/
theorem transparent_iff : Transparent text (text ++ endMark) ↔ ¬ dotLine <:+: crlf ++ text := by
  have htake : (text ++ endMark).take ((text ++ endMark).length - endMark.length) = text := by
    rw [List.length_append, Nat.add_sub_cancel, List.take_left]
  constructor
  · intro h
    have hreceived := h.received
    rw [htake] at hreceived
    exact unstuff_eq_iff.1 hreceived
  · intro h
    refine ⟨List.suffix_append _ _, fun front back heq => ?_, ?_⟩
    · exact once_of_not_dotLine (fun hin => h (dotLine_start_iff.2 (.inr hin))) front back heq
    · rw [htake]
      exact unstuff_eq_iff.2 h

end Transparency

end ACENetwork.Library
