import ACENetwork.POP.Scanner

/-!
# How replies are read

What the scanner and the parser make of the pieces of a reply, from one start condition to the
next, wherever the blocks have been cut.
-/
namespace ACENetwork.POP
open Library
open Library.Blocks (Piece Whole remaining)

variable {m : Bool} {v v' word y t more rest : Bytes} {r : Reply} {n : ℕ} {c : UInt8}
  {blocks blocks' : List Bytes} {condition next : Condition}

def readFrom (m : Bool) (condition : Condition) (v : Bytes) (r : Reply) (n : ℕ)
    (blocks : List Bytes) : Blocks.Progress Parse Result :=
  Blocks.read (step m) ⟨condition, v, some r, n⟩ blocks

/-- What the first character of a line leaves as the value. -/
def begun (c : UInt8) : Bytes := if c = dot then [] else cString [c]

section Actions

theorem readFrom_goOn (hword : word ≠ [])
    (h : rule m condition v (word ++ rest) = .goOn next v' word.length) :
    readFrom m condition v r n ((word ++ rest) :: blocks) =
      readFrom m next v' r (n + word.length) (remaining rest blocks) :=
  Blocks.read_opened hword (by simp only [step, h])

theorem readFrom_text {value : Bytes} (hword : word ≠ [])
    (h : rule m condition v (word ++ rest) = .give (.replyText value) next v' word.length) :
    readFrom m condition v r n ((word ++ rest) :: blocks) =
      readFrom m next v' { r with text := r.text ++ [value] } (n + word.length)
        (remaining rest blocks) :=
  Blocks.read_opened hword (by simp only [step, h, Parse.accept])

theorem readFrom_end {length : ℕ} (hword : word ≠ [])
    (h : rule m condition v word = .give .replyTextEnd next v' length) :
    readFrom m condition v r n (word :: blocks) = .closed (.delivered r (n + length)) := by
  refine Blocks.read_closed (k := length) hword ?_
  simp only [step, h, Parse.accept]

theorem readFrom_invalid (hword : word ≠ []) (h : rule m condition v word = .invalid next) :
    readFrom m condition v r n (word :: blocks) = .closed .failed := by
  refine Blocks.read_closed (k := 1) hword ?_
  simp only [step, h]

end Actions

theorem not_crlf_of_cut (hcut : upToLineEnd word = none) : ¬ crlf <+: word := by
  rintro ⟨rest, rfl⟩
  have hsome := @upToLineEnd_append [] List.not_mem_nil rest
  rw [List.nil_append, hcut] at hsome
  cases hsome

section Code

variable {code : Bytes}

theorem parse_code (hcondition : condition = .initial ∨ condition = .replyCode)
    (hcode : code = ok ∨ code = err) (h : Piece code blocks blocks') :
    parse m condition blocks = readFrom m .textBegin code ⟨code, []⟩ code.length blocks' := by
  obtain ⟨rest, tail, rfl, rfl⟩ := h
  have hhead : (code ++ rest).head? = some 0x2B ∨ (code ++ rest).head? = some 0x2D := by
    rcases hcode with rfl | rfl
    · exact Or.inl rfl
    · exact Or.inr rfl
  have hrule : codeRule (code ++ rest) = .give (.replyCode code) .textBegin code code.length := by
    rcases hcode with rfl | rfl
    · exact if_pos (List.prefix_append ok rest)
    · rw [codeRule, if_neg (by rintro ⟨tail, htail⟩; cases htail),
        if_pos (List.prefix_append err rest)]
      rfl
  refine Blocks.read_opened (by rcases hcode with rfl | rfl <;> decide) ?_
  rcases hcondition with rfl | rfl
  · simp only [step, rule, if_pos hhead, hrule, Parse.accept, Nat.zero_add]
  · simp only [step, rule, hrule, Parse.accept, Nat.zero_add]

theorem parse_invalid (hcondition : condition = .initial ∨ condition = .replyCode)
    (hword : word ≠ []) (hok : ¬ ok <+: word) (herr : ¬ err <+: word) :
    parse m condition (word :: blocks) = .closed .failed := by
  have hrule : codeRule word = .invalid .replyCode := by rw [codeRule, if_neg hok, if_neg herr]
  refine Blocks.read_closed hword (k := 1) ?_
  rcases hcondition with rfl | rfl
  · by_cases hhead : word.head? = some 0x2B ∨ word.head? = some 0x2D
    · simp only [step, rule, if_pos hhead, hrule]
    · simp only [step, rule, if_neg hhead]
  · simp only [step, rule, hrule]

end Code

section TextBegin

def textCondition (m : Bool) : Condition := if m then .multilineTextBegin else .text

/-- The blanks at the end of a block, or those before another character. -/
theorem readFrom_blanks {blanks : Bytes} (hne : blanks ≠ []) (hblanks : ∀ b ∈ blanks, b = blank)
    (hrest : rest.head? ≠ some blank) :
    readFrom m .textBegin v r n ((blanks ++ rest) :: blocks) =
      readFrom m (textCondition m) [] r (n + blanks.length) (remaining rest blocks) := by
  have hhead : (blanks ++ rest).head? = some blank := by
    obtain ⟨b, blanks, rfl⟩ := List.exists_cons_of_ne_nil hne
    exact congrArg some (hblanks b List.mem_cons_self)
  have hrun : (blanks ++ rest).takeWhile (· == blank) = blanks := by
    refine takeWhile_run (fun b hb => beq_iff_eq.mpr (hblanks b hb)) fun b hb => ?_
    rw [beq_eq_false_iff_ne]
    rintro rfl
    exact hrest hb
  refine readFrom_goOn hne ?_
  rw [rule, if_pos hhead, hrun]
  rfl

theorem readFrom_textBegin_crlf (h : Piece crlf blocks blocks') :
    readFrom m .textBegin v r n blocks =
      if m then readFrom m .multilineTextBegin v r (n + 2) blocks'
      else .closed (.delivered r (n + 2)) := by
  obtain ⟨rest, tail, rfl, rfl⟩ := h
  have hblank : (crlf ++ rest).head? ≠ some blank := by simp [crlf, carriageReturn, blank]
  cases m with
  | true =>
    refine readFrom_goOn (by decide) ?_
    rw [rule, if_neg hblank, if_pos (List.prefix_append crlf rest)]
    rfl
  | false =>
    have hrule : rule false .textBegin v (crlf ++ rest) = .give .replyTextEnd .replyCode v 2 := by
      rw [rule, if_neg hblank, if_pos (List.prefix_append crlf rest)]
      rfl
    exact readFrom_end (by simp [crlf]) hrule

theorem readFrom_textBegin_invalid (hne : word ≠ []) (hblank : word.head? ≠ some blank)
    (hcrlf : ¬ crlf <+: word) : readFrom m .textBegin v r n (word :: blocks) = .closed .failed := by
  have hrule : rule m .textBegin v word = .invalid .textBegin := by
    rw [rule, if_neg hblank, if_neg hcrlf]
  exact readFrom_invalid hne hrule

end TextBegin

section LineEnd

/-- The rest of a line of a mail, with its line end. -/
theorem readFrom_multilineText (hy : carriageReturn ∉ y) (h : Piece (y ++ crlf) blocks blocks') :
    readFrom m .multilineText v r n blocks =
      readFrom m .multilineTextBegin (v ++ cString y ++ crlf)
        { r with text := r.text ++ [v ++ cString y ++ crlf] } (n + (y ++ crlf).length) blocks' := by
  obtain ⟨rest, tail, rfl, rfl⟩ := h
  have hend (w : Bytes) (k : ℕ) : readFrom m .multilineText w r k ((crlf ++ rest) :: tail) =
      readFrom m .multilineTextBegin (w ++ crlf) { r with text := r.text ++ [w ++ crlf] }
        (k + 2) (remaining rest tail) := by
    refine readFrom_text (by decide) ?_
    rw [rule, if_pos (List.prefix_append crlf rest)]
    rfl
  cases y with
  | nil =>
    rw [show v ++ cString [] = v from List.append_nil v]
    exact hend v n
  | cons c y =>
    have hc : c ≠ carriageReturn := fun heq => hy (heq ▸ List.mem_cons_self)
    have hline : readFrom m .multilineText v r n ((c :: y ++ (crlf ++ rest)) :: tail) =
        readFrom m .multilineText (v ++ cString (c :: y)) r (n + (c :: y).length)
          (remaining (crlf ++ rest) tail) := by
      refine readFrom_goOn (List.cons_ne_nil c y) ?_
      have hcrlf : ¬ crlf <+: c :: y ++ crlf ++ rest := not_crlf_cons hc _
      rw [rule, ← List.append_assoc, if_neg hcrlf, upToLineEnd_append hy]
    rw [List.append_assoc, hline]
    exact (hend _ _).trans (by rw [List.length_append]; rfl)

theorem readFrom_multilineText_cut (hne : word ≠ []) (hcut : upToLineEnd word = none) :
    readFrom m .multilineText v r n (word :: blocks) = .closed .failed := by
  have hrule : rule m .multilineText v word = .invalid .multilineText := by
    rw [rule, if_neg (not_crlf_of_cut hcut), hcut]
  exact readFrom_invalid hne hrule

theorem readFrom_singleText (hy : carriageReturn ∉ y) (h : Piece (y ++ crlf) blocks blocks') :
    ∃ r', readFrom m .text v r n blocks = .closed (.delivered r' (n + (y ++ crlf).length)) ∧
      r'.status = r.status := by
  obtain ⟨rest, tail, rfl, rfl⟩ := h
  have hend (w : Bytes) (r : Reply) (k : ℕ) :
      readFrom m .text w r k ((crlf ++ rest) :: tail) = .closed (.delivered r (k + 2)) := by
    have hrule : rule m .text w (crlf ++ rest) = .give .replyTextEnd .replyCode w 2 := by
      rw [rule, if_pos (List.prefix_append crlf rest)]
    exact readFrom_end (by simp [crlf]) hrule
  cases y with
  | nil => exact ⟨r, hend v r n, rfl⟩
  | cons c y =>
    have hc : c ≠ carriageReturn := fun heq => hy (heq ▸ List.mem_cons_self)
    refine ⟨{ r with text := r.text ++ [cString (c :: y)] }, ?_, rfl⟩
    have hline : readFrom m .text v r n ((c :: y ++ (crlf ++ rest)) :: tail) =
        readFrom m .text (cString (c :: y)) { r with text := r.text ++ [cString (c :: y)] }
          (n + (c :: y).length) (remaining (crlf ++ rest) tail) := by
      refine readFrom_text (List.cons_ne_nil c y) ?_
      have hcrlf : ¬ crlf <+: c :: y ++ crlf ++ rest := not_crlf_cons hc _
      rw [rule, ← List.append_assoc, if_neg hcrlf, upToLineEnd_append hy]
    rw [List.append_assoc, hline]
    exact (hend _ _ _).trans (by rw [List.length_append]; rfl)

theorem readFrom_singleText_cut (hne : word ≠ []) (hcut : upToLineEnd word = none) :
    readFrom m .text v r n (word :: blocks) = .closed .failed := by
  have hrule : rule m .text v word = .invalid .text := by
    rw [rule, if_neg (not_crlf_of_cut hcut), hcut]
  exact readFrom_invalid hne hrule

end LineEnd

section LineBegin

theorem readFrom_begun (hdot : ¬ dot :: crlf <+: c :: rest) (hcrlf : ¬ crlf <+: c :: rest) :
    readFrom m .multilineTextBegin v r n ((c :: rest) :: blocks) =
      readFrom m .multilineText (begun c) r (n + 1) (remaining rest blocks) := by
  have hfirst : rule m .multilineTextBegin v ([c] ++ rest) = .goOn .multilineText (begun c) 1 := by
    rw [List.singleton_append, rule, if_neg hdot]
    by_cases hc : c = dot
    · have hhead : (c :: rest).head? = some dot := congrArg some hc
      rw [if_pos hhead, begun, if_pos hc]
    · have hhead : (c :: rest).head? ≠ some dot := fun h => hc (Option.some.inj h)
      rw [if_neg hhead, if_neg hcrlf, begun, if_neg hc]
      rfl
  exact readFrom_goOn (List.cons_ne_nil c []) hfirst

/-- The line end of an empty line starts a value that nothing uses. -/
theorem readFrom_emptyLine (h : Piece crlf blocks blocks') :
    readFrom m .multilineTextBegin v r n blocks =
      readFrom m .multilineTextBegin crlf r (n + 2) blocks' := by
  obtain ⟨rest, tail, rfl, rfl⟩ := h
  refine readFrom_goOn (by decide) ?_
  have hdot : ¬ dot :: crlf <+: crlf ++ rest := by
    rintro ⟨tail, htail⟩
    cases htail
  have hhead : (crlf ++ rest).head? ≠ some dot := by simp [crlf, carriageReturn, dot]
  rw [rule, if_neg hdot, if_neg hhead, if_pos (List.prefix_append crlf rest)]
  rfl

theorem readFrom_terminator (h : Piece (dot :: crlf) blocks blocks') :
    readFrom m .multilineTextBegin v r n blocks = .closed (.delivered r (n + 3)) := by
  obtain ⟨rest, tail, rfl, rfl⟩ := h
  have hdot : readFrom m .multilineTextBegin v r n (([dot] ++ (crlf ++ rest)) :: tail) =
      readFrom m .multilineTextEnd v r (n + 1) (remaining (crlf ++ rest) tail) := by
    refine readFrom_goOn (by decide) ?_
    have hprefix : dot :: crlf <+: [dot] ++ (crlf ++ rest) := ⟨rest, rfl⟩
    rw [rule, if_pos hprefix]
    rfl
  have hrule : rule m .multilineTextEnd v (crlf ++ rest) = .give .replyTextEnd .replyCode v 2 := by
    rw [rule, if_pos (List.prefix_append crlf rest)]
  exact hdot.trans (readFrom_end (by simp [crlf]) hrule)

end LineBegin

end ACENetwork.POP
