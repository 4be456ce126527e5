import ACENetwork.POP.Reading

/-!
# Retrieving a mail

The encoding of a mail, what the parser makes of it wherever the blocks have been cut, and when
that is the mail.
-/
namespace ACENetwork.POP
open Library
open Library.Blocks (Piece Whole remaining)

/-- A line without its line end. -/
def IsPlain (line : Bytes) : Prop := ∀ b ∈ line, isPlain b = true

instance IsPlain.decidable (line : Bytes) : Decidable (IsPlain line) :=
  inferInstanceAs (Decidable (∀ b ∈ line, isPlain b = true))

def stuff (line : Bytes) : Bytes := if line.head? = some dot then dot :: line else line

def content (lines : List Bytes) : Bytes := (lines.map (· ++ crlf)).flatten

def mailEnd : Bytes := dot :: crlf

def encode (status : Bytes) (mail : List Bytes) : Bytes :=
  ok ++ status ++ crlf ++ content (mail.map stuff) ++ mailEnd

/-- The mail is delivered as it was sent: all octets are consumed, and behind the text of the status
line, if that has any, the text is the lines of the mail. -/
def Decodes (condition : Condition) (status : Bytes) (mail blocks : List Bytes) : Prop :=
  ∃ r n, parse true condition blocks = .closed (.delivered r n) ∧
    n = (encode status mail).length ∧
    ∃ front rest, r.text = front ++ rest ∧ front.length ≤ 1 ∧
      (front = [] → ∀ b ∈ status, b = blank) ∧ rest.flatten = content mail

inductive Lines : List Bytes → List Bytes → List Bytes → Prop where
  /-- The end of the mail has not been cut. -/
  | terminator {blocks blocks'} : Piece mailEnd blocks blocks' → Lines [] blocks []
  /-- A line has been cut behind its first character at most. -/
  | line {c y lines blocks blocks₁ blocks₂ entries} : Piece [c] blocks blocks₁ →
      Piece (y ++ crlf) blocks₁ blocks₂ → Lines lines blocks₂ entries →
      Lines ((c :: y) :: lines) blocks ((begun c ++ cString y ++ crlf) :: entries)
  /-- An empty line is lost. -/
  | lost {lines blocks blocks₁ entries} : Piece crlf blocks blocks₁ → Lines lines blocks₁ entries →
      Lines ([] :: lines) blocks entries
  /-- An empty line that has been cut is joined with the next one. -/
  | joined {y lines blocks blocks₁ blocks₂ entries} : Whole [carriageReturn] blocks blocks₁ →
      Piece (lineFeed :: y ++ crlf) blocks₁ blocks₂ → Lines lines blocks₂ entries →
      Lines ([] :: y :: lines) blocks (([carriageReturn] ++ cString (lineFeed :: y) ++ crlf) :: entries)

/-- The mail comes out whole: no line has a NUL, no empty line is lost, and a cut is behind the
first character of a line, behind a line, or inside the line end of an empty line whose next line
does not start with a dot. -/
inductive Intact : List Bytes → List Bytes → Prop where
  | mailEnd {blocks blocks'} : Piece mailEnd blocks blocks' → Intact [] blocks
  | line {line c y mail blocks blocks₁ blocks₂} : stuff line = c :: y → 0 ∉ line →
      Piece [c] blocks blocks₁ → Piece (y ++ crlf) blocks₁ blocks₂ → Intact mail blocks₂ →
      Intact (line :: mail) blocks
  | joined {line mail blocks blocks₁ blocks₂} : line.head? ≠ some dot → 0 ∉ line →
      Whole [carriageReturn] blocks blocks₁ → Piece (lineFeed :: line ++ crlf) blocks₁ blocks₂ →
      Intact mail blocks₂ → Intact ([] :: line :: mail) blocks

/-- The mail comes out whole but for an empty line at its start. -/
inductive OneLost : List Bytes → List Bytes → Prop where
  | lost {mail blocks blocks₁} : Piece crlf blocks blocks₁ → Intact mail blocks₁ →
      OneLost ([] :: mail) blocks
  | joined {mail blocks blocks₁ blocks₂} : Whole [carriageReturn] blocks blocks₁ →
      Piece (lineFeed :: crlf) blocks₁ blocks₂ → OneLost mail blocks₂ →
      OneLost ([] :: [] :: mail) blocks

variable {v t : Bytes} {r : Reply} {n : ℕ} {blocks blocks' : List Bytes}

theorem begun_return : begun carriageReturn = [carriageReturn] := by decide

theorem content_cons (line : Bytes) (lines : List Bytes) :
    content (line :: lines) = line ++ crlf ++ content lines := rfl

/-- The first character of a line does not end the mail, and it does not end the line. -/
theorem not_prefix_of_line {c : UInt8} {y rest more : Bytes} {tail : List Bytes}
    (hplain : IsPlain (c :: y)) (hdot : c :: y ≠ [dot])
    (h : ((c :: rest) :: tail).flatten = c :: y ++ crlf ++ more) :
    ¬ dot :: crlf <+: c :: rest ∧ ¬ crlf <+: c :: rest := by
  refine ⟨?_, not_crlf_of_plain (hplain c List.mem_cons_self) rest⟩
  rintro ⟨rest', hrest⟩
  cases hrest
  cases y with
  | nil => exact hdot rfl
  | cons d y =>
    have hd : d = carriageReturn := (List.cons.inj (List.cons.inj h).2).1.symm
    exact (ne_of_isPlain (hplain d (by simp))).1 hd

theorem readFrom_line {c : UInt8} {y : Bytes} {blocks₁ blocks₂ : List Bytes}
    (hplain : IsPlain (c :: y)) (hdot : c :: y ≠ [dot]) (hfirst : Piece [c] blocks blocks₁)
    (hrest : Piece (y ++ crlf) blocks₁ blocks₂) :
    readFrom true .multilineTextBegin v r n blocks =
      readFrom true .multilineTextBegin (begun c ++ cString y ++ crlf)
        { r with text := r.text ++ [begun c ++ cString y ++ crlf] }
        (n + (c :: y ++ crlf).length) blocks₂ := by
  have hflatten : blocks.flatten = c :: y ++ crlf ++ blocks₂.flatten := by
    rw [hfirst.flatten, hrest.flatten]
    simp
  obtain ⟨rest, tail, rfl, rfl⟩ := hfirst
  obtain ⟨hend, hcrlf⟩ := not_prefix_of_line hplain hdot hflatten
  have hy : carriageReturn ∉ y := fun hin =>
    (ne_of_isPlain (hplain _ (List.mem_cons_of_mem c hin))).1 rfl
  have hn : n + 1 + (y ++ crlf).length = n + (c :: y ++ crlf).length := by
    rw [List.cons_append, List.length_cons]
    omega
  rw [← hn]
  exact (readFrom_begun hend hcrlf).trans (readFrom_multilineText hy hrest)

/-- An empty line whose line end has been cut is read with the line behind it. -/
theorem readFrom_joined {y : Bytes} {blocks₁ blocks₂ : List Bytes} (hy : IsPlain y)
    (hreturn : Whole [carriageReturn] blocks blocks₁)
    (hrest : Piece (lineFeed :: y ++ crlf) blocks₁ blocks₂) :
    readFrom true .multilineTextBegin v r n blocks =
      readFrom true .multilineTextBegin ([carriageReturn] ++ cString (lineFeed :: y) ++ crlf)
        { r with text := r.text ++ [[carriageReturn] ++ cString (lineFeed :: y) ++ crlf] }
        (n + (crlf ++ y ++ crlf).length) blocks₂ := by
  have hline : carriageReturn ∉ lineFeed :: y := by
    simpa [carriageReturn, lineFeed] using return_notMem_plain hy
  have hend : ¬ dot :: crlf <+: [carriageReturn] := by decide
  have hcrlf : ¬ crlf <+: [carriageReturn] := by decide
  rw [hreturn, readFrom_begun hend hcrlf, Blocks.remaining_nil, readFrom_multilineText hline hrest,
    begun_return]
  simp [crlf, Nat.add_assoc, Nat.add_comm]

theorem content_cons_length (line : Bytes) (lines : List Bytes) :
    (content (line :: lines) ++ mailEnd).length =
      (line ++ crlf).length + (content lines ++ mailEnd).length := by
  rw [content_cons, List.append_assoc, List.length_append]

theorem Lines.delivered {lines entries : List Bytes} (h : Lines lines blocks entries)
    (hplain : ∀ line ∈ lines, IsPlain line ∧ line ≠ [dot]) (v : Bytes) (r : Reply) (n : ℕ) :
    readFrom true .multilineTextBegin v r n blocks = .closed (.delivered
      { r with text := r.text ++ entries } (n + (content lines ++ mailEnd).length)) := by
  induction h generalizing v r n with
  | terminator hpiece =>
    rw [readFrom_terminator hpiece, List.append_nil]
    rfl
  | lost hcrlf _ ih =>
    rw [readFrom_emptyLine hcrlf, ih fun line hline => hplain line (List.mem_cons_of_mem _ hline),
      content_cons_length, Nat.add_assoc]
    rfl
  | @line _ _ _ _ _ _ entries hfirst hrest _ ih =>
    obtain ⟨hline, hdot⟩ := hplain _ List.mem_cons_self
    rw [readFrom_line hline hdot hfirst hrest,
      ih fun line hline => hplain line (List.mem_cons_of_mem _ hline), content_cons_length,
      Nat.add_assoc, List.append_cons r.text _ entries]
  | @joined y lines _ _ _ entries hreturn hrest _ ih =>
    obtain ⟨hy, -⟩ := hplain y (by simp)
    have hlength : (content ([] :: y :: lines) ++ mailEnd).length =
        (crlf ++ y ++ crlf).length + (content lines ++ mailEnd).length := by
      rw [content_cons_length, content_cons_length, ← Nat.add_assoc, ← List.length_append,
        List.nil_append, List.append_assoc crlf]
    rw [readFrom_joined hy hreturn hrest, ih fun line hline => hplain line (by simp [hline]),
      hlength, Nat.add_assoc, List.append_cons r.text _ entries]

section Delivered

variable {r' : Reply} {n' : ℕ} {y more : Bytes}

theorem piece_of_upToLineEnd (hblocks : ∀ b ∈ blocks, b ≠ []) (hy : carriageReturn ∉ y)
    (hflatten : blocks.flatten = y ++ crlf ++ more)
    (hline : ∀ word tail, blocks = word :: tail → word ≠ [] → upToLineEnd word ≠ none) :
    ∃ blocks', Piece (y ++ crlf) blocks blocks' := by
  cases blocks with
  | nil =>
    rw [List.append_assoc] at hflatten
    cases (List.append_eq_nil_iff.mp hflatten.symm).2
  | cons word tail =>
    obtain ⟨y', hy'⟩ := Option.ne_none_iff_exists'.mp
      (hline word tail rfl (hblocks word List.mem_cons_self))
    obtain ⟨hreturn, rest, rfl⟩ := upToLineEnd_eq_some hy'
    rw [List.flatten_cons, List.append_assoc] at hflatten
    obtain ⟨rfl, -⟩ := line_unique hreturn hy hflatten
    exact ⟨_, rest, tail, rfl, rfl⟩

theorem piece_of_delivered (hblocks : ∀ b ∈ blocks, b ≠ []) (hy : carriageReturn ∉ y)
    (hflatten : blocks.flatten = y ++ crlf ++ more)
    (h : readFrom true .multilineText v r n blocks = .closed (.delivered r' n')) :
    ∃ blocks', Piece (y ++ crlf) blocks blocks' := by
  refine piece_of_upToLineEnd hblocks hy hflatten fun word tail hcons hne hcut => ?_
  rw [hcons, readFrom_multilineText_cut hne hcut] at h
  cases h

theorem not_delivered_of_flatten {condition : Condition} (hblocks : ∀ b ∈ blocks, b ≠ [])
    (hflatten : blocks.flatten = []) :
    readFrom true condition v r n blocks ≠ .closed (.delivered r' n') := by
  cases blocks with
  | nil =>
    intro h
    cases h
  | cons word tail =>
    exact absurd (List.append_eq_nil_iff.mp hflatten).1 (hblocks word List.mem_cons_self)

theorem mailEnd_of_delivered (hblocks : ∀ b ∈ blocks, b ≠ []) (hflatten : blocks.flatten = mailEnd)
    (h : readFrom true .multilineTextBegin v r n blocks = .closed (.delivered r' n')) :
    ∃ blocks', Piece mailEnd blocks blocks' := by
  obtain ⟨block, tail, rfl, hrest⟩ := Blocks.exists_cons_of_flatten hblocks hflatten
  by_cases hend : dot :: crlf <+: dot :: block
  · obtain ⟨rest, hrest⟩ := hend
    exact ⟨_, rest, tail, by rw [← hrest]; rfl, rfl⟩
  · rw [readFrom_begun hend (not_crlf_cons (by decide) _)] at h
    have hblocks' : ∀ b ∈ remaining block tail, b ≠ [] :=
      Blocks.nonempty_remaining fun b hb => hblocks b (List.mem_cons_of_mem _ hb)
    have hflatten' : (remaining block tail).flatten = [] ++ crlf ++ [] := by
      rw [Blocks.flatten_remaining]
      exact hrest
    obtain ⟨blocks', hpiece⟩ := piece_of_delivered hblocks' List.not_mem_nil hflatten' h
    rw [readFrom_multilineText List.not_mem_nil hpiece] at h
    refine absurd h (not_delivered_of_flatten (hpiece.nonempty hblocks') ?_)
    have hall := hpiece.flatten
    rw [hflatten'] at hall
    exact (List.append_cancel_left hall).symm

theorem line_of_delivered {c : UInt8} {y more : Bytes} (hblocks : ∀ b ∈ blocks, b ≠ [])
    (hplain : IsPlain (c :: y)) (hdot : c :: y ≠ [dot])
    (hflatten : blocks.flatten = c :: y ++ crlf ++ more)
    (h : readFrom true .multilineTextBegin v r n blocks = .closed (.delivered r' n')) :
    ∃ blocks₁ blocks₂, Piece [c] blocks blocks₁ ∧ Piece (y ++ crlf) blocks₁ blocks₂ := by
  obtain ⟨block, tail, rfl, hrest⟩ := Blocks.exists_cons_of_flatten hblocks hflatten
  obtain ⟨hend, hcrlf⟩ := not_prefix_of_line hplain hdot hflatten
  have hfirst : Piece [c] ((c :: block) :: tail) (remaining block tail) := ⟨block, tail, rfl, rfl⟩
  have hy : carriageReturn ∉ y := fun hin =>
    (ne_of_isPlain (hplain _ (List.mem_cons_of_mem c hin))).1 rfl
  rw [readFrom_begun hend hcrlf] at h
  have hflatten' : (remaining block tail).flatten = y ++ crlf ++ more := by
    rw [Blocks.flatten_remaining]
    exact hrest
  obtain ⟨blocks₂, hpiece⟩ := piece_of_delivered (hfirst.nonempty hblocks) hy hflatten' h
  exact ⟨_, blocks₂, hfirst, hpiece⟩

/-- An empty line of a mail that is delivered: its line end has not been cut, or between its
characters. -/
theorem emptyLine_of_delivered {more : Bytes} (hblocks : ∀ b ∈ blocks, b ≠ [])
    (hflatten : blocks.flatten = crlf ++ more)
    (h : readFrom true .multilineTextBegin v r n blocks = .closed (.delivered r' n')) :
    (∃ blocks', Piece crlf blocks blocks') ∨
      ∃ blocks', Whole [carriageReturn] blocks blocks' ∧ blocks'.flatten = lineFeed :: more ∧
        readFrom true .multilineText [carriageReturn] r (n + 1) blocks' =
          .closed (.delivered r' n') := by
  obtain ⟨block, tail, rfl, hrest⟩ := Blocks.exists_cons_of_flatten hblocks hflatten
  cases block with
  | nil =>
    refine Or.inr ⟨tail, rfl, hrest, ?_⟩
    rw [readFrom_begun (by decide) (by decide), Blocks.remaining_nil, begun_return] at h
    exact h
  | cons d block =>
    obtain rfl : d = lineFeed := (List.cons.inj hrest).1
    exact Or.inl ⟨_, block, tail, rfl, rfl⟩

theorem lines_of_delivered : ∀ {lines blocks : List Bytes} {v : Bytes} {r : Reply} {n : ℕ},
    (∀ b ∈ blocks, b ≠ []) → (∀ line ∈ lines, IsPlain line ∧ line ≠ [dot]) →
    blocks.flatten = content lines ++ mailEnd →
    readFrom true .multilineTextBegin v r n blocks = .closed (.delivered r' n') →
    ∃ entries, Lines lines blocks entries
  | [], blocks, v, r, n, hblocks, _, hflatten, h => by
    obtain ⟨blocks', hpiece⟩ := mailEnd_of_delivered hblocks hflatten h
    exact ⟨[], .terminator hpiece⟩
  | (c :: y) :: lines, blocks, v, r, n, hblocks, hplain, hflatten, h => by
    obtain ⟨hline, hdot⟩ := hplain _ List.mem_cons_self
    rw [content_cons, List.append_assoc _ (content lines)] at hflatten
    obtain ⟨blocks₁, blocks₂, hfirst, hrest⟩ := line_of_delivered hblocks hline hdot hflatten h
    have hflatten' : blocks₂.flatten = content lines ++ mailEnd := by
      rw [hfirst.flatten, hrest.flatten, ← List.append_assoc] at hflatten
      exact List.append_cancel_left hflatten
    rw [readFrom_line hline hdot hfirst hrest] at h
    obtain ⟨entries, hentries⟩ := lines_of_delivered
      (hrest.nonempty (hfirst.nonempty hblocks))
      (fun line hline => hplain line (List.mem_cons_of_mem _ hline)) hflatten' h
    exact ⟨_, .line hfirst hrest hentries⟩
  | [] :: lines, blocks, v, r, n, hblocks, hplain, hflatten, h => by
    rw [content_cons, List.nil_append, List.append_assoc] at hflatten
    rcases emptyLine_of_delivered hblocks hflatten h with
      ⟨blocks', hcrlf⟩ | ⟨blocks₁, hreturn, hflatten₁, h₁⟩
    · rw [hcrlf.flatten] at hflatten
      rw [readFrom_emptyLine hcrlf] at h
      obtain ⟨entries, hentries⟩ := lines_of_delivered (hcrlf.nonempty hblocks)
        (fun line hline => hplain line (List.mem_cons_of_mem _ hline))
        (List.append_cancel_left hflatten) h
      exact ⟨entries, .lost hcrlf hentries⟩
    · have hblocks₁ := hreturn.piece.nonempty hblocks
      cases lines with
      | nil =>
        have hline : carriageReturn ∉ [lineFeed, dot] := by decide
        have hend : blocks₁.flatten = [lineFeed, dot] ++ crlf ++ [] := hflatten₁
        obtain ⟨blocks₂, hpiece⟩ := piece_of_delivered hblocks₁ hline hend h₁
        rw [readFrom_multilineText hline hpiece] at h₁
        refine absurd h₁ (not_delivered_of_flatten (hpiece.nonempty hblocks₁) ?_)
        rw [hpiece.flatten] at hend
        exact List.append_cancel_left hend
      | cons y lines =>
        obtain ⟨hy, -⟩ := hplain y (by simp)
        have hline : carriageReturn ∉ lineFeed :: y := by
          simpa [carriageReturn, lineFeed] using return_notMem_plain hy
        have hnext : blocks₁.flatten = lineFeed :: y ++ crlf ++ (content lines ++ mailEnd) := by
          rw [hflatten₁, content_cons]
          simp
        obtain ⟨blocks₂, hpiece⟩ := piece_of_delivered hblocks₁ hline hnext h₁
        rw [readFrom_multilineText hline hpiece] at h₁
        rw [hpiece.flatten] at hnext
        obtain ⟨entries, hentries⟩ := lines_of_delivered (hpiece.nonempty hblocks₁)
          (fun line hline => hplain line (by simp [hline])) (List.append_cancel_left hnext) h₁
        exact ⟨_, .joined hreturn hpiece hentries⟩

end Delivered

section Strings

variable {s line y : Bytes} {c : UInt8}

theorem zero_notMem_cString (s : Bytes) : 0 ∉ cString s := by
  intro h
  have hne := List.mem_takeWhile_imp h
  simp at hne

theorem cString_eq (h : 0 ∉ s) : cString s = s := by
  refine List.takeWhile_eq_self_iff.mpr fun b hb => ?_
  rw [bne_iff_ne]
  rintro rfl
  exact h hb

theorem cString_subset (s : Bytes) : cString s ⊆ s := List.takeWhile_subset _

theorem stuff_nil : stuff [] = [] := rfl

theorem stuff_of_ne_dot (h : line.head? ≠ some dot) : stuff line = line := if_neg h

theorem stuff_eq_nil (h : stuff line = []) : line = [] := by
  rw [stuff] at h
  split_ifs at h
  exact h

theorem stuff_plain (h : IsPlain line) : IsPlain (stuff line) := by
  rw [stuff]
  split_ifs
  · intro b hb
    rcases List.mem_cons.mp hb with rfl | hb
    · decide
    · exact h b hb
  · exact h

theorem stuff_ne_dot (line : Bytes) : stuff line ≠ [dot] := by
  rw [stuff]
  split_ifs with h
  · intro heq
    rw [(List.cons.inj heq).2] at h
    cases h
  · intro heq
    exact h (by rw [heq]; rfl)

theorem begun_append (hstuff : stuff line = c :: y) (h : 0 ∉ line) : begun c ++ cString y = line := by
  by_cases hdot : line.head? = some dot
  · rw [stuff, if_pos hdot] at hstuff
    obtain ⟨rfl, rfl⟩ := List.cons.inj hstuff
    rw [begun, if_pos rfl, List.nil_append, cString_eq h]
  · rw [stuff_of_ne_dot hdot] at hstuff
    subst hstuff
    have hc : c ≠ dot := fun heq => hdot (congrArg some heq)
    rw [begun, if_neg hc, cString_eq fun hin => h (by simp_all), cString_eq fun hin =>
      h (List.mem_cons_of_mem c hin)]
    rfl

theorem begun_subset (c : UInt8) : begun c ⊆ [c] := by
  rw [begun]
  split_ifs
  · exact List.nil_subset _
  · exact cString_subset [c]

/-- What is read of a line has neither NUL nor carriage return. -/
theorem zero_notMem_begun (c : UInt8) (y : Bytes) : 0 ∉ begun c ++ cString y := by
  rw [List.mem_append, not_or, begun]
  refine ⟨?_, zero_notMem_cString y⟩
  split_ifs
  · exact List.not_mem_nil
  · exact zero_notMem_cString [c]

theorem return_notMem_begun (h : IsPlain (c :: y)) : carriageReturn ∉ begun c ++ cString y := by
  intro hin
  have hmem : carriageReturn ∈ c :: y := by
    rcases List.mem_append.mp hin with hin | hin
    · exact List.mem_cons.mpr (Or.inl (List.mem_singleton.mp (begun_subset c hin)))
    · exact List.mem_cons_of_mem c (cString_subset y hin)
  exact return_notMem_plain h hmem

/-- Only a line that does not start with a dot is what it has been stuffed to. -/
theorem head?_of_cString_stuff (h : cString (stuff line) = line) :
    line.head? ≠ some dot ∧ 0 ∉ line := by
  have hzero : 0 ∉ line := h ▸ zero_notMem_cString (stuff line)
  refine ⟨fun hdot => ?_, hzero⟩
  have hstuffed : 0 ∉ dot :: line := by
    rw [List.mem_cons, not_or]
    exact ⟨by decide, hzero⟩
  rw [stuff, if_pos hdot, cString_eq hstuffed] at h
  exact absurd (congrArg List.length h) (by simp)

end Strings

section Intact

variable {mail entries : List Bytes} {line : Bytes}

theorem Intact.lines (h : Intact mail blocks) :
    ∃ entries, Lines (mail.map stuff) blocks entries ∧ entries.flatten = content mail := by
  induction h with
  | mailEnd hpiece => exact ⟨[], .terminator hpiece, rfl⟩
  | @line line c y _ _ _ _ hstuff hzero hfirst hrest _ ih =>
    obtain ⟨entries, hentries, hflatten⟩ := ih
    refine ⟨(begun c ++ cString y ++ crlf) :: entries, ?_, ?_⟩
    · rw [List.map_cons, hstuff]
      exact .line hfirst hrest hentries
    · rw [List.flatten_cons, hflatten, begun_append hstuff hzero, content_cons]
  | @joined line mail _ _ _ hdot hzero hreturn hrest _ ih =>
    obtain ⟨entries, hentries, hflatten⟩ := ih
    refine ⟨([carriageReturn] ++ cString (lineFeed :: line) ++ crlf) :: entries, ?_, ?_⟩
    · rw [List.map_cons, List.map_cons, stuff_nil, stuff_of_ne_dot hdot]
      exact .joined hreturn hrest hentries
    · have hfeed : 0 ∉ lineFeed :: line := by
        rw [List.mem_cons, not_or]
        exact ⟨by decide, hzero⟩
      rw [List.flatten_cons, hflatten, cString_eq hfeed]
      rfl

theorem OneLost.lines (h : OneLost mail blocks) :
    ∃ entries, Lines (mail.map stuff) blocks entries ∧ crlf ++ entries.flatten = content mail := by
  induction h with
  | lost hpiece hintact =>
    obtain ⟨entries, hentries, hflatten⟩ := hintact.lines
    exact ⟨entries, .lost hpiece hentries, congrArg (crlf ++ ·) hflatten⟩
  | @joined mail _ _ _ hreturn hrest _ ih =>
    obtain ⟨entries, hentries, hflatten⟩ := ih
    refine ⟨([carriageReturn] ++ cString [lineFeed] ++ crlf) :: entries,
      .joined hreturn hrest hentries, ?_⟩
    rw [content_cons, content_cons, ← hflatten, List.flatten_cons]
    rfl

theorem count_content (hplain : ∀ line ∈ mail, IsPlain line) :
    (content mail).count lineFeed = mail.length := by
  induction mail with
  | nil => rfl
  | cons line mail ih =>
    have hline : line.count lineFeed = 0 :=
      List.count_eq_zero.mpr (lineFeed_notMem_plain (hplain line List.mem_cons_self))
    rw [content_cons, List.count_append, List.count_append, hline,
      ih fun line hline => hplain line (List.mem_cons_of_mem _ hline), List.length_cons]
    have hcrlf : List.count lineFeed crlf = 1 := by decide
    omega

/-- Reading loses line ends, and adds none. -/
theorem Lines.count_le {lines : List Bytes} (h : Lines lines blocks entries)
    (hplain : ∀ line ∈ lines, IsPlain line) :
    entries.flatten.count lineFeed ≤ lines.length := by
  have hcrlf : List.count lineFeed crlf = 1 := by decide
  induction h with
  | terminator _ => exact le_refl _
  | @line c y lines _ _ _ entries _ _ _ ih =>
    have hline : IsPlain (c :: y) := hplain _ List.mem_cons_self
    have hfirst : (begun c).count lineFeed = 0 := by
      refine List.count_eq_zero.mpr fun hin => ?_
      exact lineFeed_notMem_plain hline
        (List.mem_cons.mpr (Or.inl (List.mem_singleton.mp (begun_subset c hin))))
    have hrest : (cString y).count lineFeed = 0 := by
      refine List.count_eq_zero.mpr fun hin => ?_
      exact lineFeed_notMem_plain hline (List.mem_cons_of_mem c (cString_subset y hin))
    have hle := ih fun line hline => hplain line (List.mem_cons_of_mem _ hline)
    rw [List.flatten_cons, List.count_append, List.count_append, List.count_append,
      List.length_cons]
    omega
  | lost _ _ ih =>
    exact Nat.le_succ_of_le (ih fun line hline => hplain line (List.mem_cons_of_mem _ hline))
  | @joined y lines _ _ _ entries _ _ _ ih =>
    have hy : IsPlain y := hplain y (by simp)
    have hfeed : (cString (lineFeed :: y)).count lineFeed = 1 := by
      have hzero : (cString y).count lineFeed = 0 :=
        List.count_eq_zero.mpr fun hin => lineFeed_notMem_plain hy (cString_subset y hin)
      show (lineFeed :: cString y).count lineFeed = 1
      rw [List.count_cons_self, hzero]
    have hreturn : List.count lineFeed [carriageReturn] = 0 := by decide
    have hle := ih fun line hline => hplain line (by simp [hline])
    rw [List.flatten_cons, List.count_append, List.count_append, List.count_append,
      List.length_cons, List.length_cons]
    omega

/-- What is read as the mail is the mail only if it has come out whole. -/
theorem Lines.intact {lines : List Bytes} (h : Lines lines blocks entries)
    (hlines : lines = mail.map stuff) (hplain : ∀ line ∈ mail, IsPlain line)
    (hflatten : entries.flatten = content mail) : Intact mail blocks := by
  induction h generalizing mail with
  | terminator hpiece =>
    obtain rfl := List.map_eq_nil_iff.mp hlines.symm
    exact .mailEnd hpiece
  | @line c y lines _ _ _ entries hfirst hrest _ ih =>
    obtain ⟨line, mail, rfl, hstuff, htail⟩ := List.map_eq_cons_iff.mp hlines.symm
    have hline : IsPlain line := hplain line List.mem_cons_self
    have hread : carriageReturn ∉ begun c ++ cString y :=
      return_notMem_begun (hstuff ▸ stuff_plain hline)
    obtain ⟨heq, hrest'⟩ := line_unique hread (return_notMem_plain hline) hflatten
    exact .line hstuff (heq ▸ zero_notMem_begun c y) hfirst hrest
      (ih htail.symm (fun line hline => hplain line (List.mem_cons_of_mem _ hline)) hrest')
  | @lost lines _ _ entries hpiece hentries ih =>
    obtain ⟨line, mail, rfl, hstuff, htail⟩ := List.map_eq_cons_iff.mp hlines.symm
    have hmail : ∀ line ∈ mail, IsPlain line := fun line hline =>
      hplain line (List.mem_cons_of_mem _ hline)
    -- there are fewer line ends than in the mail
    have hle := hentries.count_le fun line hline => by
      rw [← htail] at hline
      obtain ⟨line', hline', rfl⟩ := List.mem_map.mp hline
      exact stuff_plain (hmail line' hline')
    rw [hflatten, count_content hplain, ← htail, List.length_map, List.length_cons] at hle
    exact absurd hle (Nat.not_succ_le_self _)
  | @joined y lines _ _ _ entries hreturn hrest _ ih =>
    obtain ⟨first, mail, rfl, hfirst, htail⟩ := List.map_eq_cons_iff.mp hlines.symm
    obtain ⟨line, mail, rfl, hstuff, htail'⟩ := List.map_eq_cons_iff.mp htail
    obtain rfl := stuff_eq_nil hfirst
    have hline : IsPlain line := hplain line (by simp)
    have hread : carriageReturn ∉ cString y := fun hin =>
      return_notMem_plain (hstuff ▸ stuff_plain hline) (cString_subset y hin)
    have hfeed : ([carriageReturn] ++ cString (lineFeed :: y) ++ crlf) ++ entries.flatten =
        crlf ++ (cString y ++ crlf ++ entries.flatten) := by
      show carriageReturn :: lineFeed :: (cString y ++ crlf) ++ entries.flatten = _
      simp [crlf]
    rw [List.flatten_cons, hfeed, content_cons, List.nil_append] at hflatten
    obtain ⟨heq, hrest'⟩ := line_unique hread (return_notMem_plain hline)
      (List.append_cancel_left hflatten)
    rw [← hstuff] at heq
    obtain ⟨hdot, hzero⟩ := head?_of_cString_stuff heq
    rw [stuff_of_ne_dot hdot] at hstuff
    subst hstuff
    exact .joined hdot hzero hreturn hrest
      (ih htail'.symm (fun line hline => hplain line (by simp [hline])) hrest')

/-- Where an empty line is missing at the start of what is read, it has been lost. -/
theorem Lines.oneLost {lines : List Bytes} (h : Lines lines blocks entries)
    (hlines : lines = mail.map stuff) (hplain : ∀ line ∈ mail, IsPlain line)
    (hflatten : crlf ++ entries.flatten = content mail) : OneLost mail blocks := by
  induction h generalizing mail with
  | terminator _ =>
    obtain rfl := List.map_eq_nil_iff.mp hlines.symm
    cases hflatten
  | line _ _ _ _ =>
    obtain ⟨line, mail, rfl, hstuff, -⟩ := List.map_eq_cons_iff.mp hlines.symm
    obtain ⟨rfl, -⟩ := line_unique List.not_mem_nil
      (return_notMem_plain (hplain line List.mem_cons_self)) hflatten
    cases hstuff
  | @lost lines _ _ entries hpiece hentries _ =>
    obtain ⟨line, mail, rfl, hstuff, htail⟩ := List.map_eq_cons_iff.mp hlines.symm
    obtain rfl := stuff_eq_nil hstuff
    exact .lost hpiece (hentries.intact htail.symm
      (fun line hline => hplain line (List.mem_cons_of_mem _ hline))
      (List.append_cancel_left hflatten))
  | @joined y lines _ _ _ entries hreturn hrest _ ih =>
    obtain ⟨first, mail, rfl, hfirst, htail⟩ := List.map_eq_cons_iff.mp hlines.symm
    obtain ⟨line, mail, rfl, hstuff, htail'⟩ := List.map_eq_cons_iff.mp htail
    obtain rfl := stuff_eq_nil hfirst
    have hline : IsPlain line := hplain line (by simp)
    have hflatten' : crlf ++ (cString y ++ crlf ++ entries.flatten) = line ++ crlf ++ content mail := by
      have hall : (([carriageReturn] ++ cString (lineFeed :: y) ++ crlf) :: entries).flatten =
          content (line :: mail) := List.append_cancel_left hflatten
      rw [← content_cons, ← hall]
      show _ = carriageReturn :: lineFeed :: (cString y ++ crlf) ++ entries.flatten
      simp [crlf]
    obtain ⟨rfl, hrest'⟩ := line_unique List.not_mem_nil (return_notMem_plain hline) hflatten'
    obtain rfl : y = [] := hstuff.symm
    exact .joined hreturn hrest
      (ih htail'.symm (fun line hline => hplain line (by simp [hline])) hrest')

theorem Lines.no_line_missing {lines : List Bytes} (h : Lines lines blocks entries)
    (hlines : lines = mail.map stuff) (hplain : ∀ line ∈ mail, IsPlain line) {line : Bytes}
    (hne : line ≠ []) (hdot : line.head? ≠ some dot) (hline : IsPlain line) (hzero : 0 ∉ line) :
    line ++ crlf ++ entries.flatten ≠ content mail := by
  intro hflatten
  induction mail generalizing lines blocks entries with
  | nil =>
    obtain ⟨c, line, rfl⟩ := List.exists_cons_of_ne_nil hne
    cases hflatten
  | cons first mail ih =>
    obtain ⟨rfl, hrest⟩ := line_unique (return_notMem_plain hline)
      (return_notMem_plain (hplain first List.mem_cons_self)) hflatten
    rw [List.map_cons, stuff_of_ne_dot hdot] at hlines
    cases h with
    | terminator _ => cases hlines
    | lost _ _ =>
      obtain ⟨rfl, -⟩ := List.cons.inj hlines
      exact hne rfl
    | joined _ _ _ =>
      obtain ⟨rfl, -⟩ := List.cons.inj hlines
      exact hne rfl
    | line _ _ hentries =>
      obtain ⟨rfl, htail⟩ := List.cons.inj hlines
      rw [List.flatten_cons, begun_append (stuff_of_ne_dot hdot) hzero] at hrest
      exact ih hentries htail (fun line hline => hplain line (List.mem_cons_of_mem _ hline)) hrest

end Intact

end ACENetwork.POP
