import ACENetwork.Library.Text

/-!
# Lines that end in CR LF

A line is what goes up to the first CR LF. In a text whose carriage returns and line feeds
come in pairs, the lines are what the line feeds end.
-/
namespace ACENetwork.Library

def carriageReturn : UInt8 := 0x0D

def lineFeed : UInt8 := 0x0A

def crlf : Bytes := [carriageReturn, lineFeed]

/-- A line: it ends in CR LF, and no other CR LF is inside. -/
def IsLine (line : Bytes) : Prop := crlf <:+ line ∧ ¬ crlf <:+: line.dropLast

def isPlain (b : UInt8) : Bool := b != carriageReturn && b != lineFeed

/-- Every line feed has a carriage return before it, and every carriage return has a line feed
behind it, unless the text ends there. -/
def Paired (text : Bytes) : Prop :=
  text.head? ≠ some lineFeed ∧ text.IsChain fun a b => a = carriageReturn ↔ b = lineFeed

instance Paired.decidable (text : Bytes) : Decidable (Paired text) :=
  inferInstanceAs (Decidable (_ ∧ _))

section Plain

variable {body : Bytes}

theorem ne_of_isPlain {b : UInt8} (h : isPlain b = true) : b ≠ carriageReturn ∧ b ≠ lineFeed := by
  simpa [isPlain] using h

theorem not_crlf_cons {b : UInt8} (h : b ≠ carriageReturn) (rest : Bytes) :
    ¬ crlf <+: b :: rest := by
  rintro ⟨tail, htail⟩
  exact h (List.cons.inj htail).1.symm

theorem not_crlf_of_plain {b : UInt8} (hb : isPlain b = true) (rest : Bytes) :
    ¬ crlf <+: b :: rest := not_crlf_cons (ne_of_isPlain hb).1 rest

theorem lineFeed_notMem_plain (h : ∀ b ∈ body, isPlain b = true) : lineFeed ∉ body :=
  fun hin => (ne_of_isPlain (h lineFeed hin)).2 rfl

theorem not_crlf_infix {text : Bytes} (h : lineFeed ∉ text) : ¬ crlf <:+: text := fun hin =>
  h (hin.subset (by simp [crlf]))

theorem not_crlf_infix_plain (h : ∀ b ∈ body, isPlain b = true) : ¬ crlf <:+: body :=
  not_crlf_infix (lineFeed_notMem_plain h)

theorem lineFeed_notMem_pending (h : ∀ b ∈ body, isPlain b = true) :
    lineFeed ∉ body ++ [carriageReturn] := by
  simpa [carriageReturn, lineFeed] using lineFeed_notMem_plain h

theorem not_crlf_infix_pending (h : ∀ b ∈ body, isPlain b = true) :
    ¬ crlf <:+: body ++ [carriageReturn] :=
  not_crlf_infix (lineFeed_notMem_pending h)

theorem isLine_of_plain (h : ∀ b ∈ body, isPlain b = true) : IsLine (body ++ crlf) := by
  refine ⟨List.suffix_append body crlf, ?_⟩
  have hdrop : (body ++ crlf).dropLast = body ++ [carriageReturn] := by
    simp [crlf, List.dropLast_append_of_ne_nil]
  rw [hdrop]
  exact not_crlf_infix_pending h

end Plain

theorem Paired.of_plain {c : UInt8} {text : Bytes} (h : Paired (c :: text))
    (hc : c ≠ carriageReturn) : Paired text := by
  obtain ⟨-, hchain⟩ := h
  obtain ⟨hnext, htail⟩ := List.isChain_cons.mp hchain
  refine ⟨fun hhead => hc ?_, htail⟩
  exact (hnext lineFeed hhead).mpr rfl

theorem Paired.of_append_plain {body text : Bytes} (h : Paired (body ++ text))
    (hbody : ∀ b ∈ body, isPlain b = true) : Paired text := by
  induction body with
  | nil => exact h
  | cons c body ih =>
    have hc := ne_of_isPlain (hbody c List.mem_cons_self)
    exact ih (h.of_plain hc.1) fun b hb => hbody b (List.mem_cons_of_mem c hb)

theorem Paired.lineFeed_of_return {d : UInt8} {rest : Bytes}
    (h : Paired (carriageReturn :: d :: rest)) : d = lineFeed ∧ Paired rest := by
  obtain ⟨-, hchain⟩ := h
  obtain ⟨hnext, htail⟩ := List.isChain_cons_cons.mp hchain
  obtain rfl := hnext.mp rfl
  obtain ⟨hnext', htail'⟩ := List.isChain_cons.mp htail
  refine ⟨rfl, fun hhead => ?_, htail'⟩
  have himpossible : lineFeed = carriageReturn := (hnext' lineFeed hhead).mpr rfl
  exact absurd himpossible (by decide)

/-- What a paired text starts with: it has no line feed and is open or has a pending carriage
return, or it starts with a line. -/
theorem Paired.cases {text : Bytes} (h : Paired text) :
    (∀ b ∈ text, isPlain b = true) ∨
      (∃ body, (∀ b ∈ body, isPlain b = true) ∧ text = body ++ [carriageReturn]) ∨
      ∃ body rest, (∀ b ∈ body, isPlain b = true) ∧ text = body ++ crlf ++ rest ∧ Paired rest := by
  induction text with
  | nil => exact Or.inl (by simp)
  | cons c text ih =>
    by_cases hreturn : c = carriageReturn
    · subst hreturn
      cases text with
      | nil => exact Or.inr (Or.inl ⟨[], by simp, rfl⟩)
      | cons d rest =>
        obtain ⟨rfl, hrest⟩ := h.lineFeed_of_return
        exact Or.inr (Or.inr ⟨[], rest, by simp, rfl, hrest⟩)
    · have hfeed : c ≠ lineFeed := fun heq => h.1 (congrArg some heq)
      have hplain : isPlain c = true := by simp [isPlain, hreturn, hfeed]
      have hcons {body : Bytes} (hbody : ∀ b ∈ body, isPlain b = true) :
          ∀ b ∈ c :: body, isPlain b = true := by simpa [hplain] using hbody
      rcases ih (h.of_plain hreturn) with hall | ⟨body, hbody, rfl⟩ | ⟨body, rest, hbody, rfl, hrest⟩
      · exact Or.inl (hcons hall)
      · exact Or.inr (Or.inl ⟨c :: body, hcons hbody, rfl⟩)
      · exact Or.inr (Or.inr ⟨c :: body, rest, hcons hbody, rfl, hrest⟩)

section Lines

variable {line line' left rest rest' run tail text : Bytes} {lines lines' : List Bytes}

theorem IsLine.eq_of_append (h : IsLine line) (h' : IsLine line')
    (heq : line ++ rest = line' ++ rest') : line = line' ∧ rest = rest' := by
  have hlonger {short long more : Bytes} (hshort : IsLine short) (hlong : IsLine long)
      (hmore : long = short ++ more) : more = [] := by
    by_contra hne
    refine hlong.2 ?_
    rw [hmore, List.dropLast_append_of_ne_nil hne]
    exact hshort.1.isInfix.trans (List.prefix_append _ _).isInfix
  rcases List.append_eq_append_iff.mp heq with ⟨more, hline', hrest⟩ | ⟨more, hline, hrest⟩
  · obtain rfl := hlonger h h' hline'
    exact ⟨by simpa using hline'.symm, by simpa using hrest⟩
  · obtain rfl := hlonger h' h hline
    exact ⟨by simpa using hline, by simpa using hrest.symm⟩

/-- The lines in front of a text of lines, and one that has not ended, are the first ones of them. -/
theorem lines_front (hlines : ∀ line ∈ lines, IsLine line) (hlines' : ∀ line ∈ lines', IsLine line)
    (htail : ¬ crlf <:+: tail) (heq : lines.flatten ++ left = lines'.flatten ++ tail) :
    ∃ more, lines' = lines ++ more ∧ left = more.flatten ++ tail := by
  induction lines generalizing lines' with
  | nil => exact ⟨lines', rfl, heq⟩
  | cons line lines ih =>
    rw [List.flatten_cons, List.append_assoc] at heq
    cases lines' with
    | nil =>
      have hline := (hlines line List.mem_cons_self).1.isInfix
      exact absurd (hline.trans ⟨[], _, heq⟩) htail
    | cons line' lines' =>
      rw [List.flatten_cons, List.append_assoc] at heq
      obtain ⟨rfl, hrest⟩ := (hlines line List.mem_cons_self).eq_of_append
        (hlines' line' List.mem_cons_self) heq
      obtain ⟨more, rfl, hleft⟩ := ih (fun line hline => hlines line (List.mem_cons_of_mem _ hline))
        (fun line hline => hlines' line (List.mem_cons_of_mem _ hline)) hrest
      exact ⟨more, rfl, hleft⟩

theorem Paired.of_prefix (h : Paired (text ++ rest)) : Paired text := by
  refine ⟨fun hhead => h.1 ?_, h.2.left_of_append⟩
  rw [List.head?_append, hhead]
  rfl

theorem Paired.run_append (hrun : ∀ b ∈ run, isPlain b = true) (h : Paired text) :
    Paired (run ++ text) := by
  induction run with
  | nil => exact h
  | cons c run ih =>
    obtain ⟨hreturn, hfeed⟩ := ne_of_isPlain (hrun c List.mem_cons_self)
    obtain ⟨hhead, hchain⟩ := ih fun b hb => hrun b (List.mem_cons_of_mem c hb)
    refine ⟨fun h => hfeed (Option.some.inj h), List.isChain_cons.mpr ⟨fun d hd => ?_, hchain⟩⟩
    refine iff_of_false hreturn ?_
    rintro rfl
    exact hhead hd

theorem Paired.crlf_append (h : Paired text) : Paired (crlf ++ text) := by
  have hreturn : lineFeed ≠ carriageReturn := by decide
  refine ⟨fun hhead => hreturn (Option.some.inj hhead).symm,
    List.isChain_cons_cons.mpr ⟨iff_of_true rfl rfl, ?_⟩⟩
  refine List.isChain_cons.mpr ⟨fun d hd => iff_of_false hreturn ?_, h.2⟩
  rintro rfl
  exact h.1 hd

theorem Paired.lines_append (hlines : ∀ line ∈ lines, ∃ body, line = body ++ crlf ∧
    ∀ b ∈ body, isPlain b = true) (h : Paired text) : Paired (lines.flatten ++ text) := by
  induction lines with
  | nil => exact h
  | cons line lines ih =>
    obtain ⟨body, rfl, hbody⟩ := hlines line List.mem_cons_self
    rw [List.flatten_cons, List.append_assoc, List.append_assoc]
    exact .run_append hbody
      (ih fun line hline => hlines line (List.mem_cons_of_mem _ hline)).crlf_append

theorem Paired.lineFeed_notMem (h : Paired text) (hcrlf : ¬ crlf <:+: text) : lineFeed ∉ text := by
  rcases h.cases with hplain | ⟨body, hplain, rfl⟩ | ⟨body, rest, -, rfl, -⟩
  · exact lineFeed_notMem_plain hplain
  · exact lineFeed_notMem_pending hplain
  · exact absurd ⟨body, rest, rfl⟩ hcrlf

end Lines

section UpToLineEnd

/-- What stands before the first carriage return, where that starts a CR LF. -/
def upToLineEnd (text : Bytes) : Option Bytes :=
  if crlf <+: text.dropWhile (· != carriageReturn) then
    some (text.takeWhile (· != carriageReturn))
  else none

variable {body body' rest rest' : Bytes}

theorem ne_return_of_notMem (h : carriageReturn ∉ body) :
    ∀ b ∈ body, (b != carriageReturn) = true := by
  intro b hb
  rw [bne_iff_ne]
  rintro rfl
  exact h hb

theorem return_notMem_plain (h : ∀ b ∈ body, isPlain b = true) : carriageReturn ∉ body :=
  fun hin => (ne_of_isPlain (h carriageReturn hin)).1 rfl

theorem stops_crlf (rest : Bytes) : Stops (· != carriageReturn) (crlf ++ rest) := by
  intro b hb
  obtain rfl : carriageReturn = b := by simpa [crlf] using hb
  rfl

theorem line_unique (h : carriageReturn ∉ body) (h' : carriageReturn ∉ body')
    (heq : body ++ crlf ++ rest = body' ++ crlf ++ rest') : body = body' ∧ rest = rest' := by
  rw [List.append_assoc, List.append_assoc] at heq
  obtain ⟨rfl, hrest⟩ := run_unique (ne_return_of_notMem h) (ne_return_of_notMem h')
    (stops_crlf rest) (stops_crlf rest') heq
  exact ⟨rfl, List.append_cancel_left hrest⟩

theorem upToLineEnd_append (h : carriageReturn ∉ body) (rest : Bytes) :
    upToLineEnd (body ++ crlf ++ rest) = some body := by
  rw [List.append_assoc, upToLineEnd, dropWhile_run (ne_return_of_notMem h) (stops_crlf rest),
    takeWhile_run (ne_return_of_notMem h) (stops_crlf rest), if_pos (List.prefix_append crlf rest)]

theorem upToLineEnd_eq_some {text : Bytes} (h : upToLineEnd text = some body) :
    carriageReturn ∉ body ∧ ∃ rest, text = body ++ crlf ++ rest := by
  rw [upToLineEnd] at h
  split_ifs at h with hcrlf
  obtain ⟨rest, hrest⟩ := hcrlf
  obtain rfl := Option.some.inj h
  refine ⟨fun hin => ?_, rest, ?_⟩
  · have hne := List.mem_takeWhile_imp hin
    simp at hne
  · rw [List.append_assoc, hrest, List.takeWhile_append_dropWhile]

end UpToLineEnd

section UpToLastLineEnd

def upToLastLineEnd : Bytes → Option Bytes
  | [] => none
  | b :: rest =>
    match upToLastLineEnd rest with
    | some body => some (b :: body)
    | none => if crlf <+: b :: rest then some [] else none

variable {b : UInt8} {body rest text : Bytes}

theorem upToLastLineEnd_before (h : upToLastLineEnd rest = some body) :
    upToLastLineEnd (b :: rest) = some (b :: body) := by
  rw [upToLastLineEnd, h]

theorem upToLastLineEnd_here (h : upToLastLineEnd rest = none) :
    upToLastLineEnd (b :: rest) = if crlf <+: b :: rest then some [] else none := by
  rw [upToLastLineEnd, h]

theorem upToLastLineEnd_none (h : ¬ crlf <:+: text) : upToLastLineEnd text = none := by
  induction text with
  | nil => rfl
  | cons b text ih =>
    rw [List.infix_cons_iff, not_or] at h
    rw [upToLastLineEnd_here (ih h.2)]
    exact if_neg h.1

theorem upToLastLineEnd_append (body : Bytes) (h : ¬ crlf <:+: rest) :
    upToLastLineEnd (body ++ (crlf ++ rest)) = some body := by
  induction body with
  | nil =>
    have hrest : ¬ crlf <:+: lineFeed :: rest := by
      rw [List.infix_cons_iff, not_or]
      exact ⟨not_crlf_cons (by decide) rest, h⟩
    have hhere : upToLastLineEnd (crlf ++ rest) = if crlf <+: crlf ++ rest then some [] else none :=
      upToLastLineEnd_here (upToLastLineEnd_none hrest)
    rw [List.nil_append, hhere, if_pos (List.prefix_append crlf rest)]
  | cons b body ih => exact upToLastLineEnd_before ih

theorem upToLastLineEnd_of_infix (front back : Bytes) :
    ∃ body, upToLastLineEnd (front ++ (crlf ++ back)) = some body := by
  induction front with
  | nil =>
    have hcrlf : [] ++ (crlf ++ back) = carriageReturn :: lineFeed :: back := rfl
    rw [hcrlf]
    cases htail : upToLastLineEnd (lineFeed :: back) with
    | some body => exact ⟨_, upToLastLineEnd_before htail⟩
    | none =>
      refine ⟨[], ?_⟩
      rw [upToLastLineEnd_here htail]
      exact if_pos (List.prefix_append crlf back)
  | cons b front ih =>
    obtain ⟨body, hbody⟩ := ih
    exact ⟨b :: body, upToLastLineEnd_before hbody⟩

theorem upToLastLineEnd_eq_some (h : upToLastLineEnd text = some body) :
    ∃ rest, text = body ++ (crlf ++ rest) ∧ ¬ crlf <:+: rest := by
  induction text generalizing body with
  | nil => cases h
  | cons b text ih =>
    cases htail : upToLastLineEnd text with
    | some body' =>
      rw [upToLastLineEnd_before htail] at h
      cases h
      obtain ⟨rest, rfl, hrest⟩ := ih htail
      exact ⟨rest, rfl, hrest⟩
    | none =>
      rw [upToLastLineEnd_here htail] at h
      split_ifs at h with hcrlf
      cases h
      obtain ⟨rest, hrest⟩ := hcrlf
      obtain ⟨rfl, htext⟩ := List.cons.inj hrest
      refine ⟨rest, hrest.symm, fun ⟨front, back, hin⟩ => ?_⟩
      have hsplit : text = lineFeed :: front ++ (crlf ++ back) := by
        rw [← htext, ← hin]
        simp
      obtain ⟨body', hbody'⟩ := upToLastLineEnd_of_infix (lineFeed :: front) back
      rw [hsplit, hbody'] at htail
      cases htail

end UpToLastLineEnd

section SplitLines

/-- The lines of a text without their line ends, and the line that has not ended; `line` has been
read of the first one. -/
def splitLines (line : Bytes) : Bytes → List Bytes × Bytes
  | [] => ([], line)
  | [b] => ([], line ++ [b])
  | b :: d :: text =>
    if b = carriageReturn ∧ d = lineFeed then
      (line :: (splitLines [] text).1, (splitLines [] text).2)
    else splitLines (line ++ [b]) (d :: text)

/-- No line end of the text is cut, and none is half a line end. -/
def Unbroken (text : Bytes) : Prop := Paired text ∧ text.getLast? ≠ some carriageReturn

instance Unbroken.decidable (text : Bytes) : Decidable (Unbroken text) :=
  inferInstanceAs (Decidable (_ ∧ _))

variable {run text rest : Bytes}

theorem splitLines_crlf (line text : Bytes) :
    splitLines line (crlf ++ text) =
      (line :: (splitLines [] text).1, (splitLines [] text).2) :=
  if_pos ⟨rfl, rfl⟩

theorem splitLines_plain (line : Bytes) (hrun : ∀ b ∈ run, isPlain b = true) (text : Bytes) :
    splitLines line (run ++ text) = splitLines (line ++ run) text := by
  induction run generalizing line with
  | nil => rw [List.nil_append, List.append_nil]
  | cons b run ih =>
    have hb := ne_of_isPlain (hrun b List.mem_cons_self)
    have htail := ih (line ++ [b]) fun d hd => hrun d (List.mem_cons_of_mem b hd)
    rw [List.append_cons line b run, ← htail, List.cons_append]
    cases run ++ text with
    | nil => rfl
    | cons d rest => exact if_neg fun h => hb.1 h.1

theorem unbroken_cons {c : UInt8} (hc : isPlain c = true) :
    Unbroken (c :: text) ↔ Unbroken text := by
  obtain ⟨hreturn, hfeed⟩ := ne_of_isPlain hc
  cases text with
  | nil => simp [Unbroken, Paired, hreturn, hfeed]
  | cons d text =>
    rw [Unbroken, Unbroken, List.getLast?_cons_cons]
    refine and_congr_left fun _ => ⟨fun h => h.of_plain hreturn, fun h => ?_⟩
    refine ⟨fun hhead => hfeed (Option.some.inj hhead), List.isChain_cons_cons.mpr ⟨?_, h.2⟩⟩
    exact iff_of_false hreturn fun hd => h.1 (congrArg some hd)

theorem unbroken_run (hrun : ∀ b ∈ run, isPlain b = true) :
    Unbroken (run ++ text) ↔ Unbroken text := by
  induction run with
  | nil => rfl
  | cons b run ih =>
    rw [List.cons_append, unbroken_cons (hrun b List.mem_cons_self)]
    exact ih fun d hd => hrun d (List.mem_cons_of_mem b hd)

theorem unbroken_crlf : Unbroken (crlf ++ text) ↔ Unbroken text := by
  have hreturn : lineFeed ≠ carriageReturn := by decide
  constructor
  · rintro ⟨hpaired, hlast⟩
    refine ⟨hpaired.lineFeed_of_return.2, fun h => hlast ?_⟩
    rw [List.getLast?_append, h]
    rfl
  · rintro ⟨⟨hhead, hchain⟩, hlast⟩
    refine ⟨⟨fun h => hreturn (Option.some.inj h).symm, List.isChain_cons_cons.mpr ⟨iff_of_true rfl rfl, ?_⟩⟩, fun h => ?_⟩
    · refine List.isChain_cons.mpr ⟨fun d hd => iff_of_false hreturn ?_, hchain⟩
      rintro rfl
      exact hhead hd
    · cases text with
      | nil => exact absurd h (by decide)
      | cons d text => exact hlast h

theorem not_unbroken {c : UInt8} (hc : isPlain c = false) (hcrlf : ¬ crlf <+: c :: text) :
    ¬ Unbroken (c :: text) := by
  rintro ⟨hpaired, hlast⟩
  by_cases hreturn : c = carriageReturn
  · subst hreturn
    cases text with
    | nil => exact hlast rfl
    | cons d text =>
      obtain ⟨rfl, -⟩ := hpaired.lineFeed_of_return
      exact hcrlf ⟨text, rfl⟩
  · have hfeed : c = lineFeed := by simpa [isPlain, hreturn] using hc
    exact hpaired.1 (congrArg some hfeed)

theorem text_cases (text : Bytes) :
    text = [] ∨ (∃ rest, text = crlf ++ rest) ∨
      (∃ c rest, text = c :: rest ∧ isPlain c = false ∧ ¬ crlf <+: text) ∨
      ∃ run rest, run ≠ [] ∧ (∀ b ∈ run, isPlain b = true) ∧ text = run ++ rest ∧
        text.takeWhile isPlain = run := by
  cases text with
  | nil => exact Or.inl rfl
  | cons c text =>
    by_cases hc : isPlain c = true
    · refine Or.inr (Or.inr (Or.inr ⟨(c :: text).takeWhile isPlain, (c :: text).dropWhile isPlain,
        ?_, fun b hb => List.mem_takeWhile_imp hb, List.takeWhile_append_dropWhile.symm, rfl⟩))
      rw [List.takeWhile_cons_of_pos hc]
      exact List.cons_ne_nil _ _
    · by_cases hcrlf : crlf <+: c :: text
      · obtain ⟨rest, hrest⟩ := hcrlf
        exact Or.inr (Or.inl ⟨rest, hrest.symm⟩)
      · exact Or.inr (Or.inr (Or.inl ⟨c, text, rfl, Bool.not_eq_true _ ▸ hc, hcrlf⟩))

theorem splitLines_append (line : Bytes) (htext : Unbroken text) (rest : Bytes) :
    splitLines line (text ++ rest) =
      ((splitLines line text).1 ++ (splitLines (splitLines line text).2 rest).1,
        (splitLines (splitLines line text).2 rest).2) := by
  induction hlength : text.length using Nat.strong_induction_on generalizing line text with
  | _ k ih =>
    subst hlength
    rcases text_cases text with rfl | ⟨tail, rfl⟩ | ⟨c, tail, rfl, hc, hcrlf⟩ |
      ⟨run, tail, hne, hrun, rfl, -⟩
    · rfl
    · have htail := ih tail.length (by simp [crlf]) [] (unbroken_crlf.1 htext) rfl
      rw [List.append_assoc, splitLines_crlf, splitLines_crlf, htail]
      rfl
    · exact absurd htext (not_unbroken hc hcrlf)
    · have hpos := List.length_pos_iff.mpr hne
      have htail := ih tail.length (by simp; omega) (line ++ run) ((unbroken_run hrun).mp htext) rfl
      rw [List.append_assoc, splitLines_plain line hrun, splitLines_plain line hrun, htail]

end SplitLines

end ACENetwork.Library
