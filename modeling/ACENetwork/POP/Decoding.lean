import ACENetwork.POP.Retrieval

/-!
# The status line of a retrieved mail

The text of the status line is read like a line of the mail, from its first character that is
not a blank or that starts a block. With it, a reply to RETR is decoded exactly where the mail
comes out whole.
-/
namespace ACENetwork.POP
open Library
open Library.Blocks (Piece Whole remaining)

/-- The text of the status line behind its blanks, and the mail: the text does not end the mail, and
if there is none, its line end is the empty line that is lost. -/
def TextIntact (rest : Bytes) (mail blocks : List Bytes) : Prop :=
  rest = [] ∧ OneLost ([] :: mail) blocks ∨
    ∃ c y blocks₁ blocks₂, rest = c :: y ∧ Piece [c] blocks blocks₁ ∧
      (rest = [dot] → Whole [dot] blocks blocks₁) ∧ Piece (y ++ crlf) blocks₁ blocks₂ ∧
      Intact mail blocks₂

/-- A reply to RETR that is decoded: the text of its status line is empty or starts with blanks, the
code and the blanks have not been cut, but for blanks that belong to the text, and the mail comes
out whole. -/
def Readable (status : Bytes) (mail blocks : List Bytes) : Prop :=
  ∃ blocks₁, Piece ok blocks blocks₁ ∧
    (status = [] ∧ (∃ blocks₂, Piece crlf blocks₁ blocks₂ ∧ Intact mail blocks₂) ∨
      ∃ blanks rest blocks₂, blanks ≠ [] ∧ (∀ b ∈ blanks, b = blank) ∧ status = blanks ++ rest ∧
        Piece blanks blocks₁ blocks₂ ∧ (rest.head? = some blank → Whole blanks blocks₁ blocks₂) ∧
        TextIntact rest mail blocks₂)

variable {v status rest y more : Bytes} {r r' : Reply} {n n' : ℕ} {c : UInt8}
  {mail blocks blocks₁ blocks₂ : List Bytes}

section Status

theorem readFrom_status_blanks {m : Bool} {blanks : Bytes} (hne : blanks ≠ [])
    (hblanks : ∀ b ∈ blanks, b = blank) (hflatten : blocks.flatten = blanks ++ rest ++ crlf ++ more)
    (hpiece : Piece blanks blocks blocks₁)
    (hcut : rest.head? = some blank → Whole blanks blocks blocks₁) :
    readFrom m .textBegin v r n blocks =
      readFrom m (textCondition m) [] r (n + blanks.length) blocks₁ := by
  obtain ⟨front, tail, rfl, rfl⟩ := hpiece
  refine readFrom_blanks hne hblanks fun hhead => ?_
  obtain ⟨b, front, rfl⟩ : ∃ b front', front = b :: front' :=
    List.exists_cons_of_ne_nil (by rintro rfl; cases hhead)
  obtain rfl : b = blank := Option.some.inj hhead
  -- the blank is one of the text, so that there must be a cut before it
  have hhead' : rest.head? = some blank := by
    rw [List.flatten_cons, List.append_assoc, List.append_assoc, List.append_assoc] at hflatten
    have hall := List.append_cancel_left hflatten
    cases rest with
    | nil => cases hall
    | cons d rest => exact congrArg some (List.cons.inj hall).1.symm
  have hwhole := hcut hhead'
  rw [Whole, List.cons.injEq] at hwhole
  simpa using hwhole.1

theorem exists_blanks (hblocks : ∀ b ∈ blocks, b ≠ []) (hhead : status.head? = some blank)
    (hflatten : blocks.flatten = status ++ (crlf ++ more)) :
    ∃ blanks rest blocks₁, blanks ≠ [] ∧ (∀ b ∈ blanks, b = blank) ∧ status = blanks ++ rest ∧
      Piece blanks blocks blocks₁ ∧ (rest.head? = some blank → Whole blanks blocks blocks₁) := by
  obtain ⟨d, status', rfl⟩ : ∃ d status', status = d :: status' :=
    List.exists_cons_of_ne_nil (by rintro rfl; cases hhead)
  obtain rfl : d = blank := Option.some.inj hhead
  obtain ⟨word, tail, rfl, hword⟩ := Blocks.exists_cons_of_flatten hblocks hflatten
  obtain ⟨blanks, front, rfl, hblanks, hstop⟩ := exists_run (· == blank) word
  have hblank : ∀ b ∈ blank :: blanks, b = blank := by
    intro b hb
    rcases List.mem_cons.mp hb with hb | hb
    · exact hb
    · exact beq_iff_eq.mp (hblanks b hb)
  -- the blanks are all of the status line
  obtain ⟨rest, rfl, hrest⟩ : ∃ rest, status' = blanks ++ rest ∧
      front ++ tail.flatten = rest ++ (crlf ++ more) := by
    rw [List.append_assoc] at hword
    rcases List.append_eq_append_iff.mp hword with ⟨rest, hstatus, hrest⟩ | ⟨extra, hextra, hrest⟩
    · exact ⟨rest, hstatus, hrest⟩
    · cases extra with
      | nil => exact ⟨[], by simpa using hextra.symm, by simpa using hrest.symm⟩
      | cons b extra =>
        obtain rfl : carriageReturn = b := (List.cons.inj hrest).1
        have hreturn := hblank carriageReturn (by simp [hextra])
        exact absurd hreturn (by decide)
  refine ⟨blank :: blanks, rest, remaining front tail, List.cons_ne_nil _ _, hblank, rfl,
    ⟨front, tail, rfl, rfl⟩, fun hhead => ?_⟩
  -- a blank behind the blanks is in the next block
  cases front with
  | nil =>
    rw [Whole, List.append_nil, Blocks.remaining_nil]
  | cons b front =>
    have hb : b = blank := by
      cases rest with
      | nil => cases hhead
      | cons d rest =>
        rw [(List.cons.inj hrest).1]
        exact Option.some.inj hhead
    have hne := hstop b rfl
    rw [hb] at hne
    cases hne

/-- The status line of a reply that is delivered: its text is empty or starts with blanks. -/
theorem status_of_delivered {m : Bool} (hblocks : ∀ b ∈ blocks, b ≠ []) (hplain : IsPlain status)
    (hflatten : blocks.flatten = status ++ (crlf ++ more))
    (h : readFrom m .textBegin v r n blocks = .closed (.delivered r' n')) :
    status = [] ∧ (∃ blocks₁, Piece crlf blocks blocks₁) ∨ status.head? = some blank := by
  cases status with
  | nil =>
    obtain ⟨word, tail, rfl, hword⟩ := Blocks.exists_cons_of_flatten hblocks hflatten
    by_cases hcrlf : crlf <+: carriageReturn :: word
    · obtain ⟨rest, hrest⟩ := hcrlf
      exact Or.inl ⟨rfl, _, rest, tail, by rw [← hrest], rfl⟩
    · have hhead : (carriageReturn :: word).head? ≠ some blank := by simp [carriageReturn, blank]
      rw [readFrom_textBegin_invalid (List.cons_ne_nil _ _) hhead hcrlf] at h
      cases h
  | cons d status =>
    obtain ⟨word, tail, rfl, hword⟩ := Blocks.exists_cons_of_flatten hblocks hflatten
    by_cases hblank : d = blank
    · exact Or.inr (congrArg some hblank)
    · have hhead : (d :: word).head? ≠ some blank := fun hd => hblank (Option.some.inj hd)
      have hcrlf := not_crlf_of_plain (hplain d List.mem_cons_self) word
      rw [readFrom_textBegin_invalid (List.cons_ne_nil _ _) hhead hcrlf] at h
      cases h

theorem code_of_delivered {m : Bool} {condition : Condition} {code : Bytes}
    (hcondition : condition = .initial ∨ condition = .replyCode) (hcode : code = ok ∨ code = err)
    (hblocks : ∀ b ∈ blocks, b ≠ []) (hflatten : blocks.flatten = code ++ more)
    (h : parse m condition blocks = .closed (.delivered r' n')) :
    ∃ blocks₁, Piece code blocks blocks₁ := by
  cases blocks with
  | nil => cases h
  | cons word tail =>
    by_cases hprefix : code <+: word
    · obtain ⟨rest, rfl⟩ := hprefix
      exact ⟨_, rest, tail, rfl, rfl⟩
    · -- the first character tells the codes apart
      have hother : ∀ other, other = ok ∨ other = err → ¬ other <+: word := by
        rintro other hother ⟨rest, rfl⟩
        have hhead : other.head? = code.head? := by
          rw [List.flatten_cons, List.append_assoc] at hflatten
          have hheads := congrArg List.head? hflatten
          rcases hother with rfl | rfl <;> rcases hcode with rfl | rfl <;> exact hheads
        have heq : other = code := by
          rcases hother with rfl | rfl <;> rcases hcode with rfl | rfl
          · rfl
          · cases hhead
          · cases hhead
          · rfl
        exact hprefix (heq ▸ List.prefix_append other rest)
      rw [parse_invalid hcondition (hblocks word List.mem_cons_self) (hother ok (Or.inl rfl))
        (hother err (Or.inr rfl))] at h
      cases h

end Status

section Text

/-- A dot that is the text of the status line and the last character of a block. -/
theorem readFrom_dot (hdot : Whole [dot] blocks blocks₁) (hcrlf : Piece crlf blocks₁ blocks₂) :
    readFrom true .multilineTextBegin v r n blocks =
      readFrom true .multilineTextBegin crlf { r with text := r.text ++ [crlf] } (n + 3) blocks₂ := by
  rw [hdot, readFrom_begun (by decide) (by decide), Blocks.remaining_nil]
  exact readFrom_multilineText List.not_mem_nil hcrlf

/-- The text of the status line that does not end the mail is an entry of its own. -/
theorem readFrom_statusText (hplain : IsPlain (c :: y)) (hfirst : Piece [c] blocks blocks₁)
    (hdot : c :: y = [dot] → Whole [dot] blocks blocks₁) (hrest : Piece (y ++ crlf) blocks₁ blocks₂) :
    ∃ v', readFrom true .multilineTextBegin v r n blocks =
      readFrom true .multilineTextBegin v' { r with text := r.text ++ [begun c ++ cString y ++ crlf] }
        (n + (c :: y ++ crlf).length) blocks₂ := by
  by_cases heq : c :: y = [dot]
  · obtain ⟨rfl, rfl⟩ := List.cons.inj heq
    exact ⟨crlf, readFrom_dot (hdot rfl) hrest⟩
  · exact ⟨_, readFrom_line hplain heq hfirst hrest⟩

/-- The text of the status line of a mail that is delivered, where it does not end the mail. -/
theorem statusText_of_delivered (hblocks : ∀ b ∈ blocks, b ≠ []) (hplain : IsPlain (c :: y))
    (hflatten : blocks.flatten = c :: y ++ crlf ++ more)
    (hend : c :: y = [dot] → ∀ blocks', ¬ Piece mailEnd blocks blocks')
    (h : readFrom true .multilineTextBegin v r n blocks = .closed (.delivered r' n')) :
    ∃ blocks₁ blocks₂, Piece [c] blocks blocks₁ ∧ (c :: y = [dot] → Whole [dot] blocks blocks₁) ∧
      Piece (y ++ crlf) blocks₁ blocks₂ := by
  by_cases heq : c :: y = [dot]
  · obtain ⟨rfl, rfl⟩ := List.cons.inj heq
    obtain ⟨word, tail, rfl, hword⟩ := Blocks.exists_cons_of_flatten hblocks hflatten
    -- the dot does not end the mail
    have hdot : ¬ dot :: crlf <+: dot :: word := by
      rintro ⟨rest, hrest⟩
      exact hend rfl (remaining rest tail) ⟨rest, tail, by rw [← hrest]; rfl, rfl⟩
    rw [readFrom_begun hdot (not_crlf_cons (by decide) word)] at h
    have hfirst : Piece [dot] ((dot :: word) :: tail) (remaining word tail) :=
      ⟨word, tail, rfl, rfl⟩
    have hflatten' : (remaining word tail).flatten = [] ++ crlf ++ more := by
      rw [Blocks.flatten_remaining]
      exact hword
    obtain ⟨blocks₂, hrest⟩ :=
      piece_of_delivered (hfirst.nonempty hblocks) List.not_mem_nil hflatten' h
    refine ⟨_, blocks₂, hfirst, fun _ => ?_, hrest⟩
    cases word with
    | nil => rfl
    | cons d word =>
      obtain ⟨rest, tail', hcons, -⟩ := hrest
      rw [Blocks.remaining_cons] at hcons
      have hword' : d :: word = crlf ++ rest := (List.cons.inj hcons).1
      exact absurd ⟨rest, congrArg (dot :: ·) hword'.symm⟩ hdot
  · obtain ⟨blocks₁, blocks₂, hfirst, hrest⟩ := line_of_delivered hblocks hplain heq hflatten h
    exact ⟨blocks₁, blocks₂, hfirst, fun hdot => absurd hdot heq, hrest⟩

end Text

section Mail

variable {condition : Condition} {entries : List Bytes}

theorem encode_eq (status : Bytes) (mail : List Bytes) :
    encode status mail = ok ++ (status ++ (crlf ++ (content (mail.map stuff) ++ mailEnd))) := by
  simp [encode]

theorem stuffed (hmail : ∀ line ∈ mail, IsPlain line) :
    ∀ line ∈ mail.map stuff, IsPlain line ∧ line ≠ [dot] := by
  intro line hline
  obtain ⟨line, hmem, rfl⟩ := List.mem_map.mp hline
  exact ⟨stuff_plain (hmail line hmem), stuff_ne_dot line⟩

theorem nil_cons_plain (hmail : ∀ line ∈ mail, IsPlain line) : ∀ line ∈ [] :: mail, IsPlain line := by
  intro line hline
  rcases List.mem_cons.mp hline with rfl | hline
  · exact fun b hb => absurd hb List.not_mem_nil
  · exact hmail line hline

theorem blank_plain {blanks : Bytes} (h : ∀ b ∈ blanks, b = blank) : IsPlain blanks := by
  intro b hb
  rw [h b hb]
  decide

/-- Nothing is left of the status line: its line end is read as an empty line. -/
theorem decodes_blanks {k : ℕ} {blanks : Bytes} (hblanks : ∀ b ∈ blanks, b = blank)
    (hmail : ∀ line ∈ mail, IsPlain line) (hlost : OneLost ([] :: mail) blocks)
    (hread : parse true condition blocks₁ = readFrom true .multilineTextBegin v ⟨ok, []⟩ k blocks)
    (hk : k + (content ([] :: mail.map stuff) ++ mailEnd).length = (encode blanks mail).length) :
    Decodes condition blanks mail blocks₁ := by
  obtain ⟨entries, hentries, hflatten⟩ := hlost.lines
  refine ⟨_, _, hread.trans (hentries.delivered (stuffed (nil_cons_plain hmail)) v _ k), hk, [], entries, rfl, Nat.zero_le _,
    fun _ => hblanks, List.append_cancel_left hflatten⟩

theorem decodes_intact {k : ℕ} {front : List Bytes} (hmail : ∀ line ∈ mail, IsPlain line)
    (hintact : Intact mail blocks) (hfront : front.length ≤ 1)
    (hempty : front = [] → ∀ b ∈ status, b = blank)
    (hread : parse true condition blocks₁ = readFrom true .multilineTextBegin v ⟨ok, front⟩ k blocks)
    (hk : k + (content (mail.map stuff) ++ mailEnd).length = (encode status mail).length) :
    Decodes condition status mail blocks₁ := by
  obtain ⟨entries, hentries, hflatten⟩ := hintact.lines
  exact ⟨_, _, hread.trans (hentries.delivered (stuffed hmail) v _ k), hk, front, entries, rfl,
    hfront, hempty, hflatten⟩

theorem encode_length (status : Bytes) (mail : List Bytes) : (encode status mail).length =
    5 + status.length + (content (mail.map stuff) ++ mailEnd).length := by
  have hok : ok.length = 3 := by decide
  have hcrlf : crlf.length = 2 := by decide
  simp only [encode_eq, List.length_append, hok, hcrlf]
  omega

theorem Readable.decodes (hcondition : condition = .initial ∨ condition = .replyCode)
    (hstatus : IsPlain status) (hmail : ∀ line ∈ mail, IsPlain line)
    (hflatten : blocks.flatten = encode status mail) (h : Readable status mail blocks) :
    Decodes condition status mail blocks := by
  obtain ⟨blocks₁, hok, h⟩ := h
  have hcode : parse true condition blocks = readFrom true .textBegin ok ⟨ok, []⟩ 3 blocks₁ :=
    parse_code hcondition (Or.inl rfl) hok
  rw [encode_eq, hok.flatten] at hflatten
  have hflatten₁ := List.append_cancel_left hflatten
  rcases h with ⟨rfl, blocks₂, hcrlf, hintact⟩ |
    ⟨blanks, rest, blocks₂, hne, hblanks, rfl, hpiece, hcut, htext⟩
  · refine decodes_intact hmail hintact zero_le_one (fun _ b hb => absurd hb List.not_mem_nil)
      (hcode.trans (readFrom_textBegin_crlf hcrlf)) ?_
    rw [encode_length]
    rfl
  · rw [← List.append_assoc] at hflatten₁
    have hread := hcode.trans (readFrom_status_blanks hne hblanks hflatten₁ hpiece hcut)
    rcases htext with ⟨rfl, hlost⟩ | ⟨c, y, blocks₃, blocks₄, rfl, hfirst, hdot, hrest, hintact⟩
    · rw [List.append_nil] at hstatus ⊢
      refine decodes_blanks hblanks hmail hlost hread ?_
      rw [encode_length, content_cons_length]
      have hcrlf : (([] : Bytes) ++ crlf).length = 2 := by decide
      omega
    · have hplain : IsPlain (c :: y) := fun b hb => hstatus b (List.mem_append_right _ hb)
      obtain ⟨v', hline⟩ := readFrom_statusText hplain hfirst hdot hrest
      refine decodes_intact hmail hintact (le_refl 1) (fun h => absurd h (List.cons_ne_nil _ _))
        (hread.trans hline) ?_
      have hcrlf : crlf.length = 2 := by decide
      simp only [encode_length, List.length_append, hcrlf]
      omega

theorem Lines.one_le_count {lines : List Bytes} (h : Lines lines blocks entries) :
    ∀ entry ∈ entries, 1 ≤ entry.count lineFeed := by
  have hcrlf : List.count lineFeed crlf = 1 := by decide
  induction h with
  | terminator _ => exact fun entry hentry => absurd hentry List.not_mem_nil
  | lost _ _ ih => exact ih
  | line _ _ _ ih | joined _ _ _ ih =>
    intro entry hentry
    rcases List.mem_cons.mp hentry with rfl | hentry
    · rw [List.count_append]
      omega
    · exact ih entry hentry

/-- With an entry taken for the text of the status line there are fewer line ends than in the
mail. -/
theorem Lines.flatten_tail_ne {entry : Bytes} (hmail : ∀ line ∈ mail, IsPlain line)
    (h : Lines (mail.map stuff) blocks (entry :: entries)) : entries.flatten ≠ content mail := by
  intro hflatten
  have hle := h.count_le fun line hline => (stuffed hmail line hline).1
  have hpos := h.one_le_count entry List.mem_cons_self
  rw [List.flatten_cons, List.count_append, hflatten, count_content hmail, List.length_map] at hle
  omega

/-- Where the status line has blanks alone, the mail is read behind an empty line. -/
theorem oneLost_of_blanks {front rest : List Bytes} (hmail : ∀ line ∈ mail, IsPlain line)
    (hentries : Lines ([] :: mail.map stuff) blocks entries) (htext : entries = front ++ rest)
    (hfront : front.length ≤ 1) (hrest : rest.flatten = content mail) : OneLost ([] :: mail) blocks := by
  cases front with
  | nil =>
    rw [List.nil_append] at htext
    subst htext
    exact Lines.oneLost hentries rfl (nil_cons_plain hmail) (congrArg (crlf ++ ·) hrest)
  | cons entry front =>
    obtain rfl := List.length_eq_zero_iff.mp (Nat.le_zero.mp (Nat.le_of_succ_le_succ hfront))
    subst htext
    generalize hlines : [] :: mail.map stuff = lines at hentries
    cases hentries with
    | line _ _ _ => cases (List.cons.inj hlines).1
    | lost _ hentries =>
      obtain ⟨-, rfl⟩ := List.cons.inj hlines
      exact absurd hrest (hentries.flatten_tail_ne hmail)
    | joined _ _ hentries =>
      obtain ⟨line, mail, rfl, -, htail⟩ := List.map_eq_cons_iff.mp (List.cons.inj hlines).2
      have hle : rest.flatten.count lineFeed ≤ _ := hentries.count_le fun line hline => by
        rw [← htail] at hline
        exact (stuffed (fun l hl => hmail l (List.mem_cons_of_mem _ hl)) line hline).1
      rw [hrest, count_content hmail, ← htail, List.length_map, List.length_cons] at hle
      exact absurd hle (Nat.not_succ_le_self _)

/-- Behind a status line whose text is an entry the mail comes out whole. -/
theorem intact_of_entry {entry : Bytes} {front rest : List Bytes}
    (hmail : ∀ line ∈ mail, IsPlain line) (hentries : Lines (mail.map stuff) blocks entries)
    (htext : entry :: entries = front ++ rest) (hfront : front.length ≤ 1)
    (hempty : front = [] → ∃ line, entry = line ++ crlf ∧ line ≠ [] ∧ ∀ b ∈ line, b = blank)
    (hrest : rest.flatten = content mail) : Intact mail blocks := by
  cases front with
  | nil =>
    obtain ⟨line, rfl, hne, hblanks⟩ := hempty rfl
    rw [List.nil_append] at htext
    subst htext
    have hdot : line.head? ≠ some dot := by
      intro hhead
      have hmem : dot ∈ line := List.mem_of_head? hhead
      exact absurd (hblanks dot hmem) (by decide)
    have hzero : 0 ∉ line := fun hin => absurd (hblanks 0 hin) (by decide)
    exact absurd hrest (hentries.no_line_missing rfl hmail hne hdot (blank_plain hblanks) hzero)
  | cons entry' front =>
    obtain rfl := List.length_eq_zero_iff.mp (Nat.le_zero.mp (Nat.le_of_succ_le_succ hfront))
    obtain ⟨-, rfl⟩ := List.cons.inj htext
    exact hentries.intact rfl hmail hrest

theorem Decodes.readable (hcondition : condition = .initial ∨ condition = .replyCode)
    (hstatus : IsPlain status) (hmail : ∀ line ∈ mail, IsPlain line) (hblocks : ∀ b ∈ blocks, b ≠ [])
    (hflatten : blocks.flatten = encode status mail) (h : Decodes condition status mail blocks) :
    Readable status mail blocks := by
  obtain ⟨r, n, hparse, hn, front, rest, htext, hfront, hempty, hrest⟩ := h
  rw [encode_eq] at hflatten
  obtain ⟨blocks₁, hok⟩ := code_of_delivered hcondition (Or.inl rfl) hblocks hflatten hparse
  have hblocks₁ := hok.nonempty hblocks
  have hcode : parse true condition blocks = readFrom true .textBegin ok ⟨ok, []⟩ 3 blocks₁ :=
    parse_code hcondition (Or.inl rfl) hok
  rw [hok.flatten] at hflatten
  have hflatten₁ := List.append_cancel_left hflatten
  rw [hcode] at hparse
  refine ⟨blocks₁, hok, ?_⟩
  rcases status_of_delivered hblocks₁ hstatus hflatten₁ hparse with ⟨rfl, blocks₂, hcrlf⟩ | hblank
  · have hblocks₂ := hcrlf.nonempty hblocks₁
    rw [hcrlf.flatten] at hflatten₁
    have hflatten₂ := List.append_cancel_left hflatten₁
    rw [readFrom_textBegin_crlf hcrlf, if_pos rfl] at hparse
    obtain ⟨entries, hentries⟩ := lines_of_delivered hblocks₂ (stuffed hmail) hflatten₂ hparse
    rw [hentries.delivered (stuffed hmail)] at hparse
    cases hparse
    refine Or.inl ⟨rfl, blocks₂, hcrlf, ?_⟩
    cases front with
    | nil =>
      have htext : entries = rest := htext
      exact hentries.intact rfl hmail (htext ▸ hrest)
    | cons entry front =>
      obtain rfl := List.length_eq_zero_iff.mp (Nat.le_zero.mp (Nat.le_of_succ_le_succ hfront))
      subst htext
      exact absurd hrest (hentries.flatten_tail_ne hmail)
  · obtain ⟨blanks, rest', blocks₂, hne, hblanks, rfl, hpiece, hcut⟩ :=
      exists_blanks hblocks₁ hblank hflatten₁
    have hblocks₂ := hpiece.nonempty hblocks₁
    rw [← List.append_assoc] at hflatten₁
    rw [readFrom_status_blanks hne hblanks hflatten₁ hpiece hcut] at hparse
    rw [hpiece.flatten, List.append_assoc, List.append_assoc] at hflatten₁
    have hflatten₂ := List.append_cancel_left hflatten₁
    refine Or.inr ⟨blanks, rest', blocks₂, hne, hblanks, rfl, hpiece, hcut, ?_⟩
    cases rest' with
    | nil =>
      have hplain : ∀ line ∈ [] :: mail.map stuff, IsPlain line ∧ line ≠ [dot] :=
        stuffed (nil_cons_plain hmail)
      obtain ⟨entries, hentries⟩ := lines_of_delivered hblocks₂ hplain hflatten₂ hparse
      rw [show textCondition true = .multilineTextBegin from rfl, hentries.delivered hplain] at hparse
      cases hparse
      exact Or.inl ⟨rfl, oneLost_of_blanks hmail hentries htext hfront hrest⟩
    | cons c y =>
      have hplain : IsPlain (c :: y) := fun b hb => hstatus b (List.mem_append_right _ hb)
      -- the text does not end the mail, of which octets would be left
      have hend : c :: y = [dot] → ∀ blocks', ¬ Piece mailEnd blocks₂ blocks' := by
        intro _ blocks' hpiece
        rw [show textCondition true = .multilineTextBegin from rfl,
          readFrom_terminator hpiece] at hparse
        cases hparse
        simp only [encode_length, List.length_append, List.length_cons] at hn
        have hmailEnd : mailEnd.length = 3 := by decide
        omega
      rw [← List.append_assoc] at hflatten₂
      obtain ⟨blocks₃, blocks₄, hfirst, hdot, hline⟩ :=
        statusText_of_delivered hblocks₂ hplain hflatten₂ hend hparse
      obtain ⟨v', hread⟩ := readFrom_statusText hplain hfirst hdot hline
      rw [show textCondition true = .multilineTextBegin from rfl, hread] at hparse
      have hflatten₄ : blocks₄.flatten = content (mail.map stuff) ++ mailEnd := by
        rw [hfirst.flatten, hline.flatten, ← List.append_assoc] at hflatten₂
        exact List.append_cancel_left hflatten₂
      obtain ⟨entries, hentries⟩ := lines_of_delivered
        (hline.nonempty (hfirst.nonempty hblocks₂)) (stuffed hmail) hflatten₄ hparse
      rw [hentries.delivered (stuffed hmail)] at hparse
      cases hparse
      refine Or.inr ⟨c, y, blocks₃, blocks₄, rfl, hfirst, hdot, hline, ?_⟩
      refine intact_of_entry hmail hentries htext hfront (fun hnil => ?_) hrest
      -- the text of the status line is blanks
      have hblank := fun b hb => hempty hnil b (List.mem_append_right blanks hb)
      refine ⟨c :: y, ?_, List.cons_ne_nil c y, hblank⟩
      have hhead : (c :: y).head? ≠ some dot := by
        intro hdot
        have hc := hblank c List.mem_cons_self
        rw [Option.some.inj hdot] at hc
        exact absurd hc (by decide)
      have hzero : 0 ∉ c :: y := fun hin => absurd (hblank 0 hin) (by decide)
      rw [begun_append (stuff_of_ne_dot hhead) hzero]

/-- A reply to RETR, wherever it has been cut, is decoded exactly where it is readable. -/
theorem decodes_iff (hcondition : condition = .initial ∨ condition = .replyCode)
    (hstatus : IsPlain status) (hmail : ∀ line ∈ mail, IsPlain line) (hblocks : ∀ b ∈ blocks, b ≠ [])
    (hflatten : blocks.flatten = encode status mail) :
    Decodes condition status mail blocks ↔ Readable status mail blocks :=
  ⟨Decodes.readable hcondition hstatus hmail hblocks hflatten,
    Readable.decodes hcondition hstatus hmail hflatten⟩

end Mail

/-- A mail of two lines that has been cut where it may be. -/
theorem two_lines_readable : Readable (text " hi") [text ".x", text "y"]
    [text "+OK h", text "i" ++ crlf ++ text ".", text ".x" ++ crlf ++ text "y", crlf ++ mailEnd] := by
  refine (decodes_iff (Or.inr rfl) (by decide +kernel) (by decide +kernel) (by decide)
    (by decide)).mp ?_
  have hread : parse true .replyCode
      [text "+OK h", text "i" ++ crlf ++ text ".", text ".x" ++ crlf ++ text "y", crlf ++ mailEnd] =
      .closed (.delivered ⟨ok, [text "hi" ++ crlf, text ".x" ++ crlf, text "y" ++ crlf]⟩ 19) := by
    decide
  exact ⟨_, _, hread, by decide, [text "hi" ++ crlf], _, rfl, le_refl 1,
    fun h => absurd h (by decide), by decide⟩

/-- An empty line between two others is lost. -/
theorem empty_line_lost : ¬ Decodes .replyCode [] [text "x", [], text "y"]
    [encode [] [text "x", [], text "y"]] := by
  rintro ⟨r, n, hparse, -, front, rest, htext, hfront, -, hrest⟩
  have hread : parse true .replyCode [encode [] [text "x", [], text "y"]] =
      .closed (.delivered ⟨ok, [text "x" ++ crlf, text "y" ++ crlf]⟩ 16) := by decide
  rw [hread] at hparse
  cases hparse
  cases front with
  | nil =>
    have heq : [text "x" ++ crlf, text "y" ++ crlf] = rest := htext
    subst heq
    exact absurd hrest (by decide)
  | cons entry front =>
    obtain rfl := List.length_eq_zero_iff.mp (Nat.le_zero.mp (Nat.le_of_succ_le_succ hfront))
    obtain ⟨-, rfl⟩ := List.cons.inj htext
    exact absurd hrest (by decide)

end ACENetwork.POP
