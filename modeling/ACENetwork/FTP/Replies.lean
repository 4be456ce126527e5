import ACENetwork.FTP.Scanner

/-!
# Replies and their records

The replies of a server, how the blocks of a connection may cut them, and when each reply becomes
one record.
-/
namespace ACENetwork.FTP
open BitTorrent (Fault)
open Library
open Library.Blocks (Piece Whole remaining)

/-- A reply: its code in digits, the lines before the last one where there are some, and the text of
the last line. -/
structure Reply where
  digits : Bytes
  lines : Option (Bytes × List Bytes) := none
  last : Bytes
  deriving DecidableEq

/-- A line without its line end. -/
def IsPlain (line : Bytes) : Prop := ∀ b ∈ line, isPlain b = true ∧ b ≠ 0

instance IsPlain.decidable (line : Bytes) : Decidable (IsPlain line) :=
  inferInstanceAs (Decidable (∀ b ∈ line, _))

def content (lines : List Bytes) : Bytes := (lines.map (· ++ crlf)).flatten

def Reply.lastLine (r : Reply) : Bytes := r.digits ++ space :: r.last ++ crlf

def Reply.octets (r : Reply) : Bytes :=
  match r.lines with
  | none => r.lastLine
  | some (first, middle) =>
    r.digits ++ minus :: first ++ crlf ++ (content middle ++ r.lastLine)

/-- The text of a line between the first and the last one: the code may be repeated. -/
def Reply.lineText (r : Reply) (line : Bytes) : Bytes :=
  if r.digits ++ [minus] <+: line then line.drop 4 else line

def Reply.record (r : Reply) : Record where
  code := decimalValue r.digits
  text :=
    match r.lines with
    | none => [r.last]
    | some (first, middle) => first :: middle.map r.lineText ++ [r.last]

/-- The form of a reply: no line before the last one starts with the code and a space. -/
structure Reply.WellFormed (r : Reply) : Prop where
  digits : r.digits.length = 3 ∧ r.digits.all isDigit = true
  last : IsPlain r.last
  lines : ∀ first middle, r.lines = some (first, middle) → IsPlain first ∧
    ∀ line ∈ middle, IsPlain line ∧ ¬ r.digits ++ [space] <+: line

/-- Each reply has been delivered as one record, which was read from its octets. -/
def Delivers (replies : List Reply) (blocks : List Bytes) : Prop :=
  ∃ p, receive blocks = .opened p ∧ p.condition = .initial ∧ p.record = none ∧
    p.records = replies.map fun r => (r.record, r.octets.length)

def Line (text : Bytes) (blocks blocks' : List Bytes) : Prop :=
  ∃ blocks₁, Piece text blocks blocks₁ ∧ Piece crlf blocks₁ blocks'

/-- The lines between the first and the last one repeat the code. -/
inductive Middle (digits : Bytes) : List Bytes → List Bytes → List Bytes → Prop where
  | nil (blocks) : Middle digits [] blocks blocks
  | cons {text lines blocks blocks₁ blocks₂ blocks₃} :
      Piece (digits ++ [minus]) blocks blocks₁ → Line text blocks₁ blocks₂ →
      Middle digits lines blocks₂ blocks₃ →
      Middle digits ((digits ++ minus :: text) :: lines) blocks blocks₃

/-- The last text is not empty, and the reply ends with its block. -/
def Last (text : Bytes) (blocks blocks' : List Bytes) : Prop :=
  text ≠ [] ∧ ∃ blocks₁, Piece text blocks blocks₁ ∧ Whole crlf blocks₁ blocks'

def Reply.Readable (r : Reply) (blocks blocks' : List Bytes) : Prop :=
  ∃ blocks₁, Piece r.digits blocks blocks₁ ∧
    match r.lines with
    | none => ∃ blocks₂, Piece [space] blocks₁ blocks₂ ∧ Last r.last blocks₂ blocks'
    | some (first, middle) => middle.length + 2 + 4 ≤ Glr.maxItems ∧
      ∃ blocks₂ blocks₃ blocks₄ blocks₅, Piece [minus] blocks₁ blocks₂ ∧
        Line first blocks₂ blocks₃ ∧ Middle r.digits middle blocks₃ blocks₄ ∧
        Piece (r.digits ++ [space]) blocks₄ blocks₅ ∧ Last r.last blocks₅ blocks'

inductive AllReadable : List Reply → List Bytes → Prop where
  | nil : AllReadable [] []
  | cons {r replies blocks blocks'} : r.Readable blocks blocks' → AllReadable replies blocks' →
      AllReadable (r :: replies) blocks

variable {c next : Condition} {t v v' word rest more : Bytes} {p : Parse} {record : Record} {n : ℕ}
  {records : List (Record × ℕ)} {blocks blocks' : List Bytes}

def readFrom (c : Condition) (v : Bytes) (record : Record) (n : ℕ) (records : List (Record × ℕ))
    (blocks : List Bytes) : Blocks.Progress Parse (Glr.Abort Fault) :=
  Blocks.read step ⟨c, v, some record, n, records⟩ blocks

def readNext (records : List (Record × ℕ)) (v : Bytes) (blocks : List Bytes) :
    Blocks.Progress Parse (Glr.Abort Fault) :=
  Blocks.read step ⟨.initial, v, none, 0, records⟩ blocks

def Record.push (record : Record) (value : Bytes) : Record :=
  { record with text := record.text ++ [value] }

def Record.Fits (record : Record) : Prop := 3 + (record.text.length + 1) ≤ Glr.maxItems

instance Record.Fits.decidable (record : Record) : Decidable record.Fits :=
  inferInstanceAs (Decidable (_ ≤ _))

section Actions

theorem readFrom_goOn (hword : word ≠ [])
    (h : rule ⟨c, v, some record, n, records⟩ (word ++ rest) = .goOn next v' word.length) :
    readFrom c v record n records ((word ++ rest) :: blocks) =
      readFrom next v' record (n + word.length) records (remaining rest blocks) :=
  Blocks.read_opened hword (by simp only [step, h])

theorem readFrom_fails (hword : word ≠ [])
    (h : rule ⟨c, v, some record, n, records⟩ word = .fails) :
    readFrom c v record n records (word :: blocks) = .closed (.fault .assertion) := by
  refine Blocks.read_closed (k := 1) hword ?_
  simp only [step, h]

theorem readFrom_text {value : Bytes} (hword : word ≠ [])
    (h : rule ⟨c, v, some record, n, records⟩ (word ++ rest) =
      .give (.replyText value) next v' word.length) :
    readFrom c v record n records ((word ++ rest) :: blocks) =
      if record.Fits then
        readFrom next v' (record.push value) (n + word.length) records (remaining rest blocks)
      else .closed .memoryExhausted := by
  by_cases hfits : record.Fits
  · rw [if_pos hfits]
    refine Blocks.read_opened hword ?_
    simp only [step, h, Parse.accept, Glr.reserve_ok hfits]
    rfl
  · rw [if_neg hfits]
    refine Blocks.read_closed (k := word.length) (by simp [hword]) ?_
    simp only [step, h, Parse.accept, Glr.reserve_exhausted hfits]
    rfl

theorem readFrom_reply (hword : word ≠ [])
    (h : rule ⟨c, v, some record, n, records⟩ word = .give .reply .initial v' 2) :
    readFrom c v record n records (word :: blocks) =
      if record.Fits then readNext (records ++ [(record, n + 2)]) v' blocks
      else .closed .memoryExhausted := by
  by_cases hfits : record.Fits
  · rw [if_pos hfits]
    have hstep : step ⟨c, v, some record, n, records⟩ (word ++ []) =
        (.opened ⟨.initial, v', none, 0, records ++ [(record, n + 2)]⟩, word.length) := by
      simp only [List.append_nil, step, h, Parse.accept, Glr.reserve_ok hfits]
      rfl
    have hread : Blocks.read step _ ((word ++ []) :: blocks) = _ := Blocks.read_opened hword hstep
    rw [List.append_nil, Blocks.remaining_nil] at hread
    exact hread
  · rw [if_neg hfits]
    refine Blocks.read_closed (k := 2) hword ?_
    simp only [step, h, Parse.accept, Glr.reserve_exhausted hfits]
    rfl

end Actions

section Code

variable {digits : Bytes}

theorem codeOf_append (hdigits : digits.length = 3 ∧ digits.all isDigit = true) (rest : Bytes) :
    codeOf (digits ++ rest) = some (decimalValue digits) := by
  have htake : (digits ++ rest).take 3 = digits := by
    rw [← hdigits.1, List.take_left']
    rfl
  rw [codeOf, htake, if_pos hdigits]

theorem codeOf_some {code : ℕ} (h : codeOf word = some code) :
    ∃ digits rest, word = digits ++ rest ∧ digits.length = 3 ∧ digits.all isDigit = true ∧
      code = decimalValue digits := by
  rw [codeOf] at h
  split_ifs at h with htake
  exact ⟨word.take 3, word.drop 3, (List.take_append_drop 3 word).symm, htake.1, htake.2,
    (Option.some.inj h).symm⟩

theorem readNext_code (hdigits : digits.length = 3 ∧ digits.all isDigit = true)
    (h : Piece digits blocks blocks') :
    readNext records v blocks = readFrom .textBegin v { code := decimalValue digits } 3 records blocks' := by
  obtain ⟨rest, tail, rfl, rfl⟩ := h
  have hne : digits ≠ [] := by
    rintro rfl
    exact absurd hdigits.1 (by decide)
  refine Blocks.read_opened hne ?_
  simp only [step, rule, codeOf_append hdigits, Parse.accept, hdigits.1]
  rfl

theorem readNext_fails (hword : word ≠ []) (h : codeOf word = none) :
    readNext records v (word :: blocks) = .closed (.fault .assertion) := by
  refine Blocks.read_closed (k := 1) hword ?_
  simp only [step, rule, h]

theorem readFrom_line (hdigits : digits.length = 3 ∧ digits.all isDigit = true) {b : UInt8}
    (hb : b = minus ∧ next = .multilineText ∨ b = space ∧ next = .lastLineText)
    (hcode : record.code = decimalValue digits) (h : Piece (digits ++ [b]) blocks blocks') :
    readFrom .multilineTextBegin v record n records blocks =
      readFrom next [] record (n + 4) records blocks' := by
  obtain ⟨rest, tail, rfl, rfl⟩ := h
  have hne : digits ≠ [] := by
    rintro rfl
    exact absurd hdigits.1 (by decide)
  have hthird : (digits ++ (b :: rest))[3]? = some b := by
    rw [← hdigits.1, List.getElem?_append_right (le_refl _), Nat.sub_self]
    rfl
  have hmatch : lineRule (some record) v (digits ++ (b :: rest)) =
      .goOn (if b = minus then .multiLineMinus else .lastLineSpace) v 3 := by
    have hother : ¬ (b ≠ minus ∧ b ≠ space) := by
      rcases hb with ⟨rfl, -⟩ | ⟨rfl, -⟩ <;> decide
    simp only [lineRule, codeOf_append hdigits, hthird, if_neg hother, Option.map_some, hcode]
    exact if_neg fun hne => hne rfl
  have hfirst : readFrom .multilineTextBegin v record n records ((digits ++ (b :: rest)) :: tail) =
      readFrom (if b = minus then .multiLineMinus else .lastLineSpace) v record (n + 3) records
        (remaining (b :: rest) tail) := by
    rw [← hdigits.1] at hmatch ⊢
    exact readFrom_goOn hne hmatch
  rw [List.append_assoc, List.singleton_append, hfirst, Blocks.remaining_cons]
  rw [← List.singleton_append]
  rcases hb with ⟨rfl, rfl⟩ | ⟨rfl, rfl⟩
  · exact readFrom_goOn (List.cons_ne_nil minus []) rfl
  · exact readFrom_goOn (List.cons_ne_nil space []) rfl

end Code

section Text

theorem readFrom_lineEnd (h : Piece crlf blocks blocks') :
    readFrom .multilineText v record n records blocks =
      if record.Fits then readFrom .multilineTextBegin v (record.push v) (n + 2) records blocks'
      else .closed .memoryExhausted := by
  obtain ⟨rest, tail, rfl, rfl⟩ := h
  refine readFrom_text (by decide) ?_
  simp only [rule, if_pos (List.prefix_append crlf rest)]
  rfl

theorem takeWhile_run_block {run : Bytes} (hrun : ∀ b ∈ run, isPlain b = true)
    (hrest : rest = [] ∨ ∃ rest', rest = carriageReturn :: rest') :
    (run ++ rest).takeWhile isPlain = run := by
  refine takeWhile_run hrun ?_
  rcases hrest with rfl | ⟨rest', rfl⟩
  · intro b hb
    cases hb
  · intro b hb
    cases hb
    rfl

theorem cString_plain {run : Bytes} (hrun : IsPlain run) : cString run = run := by
  refine List.takeWhile_eq_self_iff.mpr fun b hb => ?_
  rw [bne_iff_ne]
  exact (hrun b hb).2

/-- A run of text of a line that is not the last one: it takes the place of what has been read. -/
theorem readFrom_run {run : Bytes} (hne : run ≠ []) (hrun : IsPlain run)
    (hrest : rest = [] ∨ ∃ rest', rest = carriageReturn :: rest') :
    readFrom .multilineText v record n records ((run ++ rest) :: blocks) =
      readFrom .multilineText run record (n + run.length) records (remaining rest blocks) := by
  obtain ⟨b, run, rfl⟩ := List.exists_cons_of_ne_nil hne
  have htake := takeWhile_run_block (fun b hb => (hrun b hb).1) hrest
  have hcrlf : ¬ crlf <+: b :: run ++ rest := not_crlf_of_plain (hrun b List.mem_cons_self).1 _
  refine readFrom_goOn hne ?_
  simp only [rule, if_neg hcrlf, htake, cString_plain hrun]
  rfl

theorem readFrom_lastRun {run : Bytes} (hc : c = .text ∨ c = .lastLineText) (hne : run ≠ [])
    (hrun : IsPlain run) (hrest : rest = [] ∨ ∃ rest', rest = carriageReturn :: rest') :
    readFrom c v record n records ((run ++ rest) :: blocks) =
      if record.Fits then
        readFrom c run (record.push run) (n + run.length) records (remaining rest blocks)
      else .closed .memoryExhausted := by
  obtain ⟨b, run, rfl⟩ := List.exists_cons_of_ne_nil hne
  have htake := takeWhile_run_block (fun b hb => (hrun b hb).1) hrest
  have hcrlf : ¬ crlf <+: b :: run ++ rest := not_crlf_of_plain (hrun b List.mem_cons_self).1 _
  have hmatch : textRule c (b :: run ++ rest) =
      .give (.replyText (b :: run)) c (b :: run) (b :: run).length := by
    simp only [textRule, if_neg hcrlf, htake, cString_plain hrun]
    rfl
  refine readFrom_text hne ?_
  rcases hc with rfl | rfl <;> exact hmatch

theorem readFrom_lastEnd (hc : c = .text ∨ c = .lastLineText) :
    readFrom c v record n records ((crlf ++ rest) :: blocks) =
      if record.Fits then readNext (records ++ [(record, n + 2)]) [] blocks
      else .closed .memoryExhausted := by
  have hmatch : textRule c (crlf ++ rest) = .give .reply .initial [] 2 :=
    if_pos (List.prefix_append crlf rest)
  refine readFrom_reply (by simp [crlf]) ?_
  rcases hc with rfl | rfl <;> exact hmatch

theorem readFrom_return (hc : c = .text ∨ c = .lastLineText ∨ c = .multilineText) :
    readFrom c v record n records ([carriageReturn] :: blocks) = .closed (.fault .assertion) := by
  refine readFrom_fails (List.cons_ne_nil _ _) ?_
  rcases hc with rfl | rfl | rfl <;> rfl

end Text

/-- Where a text starts, its first run ends with the text or with its block. -/
theorem exists_run_block (hblocks : ∀ b ∈ blocks, b ≠ []) (ht : IsPlain t) (hne : t ≠ [])
    (hflatten : blocks.flatten = t ++ (crlf ++ more)) :
    ∃ run rest tail, blocks = (run ++ rest) :: tail ∧ run ≠ [] ∧
      (run = t ∧ (rest = [] ∨ ∃ rest', rest = carriageReturn :: rest') ∨
        rest = [] ∧ ∃ t', t' ≠ [] ∧ t = run ++ t') := by
  obtain ⟨b, t, rfl⟩ := List.exists_cons_of_ne_nil hne
  obtain ⟨word, tail, rfl, hword⟩ := Blocks.exists_cons_of_flatten hblocks hflatten
  rcases List.append_eq_append_iff.mp hword with ⟨t', ht', hrest⟩ | ⟨rest, hrest, htail⟩
  · cases t' with
    | nil =>
      refine ⟨b :: word, [], tail, by simp, List.cons_ne_nil _ _, Or.inl ⟨?_, Or.inl rfl⟩⟩
      simpa using ht'.symm
    | cons d t' =>
      refine ⟨b :: word, [], tail, by simp, List.cons_ne_nil _ _,
        Or.inr ⟨rfl, d :: t', List.cons_ne_nil _ _, ?_⟩⟩
      rw [ht']
      rfl
  · refine ⟨b :: t, rest, tail, by rw [hrest]; rfl, List.cons_ne_nil _ _, Or.inl ⟨rfl, ?_⟩⟩
    cases rest with
    | nil => exact Or.inl rfl
    | cons d rest =>
      obtain rfl : carriageReturn = d := (List.cons.inj htail).1
      exact Or.inr ⟨rest, rfl⟩

theorem exists_lineEnd (hblocks : ∀ b ∈ blocks, b ≠ []) (hflatten : blocks.flatten = crlf ++ more) :
    (∃ rest tail, blocks = (crlf ++ rest) :: tail) ∨ ∃ tail, blocks = [carriageReturn] :: tail := by
  obtain ⟨word, tail, rfl, hword⟩ := Blocks.exists_cons_of_flatten hblocks hflatten
  cases word with
  | nil => exact Or.inr ⟨tail, rfl⟩
  | cons d word =>
    obtain rfl : d = lineFeed := (List.cons.inj hword).1
    exact Or.inl ⟨word, tail, rfl⟩

section Opened

theorem piece_nil (hne : blocks ≠ []) (hblocks : ∀ b ∈ blocks, b ≠ []) : Piece [] blocks blocks := by
  obtain ⟨word, tail, rfl⟩ := List.exists_cons_of_ne_nil hne
  obtain ⟨b, word, rfl⟩ := List.exists_cons_of_ne_nil (hblocks word List.mem_cons_self)
  exact ⟨b :: word, tail, rfl, (Blocks.remaining_cons b word tail).symm⟩

theorem lineEnd_of_opened (hblocks : ∀ b ∈ blocks, b ≠ []) (hflatten : blocks.flatten = crlf ++ more)
    (h : readFrom .multilineText v record n records blocks = .opened p) :
    ∃ blocks', Piece crlf blocks blocks' ∧ readFrom .multilineText v record n records blocks =
      readFrom .multilineTextBegin v (record.push v) (n + 2) records blocks' := by
  rcases exists_lineEnd hblocks hflatten with ⟨rest, tail, rfl⟩ | ⟨tail, rfl⟩
  · have hpiece : Piece crlf ((crlf ++ rest) :: tail) (remaining rest tail) := ⟨rest, tail, rfl, rfl⟩
    have hfits : record.Fits := by
      by_contra hfits
      rw [readFrom_lineEnd hpiece, if_neg hfits] at h
      cases h
    exact ⟨_, hpiece, by rw [readFrom_lineEnd hpiece, if_pos hfits]⟩
  · rw [readFrom_return (Or.inr (Or.inr rfl))] at h
    cases h

/-- A text and its line end, where parsing goes on: what is read is the text only if that has not
been cut. -/
theorem line_of_opened (hblocks : ∀ b ∈ blocks, b ≠ []) (ht : IsPlain t)
    (hflatten : blocks.flatten = t ++ (crlf ++ more))
    (h : readFrom .multilineText v record n records blocks = .opened p) :
    ∃ value blocks', readFrom .multilineText v record n records blocks =
        readFrom .multilineTextBegin value (record.push value) (n + t.length + 2) records blocks' ∧
      blocks'.flatten = more ∧ (∀ b ∈ blocks', b ≠ []) ∧
      (t ≠ [] → value.length ≤ t.length) ∧ (value = t → Line t blocks blocks') := by
  induction hlength : t.length using Nat.strong_induction_on generalizing t v n blocks with
  | _ k ih =>
    subst hlength
    by_cases hne : t = []
    · subst hne
      obtain ⟨blocks', hpiece, hread⟩ := lineEnd_of_opened hblocks hflatten h
      have hflatten' := hpiece.flatten.symm.trans hflatten
      have hcons : blocks ≠ [] := by
        rintro rfl
        cases hflatten
      exact ⟨v, blocks', hread, List.append_cancel_left hflatten', hpiece.nonempty hblocks,
        fun hne => absurd rfl hne, fun _ => ⟨blocks, piece_nil hcons hblocks, hpiece⟩⟩
    · obtain ⟨run, rest, tail, rfl, hrun, ⟨rfl, hrest⟩ | ⟨rfl, t', ht', rfl⟩⟩ :=
        exists_run_block hblocks ht hne hflatten
      · have hpiece : Piece run ((run ++ rest) :: tail) (remaining rest tail) :=
          ⟨rest, tail, rfl, rfl⟩
        have hflatten' := List.append_cancel_left (hpiece.flatten.symm.trans hflatten)
        rw [readFrom_run hrun ht hrest] at h ⊢
        obtain ⟨blocks', hend, hread⟩ := lineEnd_of_opened (hpiece.nonempty hblocks) hflatten' h
        refine ⟨run, blocks', hread, ?_, hend.nonempty (hpiece.nonempty hblocks),
          fun _ => le_refl _, fun _ => ⟨_, hpiece, hend⟩⟩
        rw [hend.flatten] at hflatten'
        exact List.append_cancel_left hflatten'
      · have hrun' : IsPlain run := fun b hb => ht b (List.mem_append_left t' hb)
        have hlt : t'.length < (run ++ t').length := by
          rw [List.length_append]
          have hpos := List.length_pos_iff.mpr hrun
          omega
        rw [List.append_nil, List.flatten_cons, List.append_assoc] at hflatten
        rw [readFrom_run hrun hrun' (Or.inl rfl), Blocks.remaining_nil] at h ⊢
        obtain ⟨value, blocks', hread, hmore, hblocks', hvalue, -⟩ := ih _ hlt
          (fun b hb => hblocks b (List.mem_cons_of_mem _ hb))
          (fun b hb => ht b (List.mem_append_right run hb)) (List.append_cancel_left hflatten) h rfl
        have hle := hvalue ht'
        refine ⟨value, blocks', ?_, hmore, hblocks', fun _ => le_of_lt (lt_of_le_of_lt hle hlt),
          fun heq => ?_⟩
        · rw [hread, List.length_append, Nat.add_assoc n]
        · -- a run that has taken the place of another is shorter than the text
          rw [heq] at hle
          exact absurd hlt (not_lt.mpr hle)

theorem lastEnd_of_opened (hc : c = .text ∨ c = .lastLineText) (hblocks : ∀ b ∈ blocks, b ≠ [])
    (hflatten : blocks.flatten = crlf ++ more)
    (h : readFrom c v record n records blocks = .opened p) :
    ∃ lost blocks', blocks = (crlf ++ lost) :: blocks' ∧ record.Fits ∧
      readFrom c v record n records blocks =
        readNext (records ++ [(record, n + 2)]) [] blocks' := by
  rcases exists_lineEnd hblocks hflatten with ⟨lost, blocks', rfl⟩ | ⟨tail, rfl⟩
  · have hfits : record.Fits := by
      by_contra hfits
      rw [readFrom_lastEnd hc, if_neg hfits] at h
      cases h
    exact ⟨lost, blocks', rfl, hfits, by rw [readFrom_lastEnd hc, if_pos hfits]⟩
  · have hc' : c = .text ∨ c = .lastLineText ∨ c = .multilineText := by
      rcases hc with rfl | rfl <;> simp
    rw [readFrom_return hc'] at h
    cases h

theorem lastRun_of_opened {run : Bytes} (hc : c = .text ∨ c = .lastLineText) (hne : run ≠ [])
    (hrun : IsPlain run) (hrest : rest = [] ∨ ∃ rest', rest = carriageReturn :: rest')
    (h : readFrom c v record n records ((run ++ rest) :: blocks) = .opened p) :
    readFrom c v record n records ((run ++ rest) :: blocks) =
      readFrom c run (record.push run) (n + run.length) records (remaining rest blocks) := by
  have hfits : record.Fits := by
    by_contra hfits
    rw [readFrom_lastRun hc hne hrun hrest, if_neg hfits] at h
    cases h
  rw [readFrom_lastRun hc hne hrun hrest, if_pos hfits]

/-- The text and the line end of a last line, where parsing goes on: the text is one text of the
record only if it is not empty and has not been cut, and nothing is lost only if its block ends. -/
theorem last_of_opened (hc : c = .text ∨ c = .lastLineText) (hblocks : ∀ b ∈ blocks, b ≠ [])
    (ht : IsPlain t) (hflatten : blocks.flatten = t ++ (crlf ++ more))
    (h : readFrom c v record n records blocks = .opened p) :
    ∃ texts lost blocks', readFrom c v record n records blocks =
        readNext (records ++ [(⟨record.code, record.text ++ texts⟩, n + t.length + 2)]) []
          blocks' ∧
      more = lost ++ blocks'.flatten ∧ (∀ b ∈ blocks', b ≠ []) ∧
      3 + ((record.text ++ texts).length + 1) ≤ Glr.maxItems ∧
      (texts = [t] → lost = [] → Last t blocks blocks') := by
  induction hlength : t.length using Nat.strong_induction_on
    generalizing t v n record blocks with
  | _ k ih =>
    subst hlength
    by_cases hne : t = []
    · subst hne
      obtain ⟨lost, blocks', rfl, hfits, hread⟩ := lastEnd_of_opened hc hblocks hflatten h
      rw [List.flatten_cons, List.append_assoc] at hflatten
      refine ⟨[], lost, blocks', ?_, (List.append_cancel_left hflatten).symm,
        fun b hb => hblocks b (List.mem_cons_of_mem _ hb), ?_, fun htexts => absurd htexts (by simp)⟩
      · rw [hread, List.append_nil]
        rfl
      · rw [List.append_nil]
        exact hfits
    · obtain ⟨run, rest, tail, rfl, hrun, ⟨rfl, hrest⟩ | ⟨rfl, t', ht', rfl⟩⟩ :=
        exists_run_block hblocks ht hne hflatten
      · have hpiece : Piece run ((run ++ rest) :: tail) (remaining rest tail) :=
          ⟨rest, tail, rfl, rfl⟩
        have hflatten' := List.append_cancel_left (hpiece.flatten.symm.trans hflatten)
        have hfirst := lastRun_of_opened hc hrun ht hrest h
        rw [hfirst] at h ⊢
        obtain ⟨lost, blocks', hcons, hfits, hread⟩ :=
          lastEnd_of_opened hc (hpiece.nonempty hblocks) hflatten' h
        rw [hcons, List.flatten_cons, List.append_assoc] at hflatten'
        refine ⟨[run], lost, blocks', hread, (List.append_cancel_left hflatten').symm, ?_, hfits, ?_⟩
        · intro b hb
          exact hpiece.nonempty hblocks b (hcons ▸ List.mem_cons_of_mem _ hb)
        · rintro - rfl
          exact ⟨hne, _, hpiece, by rw [Whole, hcons, List.append_nil]⟩
      · have hrun' : IsPlain run := fun b hb => ht b (List.mem_append_left t' hb)
        have hlt : t'.length < (run ++ t').length := by
          rw [List.length_append]
          have hpos := List.length_pos_iff.mpr hrun
          omega
        rw [List.append_nil, List.flatten_cons, List.append_assoc] at hflatten
        have hfirst := lastRun_of_opened hc hrun hrun' (Or.inl rfl) h
        rw [Blocks.remaining_nil] at hfirst
        rw [hfirst] at h ⊢
        obtain ⟨texts, lost, blocks', hread, hmore, hblocks', hfits, -⟩ := ih _ hlt
          (fun b hb => hblocks b (List.mem_cons_of_mem _ hb))
          (fun b hb => ht b (List.mem_append_right run hb)) (List.append_cancel_left hflatten) h rfl
        refine ⟨run :: texts, lost, blocks', ?_, hmore, hblocks', ?_, fun htexts => ?_⟩
        · rw [hread, List.length_append, Nat.add_assoc n, List.append_cons record.text]
          rfl
        · rw [List.append_cons record.text]
          exact hfits
        · -- a text of its own is not the whole text
          have hwhole := (List.cons.inj htexts).1
          exact absurd (List.append_right_eq_self.mp hwhole.symm) ht'

/-- What stands before the first line end starts with what a block starts with. -/
theorem prefix_of_flatten {front tail : Bytes} (hfront : carriageReturn ∉ front)
    (h : front ++ tail = t ++ (crlf ++ more)) : front <+: t := by
  rcases List.append_eq_append_iff.mp h with ⟨t', rfl, -⟩ | ⟨extra, hextra, hcrlf⟩
  · exact List.prefix_append front t'
  · cases extra with
    | nil =>
      rw [List.append_nil] at hextra
      rw [hextra]
    | cons b extra =>
      obtain rfl : carriageReturn = b := (List.cons.inj hcrlf).1
      exact absurd (by rw [hextra]; simp) hfront

variable {digits : Bytes}

theorem return_notMem_digits (hdigits : digits.all isDigit = true) : carriageReturn ∉ digits := by
  intro hin
  have h := List.all_eq_true.mp hdigits _ hin
  cases h

theorem lineRule_of_ne_fails {code : ℕ} (hrecord : record.code = code)
    (h : lineRule (some record) v word ≠ .fails) :
    ∃ digits b rest, word = digits ++ b :: rest ∧ digits.length = 3 ∧ digits.all isDigit = true ∧
      decimalValue digits = code ∧ (b = minus ∨ b = space) := by
  cases hvalue : codeOf word with
  | none =>
    simp only [lineRule, hvalue] at h
    exact absurd rfl h
  | some value =>
    obtain ⟨digits, rest, rfl, hlength, hall, rfl⟩ := codeOf_some hvalue
    cases rest with
    | nil =>
      have hthird : (digits ++ [])[3]? = none := List.getElem?_eq_none (by simp; omega)
      simp only [lineRule, hvalue, hthird] at h
      exact absurd rfl h
    | cons b rest =>
      have hthird : (digits ++ b :: rest)[3]? = some b := by
        rw [← hlength, List.getElem?_append_right (le_refl _), Nat.sub_self]
        rfl
      simp only [lineRule, hvalue, hthird] at h
      by_cases hb : b ≠ minus ∧ b ≠ space
      · rw [if_pos hb] at h
        exact absurd rfl h
      · rw [if_neg hb] at h
        have heq : decimalValue digits = code := by
          by_contra hne
          refine h (if_pos ?_)
          rw [Option.map_some, hrecord]
          exact fun hsome => hne (Option.some.inj hsome)
        refine ⟨digits, b, rest, rfl, hlength, hall, heq, ?_⟩
        by_contra hnone
        exact hb (not_or.mp hnone)

/-- A line behind the first one, where parsing goes on: it starts with the code, and a minus or a
space, in one block. -/
theorem code_of_opened (hblocks : ∀ b ∈ blocks, b ≠ []) (hne : blocks ≠ [])
    (hdigits : digits.length = 3 ∧ digits.all isDigit = true)
    (hcode : record.code = decimalValue digits) (hflatten : blocks.flatten = t ++ (crlf ++ more))
    (h : readFrom .multilineTextBegin v record n records blocks = .opened p) :
    ∃ b t' blocks', (b = minus ∨ b = space) ∧ t = digits ++ b :: t' ∧
      Piece (digits ++ [b]) blocks blocks' := by
  obtain ⟨word, tail, rfl⟩ := List.exists_cons_of_ne_nil hne
  have hopen : lineRule (some record) v word ≠ .fails := by
    intro hfails
    have hrule : rule ⟨.multilineTextBegin, v, some record, n, records⟩ word = .fails := hfails
    rw [readFrom_fails (hblocks word List.mem_cons_self) hrule] at h
    cases h
  obtain ⟨digits', b, rest, rfl, hlength, hall, hvalue, hb⟩ := lineRule_of_ne_fails hcode hopen
  obtain rfl := decimalValue_injective hall hdigits.2 (hlength.trans hdigits.1.symm) hvalue
  have hreturn : carriageReturn ∉ digits' ++ [b] := by
    rw [List.mem_append, not_or]
    refine ⟨return_notMem_digits hall, ?_⟩
    rcases hb with rfl | rfl <;> decide
  have hsplit : (digits' ++ [b]) ++ (rest ++ tail.flatten) = t ++ (crlf ++ more) := by
    rw [← hflatten]
    simp
  obtain ⟨t', rfl⟩ := prefix_of_flatten hreturn hsplit
  exact ⟨b, t', remaining rest tail, hb, by simp, rest, tail, by simp, rfl⟩

theorem content_cons (line : Bytes) (lines : List Bytes) :
    content (line :: lines) = line ++ crlf ++ content lines := rfl

theorem drop_code (hdigits : digits.length = 3) (b : UInt8) (text : Bytes) :
    (digits ++ b :: text).drop 4 = text := by
  rw [List.append_cons, List.drop_left']
  simp [hdigits]

theorem lastLine_of_opened {last : Bytes} (hblocks : ∀ b ∈ blocks, b ≠ [])
    (hdigits : digits.length = 3 ∧ digits.all isDigit = true)
    (hcode : record.code = decimalValue digits) (hlast : IsPlain last)
    (hflatten : blocks.flatten = digits ++ space :: last ++ (crlf ++ more))
    (h : readFrom .multilineTextBegin v record n records blocks = .opened p) :
    ∃ texts lost blocks', readFrom .multilineTextBegin v record n records blocks =
        readNext (records ++ [(⟨record.code, record.text ++ texts⟩,
          n + (digits ++ space :: last ++ crlf).length)]) [] blocks' ∧
      more = lost ++ blocks'.flatten ∧ (∀ b ∈ blocks', b ≠ []) ∧
      3 + ((record.text ++ texts).length + 1) ≤ Glr.maxItems ∧
      (texts = [last] → lost = [] → ∃ blocks₁, Piece (digits ++ [space]) blocks blocks₁ ∧
        Last last blocks₁ blocks') := by
  have hne : blocks ≠ [] := by
    rintro rfl
    simp at hflatten
  obtain ⟨b, t', blocks₁, -, ht, hpiece⟩ :=
    code_of_opened hblocks hne hdigits hcode hflatten h
  obtain ⟨rfl, rfl⟩ := List.cons.inj (List.append_cancel_left ht)
  have hread := @readFrom_line .lastLineText v record n records blocks blocks₁ digits hdigits space
    (Or.inr ⟨rfl, rfl⟩) hcode hpiece
  have hsplit : digits ++ space :: last ++ (crlf ++ more) =
      digits ++ [space] ++ (last ++ (crlf ++ more)) := by simp
  have hflatten₁ : blocks₁.flatten = last ++ (crlf ++ more) := by
    rw [hpiece.flatten, hsplit] at hflatten
    exact List.append_cancel_left hflatten
  rw [hread] at h ⊢
  obtain ⟨texts, lost, blocks', hlastRead, hmore, hblocks', hfits, hwhole⟩ :=
    last_of_opened (Or.inr rfl) (hpiece.nonempty hblocks) hlast hflatten₁ h
  refine ⟨texts, lost, blocks', ?_, hmore, hblocks', hfits, fun htexts hlost =>
    ⟨blocks₁, hpiece, hwhole htexts hlost⟩⟩
  have hlength : n + 4 + last.length + 2 = n + (digits ++ space :: last ++ crlf).length := by
    simp only [List.length_append, List.length_cons, hdigits.1]
    have hcrlf : crlf.length = 2 := by decide
    omega
  rw [hlastRead, hlength]

theorem lines_of_opened {middle : List Bytes} {last : Bytes}
    (hdigits : digits.length = 3 ∧ digits.all isDigit = true) (hlast : IsPlain last)
    (hmiddle : ∀ line ∈ middle, IsPlain line ∧ ¬ digits ++ [space] <+: line)
    (hblocks : ∀ b ∈ blocks, b ≠ []) (hcode : record.code = decimalValue digits)
    (hflatten : blocks.flatten =
      content middle ++ (digits ++ space :: last ++ (crlf ++ more)))
    (h : readFrom .multilineTextBegin v record n records blocks = .opened p) :
    ∃ texts lost blocks', readFrom .multilineTextBegin v record n records blocks =
        readNext (records ++ [(⟨record.code, record.text ++ texts⟩,
          n + (content middle ++ (digits ++ space :: last ++ crlf)).length)]) [] blocks' ∧
      more = lost ++ blocks'.flatten ∧ (∀ b ∈ blocks', b ≠ []) ∧
      3 + ((record.text ++ texts).length + 1) ≤ Glr.maxItems ∧
      (∀ line ∈ middle, digits ++ [minus] <+: line) ∧
      (texts = middle.map (fun line => line.drop 4) ++ [last] → lost = [] →
        ∃ blocks₁ blocks₂, Middle digits middle blocks blocks₁ ∧
          Piece (digits ++ [space]) blocks₁ blocks₂ ∧ Last last blocks₂ blocks') := by
  induction middle generalizing v n record blocks with
  | nil =>
    obtain ⟨texts, lost, blocks', hread, hmore, hblocks', hfits, hwhole⟩ :=
      lastLine_of_opened hblocks hdigits hcode hlast hflatten h
    refine ⟨texts, lost, blocks', hread, hmore, hblocks', hfits, by simp, fun htexts hlost => ?_⟩
    obtain ⟨blocks₁, hpiece, hlast'⟩ := hwhole htexts hlost
    exact ⟨blocks, blocks₁, .nil blocks, hpiece, hlast'⟩
  | cons line middle ih =>
    obtain ⟨hline, hspace⟩ := hmiddle line List.mem_cons_self
    have hne : blocks ≠ [] := by
      rintro rfl
      simp [content_cons, crlf] at hflatten
    rw [content_cons, List.append_assoc, List.append_assoc] at hflatten
    obtain ⟨b, t', blocks₁, hb, rfl, hpiece⟩ :=
      code_of_opened hblocks hne hdigits hcode hflatten h
    obtain rfl : b = minus := by
      rcases hb with hb | rfl
      · exact hb
      · exact absurd ⟨t', by simp⟩ hspace
    have hread := @readFrom_line .multilineText v record n records blocks blocks₁ digits hdigits
      minus (Or.inl ⟨rfl, rfl⟩) hcode hpiece
    have hflatten₁ : blocks₁.flatten = t' ++ (crlf ++ (content middle ++
        (digits ++ space :: last ++ (crlf ++ more)))) := by
      have hsplit : digits ++ minus :: t' ++ (crlf ++ (content middle ++
          (digits ++ space :: last ++ (crlf ++ more)))) = digits ++ [minus] ++
          (t' ++ (crlf ++ (content middle ++ (digits ++ space :: last ++ (crlf ++ more))))) := by
        simp
      rw [hpiece.flatten, hsplit] at hflatten
      exact List.append_cancel_left hflatten
    have ht' : IsPlain t' := fun b hb => hline b (by simp [hb])
    rw [hread] at h ⊢
    obtain ⟨value, blocks₂, hread₁, hflatten₂, hblocks₂, -, hline⟩ :=
      line_of_opened (hpiece.nonempty hblocks) ht' hflatten₁ h
    rw [hread₁] at h ⊢
    have hcode' : (record.push value).code = decimalValue digits := hcode
    obtain ⟨texts, lost, blocks', hread₂, hmore, hblocks', hfits, hcodes, hwhole⟩ :=
      ih (fun line hline => hmiddle line (List.mem_cons_of_mem _ hline)) hblocks₂ hcode' hflatten₂ h
    refine ⟨value :: texts, lost, blocks', ?_, hmore, hblocks', ?_, ?_, fun htexts hlost => ?_⟩
    · have hlength : n + 4 + t'.length + 2 +
          (content middle ++ (digits ++ space :: last ++ crlf)).length =
          n + (content ((digits ++ minus :: t') :: middle) ++
            (digits ++ space :: last ++ crlf)).length := by
        simp only [content_cons, List.length_append, List.length_cons, hdigits.1]
        have hcrlf : crlf.length = 2 := by decide
        omega
      rw [hread₂, hlength, List.append_cons record.text]
      rfl
    · rw [List.append_cons record.text]
      exact hfits
    · intro line hline
      rcases List.mem_cons.mp hline with rfl | hline
      · exact ⟨t', by simp⟩
      · exact hcodes line hline
    · rw [List.map_cons, drop_code hdigits.1, List.cons_append] at htexts
      obtain ⟨rfl, htail⟩ := List.cons.inj htexts
      obtain ⟨blocks₃, blocks₄, hmiddle', hlast'⟩ := hwhole htail hlost
      exact ⟨blocks₃, blocks₄, .cons hpiece (hline rfl) hmiddle', hlast'⟩

end Opened

end ACENetwork.FTP
