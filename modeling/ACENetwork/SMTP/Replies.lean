import ACENetwork.FTP.Replies
import ACENetwork.SMTP.Scanner

/-!
# Replies and their records

The replies of a server as they are sent, what the parser makes of the parts of their lines, and how
the blocks of a connection may cut them.
-/
namespace ACENetwork.SMTP.Parser
open BitTorrent (Fault)
open FTP (IsPlain codeOf cString minus space)
open Library
open Library.Blocks (Piece Whole remaining)

/-- A reply as it is sent: its code in digits, the texts of the lines that are continued, and the
text of the last line. -/
structure Written where
  digits : Bytes
  lines : List Bytes := []
  last : Bytes
  deriving DecidableEq

/-- A line: the code, what tells whether another one follows, and the text. -/
def lineOctets (digits : Bytes) (kind : UInt8) (text : Bytes) : Bytes :=
  digits ++ (kind :: (text ++ crlf))

def linesOctets (digits last : Bytes) (lines : List Bytes) : Bytes :=
  lines.flatMap (lineOctets digits minus) ++ lineOctets digits space last

def Written.octets (r : Written) : Bytes := linesOctets r.digits r.last r.lines

def Written.record (r : Written) : Reply := ⟨decimalValue r.digits, r.lines ++ [r.last]⟩

structure Written.WellFormed (r : Written) : Prop where
  digits : r.digits.length = 3 ∧ r.digits.all isDigit = true
  lines : ∀ line ∈ r.lines, IsPlain line
  last : IsPlain r.last

/-- Each reply has been delivered as one record, which was read from its octets. -/
def Delivers (replies : List Written) (blocks : List Bytes) : Prop :=
  ∃ p, receive blocks = .opened p ∧ p.condition = .initial ∧ p.record = none ∧
    p.records = replies.map fun r => (r.record, r.octets.length)

/-- No line has been cut; the last one has a text and ends its block. -/
inductive Uncut (digits last : Bytes) : List Bytes → List Bytes → List Bytes → Prop where
  | last {blocks blocks'} : last ≠ [] → Whole (lineOctets digits space last) blocks blocks' →
      Uncut digits last [] blocks blocks'
  | line {line lines blocks blocks₁ blocks'} : Piece (lineOctets digits minus line) blocks blocks₁ →
      Uncut digits last lines blocks₁ blocks' → Uncut digits last (line :: lines) blocks blocks'

/-- A reply that is read as its record: the lines have room on the stack as well. -/
def Written.Readable (r : Written) (blocks blocks' : List Bytes) : Prop :=
  r.lines.length + 5 ≤ Glr.maxItems ∧ Uncut r.digits r.last r.lines blocks blocks'

/-- One reply after the other is read as its record. -/
inductive AllReadable : List Written → List Bytes → Prop where
  | nil : AllReadable [] []
  | cons {r replies blocks blocks'} : r.Readable blocks blocks' → AllReadable replies blocks' →
      AllReadable (r :: replies) blocks

variable {c next : Condition} {t v v' word rest more digits : Bytes} {p : Parse} {record : Reply}
  {coded : Bool} {n : ℕ} {records : List (Reply × ℕ)} {tail blocks : List Bytes}

/-- What becomes of what is left of a block, and of the blocks that follow. -/
def readIn (c : Condition) (v : Bytes) (record : Reply) (coded : Bool) (n : ℕ)
    (records : List (Reply × ℕ)) (text : Bytes) (tail : List Bytes) :
    Blocks.Progress Parse (Glr.Abort Fault) :=
  Blocks.read step ⟨if text = [] then .initial else c, v, some record, coded, n, records⟩ (text :: tail)

def readLine (v : Bytes) (record : Reply) (coded : Bool) (n : ℕ) (records : List (Reply × ℕ))
    (blocks : List Bytes) : Blocks.Progress Parse (Glr.Abort Fault) :=
  Blocks.read step ⟨.initial, v, some record, coded, n, records⟩ blocks

def readNext (records : List (Reply × ℕ)) (v : Bytes) (blocks : List Bytes) :
    Blocks.Progress Parse (Glr.Abort Fault) :=
  Blocks.read step ⟨.initial, v, none, false, 0, records⟩ blocks

def push (record : Reply) (value : Bytes) : Reply := ⟨record.code, record.text ++ [value]⟩

def Fits (record : Reply) (symbols : ℕ) : Prop := 3 + (record.text.length + symbols) ≤ Glr.maxItems

instance Fits.decidable (record : Reply) (symbols : ℕ) : Decidable (Fits record symbols) :=
  inferInstanceAs (Decidable (_ ≤ _))

section Actions

theorem resume_append (next : Condition) (word rest : Bytes) :
    resume (word ++ rest) word.length next = if rest = [] then .initial else next := by
  rw [resume, List.length_append]
  by_cases hrest : rest = []
  · rw [if_pos hrest, if_pos (by rw [hrest]; rfl)]
  · have hpos := List.length_pos_iff.mpr hrest
    rw [if_neg hrest, if_neg (by omega)]

/-- At the end of a block the next line is expected in the next one. -/
theorem readIn_nil : readIn c v record coded n records [] tail = readLine v record coded n records tail :=
  rfl

theorem readLine_remaining (rest : Bytes) (tail : List Bytes) :
    readLine v record coded n records (remaining rest tail) =
      readLine v record coded n records (rest :: tail) := Blocks.read_remaining _ rest tail

theorem readIn_replyCode (text : Bytes) (tail : List Bytes) :
    readIn .replyCode v record coded n records text tail =
      readLine v record coded n records (text :: tail) := by
  cases text with
  | nil => rfl
  | cons b text => rfl

theorem readIn_cond (hword : word ≠ []) : readIn c v record coded n records (word ++ rest) tail =
    Blocks.read step ⟨c, v, some record, coded, n, records⟩ ((word ++ rest) :: tail) := by
  have hne : word ++ rest ≠ [] := by simp [hword]
  rw [readIn, if_neg hne]

theorem readIn_goOn (hword : word ≠ [])
    (h : rule ⟨c, v, some record, coded, n, records⟩ (word ++ rest) = .goOn next v' word.length) :
    readIn c v record coded n records (word ++ rest) tail =
      readIn next v' record coded (n + word.length) records rest tail := by
  have hstep : step ⟨c, v, some record, coded, n, records⟩ (word ++ rest) =
      (.opened ⟨if rest = [] then .initial else next, v', some record, coded, n + word.length,
        records⟩, word.length) := by
    simp only [step, h, resume_append]
  rw [readIn_cond hword, Blocks.read_opened hword hstep, Blocks.read_remaining]
  rfl

theorem readIn_fails (hword : word ≠ [])
    (h : rule ⟨c, v, some record, coded, n, records⟩ word = .fails) :
    readIn c v record coded n records word tail = .closed (.fault .assertion) := by
  rw [readIn, if_neg hword]
  refine Blocks.read_closed (k := 1) hword ?_
  simp only [step, h]

theorem readIn_text {value : Bytes} (hword : word ≠ [])
    (h : rule ⟨c, v, some record, coded, n, records⟩ (word ++ rest) =
      .give (.replyText value) next v' word.length) :
    readIn c v record coded n records (word ++ rest) tail =
      if Fits record (1 + coded.toNat) then
        readIn next v' (push record value) false (n + word.length) records rest tail
      else .closed .memoryExhausted := by
  rw [readIn_cond hword]
  by_cases hfits : Fits record (1 + coded.toNat)
  · rw [if_pos hfits]
    rw [Fits, ← Nat.add_assoc record.text.length] at hfits
    have hstep : step ⟨c, v, some record, coded, n, records⟩ (word ++ rest) =
        (.opened ⟨if rest = [] then .initial else next, v', some (push record value), false,
          n + word.length, records⟩, word.length) := by
      simp only [step, h, Parse.accept, Glr.reserve_ok hfits, resume_append]
      rfl
    rw [Blocks.read_opened hword hstep, Blocks.read_remaining]
    rfl
  · rw [if_neg hfits]
    rw [Fits, ← Nat.add_assoc record.text.length] at hfits
    refine Blocks.read_closed (k := word.length) (by simp [hword]) ?_
    simp only [step, h, Parse.accept, Glr.reserve_exhausted hfits]
    rfl

theorem readIn_reply (hword : word ≠ [])
    (h : rule ⟨c, v, some record, false, n, records⟩ word = .give .reply next v' 2) :
    readIn c v record false n records word tail =
      if Fits record 1 then readNext (records ++ [(record, n + 2)]) v' tail
      else .closed .memoryExhausted := by
  rw [readIn, if_neg hword]
  by_cases hfits : Fits record 1
  · rw [if_pos hfits]
    have hstep : step ⟨c, v, some record, false, n, records⟩ (word ++ []) =
        (.opened ⟨.initial, v', none, false, 0, records ++ [(record, n + 2)]⟩, word.length) := by
      simp only [List.append_nil, step, h, Parse.accept, Glr.reserve_ok hfits]
      rfl
    have hread : Blocks.read step _ ((word ++ []) :: tail) = _ := Blocks.read_opened hword hstep
    rw [List.append_nil, Blocks.remaining_nil] at hread
    exact hread
  · rw [if_neg hfits]
    refine Blocks.read_closed (k := 2) hword ?_
    simp only [step, h, Parse.accept, Glr.reserve_exhausted hfits]
    rfl

/-- A line end in place of the text behind a code that is not the first one. -/
theorem readIn_unexpected (hword : word ≠ [])
    (h : rule ⟨c, v, some record, true, n, records⟩ word = .give .reply next v' 2) :
    readIn c v record true n records word tail = .closed .syntaxError := by
  rw [readIn, if_neg hword]
  refine Blocks.read_closed (k := 2) hword ?_
  simp only [step, h, Parse.accept]
  rfl

end Actions

section Code

theorem resume_code (hlength : digits.length = 3) (next : Condition) (rest : Bytes) :
    resume (digits ++ rest) 3 next = if rest = [] then .initial else next := by
  rw [← hlength, resume_append]

theorem digits_ne_nil (hdigits : digits.length = 3 ∧ digits.all isDigit = true) : digits ≠ [] := by
  rintro rfl
  exact absurd hdigits.1 (by decide)

theorem readNext_code (hdigits : digits.length = 3 ∧ digits.all isDigit = true) :
    readNext records v ((digits ++ rest) :: tail) =
      readIn .textBegin v ⟨decimalValue digits, []⟩ false 3 records rest tail := by
  have hne := digits_ne_nil hdigits
  have hstep : step ⟨.initial, v, none, false, 0, records⟩ (digits ++ rest) =
      (.opened ⟨if rest = [] then .initial else .textBegin, v, some ⟨decimalValue digits, []⟩, false, 3,
        records⟩, digits.length) := by
    simp only [step, rule, FTP.codeOf_append hdigits, Parse.accept, resume_code hdigits.1, hdigits.1]
    rfl
  rw [readNext, Blocks.read_opened hne hstep, Blocks.read_remaining]
  rfl

theorem readNext_fails (hword : word ≠ []) (h : codeOf word = none) :
    readNext records v (word :: tail) = .closed (.fault .assertion) := by
  refine Blocks.read_closed (k := 1) hword ?_
  simp only [step, rule, h]

theorem readLine_fails (hword : word ≠ []) (h : codeOf word = none) :
    readLine v record coded n records (word :: tail) = .closed (.fault .assertion) := by
  refine Blocks.read_closed (k := 1) hword ?_
  simp only [step, rule, h]

theorem readLine_code (hdigits : digits.length = 3 ∧ digits.all isDigit = true) :
    readLine v record false n records ((digits ++ rest) :: tail) =
      if Fits record 1 then readIn .textBegin v record true (n + 3) records rest tail
      else .closed .memoryExhausted := by
  have hne := digits_ne_nil hdigits
  by_cases hfits : Fits record 1
  · rw [if_pos hfits]
    have hstep : step ⟨.initial, v, some record, false, n, records⟩ (digits ++ rest) =
        (.opened ⟨if rest = [] then .initial else .textBegin, v, some record, true, n + 3,
          records⟩, digits.length) := by
      simp only [step, rule, FTP.codeOf_append hdigits, Parse.accept, Glr.reserve_ok hfits,
        resume_code hdigits.1, hdigits.1]
      rfl
    rw [readLine, Blocks.read_opened hne hstep, Blocks.read_remaining]
    rfl
  · rw [if_neg hfits]
    refine Blocks.read_closed (k := 3) (by simp [hne]) ?_
    simp only [step, rule, FTP.codeOf_append hdigits, Parse.accept, Glr.reserve_exhausted hfits]
    rfl

theorem readLine_repeated (hdigits : digits.length = 3 ∧ digits.all isDigit = true) :
    readLine v record true n records ((digits ++ rest) :: tail) = .closed .syntaxError := by
  have hne : digits ++ rest ≠ [] := by simp [digits_ne_nil hdigits]
  refine Blocks.read_closed (k := 3) hne ?_
  simp only [step, rule, FTP.codeOf_append hdigits, Parse.accept]
  rfl

theorem readIn_kind {b : UInt8} (hb : b = minus ∧ next = .multilineText ∨ b = space ∧ next = .text) :
    readIn .textBegin v record coded n records (b :: rest) tail =
      readIn next [] record coded (n + 1) records rest tail := by
  rcases hb with ⟨rfl, rfl⟩ | ⟨rfl, rfl⟩
  · exact readIn_goOn (List.cons_ne_nil minus []) rfl
  · exact readIn_goOn (List.cons_ne_nil space []) rfl

end Code

section Text

theorem readIn_lineEnd (hc : c = .multilineText ∨ c = .multilineTextCr) :
    readIn c v record coded n records (crlf ++ rest) tail =
      if Fits record (1 + coded.toNat) then
        readLine v (push record v) false (n + 2) records (rest :: tail)
      else .closed .memoryExhausted := by
  have hcrlf : crlf ≠ [] := by decide
  have hrule : rule ⟨c, v, some record, coded, n, records⟩ (crlf ++ rest) =
      .give (.replyText v) .replyCode v crlf.length := by
    rcases hc with rfl | rfl
    · simp only [rule, if_pos (List.prefix_append crlf rest)]
      rfl
    · simp only [rule, if_pos (List.prefix_append crlf rest)]
      rfl
  rw [readIn_text hcrlf hrule, readIn_replyCode]
  rfl

theorem takeWhile_run_block {run : Bytes} (hrun : carriageReturn ∉ run)
    (hrest : rest = [] ∨ ∃ rest', rest = carriageReturn :: rest') :
    (run ++ rest).takeWhile (· != carriageReturn) = run := by
  refine takeWhile_run (ne_return_of_notMem hrun) ?_
  rcases hrest with rfl | ⟨rest', rfl⟩
  · intro b hb
    cases hb
  · intro b hb
    cases hb
    rfl

theorem readIn_others {run : Bytes} (hne : run ≠ []) (hrun : carriageReturn ∉ run)
    (hrest : rest = [] ∨ ∃ rest', rest = carriageReturn :: rest') :
    readIn .multilineText v record coded n records (run ++ rest) tail =
      readIn .multilineTextCr (v ++ cString run) record coded (n + run.length) records rest tail := by
  have htake := takeWhile_run_block hrun hrest
  obtain ⟨b, run, rfl⟩ := List.exists_cons_of_ne_nil hne
  have hb : b ≠ carriageReturn := fun h => hrun (by simp [h])
  have hcrlf : ¬ crlf <+: b :: run ++ rest := not_crlf_cons hb _
  have hhead : ¬ (b :: run ++ rest).head? = some carriageReturn := fun h => hb (Option.some.inj h)
  refine readIn_goOn hne ?_
  simp only [rule, if_neg hcrlf, multilineRule, if_neg hhead, htake]

theorem readIn_run {run : Bytes} (hne : run ≠ []) (hrun : IsPlain run)
    (hrest : rest = [] ∨ ∃ rest', rest = carriageReturn :: rest') :
    readIn .multilineText v record coded n records (run ++ rest) tail =
      readIn .multilineTextCr (v ++ run) record coded (n + run.length) records rest tail := by
  have hreturn : carriageReturn ∉ run := return_notMem_plain fun b hb => (hrun b hb).1
  rw [readIn_others hne hreturn hrest, FTP.cString_plain hrun]

theorem readIn_return (hc : c = .multilineText ∨ c = .multilineTextCr) :
    ∃ v', readIn c v record coded n records [carriageReturn] tail =
      readLine v' record coded (n + 1) records tail := by
  have hne : [carriageReturn] ≠ [] := List.cons_ne_nil _ _
  rcases hc with rfl | rfl
  · exact ⟨v ++ [], readIn_goOn hne rfl⟩
  · exact ⟨v ++ [carriageReturn], readIn_goOn hne rfl⟩

theorem readIn_lastEnd (hrest : ¬ crlf <:+: rest) :
    readIn .text v record false n records (crlf ++ rest) tail =
      if Fits record 1 then readNext (records ++ [(record, n + 2)]) v tail
      else .closed .memoryExhausted := by
  have hbefore : upToLastLineEnd (crlf ++ rest) = some [] := upToLastLineEnd_append [] hrest
  have hrule : rule ⟨.text, v, some record, false, n, records⟩ (crlf ++ rest) =
      .give .reply .replyCode v 2 := by simp only [rule, hbefore]
  exact readIn_reply (by simp [crlf]) hrule

/-- The grammar has no line without a text behind another line. -/
theorem readIn_emptyLast (hrest : ¬ crlf <:+: rest) :
    readIn .text v record true n records (crlf ++ rest) tail = .closed .syntaxError := by
  have hbefore : upToLastLineEnd (crlf ++ rest) = some [] := upToLastLineEnd_append [] hrest
  have hrule : rule ⟨.text, v, some record, true, n, records⟩ (crlf ++ rest) =
      .give .reply .replyCode v 2 := by simp only [rule, hbefore]
  exact readIn_unexpected (by simp [crlf]) hrule

/-- Without a line end in the block the rule for the octets that match nothing matches. -/
theorem readIn_noLineEnd (hword : word ≠ []) (h : upToLastLineEnd word = none) :
    readIn .text v record coded n records word tail = .closed (.fault .assertion) :=
  readIn_fails hword (by simp only [rule, h])

/-- The text of a last line goes up to the last line end of its block, and the line end ends the
reply. -/
theorem readIn_lastText {body : Bytes} (hne : body ≠ []) (hrest : ¬ crlf <:+: rest) :
    readIn .text v record coded n records (body ++ (crlf ++ rest)) tail =
      if Fits record 2 then
        readNext (records ++ [(push record (cString body), n + body.length + 2)]) (cString body) tail
      else .closed .memoryExhausted := by
  have hbefore := upToLastLineEnd_append body hrest
  obtain ⟨b, body, rfl⟩ := List.exists_cons_of_ne_nil hne
  have hrule : rule ⟨.text, v, some record, coded, n, records⟩ (b :: body ++ (crlf ++ rest)) =
      .give (.replyText (cString (b :: body))) .text (cString (b :: body)) (b :: body).length := by
    simp only [rule, hbefore]
  have hpush : Fits (push record (cString (b :: body))) 1 ↔ Fits record 2 := by
    simp only [Fits, push, List.length_append, List.length_singleton, Nat.add_assoc]
  rw [readIn_text hne hrule]
  by_cases hfits : Fits record 2
  · have hroom : Fits record (1 + coded.toNat) := by
      cases coded with
      | false => exact le_trans (Nat.le_succ _) hfits
      | true => exact hfits
    rw [if_pos hroom, if_pos hfits, readIn_lastEnd hrest, if_pos (hpush.mpr hfits)]
  · rw [if_neg hfits]
    split
    · rw [readIn_lastEnd hrest, if_neg fun h => hfits (hpush.mp h)]
    · rfl

end Text

end ACENetwork.SMTP.Parser
