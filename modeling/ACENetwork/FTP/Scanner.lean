import ACENetwork.BitTorrent.Common
import ACENetwork.Library.Blocks
import ACENetwork.Library.Glr
import ACENetwork.Library.Lines

/-!
# The scanner and the parser of the control connection

`FTP_Scanner_lex` and `yyparse`: the rules of every start condition, the longest match first, and
what the grammar makes of their tokens. A match never extends past its block.
-/
namespace ACENetwork.FTP
open BitTorrent (Fault)
open Library
open Library.Blocks (Progress Within)

def minus : UInt8 := 0x2D

def space : UInt8 := 0x20

inductive Condition where
  | initial
  | replyCode
  | textBegin
  | multilineTextBegin
  | multiLineMinus
  | multilineText
  | lastLineSpace
  | lastLineText
  | text
  deriving DecidableEq, Repr

inductive Token where
  | replyCode (code : ℕ)
  | replyText (value : Bytes)
  | reply
  deriving DecidableEq, Repr

/-- What the action of a rule does, with the number of octets it matches: it sets the value of the
token, and scanning goes on or the action returns the token; or an assertion fails. -/
inductive Action where
  | goOn (next : Condition) (value : Bytes) (length : ℕ)
  | give (token : Token) (next : Condition) (value : Bytes) (length : ℕ)
  | fails
  deriving DecidableEq, Repr

def cString (s : Bytes) : Bytes := s.takeWhile (· != 0)

/-- What an FTP reply has set of its record. -/
structure Record where
  code : ℕ
  text : List Bytes := []
  deriving DecidableEq, Repr

/-- The scanner; the record, once its code is set; the octets that have been counted for it; and
the records that have been delivered, each with its octets. -/
structure Parse where
  condition : Condition := .initial
  value : Bytes := []
  record : Option Record := none
  scanned : ℕ := 0
  records : List (Record × ℕ) := []
  deriving DecidableEq

def codeOf (text : Bytes) : Option ℕ :=
  if (text.take 3).length = 3 ∧ (text.take 3).all isDigit then some (decimalValue (text.take 3))
  else none

def textRule (c : Condition) (text : Bytes) : Action :=
  if crlf <+: text then .give .reply .initial [] 2
  else if (text.takeWhile isPlain).length = 0 then .fails
  else
    .give (.replyText (cString (text.takeWhile isPlain))) c (cString (text.takeWhile isPlain))
      (text.takeWhile isPlain).length

def lineRule (record : Option Record) (value text : Bytes) : Action :=
  match codeOf text, text[3]? with
  | some code, some c =>
    if c ≠ minus ∧ c ≠ space then .fails
    else if some code ≠ record.map Record.code then .fails
    else .goOn (if c = minus then .multiLineMinus else .lastLineSpace) value 3
  | _, _ => .fails

def rule (p : Parse) (text : Bytes) : Action :=
  match p.condition with
  | .initial | .replyCode =>
    -- the rule of `INITIAL` gives the digit back
    match codeOf text with
    | some code => .give (.replyCode code) .textBegin p.value 3
    | none => .fails
  | .textBegin =>
    if text.head? = some minus then .goOn .multilineText [] 1
    else if text.head? = some space then .goOn .text [] 1
    else .fails
  | .multilineText =>
    if crlf <+: text then .give (.replyText p.value) .multilineTextBegin p.value 2
    else if (text.takeWhile isPlain).length = 0 then .fails
    else .goOn .multilineText (cString (text.takeWhile isPlain)) (text.takeWhile isPlain).length
  | .multilineTextBegin => lineRule p.record p.value text
  | .multiLineMinus => if text.head? = some minus then .goOn .multilineText [] 1 else .fails
  | .lastLineSpace => if text.head? = some space then .goOn .lastLineText [] 1 else .fails
  | .lastLineText => textRule .lastLineText text
  | .text => textRule .text text

/-- What the grammar does with a token. The text lines wait on the stack until the reply ends. -/
def Parse.accept (p : Parse) : Token → Except (Glr.Abort Fault) Parse
  | .replyCode code =>
    match p.record with
    | none => .ok { p with record := some { code := code } }
    | some _ => .error .syntaxError
  | .replyText value =>
    match p.record with
    | none => .error .syntaxError
    | some record => do
      Glr.reserve (3 + (record.text.length + 1))
      .ok { p with record := some { record with text := record.text ++ [value] } }
  | .reply =>
    match p.record with
    | none => .error .syntaxError
    | some record => do
      Glr.reserve (3 + (record.text.length + 1))
      .ok { p with
        record := none
        scanned := 0
        records := p.records ++ [(record, p.scanned)] }

/-- One match. When a record has been delivered, parsing starts over with the next block, whatever
is left of this one. -/
def step (p : Parse) (text : Bytes) : Progress Parse (Glr.Abort Fault) × ℕ :=
  match rule p text with
  | .goOn next value length =>
    (.opened { p with condition := next, value := value, scanned := p.scanned + length }, length)
  | .give token next value length =>
    match Parse.accept { p with
        condition := next, value := value, scanned := p.scanned + length } token with
    | .ok p => (.opened p, if token = .reply then text.length else length)
    | .error e => (.closed e, length)
  | .fails => (.closed (.fault .assertion), 1)

def receive (blocks : List Bytes) : Progress Parse (Glr.Abort Fault) := Blocks.read step {} blocks

def Action.length : Action → ℕ
  | .goOn _ _ length => length
  | .give _ _ _ length => length
  | .fails => 1

section Length

variable {text : Bytes}

theorem codeOf_length {code : ℕ} (h : codeOf text = some code) : 3 ≤ text.length := by
  rw [codeOf] at h
  split_ifs at h with htake
  rw [← htake.1]
  exact List.length_take_le' 3 text

theorem head_length (c : Condition) (value : Bytes) {b : UInt8} (hne : text ≠ []) :
    1 ≤ (if text.head? = some b then Action.goOn c value 1 else .fails).length ∧
      (if text.head? = some b then Action.goOn c value 1 else .fails).length ≤ text.length := by
  have hpos : 1 ≤ text.length := List.length_pos_iff.mpr hne
  split_ifs
  · exact ⟨le_refl 1, hpos⟩
  · exact ⟨le_refl 1, hpos⟩

theorem lineRule_length (record : Option Record) (value : Bytes) (hne : text ≠ []) :
    1 ≤ (lineRule record value text).length ∧ (lineRule record value text).length ≤ text.length := by
  have hpos : 1 ≤ text.length := List.length_pos_iff.mpr hne
  cases hcode : codeOf text with
  | none =>
    simp only [lineRule, hcode]
    exact ⟨le_refl 1, hpos⟩
  | some code =>
    have hthree := codeOf_length hcode
    cases hthird : text[3]? with
    | none =>
      simp only [lineRule, hcode, hthird]
      exact ⟨le_refl 1, hpos⟩
    | some c =>
      simp only [lineRule, hcode, hthird]
      split_ifs
      all_goals first
        | exact ⟨le_refl 1, hpos⟩
        | exact ⟨Nat.le_add_left 1 2, hthree⟩

theorem run_length (h : ¬ (text.takeWhile isPlain).length = 0) :
    1 ≤ (text.takeWhile isPlain).length ∧ (text.takeWhile isPlain).length ≤ text.length :=
  ⟨Nat.one_le_iff_ne_zero.mpr h, (List.takeWhile_prefix isPlain).length_le⟩

theorem textRule_length (c : Condition) (hne : text ≠ []) :
    1 ≤ (textRule c text).length ∧ (textRule c text).length ≤ text.length := by
  rw [textRule]
  split_ifs with hend hrun
  · exact ⟨one_le_two, hend.length_le⟩
  · exact ⟨le_refl 1, List.length_pos_iff.mpr hne⟩
  · exact run_length hrun

/-- A match is not empty and does not extend past its block. -/
theorem rule_length (p : Parse) (hne : text ≠ []) :
    1 ≤ (rule p text).length ∧ (rule p text).length ≤ text.length := by
  have hpos : 1 ≤ text.length := List.length_pos_iff.mpr hne
  obtain ⟨condition, value, record, scanned, records⟩ := p
  cases condition with
  | initial | replyCode =>
    cases hcode : codeOf text with
    | none =>
      simp only [rule, hcode]
      exact ⟨le_refl 1, hpos⟩
    | some code =>
      simp only [rule, hcode]
      exact ⟨Nat.le_add_left 1 2, codeOf_length hcode⟩
  | textBegin =>
    simp only [rule]
    split_ifs
    · exact ⟨le_refl 1, hpos⟩
    · exact ⟨le_refl 1, hpos⟩
    · exact ⟨le_refl 1, hpos⟩
  | multilineText =>
    simp only [rule]
    split_ifs with hend hrun
    · exact ⟨one_le_two, hend.length_le⟩
    · exact ⟨le_refl 1, hpos⟩
    · exact run_length hrun
  | multilineTextBegin => exact lineRule_length record value hne
  | multiLineMinus => exact head_length .multilineText [] hne
  | lastLineSpace => exact head_length .lastLineText [] hne
  | lastLineText => exact textRule_length .lastLineText hne
  | text => exact textRule_length .text hne

end Length

def Parse.counted (p : Parse) : ℕ := (p.records.map Prod.snd).sum + p.scanned

theorem Parse.accept_ok {p p' : Parse} {token : Token} (h : p.accept token = .ok p') :
    p'.counted = p.counted ∧ p.records <+: p'.records := by
  obtain ⟨condition, value, record, scanned, records⟩ := p
  have hreserve {n : ℕ} {next : Except (Glr.Abort Fault) Parse}
      (h : (do Glr.reserve n; next) = .ok p') : next = .ok p' := by
    by_cases hn : n ≤ Glr.maxItems
    · rw [Glr.reserve_ok hn] at h
      exact h
    · rw [Glr.reserve_exhausted hn] at h
      cases h
  cases token with
  | replyCode code =>
    cases record with
    | none =>
      cases h
      exact ⟨rfl, List.prefix_refl _⟩
    | some record => cases h
  | replyText value =>
    cases record with
    | none => cases h
    | some record =>
      cases hreserve h
      exact ⟨rfl, List.prefix_refl _⟩
  | reply =>
    cases record with
    | none => cases h
    | some record =>
      cases hreserve h
      refine ⟨?_, List.prefix_append _ _⟩
      simp [Parse.counted]

theorem step_within (p : Parse) (b : UInt8) (text : Bytes) :
    Within Parse.counted (fun _ => 0) (p.counted + (step p (b :: text)).2)
        (step p (b :: text)).1 ∧
      1 ≤ (step p (b :: text)).2 ∧ (step p (b :: text)).2 ≤ text.length + 1 := by
  have hlength := rule_length p (List.cons_ne_nil b text)
  rw [step]
  cases hrule : rule p (b :: text) with
  | goOn next value length =>
    rw [hrule] at hlength
    refine ⟨?_, hlength⟩
    show (Parse.counted { p with condition := next, value := value, scanned := p.scanned + length })
      ≤ p.counted + length
    rw [Parse.counted, Parse.counted, Nat.add_assoc]
  | fails => exact ⟨Nat.zero_le _, le_refl 1, Nat.le_add_left 1 _⟩
  | give token next value length =>
    rw [hrule] at hlength
    obtain ⟨hpos, hle⟩ : 1 ≤ length ∧ length ≤ text.length + 1 := hlength
    simp only
    cases haccept : Parse.accept { p with
        condition := next, value := value, scanned := p.scanned + length } token with
    | error e => exact ⟨Nat.zero_le _, hpos, hle⟩
    | ok p' =>
      obtain ⟨hcounted, -⟩ := Parse.accept_ok haccept
      have hcounted' : p'.counted = p.counted + length := by
        rw [hcounted, Parse.counted, Parse.counted, Nat.add_assoc]
      simp only
      by_cases hreply : token = .reply
      · rw [if_pos hreply, List.length_cons]
        refine ⟨?_, Nat.le_add_left 1 _, le_refl _⟩
        show p'.counted ≤ _
        omega
      · rw [if_neg hreply]
        exact ⟨le_of_eq hcounted', hpos, hle⟩

theorem step_records (records : List (Record × ℕ)) (p : Parse) (text : Bytes)
    (h : records <+: p.records) :
    Blocks.Keeps (fun p => records <+: p.records) (fun _ => True) (step p text).1 := by
  rw [step]
  cases rule p text with
  | goOn next value length => exact h
  | fails => trivial
  | give token next value length =>
    simp only
    cases haccept : Parse.accept { p with
        condition := next, value := value, scanned := p.scanned + length } token with
    | error e => trivial
    | ok p' => exact h.trans (Parse.accept_ok haccept).2

end ACENetwork.FTP
