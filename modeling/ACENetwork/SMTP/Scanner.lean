import ACENetwork.FTP.Scanner
import ACENetwork.SMTP.Record

/-!
# The scanner and the parser of replies

`SMTP_Scanner_lex` and `yyparse`: the rules of every start condition, the longest match first, and
what the grammar makes of their tokens. A match never extends past its block, and the start
condition is reset at the end of a block.
-/
namespace ACENetwork.SMTP.Parser
open BitTorrent (Fault)
open FTP (cString codeOf minus space)
open Library
open Library.Blocks (Progress Within)

inductive Condition where
  | initial
  | replyCode
  | textBegin
  | text
  | multilineText
  | multilineTextCr
  deriving DecidableEq, Repr

inductive Token where
  | replyCode (code : ℕ)
  | replyText (value : Bytes)
  | reply
  deriving DecidableEq, Repr

/-- What the action of a rule does, with the number of octets it takes: it sets the value of the
token, and scanning goes on or the action returns the token; or an assertion fails. -/
inductive Action where
  | goOn (next : Condition) (value : Bytes) (length : ℕ)
  | give (token : Token) (next : Condition) (value : Bytes) (length : ℕ)
  | fails
  deriving DecidableEq, Repr

/-- The scanner; the record, once its code is set; whether the code of a further line waits for its
text; the octets that have been taken for the record; and the records that have been delivered, each
with its octets. -/
structure Parse where
  condition : Condition := .initial
  value : Bytes := []
  record : Option Reply := none
  coded : Bool := false
  scanned : ℕ := 0
  records : List (Reply × ℕ) := []
  deriving DecidableEq

def isReturn (b : UInt8) : Bool := b == carriageReturn

/-- The rules of `multiline_text` where no line end stands in front. The rule for carriage returns
gives all but the first one back. -/
def multilineRule (value text : Bytes) : Action :=
  if text.head? = some carriageReturn then
    .goOn .multilineTextCr (value ++ (text.takeWhile isReturn).dropLast) 1
  else
    .goOn .multilineTextCr (value ++ cString (text.takeWhile (· != carriageReturn)))
      (text.takeWhile (· != carriageReturn)).length

def rule (p : Parse) (text : Bytes) : Action :=
  match p.condition with
  | .initial | .replyCode =>
    -- the rule of `INITIAL` gives the digit back
    match codeOf text with
    | some code => .give (.replyCode code) .textBegin p.value 3
    | none => .fails
  | .textBegin =>
    if crlf <+: text then .give .reply .textBegin p.value 2
    else if text.head? = some minus then .goOn .multilineText [] 1
    else if text.head? = some space then .goOn .text [] 1
    else .fails
  | .text =>
    match upToLastLineEnd text with
    | none => .fails
    -- the line end alone is as long as an empty text in front of it, and its rule comes first
    | some [] => .give .reply .replyCode p.value 2
    | some (b :: body) =>
      .give (.replyText (cString (b :: body))) .text (cString (b :: body)) (b :: body).length
  | .multilineText =>
    if crlf <+: text then .give (.replyText p.value) .replyCode p.value 2
    else multilineRule p.value text
  | .multilineTextCr =>
    if crlf <+: text then .give (.replyText p.value) .replyCode p.value 2
    else if text.head? = some carriageReturn then
      .goOn .multilineText (p.value ++ [carriageReturn]) 1
    else .fails

/-- What the grammar does with a token. The text lines wait on the stack until the reply ends. -/
def Parse.accept (p : Parse) : Token → Except (Glr.Abort Fault) Parse
  | .replyCode code =>
    match p.record with
    | none => .ok { p with record := some ⟨code, []⟩ }
    | some record =>
      if p.coded then .error .syntaxError
      else do
        Glr.reserve (3 + (record.text.length + 1))
        .ok { p with coded := true }
  | .replyText value =>
    match p.record with
    | none => .error .syntaxError
    | some record => do
      Glr.reserve (3 + (record.text.length + 1 + p.coded.toNat))
      .ok { p with record := some ⟨record.code, record.text ++ [value]⟩, coded := false }
  | .reply =>
    match p.record with
    | none => .error .syntaxError
    | some record =>
      if p.coded then .error .syntaxError
      else do
        Glr.reserve (3 + (record.text.length + 1))
        .ok { p with
          condition := .initial
          record := none
          scanned := 0
          records := p.records ++ [(record, p.scanned)] }

/-- The start condition behind a match: where it ends its block, `SMTP_Scanner_wrap` switches to the
next one, and `scan_begin` resets the scanner. -/
def resume (text : Bytes) (length : ℕ) (next : Condition) : Condition :=
  if length = text.length then .initial else next

/-- One match. When a record has been delivered, parsing starts over with the next block: what is
left of this one has gone with the record. -/
def step (p : Parse) (text : Bytes) : Progress Parse (Glr.Abort Fault) × ℕ :=
  match rule p text with
  | .goOn next value length =>
    (.opened { p with
      condition := resume text length next, value := value, scanned := p.scanned + length }, length)
  | .give token next value length =>
    match Parse.accept { p with
        condition := resume text length next, value := value, scanned := p.scanned + length } token with
    | .ok p => (.opened p, if token = .reply then text.length else length)
    | .error e => (.closed e, length)
  | .fails => (.closed (.fault .assertion), 1)

def receive (blocks : List Bytes) : Progress Parse (Glr.Abort Fault) := Blocks.read step {} blocks

def Action.length : Action → ℕ
  | .goOn _ _ length => length
  | .give _ _ _ length => length
  | .fails => 1

section Length

variable {text : Bytes}

theorem multilineRule_length (value : Bytes) (hne : text ≠ []) :
    1 ≤ (multilineRule value text).length ∧ (multilineRule value text).length ≤ text.length := by
  obtain ⟨b, rest, rfl⟩ := List.exists_cons_of_ne_nil hne
  rw [multilineRule]
  split_ifs with hreturn
  · exact ⟨le_refl 1, Nat.le_add_left 1 _⟩
  · have hb : (b != carriageReturn) = true := by
      rw [bne_iff_ne]
      rintro rfl
      exact hreturn rfl
    refine ⟨?_, (List.takeWhile_prefix _).length_le⟩
    show 1 ≤ ((b :: rest).takeWhile (· != carriageReturn)).length
    rw [List.takeWhile_cons, if_pos hb]
    exact Nat.le_add_left 1 _

/-- A match is not empty and does not extend past its block. -/
theorem rule_length (p : Parse) (hne : text ≠ []) :
    1 ≤ (rule p text).length ∧ (rule p text).length ≤ text.length := by
  have hpos : 1 ≤ text.length := List.length_pos_iff.mpr hne
  obtain ⟨condition, value, record, coded, scanned, records⟩ := p
  cases condition with
  | initial | replyCode =>
    cases hcode : codeOf text with
    | none =>
      simp only [rule, hcode]
      exact ⟨le_refl 1, hpos⟩
    | some code =>
      simp only [rule, hcode]
      exact ⟨Nat.le_add_left 1 2, FTP.codeOf_length hcode⟩
  | textBegin =>
    simp only [rule]
    split_ifs with hend
    · exact ⟨one_le_two, hend.length_le⟩
    all_goals exact ⟨le_refl 1, hpos⟩
  | text =>
    cases hlast : upToLastLineEnd text with
    | none =>
      simp only [rule, hlast]
      exact ⟨le_refl 1, hpos⟩
    | some body =>
      obtain ⟨rest, rfl, -⟩ := upToLastLineEnd_eq_some hlast
      cases body with
      | nil =>
        simp only [rule, hlast]
        exact ⟨one_le_two, (List.prefix_append crlf rest).length_le⟩
      | cons b body =>
        simp only [rule, hlast]
        exact ⟨Nat.le_add_left 1 _, (List.prefix_append (b :: body) _).length_le⟩
  | multilineText =>
    simp only [rule]
    split_ifs with hend
    · exact ⟨one_le_two, hend.length_le⟩
    · exact multilineRule_length value hne
  | multilineTextCr =>
    simp only [rule]
    split_ifs with hend
    · exact ⟨one_le_two, hend.length_le⟩
    all_goals exact ⟨le_refl 1, hpos⟩

end Length

def Parse.counted (p : Parse) : ℕ := (p.records.map Prod.snd).sum + p.scanned

theorem accept_reserve {p p' : Parse} {n : ℕ}
    (h : (do Glr.reserve n; .ok p : Except (Glr.Abort Fault) Parse) = .ok p') :
    n ≤ Glr.maxItems ∧ p = p' := by
  by_cases hn : n ≤ Glr.maxItems
  · rw [Glr.reserve_ok hn] at h
    exact ⟨hn, Except.ok.inj h⟩
  · rw [Glr.reserve_exhausted hn] at h
    cases h

theorem Parse.accept_ok {p p' : Parse} {token : Token} (h : p.accept token = .ok p') :
    p'.counted = p.counted ∧ p.records <+: p'.records := by
  obtain ⟨condition, value, record, coded, scanned, records⟩ := p
  cases token with
  | replyCode code =>
    cases record with
    | none =>
      cases h
      exact ⟨rfl, List.prefix_refl _⟩
    | some record =>
      simp only [Parse.accept] at h
      split_ifs at h
      obtain ⟨-, rfl⟩ := accept_reserve h
      exact ⟨rfl, List.prefix_refl _⟩
  | replyText value =>
    cases record with
    | none => cases h
    | some record =>
      obtain ⟨-, rfl⟩ := accept_reserve h
      exact ⟨rfl, List.prefix_refl _⟩
  | reply =>
    cases record with
    | none => cases h
    | some record =>
      simp only [Parse.accept] at h
      split_ifs at h
      obtain ⟨-, rfl⟩ := accept_reserve h
      refine ⟨?_, List.prefix_append _ _⟩
      simp [Parse.counted]

theorem step_within (p : Parse) (b : UInt8) (text : Bytes) :
    Within Parse.counted (fun _ => 0) (p.counted + (step p (b :: text)).2)
        (step p (b :: text)).1 ∧
      1 ≤ (step p (b :: text)).2 ∧ (step p (b :: text)).2 ≤ text.length + 1 := by
  have hlength := rule_length p (List.cons_ne_nil b text)
  rw [step]
  cases hrule : rule p (b :: text) with
  | goOn next value length =>
    rw [hrule] at hlength
    refine ⟨?_, hlength⟩
    simp only [Within, Parse.counted, Nat.add_assoc]
    exact le_refl _
  | fails => exact ⟨Nat.zero_le _, le_refl 1, Nat.le_add_left 1 _⟩
  | give token next value length =>
    rw [hrule] at hlength
    obtain ⟨hpos, hle⟩ : 1 ≤ length ∧ length ≤ text.length + 1 := hlength
    simp only
    cases haccept : Parse.accept { p with
        condition := resume (b :: text) length next, value := value
        scanned := p.scanned + length } token with
    | error e => exact ⟨Nat.zero_le _, hpos, hle⟩
    | ok p' =>
      obtain ⟨hcounted, -⟩ := Parse.accept_ok haccept
      have hcounted' : p'.counted = p.counted + length := by
        rw [hcounted, Parse.counted, Parse.counted, Nat.add_assoc]
      simp only
      by_cases hreply : token = .reply
      · rw [if_pos hreply, List.length_cons]
        refine ⟨?_, Nat.le_add_left 1 _, le_refl _⟩
        show p'.counted ≤ _
        omega
      · rw [if_neg hreply]
        exact ⟨le_of_eq hcounted', hpos, hle⟩

theorem step_records (records : List (Reply × ℕ)) (p : Parse) (text : Bytes)
    (h : records <+: p.records) :
    Blocks.Keeps (fun p => records <+: p.records) (fun _ => True) (step p text).1 := by
  rw [step]
  cases rule p text with
  | goOn next value length => exact h
  | fails => trivial
  | give token next value length =>
    simp only
    cases haccept : Parse.accept { p with
        condition := resume text length next, value := value
        scanned := p.scanned + length } token with
    | error e => trivial
    | ok p' => exact h.trans (Parse.accept_ok haccept).2

end ACENetwork.SMTP.Parser
