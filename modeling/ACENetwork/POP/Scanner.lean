import ACENetwork.Library.Blocks
import ACENetwork.Library.Lines
import ACENetwork.POP.Record

/-!
# The scanner and the parser

`POP_Scanner_lex` and `yyparse`: the rules of every start condition, the longest match first,
and what the grammar makes of their tokens. A match never extends past its block.
-/
namespace ACENetwork.POP
open Library
open Library.Blocks (Progress Within)

def ok : Bytes := text "+OK"

def err : Bytes := text "-ERR"

def blank : UInt8 := 0x20

def dot : UInt8 := 0x2E

inductive Condition where
  | initial
  | replyCode
  | textBegin
  | text
  | multilineText
  | multilineTextBegin
  | multilineTextEnd
  deriving DecidableEq, Repr

inductive Token where
  | replyCode (value : Bytes)
  | replyText (value : Bytes)
  | replyTextEnd
  deriving DecidableEq, Repr

/-- What the action of a rule does, with the number of octets it matches: it sets the value of the
token, and scanning goes on or the action returns the token; or it reports an invalid character
and returns `END`. -/
inductive Action where
  | goOn (next : Condition) (value : Bytes) (length : ℕ)
  | give (token : Token) (next : Condition) (value : Bytes) (length : ℕ)
  | invalid (next : Condition)
  deriving DecidableEq, Repr

def cString (s : Bytes) : Bytes := s.takeWhile (· != 0)

def codeRule (text : Bytes) : Action :=
  if ok <+: text then .give (.replyCode ok) .textBegin ok 3
  else if err <+: text then .give (.replyCode err) .textBegin err 4
  else .invalid .replyCode

def rule (expectMultiline : Bool) (c : Condition) (value text : Bytes) : Action :=
  match c with
  | .initial =>
    -- the rules give the character back
    if text.head? = some 0x2B ∨ text.head? = some 0x2D then codeRule text else .invalid c
  | .replyCode => codeRule text
  | .textBegin =>
    if text.head? = some blank then
      .goOn (if expectMultiline then .multilineTextBegin else .text) []
        (text.takeWhile (· == blank)).length
    else if crlf <+: text then
      if expectMultiline then .goOn .multilineTextBegin value 2
      else .give .replyTextEnd .replyCode value 2
    else .invalid c
  | .multilineTextBegin =>
    if dot :: crlf <+: text then .goOn .multilineTextEnd value 1
    else if text.head? = some dot then .goOn .multilineText [] 1
    else if crlf <+: text then .goOn .multilineTextBegin crlf 2
    else .goOn .multilineText (cString (text.take 1)) 1
  | .multilineTextEnd =>
    if crlf <+: text then .give .replyTextEnd .replyCode value 2 else .invalid c
  | .text =>
    if crlf <+: text then .give .replyTextEnd .replyCode value 2
    else
      -- `{OCTET_NO_CR}*/{CRLF}`
      match upToLineEnd text with
      | some line => .give (.replyText (cString line)) .text (cString line) line.length
      | none => .invalid c
  | .multilineText =>
    if crlf <+: text then
      .give (.replyText (value ++ crlf)) .multilineTextBegin (value ++ crlf) 2
    else
      -- `{OCTET_NO_CR}*/{CRLF}`
      match upToLineEnd text with
      | some line => .goOn .multilineText (value ++ cString line) line.length
      | none => .invalid c

/-- The scanner, the record behind its status, and the octets that have been counted. -/
structure Parse where
  condition : Condition := .initial
  value : Bytes := []
  record : Option Reply := none
  scanned : ℕ := 0
  deriving DecidableEq

/-- How parsing ends: with a record that is passed on, or with an error. -/
inductive Result where
  | delivered (record : Reply) (scanned : ℕ)
  | failed
  deriving DecidableEq

def Parse.accept (p : Parse) : Token → Progress Parse Result
  | .replyCode value =>
    match p.record with
    | none => .opened { p with record := some { status := value } }
    | some _ => .closed .failed
  | .replyText value =>
    match p.record with
    | none => .closed .failed
    | some record => .opened { p with record := some { record with text := record.text ++ [value] } }
  | .replyTextEnd =>
    match p.record with
    | none => .closed .failed
    | some record => .closed (.delivered record p.scanned)

def step (expectMultiline : Bool) (p : Parse) (text : Bytes) : Progress Parse Result × ℕ :=
  match rule expectMultiline p.condition p.value text with
  | .goOn next value length =>
    (.opened { p with condition := next, value := value, scanned := p.scanned + length }, length)
  | .give token next value length =>
    (Parse.accept { p with condition := next, value := value, scanned := p.scanned + length } token,
      length)
  | .invalid _ => (.closed .failed, 1)

/-- `parse`: the blocks one after the other. The scanner is in `INITIAL`, or in `reply_code` when it
has read a reply. -/
def parse (expectMultiline : Bool) (c : Condition) (blocks : List Bytes) : Progress Parse Result :=
  Blocks.read (step expectMultiline) { condition := c } blocks

def Action.length : Action → ℕ
  | .goOn _ _ length | .give _ _ _ length => length
  | .invalid _ => 1

theorem upToLineEnd_length {text line : Bytes} (hcrlf : ¬ crlf <+: text)
    (h : upToLineEnd text = some line) : 1 ≤ line.length ∧ line.length ≤ text.length := by
  obtain ⟨-, rest, rfl⟩ := upToLineEnd_eq_some h
  constructor
  · cases line with
    | nil => exact absurd (List.prefix_append crlf rest) hcrlf
    | cons b line => exact Nat.le_add_left 1 _
  · simp only [List.length_append]
    omega

/-- A match is not empty and does not extend past its block. -/
theorem rule_length (m : Bool) (c : Condition) (value : Bytes) {text : Bytes} (hne : text ≠ []) :
    1 ≤ (rule m c value text).length ∧ (rule m c value text).length ≤ text.length := by
  have hpos : 1 ≤ text.length := List.length_pos_iff.mpr hne
  have hprefix (word : Bytes) (h : word <+: text) : word.length ≤ text.length := h.length_le
  have hcode : 1 ≤ (codeRule text).length ∧ (codeRule text).length ≤ text.length := by
    rw [codeRule]
    split_ifs with hok herr
    · exact ⟨by decide, hprefix ok hok⟩
    · exact ⟨by decide, hprefix err herr⟩
    · exact ⟨le_refl 1, hpos⟩
  have hcrlf (h : crlf <+: text) : 2 ≤ text.length := hprefix crlf h
  cases c with
  | initial =>
    rw [rule]
    split_ifs
    · exact hcode
    · exact ⟨le_refl 1, hpos⟩
  | replyCode => exact hcode
  | textBegin =>
    by_cases hblank : text.head? = some blank
    · obtain ⟨b, text, rfl⟩ := List.exists_cons_of_ne_nil hne
      obtain rfl := Option.some.inj hblank
      rw [rule, if_pos hblank]
      refine ⟨?_, (List.takeWhile_prefix (· == blank)).length_le⟩
      rw [List.takeWhile_cons]
      exact Nat.le_add_left 1 _
    · rw [rule, if_neg hblank]
      split_ifs with hend
      · exact ⟨one_le_two, hcrlf hend⟩
      · exact ⟨one_le_two, hcrlf hend⟩
      · exact ⟨le_refl 1, hpos⟩
  | multilineTextBegin =>
    rw [rule]
    split_ifs with _ _ hend
    · exact ⟨le_refl 1, hpos⟩
    · exact ⟨le_refl 1, hpos⟩
    · exact ⟨one_le_two, hcrlf hend⟩
    · exact ⟨le_refl 1, hpos⟩
  | multilineTextEnd =>
    rw [rule]
    split_ifs with hend
    · exact ⟨one_le_two, hcrlf hend⟩
    · exact ⟨le_refl 1, hpos⟩
  | text | multilineText =>
    rw [rule]
    split_ifs with hend
    · exact ⟨one_le_two, hcrlf hend⟩
    · cases hline : upToLineEnd text with
      | none => exact ⟨le_refl 1, hpos⟩
      | some line => exact upToLineEnd_length hend hline

def Result.scanned : Result → ℕ
  | .delivered _ scanned => scanned
  | .failed => 0

theorem step_within (m : Bool) (p : Parse) (b : UInt8) (text : Bytes) :
    Within Parse.scanned Result.scanned (p.scanned + (step m p (b :: text)).2)
        (step m p (b :: text)).1 ∧
      1 ≤ (step m p (b :: text)).2 ∧ (step m p (b :: text)).2 ≤ text.length + 1 := by
  have hlength := rule_length m p.condition p.value (List.cons_ne_nil b text)
  rw [step]
  cases hrule : rule m p.condition p.value (b :: text) with
  | goOn next value length =>
    rw [hrule] at hlength
    exact ⟨le_refl _, hlength⟩
  | invalid next =>
    rw [hrule] at hlength
    exact ⟨Nat.zero_le _, hlength⟩
  | give token next value length =>
    rw [hrule] at hlength
    refine ⟨?_, hlength⟩
    obtain ⟨condition, v, record, scanned⟩ := p
    cases token <;> cases record
    · exact le_refl _
    · exact Nat.zero_le _
    · exact Nat.zero_le _
    · exact le_refl _
    · exact Nat.zero_le _
    · exact le_refl _

end ACENetwork.POP
