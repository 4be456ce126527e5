import ACENetwork.BitTorrent.Common
import ACENetwork.Library.Decimal
import ACENetwork.Library.Transducer

/-!
# The bencoding scanner

The rules of `bencoding_scanner.ll`. A rule belongs to a start condition and takes
its text off the input; a rule without a `return` goes on with the next one. The
locals of `yylex` and the semantic value that it fills last for one token.
-/
namespace ACENetwork.BitTorrent.Bencoding
open Library

inductive StartCondition where
  | initial
  | string
  | string2
  | integer
  | list
  | dictionaryKey
  | dictionaryKey2
  | dictionaryValue
  | dictionaryValue2
  deriving DecidableEq, Repr

/-- The tokens with their semantic values; `done` is the token `END`. -/
inductive Token where
  | done
  | endOfDictionary
  | endOfList
  | integer (ival : Int64)
  | string (sval : List UInt8)
  | list
  | dictionary
  deriving DecidableEq, Repr

/-- The character class `DIGIT`, which has the sign. -/
def isDIGIT (b : UInt8) : Bool := b == '-'.toUInt8 || isDigit b

/-- The field that a stream extracts a number from: a sign and the digits that follow. -/
def numberField (text : List UInt8) : Bool × List UInt8 :=
  if text.head? = some '-'.toUInt8 then (true, text.tail.takeWhile isDigit)
  else (false, text.takeWhile isDigit)

/-- `converter >> yylval->ival`: an absent number is zero, and one that does not fit is the
nearest that does. -/
def extractInteger (text : List UInt8) : Int64 :=
  let field := numberField text
  let n : ℤ := decimalValue field.2
  Int64.ofInt (max (-2 ^ 63) (min (if field.1 then -n else n) (2 ^ 63 - 1)))

/-- `converter >> string_length`: a negative number is its two's complement, and one that
does not fit is the largest that does. -/
def extractLength (text : List UInt8) : UInt32 :=
  let field := numberField text
  let n := decimalValue field.2
  if 2 ^ 32 ≤ n then 2 ^ 32 - 1
  else if field.1 then 0 - UInt32.ofNat n
  else UInt32.ofNat n

/-- The scanner: its start condition, the stack of start conditions, and the octets that
are not scanned yet. -/
structure Scanner where
  start : StartCondition
  stack : List StartCondition
  input : List UInt8
  deriving DecidableEq, Repr

namespace Scanner

def pushState (s : Scanner) (c : StartCondition) : Scanner :=
  { s with start := c, stack := s.start :: s.stack }

/-- `yy_pop_state`, which is fatal on the empty stack. -/
def popState (s : Scanner) : Except Fault Scanner :=
  match s.stack with
  | [] => .error .outOfRange
  | c :: cs => .ok { s with start := c, stack := cs }

def begin (s : Scanner) (c : StartCondition) : Scanner := { s with start := c }

def continueAt (s : Scanner) (input : List UInt8) : Scanner := { s with input := input }

end Scanner

/-- A call of `yylex`: its local, and the semantic value so far. -/
structure Frame where
  scanner : Scanner
  stringLength : UInt32 := 0
  ival : Int64 := 0
  sval : List UInt8 := []

/-- What a rule does: `yylex` goes on, or returns a token. -/
inductive Action where
  | next (f : Frame)
  | token (t : Token) (s : Scanner)

/-- `<<EOF>>` behind `yywrap`, which asserts that it is not called. -/
def endOfFile (ndebug : Bool) (f : Frame) : Except Fault Action := do
  aceAssert ndebug false
  pure (.token .done f.scanner)

def octet (f : Frame) : Except Fault Action := .ok (.token .done f.scanner)

/-- `{OCTET}{1}` of a string and of a key: the octet is appended, and the last one ends the
token. -/
def stringOctet (ndebug : Bool) (f : Frame) (b : UInt8) (s : Scanner)
    (last : Scanner → Except Fault Scanner) : Except Fault Action := do
  aceAssert ndebug (f.stringLength != 0)
  let sval := f.sval ++ [b]
  let stringLength := f.stringLength - 1
  if stringLength = 0 then pure (.token (.string sval) (← last s))
  else pure (.next { f with scanner := s, stringLength := stringLength, sval := sval })

def rule (ndebug : Bool) (f : Frame) : Except Fault Action :=
  match f.scanner.input with
  | [] => endOfFile ndebug f
  | b :: rest =>
    let s := f.scanner.continueAt rest
    let digits := (b :: rest).takeWhile isDIGIT
    let afterDigits := f.scanner.continueAt ((b :: rest).dropWhile isDIGIT)
    match f.scanner.start with
    | .initial =>
      if b = 'i'.toUInt8 then .ok (.next { f with scanner := s.pushState .integer, ival := 0 })
      else if isDIGIT b then .ok (.next { f with scanner := f.scanner.pushState .string })
      else if b = 'l'.toUInt8 then .ok (.token .list (s.pushState .list))
      else if b = 'd'.toUInt8 then .ok (.token .dictionary (s.pushState .dictionaryKey))
      else octet f
    | .integer =>
      if b = 'e'.toUInt8 then do pure (.token (.integer f.ival) (← s.popState))
      else if isDIGIT b then
        .ok (.next { f with scanner := afterDigits, ival := extractInteger digits })
      else octet f
    | .string =>
      if isDIGIT b then
        .ok (.next { f with scanner := afterDigits, stringLength := extractLength digits })
      else if b = ':'.toUInt8 then
        if f.stringLength = 0 then do pure (.token (.string []) (← s.popState))
        else .ok (.next { f with scanner := s.begin .string2, sval := [] })
      else octet f
    | .string2 => stringOctet ndebug f b s Scanner.popState
    | .list =>
      if b = 'e'.toUInt8 then do pure (.token .endOfList (← s.popState))
      else if b = 'i'.toUInt8 then
        .ok (.next { f with scanner := s.pushState .integer, ival := 0 })
      else if isDIGIT b then .ok (.next { f with scanner := f.scanner.pushState .string })
      else if b = 'l'.toUInt8 then .ok (.token .list (s.pushState .list))
      else if b = 'd'.toUInt8 then .ok (.token .dictionary (s.pushState .dictionaryKey))
      else octet f
    | .dictionaryKey =>
      if b = 'e'.toUInt8 then do pure (.token .endOfDictionary (← s.popState))
      else if isDIGIT b then
        .ok (.next { f with scanner := afterDigits, stringLength := extractLength digits })
      else if b = ':'.toUInt8 then
        if f.stringLength = 0 then .ok (.token (.string []) (s.pushState .dictionaryValue))
        else .ok (.next { f with scanner := s.begin .dictionaryKey2, sval := [] })
      else octet f
    | .dictionaryKey2 =>
      stringOctet ndebug f b s fun s => .ok (s.pushState .dictionaryValue)
    | .dictionaryValue =>
      if b = 'i'.toUInt8 then
        .ok (.next { f with
          scanner := (s.pushState .dictionaryValue2).pushState .integer, ival := 0 })
      else if isDIGIT b then
        .ok (.next { f with
          scanner := (f.scanner.pushState .dictionaryValue2).pushState .string })
      else if b = 'l'.toUInt8 then
        .ok (.token .list ((s.pushState .dictionaryValue2).pushState .list))
      else if b = 'd'.toUInt8 then
        .ok (.token .dictionary ((s.pushState .dictionaryValue2).pushState .dictionaryKey))
      else octet f
    | .dictionaryValue2 => do
      let s ← f.scanner.popState
      let s ← s.popState
      pure (.next { f with scanner := s.begin .dictionaryKey })

def StartCondition.rank : StartCondition → ℕ
  | .initial | .list | .dictionaryValue | .dictionaryValue2 => 1
  | _ => 0

def Frame.rank (f : Frame) : ℕ := 2 * f.scanner.input.length + f.scanner.start.rank

/-- A rule that goes on lowers the rank; one that returns a token other than `END` has
taken an octet. -/
def Action.Advances (f : Frame) : Action → Prop
  | .next g => g.rank < f.rank ∧ g.scanner.input.length ≤ f.scanner.input.length
  | .token t s => t = .done ∨ s.input.length < f.scanner.input.length

theorem popState_ok {s t : Scanner} :
    s.popState = .ok t ↔ s.stack = t.start :: t.stack ∧ s.input = t.input := by
  obtain ⟨start, stack, input⟩ := s
  obtain ⟨start', stack', input'⟩ := t
  cases stack <;> simp [Scanner.popState, and_assoc]

theorem length_dropWhile_digits {b : UInt8} {rest : List UInt8} (h : isDIGIT b = true) :
    ((b :: rest).dropWhile isDIGIT).length ≤ rest.length := by
  rw [List.dropWhile_cons_of_pos h]
  exact (List.dropWhile_sublist _).length_le

theorem stringOctet_advances {ndebug : Bool} {f : Frame} {b : UInt8} {rest : List UInt8}
    {last : Scanner → Except Fault Scanner} {a : Action}
    (hlast : ∀ s t, last s = .ok t → t.input = s.input) (hinput : f.scanner.input = b :: rest)
    (h : stringOctet ndebug f b (f.scanner.continueAt rest) last = .ok a) : a.Advances f := by
  obtain ⟨-, -, h⟩ := fault_bind_ok.mp h
  by_cases hzero : f.stringLength - 1 = 0
  · simp only [hzero, if_true] at h
    obtain ⟨s, hs, h⟩ := fault_bind_ok.mp h
    obtain rfl := Except.ok.inj h
    simp [Action.Advances, hlast _ _ hs, hinput, Scanner.continueAt]
  · simp only [hzero, if_false] at h
    obtain rfl := Except.ok.inj h
    simp [Action.Advances, Frame.rank, hinput, Scanner.continueAt]

theorem popToken_advances {f : Frame} {s : Scanner} {t : Token} {a : Action}
    (hinput : s.input.length < f.scanner.input.length)
    (h : (do pure (Action.token t (← s.popState)) : Except Fault Action) = .ok a) :
    a.Advances f := by
  obtain ⟨s', hs, h⟩ := fault_bind_ok.mp h
  obtain rfl := Except.ok.inj h
  exact .inr ((popState_ok.1 hs).2 ▸ hinput)

theorem rule_advances {ndebug : Bool} {f : Frame} {a : Action}
    (h : rule ndebug f = .ok a) : a.Advances f := by
  obtain ⟨⟨start, stack, input⟩, stringLength, ival, sval⟩ := f
  cases input with
  | nil =>
    obtain ⟨-, -, h⟩ := fault_bind_ok.mp h
    obtain rfl := Except.ok.inj h
    exact .inl rfl
  | cons b rest =>
    cases start with
    | string2 =>
      exact stringOctet_advances (fun s t hs => (popState_ok.1 hs).2.symm) rfl h
    | dictionaryKey2 =>
      have hlast : ∀ s t : Scanner, (.ok (s.pushState .dictionaryValue) : Except Fault Scanner) =
          .ok t → t.input = s.input := fun s t hs => by rw [← Except.ok.inj hs]; rfl
      exact stringOctet_advances hlast rfl h
    | dictionaryValue2 =>
      obtain ⟨s, hs, h⟩ := fault_bind_ok.mp h
      obtain ⟨t, ht, h⟩ := fault_bind_ok.mp h
      obtain rfl := Except.ok.inj h
      have hinput : t.input = b :: rest :=
        (popState_ok.1 ht).2.symm.trans (popState_ok.1 hs).2.symm
      simp [Action.Advances, Frame.rank, StartCondition.rank, Scanner.begin, hinput]
    | _ =>
      simp only [rule, octet] at h
      split_ifs at h with h1 h2 <;>
      first
      | exact popToken_advances (by simp [Scanner.continueAt]) h
      | obtain rfl := Except.ok.inj h
        have hdrop := @length_dropWhile_digits b rest
        simp_all [Action.Advances, Frame.rank, StartCondition.rank, Scanner.continueAt,
          Scanner.pushState, Scanner.begin]
        try omega

def lexer (ndebug : Bool) : Transducer Frame Empty (Except Fault (Token × Scanner)) where
  step f :=
    match rule ndebug f with
    | .ok (.next g) => .silent g
    | .ok (.token t s) => .halt (.ok (t, s))
    | .error e => .halt (.error e)
  rank := Frame.rank
  rank_lt f g h := by
    cases hrule : rule ndebug f with
    | error e => simp [hrule, Move.next?] at h
    | ok a =>
      have hadvances := rule_advances hrule
      cases a with
      | token t s => simp [hrule, Move.next?] at h
      | next g' =>
        simp only [hrule, Move.next?, Option.some.injEq] at h
        exact h ▸ hadvances.1

def lex (ndebug : Bool) (f : Frame) : Except Fault (Token × Scanner) := ((lexer ndebug).run f).2

def yylex (ndebug : Bool) (s : Scanner) : Except Fault (Token × Scanner) :=
  lex ndebug { scanner := s }

section

variable {ndebug : Bool} {f g : Frame}

theorem lex_next (h : rule ndebug f = .ok (.next g)) : lex ndebug f = lex ndebug g := by
  have hstep : (lexer ndebug).step f = .silent g := by simp [lexer, h]
  rw [lex, (lexer ndebug).run_silent hstep, lex]

theorem lex_token {t : Token} {s : Scanner} (h : rule ndebug f = .ok (.token t s)) :
    lex ndebug f = .ok (t, s) := by
  rw [lex, (lexer ndebug).run_halt (by simp [lexer, h]; rfl)]

theorem lex_error {e : Fault} (h : rule ndebug f = .error e) : lex ndebug f = .error e := by
  rw [lex, (lexer ndebug).run_halt (by simp [lexer, h]; rfl)]

theorem lex_consumes {t : Token} {s : Scanner} (h : lex ndebug f = .ok (t, s)) (ht : t ≠ .done) :
    s.input.length < f.scanner.input.length := by
  induction hn : f.rank using Nat.strong_induction_on generalizing f with
  | _ n ih =>
    cases hrule : rule ndebug f with
    | error e => simp [lex_error hrule] at h
    | ok a =>
      have hadvances := rule_advances hrule
      cases a with
      | token t' s' =>
        rw [lex_token hrule] at h
        obtain ⟨rfl, rfl⟩ := Prod.mk.inj (Except.ok.inj h)
        exact hadvances.resolve_left ht
      | next g =>
        rw [lex_next hrule] at h
        exact (ih g.rank (hn ▸ hadvances.1) h rfl).trans_le hadvances.2

end

end ACENetwork.BitTorrent.Bencoding
