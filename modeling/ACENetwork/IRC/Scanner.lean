import ACENetwork.Library.Lines

/-!
# The scanner

`IRC_Scanner_lex`: the rules of every start condition, the longest match first. A carriage
return and the line feed behind it return nothing, and an octet that no other rule takes ends
the message.
-/
namespace ACENetwork.IRC.Parser
open Library

def blank : UInt8 := 0x20

def colon : UInt8 := 0x3A

def exclamation : UInt8 := 0x21

def atSign : UInt8 := 0x40

def isHost (b : UInt8) : Bool :=
  isAlpha b || isDigit b || b == 0x2E || b == colon || b == 0x2D

/-- The octets of `NICK` behind the first one, which is a letter. -/
def isNick (b : UInt8) : Bool :=
  isAlpha b || isDigit b || [0x2D, 0x5B, 0x5D, 0x5C, 0x60, 0x5E, 0x7B, 0x7D, 0x5F].contains b

def isUser (b : UInt8) : Bool :=
  !List.contains [blank, 0x09, 0x00, carriageReturn, lineFeed, atSign] b

/-- The octets of `PARAM`; the first one is no colon. -/
def isParam (b : UInt8) : Bool := !List.contains [blank, 0x00, carriageReturn, lineFeed] b

def isTrailing (b : UInt8) : Bool := !List.contains [0x00, carriageReturn, lineFeed] b

inductive Condition where
  | initial
  | sender
  | user
  | host
  | command
  | params
  | trailing
  | endOfFrame
  deriving DecidableEq, Repr

inductive Token where
  | colon
  | exclamation
  | atSign
  | space
  | origin (name : Bytes)
  | user (name : Bytes)
  | host (name : Bytes)
  | cmdString (name : Bytes)
  | cmdNumeric (code : ℕ)
  | param (value : Bytes)
  | finished
  deriving DecidableEq, Repr

/-- What the action of a rule does: it begins a condition, and either scanning goes on or the
action returns a token and the octets that are left. -/
inductive Action where
  | goOn (next : Condition)
  | give (token : Token) (next : Condition) (rest : Bytes)
  deriving DecidableEq, Repr

def nickLength : Bytes → ℕ
  | [] => 0
  | b :: rest => if isAlpha b then (rest.takeWhile isNick).length + 1 else 0

def originLength (text : Bytes) : ℕ := max (nickLength text) (text.takeWhile isHost).length

def spaces (next : Condition) (rest : Bytes) : Action :=
  .give .space next (rest.dropWhile (· == blank))

def longest (p : UInt8 → Bool) (token : Bytes → Token) (next : Condition) (text : Bytes) : Action :=
  .give (token (text.takeWhile p)) next (text.dropWhile p)

def commandRule (c : Condition) (b : UInt8) (rest : Bytes) : Action :=
  if b = blank then spaces .params rest
  else if isAlpha b then longest isAlpha .cmdString c (b :: rest)
  else if 3 ≤ (b :: rest.take 2).length ∧ (b :: rest.take 2).all isDigit then
    .give (.cmdNumeric (decimalValue (b :: rest.take 2))) c (rest.drop 2)
  else .give .finished c rest

def rule (c : Condition) (b : UInt8) (rest : Bytes) : Action :=
  match c with
  | .initial =>
    if b = colon then .give .colon .sender rest
    else if b = carriageReturn then .goOn .endOfFrame
    else commandRule c b rest
  | .sender =>
    if b = blank then spaces .command rest
    else if b = exclamation then .give .exclamation .user rest
    else if b = atSign then .give .atSign .host rest
    else if 0 < originLength (b :: rest) then
      .give (.origin ((b :: rest).take (originLength (b :: rest)))) .sender
        ((b :: rest).drop (originLength (b :: rest)))
    else .give .finished c rest
  | .user =>
    if b = blank then spaces .command rest
    else if b = atSign then .give .atSign .host rest
    else if isUser b then longest isUser .user .sender (b :: rest)
    else .give .finished c rest
  | .host =>
    if b = blank then spaces .command rest
    else if isHost b then longest isHost .host .sender (b :: rest)
    else .give .finished c rest
  | .command => commandRule c b rest
  | .params =>
    if b = blank then spaces .params rest
    else if b = colon then .give .colon .trailing rest
    else if b = carriageReturn then .goOn .endOfFrame
    else if isParam b then longest isParam .param .params (b :: rest)
    else .give .finished c rest
  | .trailing =>
    if b = carriageReturn then .goOn .endOfFrame
    else if isTrailing b then longest isTrailing .param .trailing (b :: rest)
    else .give .finished c rest
  | .endOfFrame => if b = lineFeed then .goOn .initial else .give .finished c rest

def lex : Condition → Bytes → Token × Condition × Bytes
  | c, [] => (.finished, c, [])
  | c, b :: rest =>
    match rule c b rest with
    | .goOn next => lex next rest
    | .give token next rest => (token, next, rest)

end ACENetwork.IRC.Parser
