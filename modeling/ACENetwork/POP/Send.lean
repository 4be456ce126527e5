import ACENetwork.POP.Record
import ACENetwork.SMTP.Send

/-!
# The sender

`POP_Module_Send_T` answers every reply of the server with the next command, passes the
mails on and releases the other replies.
-/
namespace ACENetwork.POP
open BitTorrent (Fault)
open Library
open SMTP (Sending)

/-- `POP_ProtocolConfiguration`, without its parser. -/
structure Configuration where
  username : Bytes
  password : Bytes

/-- The members of the module, with the state of its connection and the flag of the parser. -/
structure Sender where
  protocolState : ProtocolState := .invalid
  mailDropMessages : UInt32 := 0
  index : UInt32 := 0
  expectMultiline : Bool := false
  deriving DecidableEq

/-- What becomes of the message with the reply: it is passed downstream, it is released, or
neither. -/
inductive Disposal where
  | passed
  | released
  | kept
  deriving DecidableEq, Repr

/-- The numerals of `^([[:digit:]]+) ([[:digit:]]+)$`. -/
def matchStat (line : Bytes) : Option (Bytes × Bytes) :=
  match line.takeWhile isDigit, line.dropWhile isDigit with
  | _, [] => none
  | [], _ => none
  | first, c :: second =>
    if c = 0x20 ∧ second ≠ [] ∧ second.all isDigit then some (first, second) else none

/-- `>>` to an `unsigned int`: too large a number is read as the largest one. -/
def readUnsigned (numeral : Bytes) : UInt32 := UInt32.ofNat (min (decimalValue numeral) (2 ^ 32 - 1))

/-- `<<` of an `unsigned int`. -/
def writeUnsigned (n : UInt32) : Bytes := decimal n.toNat

def retr (index : UInt32) : Request := { command := .transRetr, parameters := [writeUnsigned index] }

def dele (index : UInt32) : Request := { command := .transDele, parameters := [writeUnsigned index] }

/-- What the cases of `handleDataMessage` do: they prepare a command, take the shared error path,
or return at once. -/
inductive Response where
  | send (m : Sender) (pass : Bool) (request : Request)
  | protocolError
  | return_ (m : Sender)

section

variable (cfg : Configuration)

def statSent (m : Sender) (text : List Bytes) : Except Fault Response :=
  match text with
  | [] => .error .assertion
  | line :: _ =>
    match matchStat line with
    | none => .ok (.return_ m)
    | some (messages, _) =>
      let m : Sender := { m with mailDropMessages := readUnsigned messages }
      if m.mailDropMessages = 0 then
        .ok (.send { m with protocolState := .transQuitSent } false { command := .transQuit })
      else
        .ok (.send { m with protocolState := .transRetrSent, index := 1, expectMultiline := true }
          false (retr 1))

def retrSent (m : Sender) : Response :=
  let m : Sender := { m with index := m.index + 1 }
  if m.mailDropMessages < m.index then
    .send { m with protocolState := .transDeleSent, index := 1, expectMultiline := false } true
      (dele 1)
  else .send { m with protocolState := .transRetrSent } true (retr m.index)

/-- `POP_STATE_TRANS_DELE_SENT`: the command for the next message is not set. -/
def deleSent (m : Sender) : Response :=
  let m : Sender := { m with index := m.index + 1 }
  if m.mailDropMessages < m.index then
    .send { m with protocolState := .transQuitSent } false { command := .transQuit }
  else
    .send { m with protocolState := .transDeleSent } false { parameters := [writeUnsigned m.index] }

/-- The cases of `handleDataMessage`. -/
def respond (m : Sender) (reply : Reply) : Except Fault Response :=
  match m.protocolState with
  | .invalid =>
    if reply.isPositive then do
      let state ← ProtocolState.increase .greetingReceived
      .ok (.send { m with protocolState := state } false
        { command := .authUser, parameters := [cfg.username] })
    else .ok .protocolError
  | .authLoginUserSent =>
    if reply.isPositive then do
      let state ← m.protocolState.increase
      .ok (.send { m with protocolState := state } false
        { command := .authPass, parameters := [cfg.password] })
    else .ok .protocolError
  | .authLoginPasswordSent =>
    if reply.isPositive then
      .ok (.send { m with protocolState := .transStatSent } false { command := .transStat })
    else .ok .protocolError
  | .transStatSent =>
    if reply.isPositive then statSent m reply.text else .ok .protocolError
  | .transRetrSent => if reply.isPositive then .ok (retrSent m) else .ok .protocolError
  | .transDeleSent => if reply.isPositive then .ok (deleSent m) else .ok .protocolError
  | .transQuitSent | .updatQuitSent =>
    if reply.isPositive then .ok (.return_ m) else .ok .protocolError
  | _ => .ok (.return_ m)

/-- `handleDataMessage`: the command that is sent, if there is one, and what becomes of the
message. A command that cannot be sent takes the state one step back. -/
def handleDataMessage (m : Sender) (reply : Reply) (sending : Sending) :
    Except Fault (Sender × Option Request × Disposal) :=
  if sending = .noRecord then .ok (m, none, .kept)
  else do
    match ← respond cfg m reply with
    | .return_ m => .ok (m, none, .kept)
    | .protocolError => .ok (m, none, .released)
    | .send m pass request =>
      let disposal := if pass then Disposal.passed else .released
      if sending = .sent then .ok (m, some request, disposal)
      else do
        let state ← m.protocolState.decrease
        .ok ({ m with protocolState := state }, none, disposal)

end

end ACENetwork.POP
