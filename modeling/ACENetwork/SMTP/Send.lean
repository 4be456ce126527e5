import ACENetwork.SMTP.Record

/-!
# The sender

`SMTP_Module_Send_T` answers every reply of the server with the next command. A command
is sent in a message of its own, which can fail.
-/
namespace ACENetwork.SMTP
open BitTorrent (Fault InetAddr)
open Library

structure ProtocolConfiguration where
  domain : InetAddr
  username : Bytes
  password : Bytes

structure Configuration where
  protocol : ProtocolConfiguration
  request : Request

/-- The members of the module, with the state of its connection. -/
structure Sender where
  protocolState : ProtocolState := .invalid
  recipients : List Bytes := []
  startTlsSent : Bool := false
  deriving DecidableEq

/-- What becomes of the message of a command: no record can be allocated for it, it cannot
be allocated or passed on, or it is passed on. -/
inductive Sending where
  | noRecord
  | failed
  | sent
  deriving DecidableEq, Repr

def authenticationMechanisms (lines : List Bytes) : List Bytes :=
  match lines.find? ((text "AUTH ").isPrefixOf ·) with
  | some line => (line.drop 5).splitOn 0x20
  | none => []

section

variable (cfg : Configuration) (encodeBase64 : Bytes → Bytes)

def ehlo : Request := { command := .ehlo, domain := cfg.protocol.domain }

def mail : Request :=
  { command := .mail, «from» := cfg.request.from, parameters := cfg.request.parameters }

def rcpt (recipient : Bytes) : Request :=
  { command := .rcpt, «to» := [recipient], parameters := cfg.request.parameters }

def credential (value : Bytes) : Request :=
  { command := .auth, parameters := [encodeBase64 value] }

def content : Request :=
  { command := .data2, «from» := cfg.request.from, «to» := cfg.request.to,
    data := cfg.request.data }

/-- `SMTP_STATE_RCPTS_SENT`: the reply is not looked at. -/
def rcptsSent (m : Sender) : Except Fault (Sender × Option Request) := do
  let state ← m.protocolState.increase
  .ok ({ m with protocolState := state }, some { command := .data })

/-- The cases of `handleDataMessage`: the command that is sent next, if there is one. -/
def respond (m : Sender) (reply : Reply) : Except Fault (Sender × Option Request) :=
  -- the shared error path keeps the state
  let protocolError : Except Fault (Sender × Option Request) := .ok (m, some { command := .quit })
  match m.protocolState with
  | .invalid | .greetingReceived =>
    if isSuccess reply.code then do
      let state ← ProtocolState.increase .greetingReceived
      .ok ({ m with protocolState := state }, some (ehlo cfg))
    else protocolError
  | .ehloSent =>
    if isSuccess reply.code then do
      let state ← m.protocolState.increase
      if cfg.request.useStartTls && !m.startTlsSent then
        .ok ({ m with protocolState := state, startTlsSent := true },
          some { command := .startTls })
      else do
        let state ← state.increase
        if (authenticationMechanisms reply.text).contains (text "LOGIN") then
          .ok ({ m with protocolState := state }, some { command := .auth })
        else .ok ({ m with protocolState := .mailSent }, some (mail cfg))
    else protocolError
  | .startTlsSent =>
    if isSuccess reply.code then .ok ({ m with protocolState := .ehloSent }, some (ehlo cfg))
    else protocolError
  | .authSent =>
    if reply.code = serverChallenge then do
      let state ← m.protocolState.increase
      .ok ({ m with protocolState := state }, some (credential encodeBase64 cfg.protocol.username))
    else protocolError
  | .authLoginUserSent =>
    if reply.code = serverChallenge then do
      let state ← m.protocolState.increase
      .ok ({ m with protocolState := state }, some (credential encodeBase64 cfg.protocol.password))
    else protocolError
  | .authLoginPasswordSent =>
    if isSuccess reply.code then do
      let state ← m.protocolState.increase
      let state ← state.increase
      .ok ({ m with protocolState := state }, some (mail cfg))
    else protocolError
  | .mailSent =>
    if isSuccess reply.code then do
      let state ← m.protocolState.increase
      match cfg.request.to with
      | recipient :: recipients =>
        .ok ({ m with protocolState := state, recipients := recipients },
          some (rcpt cfg recipient))
      | [] => .error .assertion
    else protocolError
  | .rcptSent =>
    if isSuccess reply.code then
      match m.recipients with
      | recipient :: recipients =>
        .ok ({ m with recipients := recipients }, some (rcpt cfg recipient))
      | [] => do
        let state ← m.protocolState.increase
        rcptsSent { m with protocolState := state }
    else protocolError
  | .rcptsSent => rcptsSent m
  | .dataSent =>
    if reply.code = startMailInput then do
      let state ← m.protocolState.increase
      .ok ({ m with protocolState := state }, some (content cfg))
    else protocolError
  | .data2Sent =>
    if isSuccess reply.code then do
      let state ← m.protocolState.increase
      .ok ({ m with protocolState := state }, some { command := .quit })
    else protocolError
  | .quitSent =>
    if isSuccess reply.code then .ok ({ m with protocolState := .invalid }, none)
    else protocolError
  | .authComplete | .max => .ok (m, none)

/-- `handleDataMessage`: a command that cannot be sent takes the state one step back. -/
def handleDataMessage (m : Sender) (reply : Reply) (sending : Sending) :
    Except Fault (Sender × Option Request) :=
  if sending = .noRecord then .ok (m, none)
  else do
    let (m, request) ← respond cfg encodeBase64 m reply
    match request, sending with
    | some request, .sent => .ok (m, some request)
    | some _, _ =>
      let state ← m.protocolState.decrease
      .ok ({ m with protocolState := state }, none)
    | none, _ => .ok (m, none)

end

end ACENetwork.SMTP
