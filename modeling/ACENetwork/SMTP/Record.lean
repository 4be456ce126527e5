import ACENetwork.BitTorrent.Session.State
import ACENetwork.Library.Text

/-!
# SMTP records

`SMTP_Record`: a request of the client, or a reply of the server. The states of the
protocol, and how they are advanced.
-/
namespace ACENetwork.SMTP
open BitTorrent (Fault InetAddr)
open Library

inductive Command where
  | ehlo
  | mail
  | rcpt
  | data
  | quit
  | auth
  | startTls
  | data2
  | invalid
  deriving DecidableEq, Repr

structure Request where
  command : Command := .invalid
  domain : InetAddr := .ipv4 0x7F000001 0
  useStartTls : Bool := false
  «from» : Bytes := []
  parameters : List Bytes := []
  «to» : List Bytes := []
  subject : Bytes := []
  data : Bytes := []
  deriving DecidableEq

structure Reply where
  code : ℕ
  text : List Bytes
  deriving DecidableEq

def isSuccess (code : ℕ) : Bool := 200 ≤ code && code < 300

def serverChallenge : ℕ := 334

def startMailInput : ℕ := 354

inductive ProtocolState where
  | greetingReceived
  | ehloSent
  | startTlsSent
  | authSent
  | authLoginUserSent
  | authLoginPasswordSent
  | authComplete
  | mailSent
  | rcptSent
  | rcptsSent
  | dataSent
  | data2Sent
  | quitSent
  | max
  | invalid
  deriving DecidableEq, Repr

/-- `operator++`: the last state is followed by the first one. -/
def ProtocolState.increase : ProtocolState → Except Fault ProtocolState
  | .greetingReceived => .ok .ehloSent
  | .ehloSent => .ok .startTlsSent
  | .startTlsSent => .ok .authSent
  | .authSent => .ok .authLoginUserSent
  | .authLoginUserSent => .ok .authLoginPasswordSent
  | .authLoginPasswordSent => .ok .authComplete
  | .authComplete => .ok .mailSent
  | .mailSent => .ok .rcptSent
  | .rcptSent => .ok .rcptsSent
  | .rcptsSent => .ok .dataSent
  | .dataSent => .ok .data2Sent
  | .data2Sent => .ok .quitSent
  | .quitSent => .ok .greetingReceived
  | .max => .error .assertion
  | .invalid => .ok .greetingReceived

def ProtocolState.decrease : ProtocolState → Except Fault ProtocolState
  | .greetingReceived => .error .assertion
  | .ehloSent => .ok .greetingReceived
  | .startTlsSent => .ok .ehloSent
  | .authSent => .ok .startTlsSent
  | .authLoginUserSent => .ok .authSent
  | .authLoginPasswordSent => .ok .authLoginUserSent
  | .authComplete => .ok .authLoginPasswordSent
  | .mailSent => .ok .authComplete
  | .rcptSent => .ok .mailSent
  | .rcptsSent => .ok .rcptSent
  | .dataSent => .ok .rcptsSent
  | .data2Sent => .ok .dataSent
  | .quitSent => .ok .data2Sent
  | .max => .error .assertion
  | .invalid => .error .assertion

end ACENetwork.SMTP
