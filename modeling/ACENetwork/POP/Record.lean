import ACENetwork.BitTorrent.Common
import ACENetwork.Library.Text

/-!
# POP3 records

`POP_Record`: a command of the client, or a reply of the server. The states of the
protocol, and how they are advanced.
-/
namespace ACENetwork.POP
open BitTorrent (Fault)
open Library

inductive Command where
  | authUser
  | authPass
  | authApop
  | authQuit
  | transStat
  | transList
  | transRetr
  | transDele
  | transNoop
  | transRset
  | transQuit
  | transTop
  | transUidl
  | updatQuit
  | invalid
  deriving DecidableEq, Repr

structure Request where
  command : Command := .invalid
  parameters : List Bytes := []
  deriving DecidableEq

structure Reply where
  status : Bytes := []
  text : List Bytes := []
  deriving DecidableEq

def isSuccess (code : UInt8) : Bool := code == 0x2B

/-- The test on `status[0]`; a string has a NUL at its end. -/
def Reply.isPositive (r : Reply) : Bool := isSuccess (r.status.headD 0)

inductive ProtocolState where
  | greetingReceived
  | authLoginUserSent
  | authLoginPasswordSent
  | authApopSent
  | authQuitSent
  | transStatSent
  | transListSent
  | transRetrSent
  | transDeleSent
  | transNoopSent
  | transRsetSent
  | transQuitSent
  | transTopSent
  | transUidlSent
  | updatQuitSent
  | max
  | invalid
  deriving DecidableEq, Repr

/-- `operator++`: the last state is followed by the first one. -/
def ProtocolState.increase : ProtocolState → Except Fault ProtocolState
  | .greetingReceived => .ok .authLoginUserSent
  | .authLoginUserSent => .ok .authLoginPasswordSent
  | .authLoginPasswordSent => .ok .authApopSent
  | .authApopSent => .ok .authQuitSent
  | .authQuitSent => .ok .transStatSent
  | .transStatSent => .ok .transListSent
  | .transListSent => .ok .transRetrSent
  | .transRetrSent => .ok .transDeleSent
  | .transDeleSent => .ok .transNoopSent
  | .transNoopSent => .ok .transRsetSent
  | .transRsetSent => .ok .transQuitSent
  | .transQuitSent => .ok .transTopSent
  | .transTopSent => .ok .transUidlSent
  | .transUidlSent => .ok .updatQuitSent
  | .updatQuitSent => .ok .greetingReceived
  | .max => .error .assertion
  | .invalid => .ok .greetingReceived

def ProtocolState.decrease : ProtocolState → Except Fault ProtocolState
  | .greetingReceived => .error .assertion
  | .authLoginUserSent => .ok .greetingReceived
  | .authLoginPasswordSent => .ok .authLoginUserSent
  | .authApopSent => .ok .authLoginPasswordSent
  | .authQuitSent => .ok .authApopSent
  | .transStatSent => .ok .authQuitSent
  | .transListSent => .ok .transStatSent
  | .transRetrSent => .ok .transListSent
  | .transDeleSent => .ok .transRetrSent
  | .transNoopSent => .ok .transDeleSent
  | .transRsetSent => .ok .transNoopSent
  | .transQuitSent => .ok .transRsetSent
  | .transTopSent => .ok .transQuitSent
  | .transUidlSent => .ok .transTopSent
  | .updatQuitSent => .ok .transUidlSent
  | .max => .error .assertion
  | .invalid => .error .assertion

end ACENetwork.POP
