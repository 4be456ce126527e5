import ACENetwork.Library.Copies
import ACENetwork.POP.Record

/-!
# The POP3 streamer

`POP_Module_Streamer_T::handleDataMessage` writes the line of a command into the block of the
request, in several copies.
-/
namespace ACENetwork.POP.Streamer
open BitTorrent (Fault)
open Library

section
variable (space : ℕ) (parameters : List Bytes)

/-- A command and its parameter, which is read without a check. -/
def withParameter (verb : Bytes) : Except Fault Bytes :=
  match parameters with
  | parameter :: _ => .ok (copies space [verb, parameter, text "\r\n"])
  | [] => .error .endIterator

def withOptional (verb : Bytes) : Except Fault Bytes :=
  match parameters with
  | parameter :: _ => .ok (copies space [verb, text " ", parameter, text "\r\n"])
  | [] => .ok (copies space [verb, text "\r\n"])

/-- `POP_Module_Streamer_T::handleDataMessage`: what the block of a request with some free space
holds. -/
def handleDataMessage (r : Request) : Except Fault Bytes :=
  match r.command with
  | .authUser => withParameter space r.parameters (text "USER ")
  | .authPass => withParameter space r.parameters (text "PASS ")
  | .authApop => .error .assertion
  | .authQuit => .ok (copies space [text "QUIT\r\n"])
  | .transStat => .ok (copies space [text "STAT\r\n"])
  | .transList => withOptional space r.parameters (text "LIST")
  | .transRetr => withParameter space r.parameters (text "RETR ")
  | .transDele => withParameter space r.parameters (text "DELE ")
  | .transNoop => .ok (copies space [text "NOOP\r\n"])
  | .transRset => .ok (copies space [text "RSET\r\n"])
  | .transQuit => .ok (copies space [text "QUIT\r\n"])
  | .transTop =>
    match r.parameters with
    | message :: lines :: _ =>
      .ok (copies space [text "TOP ", message, text " ", lines, text "\r\n"])
    | _ => .error .endIterator
  | .transUidl => withOptional space r.parameters (text "UIDL")
  | .updatQuit => .ok (copies space [text "QUIT\r\n"])
  | .invalid => .ok []

end

end ACENetwork.POP.Streamer
