import ACENetwork.FTP.Control
import ACENetwork.Library.Copies

/-!
# The FTP streamer

`FTP_Module_Streamer_T::handleDataMessage` writes the line of a command into the block of the
request. The parameter of `LIST` and `NLST` takes the place of the command.
-/
namespace ACENetwork.FTP.Streamer
open BitTorrent (Fault)
open Library

/-- What the streamer reads of `FTP_Request`. -/
structure Outgoing where
  command : Command := .invalid
  parameters : List Bytes := []
  deriving DecidableEq

section
variable (space : ℕ) (parameters : List Bytes)

def withParameter (verb : Bytes) : Except Fault Bytes :=
  match parameters with
  | parameter :: _ => .ok (copies space [verb ++ parameter ++ text "\r\n"])
  | [] => .error .assertion

/-- The text of the command is assigned the blank in front of a parameter. -/
def withOptional (verb : Bytes) : Except Fault Bytes :=
  match parameters with
  | parameter :: _ => .ok (copies space [text " " ++ parameter ++ text "\r\n"])
  | [] => .ok (copies space [verb ++ text "\r\n"])

/-- `FTP_Module_Streamer_T::handleDataMessage`: what the block of a request with some free space
holds. -/
def handleDataMessage (r : Outgoing) : Except Fault Bytes :=
  match r.command with
  | .user => withParameter space r.parameters (text "USER ")
  | .pass => withParameter space r.parameters (text "PASS ")
  | .cwd => withParameter space r.parameters (text "CWD ")
  | .cdup => .ok (copies space [text "CDUP" ++ text "\r\n"])
  | .port => withParameter space r.parameters (text "PORT ")
  | .pasv => .ok (copies space [text "PASV" ++ text "\r\n"])
  | .type => withParameter space r.parameters (text "TYPE ")
  | .retr => withParameter space r.parameters (text "RETR ")
  | .pwd => .ok (copies space [text "PWD" ++ text "\r\n"])
  | .list => withOptional space r.parameters (text "LIST")
  | .nlst => withOptional space r.parameters (text "NLST")
  | .quit => .ok (copies space [text "QUIT" ++ text "\r\n"])
  | _ => .ok []

end

end ACENetwork.FTP.Streamer
