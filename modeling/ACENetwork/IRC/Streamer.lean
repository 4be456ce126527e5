import ACENetwork.BitTorrent.Common
import ACENetwork.IRC.Record
import ACENetwork.IRC.Parser

/-!
# The streamer

`IRC_Module_Streamer_T` writes a record into an empty message, octet after octet. It drops the
message where its space ends.
-/
namespace ACENetwork.IRC.Streamer
open BitTorrent (Fault)
open Library
open IRC.Parser (blank colon exclamation atSign maximumFrameSize)

/-- A message block: what has been written, and the space behind it. -/
structure Message where
  content : Bytes := []
  space : ℕ
  deriving DecidableEq

/-- A copy into the message, or the octets that are written one by one after a look at the
space. -/
def Message.copy (m : Message) (text : Bytes) : Option Message :=
  if text.length ≤ m.space then some ⟨m.content ++ text, m.space - text.length⟩ else none

/-- A copy that is made only where a condition holds. -/
def Message.copyIf (m : Message) (condition : Prop) [Decidable condition] (text : Bytes) :
    Option Message :=
  if condition then m.copy text else some m

def streamPart (m : Message) (mark : UInt8) (name : Bytes) : Option Message :=
  if name = [] then some m
  else do
    let m ← m.copy [mark]
    m.copy name

def streamPrefix (m : Message) (sender : Prefix) : Option Message :=
  if sender.origin = [] then some m
  else do
    let m ← m.copy [colon]
    let m ← m.copy sender.origin
    let m ← streamPart m exclamation sender.user
    let m ← streamPart m atSign sender.host
    m.copy [blank]

/-- `snprintf` with the format `%.3u`. -/
def numeral (code : ℕ) : Bytes :=
  List.replicate (3 - (decimal code).length) '0'.toUInt8 ++ decimal code

def streamCommand (m : Message) : Command → Option Message
  | .numeric code =>
    if m.space < 4 then none
    else if (numeral code).length ≠ 3 then none
    else m.copy (numeral code)
  | .string name => m.copy name
  | .invalid => none

/-- The last parameter has a colon before it where it contains a blank. -/
def streamParameters (m : Message) : List Bytes → Option Message
  | [] => some m
  | [last] => do
    let m ← m.copyIf (last.contains blank) [colon]
    m.copy last
  | parameter :: parameters => do
    let m ← m.copy parameter
    let m ← m.copy [blank]
    streamParameters m parameters

/-- `IRC_Module_Streamer_T::handleDataMessage`: the message, unless it is dropped. -/
def handleDataMessage (m : Message) (r : Record) : Except Fault (Option Message) :=
  if m.content ≠ [] ∨ m.space < maximumFrameSize then .error .assertion
  else .ok do
    let m ← streamPrefix m r.sender
    let m ← streamCommand m r.command
    let m ← m.copyIf (r.parameters ≠ []) [blank]
    let m ← streamParameters m r.parameters
    m.copy crlf

section Texts

def partText (mark : UInt8) (name : Bytes) : Bytes := if name = [] then [] else mark :: name

def prefixText (sender : Prefix) : Bytes :=
  if sender.origin = [] then []
  else
    colon :: (sender.origin ++ (partText exclamation sender.user ++
      (partText atSign sender.host ++ [blank])))

def commandText : Command → Bytes
  | .numeric code => numeral code
  | .string name => name
  | .invalid => []

def parametersText : List Bytes → Bytes
  | [] => []
  | [last] => (if last.contains blank then [colon] else []) ++ last
  | parameter :: parameters => parameter ++ blank :: parametersText parameters

def restText (parameters : List Bytes) : Bytes :=
  (if parameters ≠ [] then [blank] else []) ++ (parametersText parameters ++ crlf)

def frameText (r : Record) : Bytes :=
  prefixText r.sender ++ (commandText r.command ++ restText r.parameters)

variable (m : Message)

@[simp] theorem copy_nil : m.copy [] = some m := by
  simp [Message.copy]

theorem copy_bind (text rest : Bytes) :
    (m.copy text >>= fun n => n.copy rest) = m.copy (text ++ rest) := by
  simp only [Message.copy, List.length_append]
  by_cases htext : text.length ≤ m.space
  · by_cases hrest : rest.length ≤ m.space - text.length
    · have hall : text.length + rest.length ≤ m.space := by omega
      simp [htext, hrest, hall, Nat.sub_sub]
    · have hall : ¬ text.length + rest.length ≤ m.space := by omega
      simp [htext, hrest, hall]
  · have hall : ¬ text.length + rest.length ≤ m.space := by omega
    simp [htext, hall]

theorem copyIf_eq (condition : Prop) [Decidable condition] (text : Bytes) :
    m.copyIf condition text = m.copy (if condition then text else []) := by
  rw [Message.copyIf]
  split_ifs <;> simp

/-- The steps of the streamer are copies of the texts of the parts of a record. -/
theorem streamPart_eq (mark : UInt8) (name : Bytes) :
    streamPart m mark name = m.copy (partText mark name) := by
  rw [streamPart, partText]
  split_ifs
  · exact (copy_nil m).symm
  · exact copy_bind m [mark] name

theorem streamPrefix_eq (sender : Prefix) :
    streamPrefix m sender = m.copy (prefixText sender) := by
  rw [streamPrefix, prefixText]
  split_ifs
  · exact (copy_nil m).symm
  · simp only [streamPart_eq, copy_bind]
    rfl

theorem streamParameters_eq (parameters : List Bytes) :
    streamParameters m parameters = m.copy (parametersText parameters) := by
  induction parameters generalizing m with
  | nil => exact (copy_nil m).symm
  | cons parameter parameters ih =>
    cases parameters with
    | nil =>
      rw [streamParameters, parametersText]
      simp only [copyIf_eq, copy_bind]
    | cons next parameters =>
      rw [streamParameters, parametersText]
      · simp only [ih, copy_bind]
        rfl
      · exact List.cons_ne_nil next parameters
      · exact List.cons_ne_nil next parameters

def Streams : Command → Prop
  | .numeric code => (numeral code).length = 3
  | .string _ => True
  | .invalid => False

/-- The frame boundary needs more room than the NUL behind a number. -/
theorem streamCommand_bind {command : Command} (hcommand : Streams command) {rest : Bytes}
    (hrest : 2 ≤ rest.length) :
    (streamCommand m command >>= fun n => n.copy rest) =
      m.copy (commandText command ++ rest) := by
  rw [← copy_bind]
  cases command with
  | numeric code =>
    have hlength : (numeral code).length = 3 := hcommand
    rw [streamCommand, commandText, if_neg (not_not.mpr hlength)]
    split_ifs with hspace
    · rw [copy_bind, Message.copy, if_neg]
      · rfl
      · rw [List.length_append, hlength]
        omega
    · rfl
  | string name => rfl
  | invalid => exact hcommand.elim

theorem handleDataMessage_eq {r : Record} (hcommand : Streams r.command) (hempty : m.content = [])
    (hspace : maximumFrameSize ≤ m.space) :
    handleDataMessage m r = .ok (m.copy (frameText r)) := by
  have hready : ¬ (m.content ≠ [] ∨ m.space < maximumFrameSize) := by
    simp [hempty, hspace]
  have hrest : 2 ≤ (restText r.parameters).length := by
    simp [restText, crlf]
    omega
  rw [handleDataMessage, if_neg hready]
  simp only [streamPrefix_eq, copyIf_eq, streamParameters_eq, copy_bind]
  rw [← restText]
  simp only [streamCommand_bind _ hcommand hrest, copy_bind]
  rfl

end Texts

end ACENetwork.IRC.Streamer
