import ACENetwork.BitTorrent.Common
import ACENetwork.IRC.Record
import ACENetwork.Library.OrderedMap

/-!
# IRC tools

The parts of `IRC_Tools` that the session uses: the texts of records, modes and server
extensions. Lists and strings are read at their ends and from positions, which may fail.
-/
namespace ACENetwork.IRC
open BitTorrent (Fault)
open Library

section Reading

variable {α : Type}

/-- The element that an iterator refers to, which is the first one from there on. -/
def front : List α → Except Fault α
  | [] => .error .endIterator
  | a :: _ => .ok a

def back (l : List α) : Except Fault α :=
  match l.getLast? with
  | none => .error .endIterator
  | some a => .ok a

def advance (l : List α) (n : ℕ) : Except Fault (List α) :=
  if n ≤ l.length then .ok (l.drop n) else .error .endIterator

def find (s : Bytes) (c : UInt8) (position : ℕ) : Option ℕ :=
  ((s.drop position).findIdx? (· == c)).map (position + ·)

/-- `std::string::substr`; the number of octets is cut at the end. -/
def substr (s : Bytes) (position count : ℕ) : Except Fault Bytes :=
  if position ≤ s.length then .ok ((s.drop position).take count) else .error .outOfRange

@[simp] theorem front_cons (a : α) (l : List α) : front (a :: l) = .ok a := rfl

theorem front_ok {l : List α} {a : α} : front l = .ok a ↔ l.head? = some a := by
  cases l <;> simp [front]

theorem back_ok {l : List α} {a : α} : back l = .ok a ↔ l.getLast? = some a := by
  unfold back
  cases l.getLast? <;> simp

theorem front_of_ne_nil {l : List α} (h : l ≠ []) : ∃ a ∈ l, front l = .ok a := by
  obtain ⟨a, rest, rfl⟩ := List.exists_cons_of_ne_nil h
  exact ⟨a, List.mem_cons_self, rfl⟩

theorem back_of_ne_nil {l : List α} (h : l ≠ []) : ∃ a ∈ l, back l = .ok a :=
  ⟨l.getLast h, List.getLast_mem h, back_ok.2 (List.getLast?_eq_some_getLast h)⟩

theorem advance_of_le {l : List α} {n : ℕ} (h : n ≤ l.length) : advance l n = .ok (l.drop n) :=
  if_pos h

theorem substr_of_le {s : Bytes} {position : ℕ} (h : position ≤ s.length) (count : ℕ) :
    substr s position count = .ok ((s.drop position).take count) :=
  if_pos h

theorem find_bounds {s : Bytes} {c : UInt8} {position current : ℕ}
    (h : find s c position = some current) : position ≤ current ∧ current < s.length := by
  obtain ⟨k, hk, rfl⟩ := Option.map_eq_some_iff.mp h
  obtain ⟨hlt, -⟩ := List.findIdx?_eq_some_iff_findIdx_eq.mp hk
  rw [List.length_drop] at hlt
  omega

end Reading

inductive UserMode where
  | away
  | hideOper
  | invisible
  | operator
  | localOperator
  | restrictedConn
  | recvNotices
  | recvWallops
  | hostHiding
  deriving DecidableEq, Repr

inductive ChannelMode where
  | anonymous
  | ban
  | inviteOnly
  | password
  | userLimit
  | moderated
  | blockForeignMsgs
  | operator
  | «private»
  | quiet
  | reop
  | secret
  | restrictedTopic
  | voice
  deriving DecidableEq, Repr

def charToUserMode (c : UInt8) : Option UserMode :=
  if c = 'a'.toUInt8 then some .away
  else if c = 'H'.toUInt8 then some .hideOper
  else if c = 'i'.toUInt8 then some .invisible
  else if c = 'o'.toUInt8 then some .operator
  else if c = 'O'.toUInt8 then some .localOperator
  else if c = 'r'.toUInt8 then some .restrictedConn
  else if c = 's'.toUInt8 then some .recvNotices
  else if c = 'w'.toUInt8 then some .recvWallops
  else if c = 'x'.toUInt8 then some .hostHiding
  else none

def charToChannelMode (c : UInt8) : Option ChannelMode :=
  if c = 'a'.toUInt8 then some .anonymous
  else if c = 'b'.toUInt8 then some .ban
  else if c = 'i'.toUInt8 then some .inviteOnly
  else if c = 'k'.toUInt8 then some .password
  else if c = 'l'.toUInt8 then some .userLimit
  else if c = 'm'.toUInt8 then some .moderated
  else if c = 'n'.toUInt8 then some .blockForeignMsgs
  else if c = 'o'.toUInt8 then some .operator
  else if c = 'p'.toUInt8 then some .private
  else if c = 'q'.toUInt8 then some .quiet
  else if c = 'r'.toUInt8 then some .reop
  else if c = 's'.toUInt8 then some .secret
  else if c = 't'.toUInt8 then some .restrictedTopic
  else if c = 'v'.toUInt8 then some .voice
  else none

/-- `IRC_Tools::merge` over either kind of modes: the modes that are set, and how many have
changed. -/
def merge {μ : Type} [DecidableEq μ] (charToMode : UInt8 → Option μ) (modes : Bytes)
    (current : Finset μ) : Except Fault (Finset μ × ℕ) :=
  match modes with
  | [] => .error .outOfRange
  | sign :: letters =>
    let assign := sign == '+'.toUInt8
    .ok (letters.foldl (fun (current, result) c =>
      match charToMode c with
      | none => (current, result)
      | some mode =>
        (if assign then insert mode current else current.erase mode,
          if decide (mode ∈ current) = assign then result else result + 1)) (current, 0))

/-- The parameters from an index on, each with a blank behind it; the last blank is erased
where there were several. -/
def stringify (parameters : List Bytes) (index : ℕ) : Bytes :=
  if parameters.length ≤ index then []
  else
    let result := (parameters.drop index).flatMap (· ++ text " ")
    if index + 1 < parameters.length then result.dropLast else result

def stringifyLast (parameters : List Bytes) : Bytes := parameters.getLastD []

/-- The numeric replies of which `IRC_Tools::RecordToString` shows the last parameter. -/
def lastOnly : List ℕ :=
  [1, 2, 3, 251, 255, 263, 265, 266, 305, 306, 368, 372, 375, 376, 396, 422, 462, 465, 474, 482]

/-- The numeric replies of which it shows the parameters behind the first one. -/
def fromSecond : List ℕ :=
  [4, 5, 8, 20, 250, 252, 253, 254, 302, 321, 322, 323, 341, 401, 432, 433, 451, 461, 479, 501]

def recordToString (r : Record) : Except Fault Bytes :=
  match r.command with
  | .string name =>
    match commandToType name with
    | some .nick => do
      .ok (r.sender.origin ++ text " --> " ++ (← back r.parameters))
    | some .quit => do
      .ok (r.sender.origin ++ text " has QUIT IRC (reason: \"" ++ (← back r.parameters) ++ text "\")")
    | some .join => do
      .ok (text "\"" ++ r.sender.origin ++ text "\" (" ++ r.sender.user ++ text "@" ++
        r.sender.host ++ text ") has joined channel \"" ++ (← back r.parameters) ++ text "\"")
    | some .part => do
      let channel ← front r.parameters
      let result := text "\"" ++ r.sender.origin ++ text "\" (" ++ r.sender.user ++ text "@" ++
        r.sender.host ++ text ") has left channel \"" ++ channel
      if 2 ≤ r.parameters.length then do
        let iterator ← advance r.parameters 1
        .ok (result ++ text "\" (reason: \"" ++ (← front iterator) ++ text "\")")
      else .ok (result ++ text "\"")
    | some .notice => .ok (stringify r.parameters 1)
    | some .mode | some .topic | some .invite | some .kick | some .error | some .away
    | some .users | some .userhost => .ok (stringify r.parameters 0)
    | _ => .ok []
  | .numeric code =>
    if code ∈ lastOnly then .ok (stringifyLast r.parameters)
    else if code = 367 then .ok (stringify r.parameters 0)
    else if code ∈ fromSecond then .ok (stringify r.parameters 1)
    else if code = 315 then .ok (stringify r.parameters 2)
    else if code = 352 then .ok (stringify r.parameters 5)
    else .ok []
  | .invalid => .ok []

/-- The octets that `.` of a regular expression does not match. -/
def isLineEnd (c : UInt8) : Bool := c = 0x0A || c = 0x0D

/-- `IRC_Tools::parse`: the extensions are inserted up to the first parameter that does not
match. -/
def parseExtensions : List Bytes → OrderedMap Bytes Bytes → OrderedMap Bytes Bytes × Bool
  | [], extensions => (extensions, true)
  | parameter :: parameters, extensions =>
    match find parameter '='.toUInt8 0 with
    | some (position + 1) =>
      let value := parameter.drop (position + 2)
      if value.any isLineEnd then (extensions, false)
      else parseExtensions parameters (extensions.insert (parameter.take (position + 1)) value)
    | _ =>
      -- there is no name before a "=": only a word in capitals counts
      if parameter.any isLineEnd then (extensions, false)
      else if parameter ≠ [] ∧ parameter.all (fun c => 0x41 ≤ c && c ≤ 0x5A) then
        parseExtensions parameters (extensions.insert parameter [])
      else parseExtensions parameters extensions

end ACENetwork.IRC
