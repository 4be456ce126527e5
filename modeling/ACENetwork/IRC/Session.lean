import ACENetwork.IRC.Tools

/-!
# The IRC session

`IRC_Session_T::notify` follows the messages of the server: the nickname and modes of the
user, the channels that the user is in, and what the console shows.
-/
namespace ACENetwork.IRC
open BitTorrent (Fault fault_bind_ok)
open Library

/-- A `std::map` with `ci_less`, which ignores the case of a name: the names are its keys in
lower case. -/
abbrev ChannelMap (ν : Type) := OrderedMap Bytes ν

structure SessionState where
  channel : Bytes := []
  isFirstMessage : Bool := false
  nickName : Bytes := []
  userModes : Finset UserMode := ∅
  channels : List Bytes := []
  channelToNames : ChannelMap (List Bytes) := OrderedMap.empty
  channelToNumberOfUsers : ChannelMap UInt16 := OrderedMap.empty
  channelToModes : ChannelMap (Finset ChannelMode) := OrderedMap.empty
  channelToTopic : ChannelMap Bytes := OrderedMap.empty
  serverExtensions : OrderedMap Bytes Bytes := OrderedMap.empty
  console : Bytes := []
  deriving DecidableEq

def start (nickName : Bytes) : SessionState := { nickName := nickName }

def SessionState.log (s : SessionState) (messageText : Bytes) : SessionState :=
  { s with console := s.console ++ messageText }

@[simp] theorem log_channel (s : SessionState) (messageText : Bytes) :
    (s.log messageText).channel = s.channel := rfl

@[simp] theorem log_nickName (s : SessionState) (messageText : Bytes) :
    (s.log messageText).nickName = s.nickName := rfl

@[simp] theorem log_userModes (s : SessionState) (messageText : Bytes) :
    (s.log messageText).userModes = s.userModes := rfl

@[simp] theorem log_channels (s : SessionState) (messageText : Bytes) :
    (s.log messageText).channels = s.channels := rfl

@[simp] theorem log_channelToModes (s : SessionState) (messageText : Bytes) :
    (s.log messageText).channelToModes = s.channelToModes := rfl

def SessionState.logRecord (s : SessionState) (r : Record) : Except Fault SessionState := do
  let messageText ← recordToString r
  .ok (s.log messageText)

theorem logRecord_ok {s s' : SessionState} {r : Record} (h : s.logRecord r = .ok s') :
    ∃ messageText, s' = s.log messageText := by
  obtain ⟨messageText, -, hs'⟩ := fault_bind_ok.mp h
  exact ⟨messageText, (Except.ok.inj hs').symm⟩

def SessionState.error (s : SessionState) (r : Record) : Except Fault SessionState := do
  let _ ← recordToString r
  .ok s

theorem error_ok {s s' : SessionState} {r : Record} (h : s.error r = .ok s') : s' = s := by
  obtain ⟨-, -, hs'⟩ := fault_bind_ok.mp h
  exact (Except.ok.inj hs').symm

def userhostRecords (parameter : Bytes) (lastPosition : ℕ) : Except Fault (List Bytes) :=
  match h : find parameter 0x20 lastPosition with
  | none => do
    let record ← substr parameter lastPosition (parameter.length - lastPosition)
    .ok (if record = [] then [] else [record])
  | some currentPosition => do
    let record ← substr parameter lastPosition (currentPosition - lastPosition)
    let rest ← userhostRecords parameter (currentPosition + 1)
    .ok (if record = [] then rest else record :: rest)
termination_by parameter.length - lastPosition
decreasing_by
  have hbounds := find_bounds h
  omega

def userhostMessage (record : Bytes) : Except Fault (Option Bytes) :=
  match find record '='.toUInt8 0 with
  | none => .ok none
  | some position => do
    let nick ← substr record 0 position
    match find record '@'.toUInt8 position with
    | none => .ok none
    | some position' => do
      let user ← substr record (position + 1) (position' - position - 1)
      let host ← substr record (position' + 1) record.length
      .ok (some (nick ++ text " is \"" ++ user ++ text "\" on \"" ++ host ++ text "\"\n"))

def userhost (s : SessionState) (parameters : List Bytes) : Except Fault SessionState := do
  let parameter ← back parameters
  let records ← userhostRecords parameter 0
  records.foldlM (fun s record => do
    match ← userhostMessage record with
    | none => .ok s
    | some message => .ok (s.log message)) s

def readInt (s : Bytes) : ℤ :=
  let value (s : Bytes) : ℤ := decimalValue (s.takeWhile isDigit)
  match s.dropWhile isSpace with
  | [] => 0
  | c :: rest =>
    if c = '-'.toUInt8 then max (-2 ^ 31) (-value rest)
    else if c = '+'.toUInt8 then min (2 ^ 31 - 1) (value rest)
    else min (2 ^ 31 - 1) (value (c :: rest))

def listReply (s : SessionState) (parameters : List Bytes) : Except Fault SessionState :=
  if parameters.length < 3 then .error .assertion
  else do
    let iterator ← advance parameters 2
    let numMembers := readInt (← front iterator)
    let channel ← front (← advance parameters 1)
    .ok { s with channelToNumberOfUsers := s.channelToNumberOfUsers.assign (tolower channel)
                  (UInt16.ofNat (numMembers % 2 ^ 16).toNat) }

/-- `RPL_WHOREPLY`; what it reads is not used. -/
def whoReply (s : SessionState) (parameters : List Bytes) : Except Fault SessionState :=
  if parameters.length < 8 then .error .assertion
  else do
    let iterator ← advance parameters 5
    let _ ← front iterator
    let iterator ← advance iterator 1
    let _ ← front iterator
    let parameter ← back parameters
    let position := find parameter 0x20 0
    let _ ← substr parameter 0 (position.getD parameter.length)
    -- without a blank the position wraps around to zero
    let _ ← substr parameter (position.elim 0 (· + 1)) parameter.length
    .ok { s with isFirstMessage := false }

/-- The numeric replies that are logged only. -/
def logged : List ℕ :=
  [1, 2, 3, 4, 8, 20, 250, 251, 252, 253, 254, 255, 263, 265, 266, 305, 306, 321, 323, 341, 368,
    372, 375, 376, 396, 422, 461, 477]

def shown : List ℕ := [401, 421, 432, 433, 451, 462, 465, 474, 479, 482, 501]

section

variable (split : Bytes → UInt8 → List Bytes)

def namReply (s : SessionState) (parameters : List Bytes) : Except Fault SessionState :=
  if parameters.length < 3 then .error .assertion
  else do
    let nicknames := split (← back parameters) 0x20
    let channel ← front (← advance parameters 2)
    .ok { s with channelToNames := s.channelToNames.assign (tolower channel) nicknames }

def notifyNumeric (s : SessionState) (r : Record) (code : ℕ) : Except Fault SessionState :=
  if code = 5 then
    if r.parameters = [] then .error .assertion
    else do
      let parsed := parseExtensions (← advance r.parameters 1) s.serverExtensions
      let s := { s with serverExtensions := parsed.1 }
      if parsed.2 then s.logRecord r else .ok s
  else if code = 302 then userhost s r.parameters
  else if code = 315 then do
    let s ← s.logRecord r
    .ok { s with isFirstMessage := true }
  else if code = 322 then listReply s r.parameters
  else if code = 352 then whoReply s r.parameters
  else if code = 353 then namReply split s r.parameters
  else if code = 366 then do
    let _ ← advance r.parameters 1
    .ok s
  else if code ∈ logged then s.logRecord r
  else if code ∈ shown then do
    let s ← s.logRecord r
    s.error r
  else .ok s

end

/-- `JOIN`: the reply to a request of the user, or a stranger. -/
def notifyJoin (s : SessionState) (r : Record) : Except Fault SessionState :=
  if r.sender.origin = s.nickName then do
    let channel ← front r.parameters
    .ok ({ s with
      channels := s.channels ++ [channel]
      channelToNames := s.channelToNames.insert (tolower channel) []
      channelToNumberOfUsers := s.channelToNumberOfUsers.insert (tolower channel) 0
      channelToModes := s.channelToModes.insert (tolower channel) ∅
      channelToTopic := s.channelToTopic.insert (tolower channel) []
      channel := channel }.log (text "joined channel " ++ channel ++ text "\n"))
  else s.logRecord r

def notifyPart (s : SessionState) (r : Record) : Except Fault SessionState :=
  if r.sender.origin = s.nickName then do
    let channel ← front r.parameters
    if channel ∉ s.channels then .error .assertion
    else
      let channels := s.channels.erase channel
      let current := if s.channel = channel then [] else s.channel
      .ok ({ s with
        channels := channels
        channel := if current = [] then channels.headD [] else current }.log
          (text "parted channel " ++ channel ++ text "\n"))
  else s.logRecord r

def notifyMode (s : SessionState) (r : Record) : Except Fault SessionState := do
  let s ← s.logRecord r
  let iterator ← advance r.parameters 1
  let target ← front r.parameters
  if target = s.nickName then do
    let (modes, _) ← merge charToUserMode (← back r.parameters) s.userModes
    .ok ({ s with userModes := modes }.log (text "changed mode(s) user\n"))
  else
    match s.channelToModes.find? (tolower target) with
    | none => .error .assertion
    | some current => do
      let (modes, _) ← merge charToChannelMode (← front iterator) current
      .ok ({ s with channelToModes := s.channelToModes.assign (tolower target) modes }.log
        (text "changed mode(s) channel\n"))

def notifyPrivmsg (s : SessionState) (r : Record) : Except Fault SessionState := do
  let sender := if r.sender.origin = [] then [] else text "<" ++ r.sender.origin ++ text "> "
  let parameter ← back r.parameters
  let _ ← front r.parameters
  .ok (s.log (sender ++ parameter))

def notifyString (s : SessionState) (r : Record) (command : Option CommandType) :
    Except Fault SessionState :=
  match command with
  | some .nick => do
    let nickName ← front r.parameters
    { s with nickName := nickName }.logRecord r
  | some .user => s.logRecord r
  | some .quit => do
    let s ← s.logRecord r
    if r.sender.origin = s.nickName then s.error r else .ok s
  | some .join => notifyJoin s r
  | some .part => notifyPart s r
  | some .mode => notifyMode s r
  | some .topic | some .kick => s.logRecord r
  | some .privmsg => notifyPrivmsg s r
  | some .notice | some .away => s.logRecord r
  | some .error => do
    let s ← s.logRecord r
    s.error r
  | _ => .ok s

def notify (split : Bytes → UInt8 → List Bytes) (s : SessionState) (r : Record) :
    Except Fault SessionState :=
  match r.command with
  | .numeric code => notifyNumeric split s r code
  | .string name => notifyString s r (commandToType name)
  | .invalid => .ok s

end ACENetwork.IRC
