import ACENetwork.FTP.Streamer
import ACENetwork.Library.Joined
import ACENetwork.POP.Streamer
import ACENetwork.SMTP.Streamer

/-!
# The lines of commands

What the streamers of SMTP, POP3 and FTP write for a request is its command and its arguments,
with a blank between them, and a line end. The strings of a request are not looked at: they make
one line if they hold no line end.
-/
namespace ACENetwork.CommandLines
open BitTorrent (Fault InetAddr)
open Library

inductive Outgoing where
  | smtp (r : SMTP.Request)
  | pop (r : POP.Request)
  | ftp (r : FTP.Streamer.Outgoing)

def blank : UInt8 := 0x20

def line (words : List Bytes) : Bytes := joined blank words ++ crlf

/-- A text without carriage returns and line feeds. -/
def Plain (s : Bytes) : Prop := ∀ b ∈ s, isPlain b = true

instance (s : Bytes) : Decidable (Plain s) := inferInstanceAs (Decidable (∀ b ∈ s, _ = _))

def OneLine (bytes : Bytes) : Prop := ∃ body, Plain body ∧ bytes = body ++ crlf

section Words
variable (ip : InetAddr → Bytes)

/-- The command of a request, and its arguments. The answer to a challenge has no command, and the
text of a message is no command. -/
def smtpWords (r : SMTP.Request) : Option (List Bytes) :=
  match r.command with
  | .ehlo => some [text "EHLO", text "[" ++ ip r.domain ++ text "]"]
  | .startTls => some [text "STARTTLS"]
  | .mail => some [text "MAIL", text "FROM:<" ++ r.from ++ text ">"]
  | .rcpt => r.to.head?.map fun recipient => [text "RCPT", text "TO:<" ++ recipient ++ text ">"]
  | .data => some [text "DATA"]
  | .quit => some [text "QUIT"]
  | .auth => some (r.parameters.head?.elim [text "AUTH", text "LOGIN"] fun parameter => [parameter])
  | .data2 | .invalid => none

def popWords (r : POP.Request) : Option (List Bytes) :=
  match r.command with
  | .authUser => r.parameters.head?.map fun name => [text "USER", name]
  | .authPass => r.parameters.head?.map fun password => [text "PASS", password]
  | .authQuit | .transQuit | .updatQuit => some [text "QUIT"]
  | .transStat => some [text "STAT"]
  | .transList => some (text "LIST" :: r.parameters.head?.toList)
  | .transRetr => r.parameters.head?.map fun message => [text "RETR", message]
  | .transDele => r.parameters.head?.map fun message => [text "DELE", message]
  | .transNoop => some [text "NOOP"]
  | .transRset => some [text "RSET"]
  | .transTop =>
    match r.parameters with
    | message :: lines :: _ => some [text "TOP", message, lines]
    | _ => none
  | .transUidl => some (text "UIDL" :: r.parameters.head?.toList)
  | .authApop | .invalid => none

def ftpWords (r : FTP.Streamer.Outgoing) : Option (List Bytes) :=
  match r.command with
  | .user => r.parameters.head?.map fun name => [text "USER", name]
  | .pass => r.parameters.head?.map fun password => [text "PASS", password]
  | .cwd => r.parameters.head?.map fun path => [text "CWD", path]
  | .cdup => some [text "CDUP"]
  | .port => r.parameters.head?.map fun address => [text "PORT", address]
  | .pasv => some [text "PASV"]
  | .type => r.parameters.head?.map fun type => [text "TYPE", type]
  | .retr => r.parameters.head?.map fun path => [text "RETR", path]
  | .pwd => some [text "PWD"]
  | .list => some (text "LIST" :: r.parameters.head?.toList)
  | .nlst => some (text "NLST" :: r.parameters.head?.toList)
  | .quit => some [text "QUIT"]
  | _ => none

namespace Outgoing

/-- The words of the line of a request that has the arguments that its command needs. -/
def words : Outgoing → Option (List Bytes)
  | smtp r => smtpWords ip r
  | pop r => popWords r
  | ftp r => ftpWords r

def strings : Outgoing → List Bytes
  | smtp r => r.from :: (r.to ++ r.parameters)
  | pop r => r.parameters
  | ftp r => r.parameters

def listsParameter : Outgoing → Bool
  | ftp r => (r.command == .list || r.command == .nlst) && r.parameters != []
  | _ => false

def handleDataMessage (addrToString : InetAddr → Option Bytes) (date : Bytes) (space : ℕ) :
    Outgoing → Except Fault Bytes
  | smtp r => SMTP.Streamer.handleDataMessage addrToString date r space
  | pop r => POP.Streamer.handleDataMessage space r
  | ftp r => FTP.Streamer.handleDataMessage space r

end Outgoing

end Words

section Lines
variable {addrToString : InetAddr → Option Bytes} {ip : InetAddr → Bytes} {date : Bytes}
  {space : ℕ} {ws texts parameters : List Bytes} {verb command : Bytes}

theorem text_lineEnd : text "\r\n" = crlf := rfl

theorem text_blank : text " " = [blank] := rfl

theorem line_word (word : Bytes) : line [word] = word ++ crlf := by simp [line, joined]

theorem line_cons (word : Bytes) (h : ws ≠ []) : line (word :: ws) = word ++ blank :: line ws := by
  obtain ⟨w, ws, rfl⟩ := List.exists_cons_of_ne_nil h
  simp [line, joined]

theorem line_parameter (verb parameter : Bytes) :
    line [verb, parameter] = verb ++ [blank] ++ parameter ++ crlf := by
  rw [line_cons _ (List.cons_ne_nil _ _), line_word]
  simp

theorem line_enclosed (verb before parameter after : Bytes) :
    line [verb, before ++ parameter ++ after] =
      (verb ++ blank :: before) ++ parameter ++ (after ++ crlf) := by
  rw [line_parameter]
  simp

theorem copies_line (hspace : (line ws).length ≤ space) (h : texts.flatten = line ws) :
    Except.ok (ε := Fault) (copies space texts) = .ok (line ws) := by
  rw [copies_of_room (h ▸ hspace), h]

theorem smtp_line (h : SMTP.Streamer.WritesAddress addrToString ip) {r : SMTP.Request}
    (hwords : smtpWords ip r = some ws) (hspace : (line ws).length ≤ space) :
    SMTP.Streamer.handleDataMessage addrToString date r space = .ok (line ws) := by
  have haddress := SMTP.Streamer.ipAddressToString_eq h r.domain
  have henclosed {whole verb before parameter after : Bytes} (hwhole : whole = verb ++ blank :: before)
      (hws : ws = [verb, before ++ parameter ++ after]) :
      [whole ++ parameter ++ (after ++ crlf)].flatten = line ws := by
    rw [List.flatten_singleton, hws, line_enclosed, hwhole]
  unfold SMTP.Streamer.handleDataMessage
  unfold smtpWords at hwords
  cases hcommand : r.command with
  | ehlo =>
    rw [hcommand] at hwords
    cases hwords
    rw [haddress]
    exact copies_line hspace (henclosed rfl rfl)
  | startTls =>
    rw [hcommand] at hwords
    cases hwords
    exact copies_line hspace rfl
  | mail =>
    rw [hcommand] at hwords
    cases hwords
    exact copies_line hspace (henclosed rfl rfl)
  | rcpt =>
    rw [hcommand] at hwords
    cases hto : r.to with
    | nil =>
      rw [hto] at hwords
      cases hwords
    | cons recipient more =>
      rw [hto] at hwords
      cases hwords
      exact copies_line hspace (henclosed rfl rfl)
  | data =>
    rw [hcommand] at hwords
    cases hwords
    exact copies_line hspace rfl
  | quit =>
    rw [hcommand] at hwords
    cases hwords
    exact copies_line hspace rfl
  | auth =>
    rw [hcommand] at hwords
    cases hparameters : r.parameters with
    | nil =>
      rw [hparameters] at hwords
      cases hwords
      exact copies_line hspace rfl
    | cons parameter more =>
      rw [hparameters] at hwords
      cases hwords
      refine copies_line hspace ?_
      rw [List.head?_cons, Option.elim_some, line_word, List.flatten_cons, List.flatten_singleton]
      rfl
  | data2 =>
    rw [hcommand] at hwords
    cases hwords
  | invalid =>
    rw [hcommand] at hwords
    cases hwords

theorem pop_withParameter (hverb : command = verb ++ [blank])
    (hwords : (parameters.head?.map fun parameter => [verb, parameter]) = some ws)
    (hspace : (line ws).length ≤ space) :
    POP.Streamer.withParameter space parameters command = .ok (line ws) := by
  cases parameters with
  | nil => cases hwords
  | cons parameter more =>
    cases hwords
    refine copies_line hspace ?_
    rw [line_parameter, hverb]
    simp [text_lineEnd]

theorem pop_withOptional (hwords : some (verb :: parameters.head?.toList) = some ws)
    (hspace : (line ws).length ≤ space) :
    POP.Streamer.withOptional space parameters verb = .ok (line ws) := by
  cases parameters with
  | nil =>
    cases hwords
    refine copies_line hspace ?_
    rw [List.head?_nil, Option.toList_none, line_word]
    simp [text_lineEnd]
  | cons parameter more =>
    cases hwords
    refine copies_line hspace ?_
    rw [List.head?_cons, Option.toList_some, line_parameter]
    simp [text_lineEnd, text_blank]

theorem pop_line {r : POP.Request} (hwords : popWords r = some ws)
    (hspace : (line ws).length ≤ space) : POP.Streamer.handleDataMessage space r = .ok (line ws) := by
  unfold POP.Streamer.handleDataMessage
  unfold popWords at hwords
  cases hcommand : r.command <;> rw [hcommand] at hwords
  case authUser => exact pop_withParameter rfl hwords hspace
  case authPass => exact pop_withParameter rfl hwords hspace
  case transRetr => exact pop_withParameter rfl hwords hspace
  case transDele => exact pop_withParameter rfl hwords hspace
  case transList => exact pop_withOptional hwords hspace
  case transUidl => exact pop_withOptional hwords hspace
  case transTop =>
    cases hparameters : r.parameters with
    | nil =>
      rw [hparameters] at hwords
      cases hwords
    | cons message more =>
      cases more with
      | nil =>
        rw [hparameters] at hwords
        cases hwords
      | cons lines more =>
        rw [hparameters] at hwords
        cases hwords
        refine copies_line hspace ?_
        have hverb : text "TOP " = text "TOP" ++ [blank] := rfl
        rw [line_cons _ (List.cons_ne_nil _ _), line_parameter, hverb]
        simp [text_lineEnd, text_blank]
  -- what is left has no parameters, or is not supported
  all_goals
    cases hwords
  all_goals exact copies_line hspace rfl

theorem ftp_withParameter (hverb : command = verb ++ [blank])
    (hwords : (parameters.head?.map fun parameter => [verb, parameter]) = some ws)
    (hspace : (line ws).length ≤ space) :
    FTP.Streamer.withParameter space parameters command = .ok (line ws) := by
  cases parameters with
  | nil => cases hwords
  | cons parameter more =>
    cases hwords
    refine copies_line hspace ?_
    rw [line_parameter, hverb]
    simp [text_lineEnd]

theorem ftp_withOptional (hparameters : parameters = [])
    (hwords : some (verb :: parameters.head?.toList) = some ws)
    (hspace : (line ws).length ≤ space) :
    FTP.Streamer.withOptional space parameters verb = .ok (line ws) := by
  subst hparameters
  cases hwords
  refine copies_line hspace ?_
  rw [List.head?_nil, Option.toList_none, line_word]
  simp [text_lineEnd]

theorem ftp_line {r : FTP.Streamer.Outgoing} (hwords : ftpWords r = some ws)
    (hlists : (Outgoing.ftp r).listsParameter = false) (hspace : (line ws).length ≤ space) :
    FTP.Streamer.handleDataMessage space r = .ok (line ws) := by
  unfold FTP.Streamer.handleDataMessage
  unfold ftpWords at hwords
  have hparameters (h : r.command = .list ∨ r.command = .nlst) : r.parameters = [] := by
    rcases h with h | h <;> simpa [Outgoing.listsParameter, h] using hlists
  cases hcommand : r.command <;> rw [hcommand] at hwords
  case user => exact ftp_withParameter rfl hwords hspace
  case pass => exact ftp_withParameter rfl hwords hspace
  case cwd => exact ftp_withParameter rfl hwords hspace
  case port => exact ftp_withParameter rfl hwords hspace
  case type => exact ftp_withParameter rfl hwords hspace
  case retr => exact ftp_withParameter rfl hwords hspace
  case list => exact ftp_withOptional (hparameters (.inl hcommand)) hwords hspace
  case nlst => exact ftp_withOptional (hparameters (.inr hcommand)) hwords hspace
  all_goals
    cases hwords
  all_goals exact copies_line hspace rfl

theorem handleDataMessage_line (h : SMTP.Streamer.WritesAddress addrToString ip) {r : Outgoing}
    (hwords : r.words ip = some ws) (hlists : r.listsParameter = false)
    (hspace : (line ws).length ≤ space) :
    r.handleDataMessage addrToString date space = .ok (line ws) := by
  cases r with
  | smtp r => exact smtp_line h hwords hspace
  | pop r => exact pop_line hwords hspace
  | ftp r => exact ftp_line hwords hlists hspace

theorem Plain.append {s t : Bytes} (hs : Plain s) (ht : Plain t) : Plain (s ++ t) := fun b hb =>
  (List.mem_append.mp hb).elim (hs b) (ht b)

theorem plain_of_all {s : Bytes} (h : s.all isPlain = true) : Plain s := List.all_eq_true.mp h

theorem plain_all (h : (ws.all fun w => w.all isPlain) = true) : ∀ w ∈ ws, Plain w := fun w hw =>
  plain_of_all (List.all_eq_true.mp h w hw)

theorem plain_pair {v w : Bytes} (hv : Plain v) (hw : Plain w) : ∀ u ∈ [v, w], Plain u :=
  List.forall_mem_cons.mpr ⟨hv, List.forall_mem_singleton.mpr hw⟩

theorem oneLine_line (h : ∀ w ∈ ws, Plain w) : OneLine (line ws) := by
  refine ⟨joined blank ws, fun b hb => ?_, rfl⟩
  rcases mem_joined hb with rfl | ⟨w, hw, hb⟩
  · rfl
  · exact h w hw b hb

theorem plain_parameter (hplain : ∀ s ∈ parameters, Plain s) (hverb : Plain verb)
    (hwords : (parameters.head?.map fun parameter => [verb, parameter]) = some ws) :
    ∀ w ∈ ws, Plain w := by
  cases parameters with
  | nil => cases hwords
  | cons parameter more =>
    cases hwords
    exact plain_pair hverb (hplain parameter List.mem_cons_self)

theorem plain_optional (hplain : ∀ s ∈ parameters, Plain s) (hverb : Plain verb)
    (hwords : some (verb :: parameters.head?.toList) = some ws) : ∀ w ∈ ws, Plain w := by
  cases parameters with
  | nil =>
    cases hwords
    simpa using hverb
  | cons parameter more =>
    cases hwords
    exact plain_pair hverb (hplain parameter List.mem_cons_self)

theorem plain_smtpWords (hip : ∀ address, Plain (ip address)) {r : SMTP.Request}
    (hplain : ∀ s ∈ (Outgoing.smtp r).strings, Plain s) (hwords : smtpWords ip r = some ws) :
    ∀ w ∈ ws, Plain w := by
  have hfrom : Plain r.from := hplain _ (by simp [Outgoing.strings])
  have hto : ∀ s ∈ r.to, Plain s := fun s hs => hplain s (by simp [Outgoing.strings, hs])
  have hparameters : ∀ s ∈ r.parameters, Plain s := fun s hs =>
    hplain s (by simp [Outgoing.strings, hs])
  have henclosed {front back s : Bytes} (hfront : Plain front) (hback : Plain back) (hs : Plain s) :
      Plain (front ++ s ++ back) := (hfront.append hs).append hback
  unfold smtpWords at hwords
  cases hcommand : r.command <;> rw [hcommand] at hwords
  case ehlo =>
    cases hwords
    exact plain_pair (plain_of_all rfl) (henclosed (plain_of_all rfl) (plain_of_all rfl) (hip _))
  case mail =>
    cases hwords
    exact plain_pair (plain_of_all rfl) (henclosed (plain_of_all rfl) (plain_of_all rfl) hfrom)
  case rcpt =>
    cases hrecipients : r.to with
    | nil =>
      rw [hrecipients] at hwords
      cases hwords
    | cons recipient more =>
      rw [hrecipients] at hwords hto
      cases hwords
      have hrecipient := hto recipient List.mem_cons_self
      exact plain_pair (plain_of_all rfl) (henclosed (plain_of_all rfl) (plain_of_all rfl) hrecipient)
  case auth =>
    cases hanswer : r.parameters with
    | nil =>
      rw [hanswer] at hwords
      cases hwords
      exact plain_all rfl
    | cons parameter more =>
      rw [hanswer] at hwords hparameters
      cases hwords
      simpa using hparameters parameter List.mem_cons_self
  all_goals
    cases hwords
  all_goals exact plain_all rfl

theorem plain_popWords {r : POP.Request} (hplain : ∀ s ∈ r.parameters, Plain s)
    (hwords : popWords r = some ws) : ∀ w ∈ ws, Plain w := by
  unfold popWords at hwords
  cases hcommand : r.command <;> rw [hcommand] at hwords
  case authUser => exact plain_parameter hplain (plain_of_all rfl) hwords
  case authPass => exact plain_parameter hplain (plain_of_all rfl) hwords
  case transRetr => exact plain_parameter hplain (plain_of_all rfl) hwords
  case transDele => exact plain_parameter hplain (plain_of_all rfl) hwords
  case transList => exact plain_optional hplain (plain_of_all rfl) hwords
  case transUidl => exact plain_optional hplain (plain_of_all rfl) hwords
  case transTop =>
    dsimp only at hwords
    split at hwords
    · next message lines more hparameters =>
      cases hwords
      rw [hparameters] at hplain
      have hmessage := hplain message (by simp)
      have hlines := hplain lines (by simp)
      exact List.forall_mem_cons.mpr ⟨plain_of_all rfl, plain_pair hmessage hlines⟩
    · cases hwords
  all_goals
    cases hwords
  all_goals exact plain_all rfl

theorem plain_ftpWords {r : FTP.Streamer.Outgoing} (hplain : ∀ s ∈ r.parameters, Plain s)
    (hwords : ftpWords r = some ws) : ∀ w ∈ ws, Plain w := by
  unfold ftpWords at hwords
  cases hcommand : r.command <;> rw [hcommand] at hwords
  case user => exact plain_parameter hplain (plain_of_all rfl) hwords
  case pass => exact plain_parameter hplain (plain_of_all rfl) hwords
  case cwd => exact plain_parameter hplain (plain_of_all rfl) hwords
  case port => exact plain_parameter hplain (plain_of_all rfl) hwords
  case type => exact plain_parameter hplain (plain_of_all rfl) hwords
  case retr => exact plain_parameter hplain (plain_of_all rfl) hwords
  case list => exact plain_optional hplain (plain_of_all rfl) hwords
  case nlst => exact plain_optional hplain (plain_of_all rfl) hwords
  all_goals
    cases hwords
  all_goals exact plain_all rfl

theorem oneLine_words (hip : ∀ address, Plain (ip address)) {r : Outgoing}
    (hplain : ∀ s ∈ r.strings, Plain s) (hwords : r.words ip = some ws) : OneLine (line ws) := by
  refine oneLine_line ?_
  cases r with
  | smtp r => exact plain_smtpWords hip hplain hwords
  | pop r => exact plain_popWords hplain hwords
  | ftp r => exact plain_ftpWords hplain hwords

/-- For a request that has the arguments that its command needs, and that is no listing of what a
parameter names, the command and its arguments are written with a blank between them, as they
are, and a line end; and this is one line if the strings of the request hold no line end. -/
theorem handleDataMessage_writes_line (h : SMTP.Streamer.WritesAddress addrToString ip)
    (hip : ∀ address, Plain (ip address)) {r : Outgoing} (hwords : r.words ip = some ws)
    (hlists : r.listsParameter = false) (hspace : (line ws).length ≤ space) :
    r.handleDataMessage addrToString date space = .ok (line ws) ∧
      ((∀ s ∈ r.strings, Plain s) → OneLine (line ws)) :=
  ⟨handleDataMessage_line h hwords hlists hspace, fun hplain => oneLine_words hip hplain hwords⟩

def loopbackText (_ : InetAddr) : Bytes := text "127.0.0.1"

def loopbackToString : InetAddr → Option Bytes
  | .ipv4 address port => some (loopbackText (.ipv4 address port) ++ ':'.toUInt8 ::
      decimal port.toNat)
  | .ipv6 address port => some ('['.toUInt8 :: (loopbackText (.ipv6 address port) ++ ']'.toUInt8 ::
      ':'.toUInt8 :: decimal port.toNat))

def topRequest : Outgoing := .pop { command := .transTop, parameters := [text "1", text "10"] }

theorem topRequest_writes_line :
    topRequest.handleDataMessage loopbackToString [] 512 = .ok (text "TOP 1 10\r\n") ∧
      ((∀ s ∈ topRequest.strings, Plain s) → OneLine (text "TOP 1 10\r\n")) := by
  have hwrites : SMTP.Streamer.WritesAddress loopbackToString loopbackText :=
    ⟨fun _ _ => rfl, fun _ _ => rfl⟩
  have hwords : topRequest.words loopbackText = some [text "TOP", text "1", text "10"] := rfl
  have hspace : (line [text "TOP", text "1", text "10"]).length ≤ 512 := by decide +kernel
  exact (handleDataMessage_writes_line hwrites (fun _ => plain_of_all rfl) hwords rfl hspace :)

/-- A sender's address that holds a line end makes two commands. -/
theorem mail_writes_two_lines :
    Outgoing.handleDataMessage loopbackToString [] 512
        (.smtp { command := .mail, «from» := text "a>\r\nRCPT TO:<b" }) =
      .ok (line [text "MAIL", text "FROM:<a>"] ++ line [text "RCPT", text "TO:<b>"]) := by
  decide +kernel

end Lines

end ACENetwork.CommandLines
