import ACENetwork.Library.Text

/-!
# IRC records

`IRC_Record`: the prefix of a message, its command and its parameters.
-/
namespace ACENetwork.IRC
open Library

inductive CommandType where
  | pass
  | nick
  | user
  | server
  | oper
  | quit
  | squit
  | join
  | part
  | mode
  | topic
  | names
  | list
  | invite
  | kick
  | sversion
  | stats
  | links
  | time
  | connect
  | trace
  | admin
  | info
  | privmsg
  | notice
  | who
  | whois
  | whowas
  | kill
  | ping
  | pong
  | error
  | away
  | rehash
  | restart
  | summon
  | users
  | wallops
  | userhost
  | ison
  deriving DecidableEq, Repr

def commandNames : List (Bytes × CommandType) :=
  [(text "PASS", .pass), (text "NICK", .nick), (text "USER", .user), (text "SERVER", .server),
    (text "OPER", .oper), (text "QUIT", .quit), (text "SQUIT", .squit), (text "JOIN", .join),
    (text "PART", .part), (text "MODE", .mode), (text "TOPIC", .topic), (text "NAMES", .names),
    (text "LIST", .list), (text "INVITE", .invite), (text "KICK", .kick),
    (text "VERSION", .sversion), (text "STATS", .stats), (text "LINKS", .links),
    (text "TIME", .time), (text "CONNECT", .connect), (text "TRACE", .trace),
    (text "ADMIN", .admin), (text "INFO", .info), (text "PRIVMSG", .privmsg),
    (text "NOTICE", .notice), (text "WHO", .who), (text "WHOIS", .whois),
    (text "WHOWAS", .whowas), (text "KILL", .kill), (text "PING", .ping), (text "PONG", .pong),
    (text "ERROR", .error), (text "AWAY", .away), (text "REHASH", .rehash),
    (text "RESTART", .restart), (text "SUMMON", .summon), (text "USERS", .users),
    (text "WALLOPS", .wallops), (text "USERHOST", .userhost), (text "ISON", .ison)]

def commandToType (command : Bytes) : Option CommandType :=
  (commandNames.find? fun e => e.1 == command).map Prod.snd

structure Prefix where
  origin : Bytes := []
  user : Bytes := []
  host : Bytes := []
  deriving DecidableEq, Repr

inductive Command where
  | numeric (code : ℕ)
  | string (name : Bytes)
  | invalid
  deriving DecidableEq, Repr

/-- `IRC_Record`; no code fills the list ranges. -/
structure Record where
  sender : Prefix := {}
  command : Command := .invalid
  parameters : List Bytes := []
  deriving DecidableEq, Repr

def Record.commandType (r : Record) : Option CommandType :=
  match r.command with
  | .string name => commandToType name
  | _ => none

end ACENetwork.IRC
