import ACENetwork.DHCP.Record
import ACENetwork.BitTorrent.Common
import ACENetwork.Library.Glr
import ACENetwork.Library.Transducer

/-!
# The DHCP scanner and grammar

The scanner reads the fields of a message in their order, one start condition for
each; the grammar collects them and then the options. The end of a datagram is a
token as well, and what the grammar does not expect is a syntax error.
-/
namespace ACENetwork.DHCP
open Library Library.Glr BitTorrent

inductive Condition where
  | initial
  | header
  | field (f : Field)
  | optionTag
  | optionLength
  deriving DecidableEq, Repr

inductive Terminal where
  | «end»
  | field (f : Field)
  | tag
  | value
  deriving DecidableEq, Repr

/-- A terminal and its value: the number `ival`, or the bytes of `aval` and `sval`. -/
structure Token where
  terminal : Terminal
  ival : UInt32 := 0
  bytes : List UInt8 := []
  deriving DecidableEq, Repr

/-- The scanner: its start condition and the bytes that are not matched. -/
structure Scanner where
  condition : Condition
  rest : List UInt8
  deriving DecidableEq, Repr

/-- Assigning `yytext` to a string stops at the first NUL. -/
def cString (text : List UInt8) : List UInt8 := text.takeWhile (· ≠ 0)

namespace Field

/-- Whether the rule of a field asserts that its value is not zero. -/
def checked : Field → Bool
  | op | htype | hlen | xid | cookie => true
  | _ => false

def next : Field → Condition
  | op => .field htype
  | htype => .field hlen
  | hlen => .field hops
  | hops => .field xid
  | xid => .field secs
  | secs => .field flags
  | flags => .field ciaddr
  | ciaddr => .field yiaddr
  | yiaddr => .field siaddr
  | siaddr => .field giaddr
  | giaddr => .field chaddr
  | chaddr => .field sname
  | sname => .field file
  | file => .field cookie
  | cookie => .optionTag

/-- The token of a field; numbers are loaded in the byte order of the host. -/
def token (o : ByteOrder) : Field → List UInt8 → Token
  | chaddr, text => { terminal := .field chaddr, bytes := text }
  | sname, text => { terminal := .field sname, bytes := cString text }
  | file, text => { terminal := .field file, bytes := cString text }
  | f, text => { terminal := .field f, ival := UInt32.ofNat (o.load text) }

@[simp] theorem token_terminal (o : ByteOrder) (f : Field) (text : List UInt8) :
    (f.token o text).terminal = .field f := by
  cases f <;> rfl

end Field

section Scan

variable (o : ByteOrder)

/-- The rule of a field. Where fewer bytes are left than the field has, only the last
rule of the scanner matches, whose assertion fails. -/
def fieldRule (f : Field) (rest : List UInt8) : Except (Abort Fault) (Token × Scanner) :=
  if f.width ≤ rest.length then
    let t := f.token o (rest.take f.width)
    if f.checked && t.ival == 0 then .error (.fault .assertion)
    else .ok (t, ⟨f.next, rest.drop f.width⟩)
  else .error (.fault .assertion)

/-- `DHCP_Scanner_lex`. The first two start conditions match a byte without consuming it. -/
def yylex (s : Scanner) : Except (Abort Fault) (Token × Scanner) :=
  match s.rest, s.condition with
  | [], _ => .ok ({ terminal := .end }, s)
  | rest, .initial => fieldRule o .op rest
  | rest, .header => fieldRule o .op rest
  | rest, .field f => fieldRule o f rest
  | tag :: rest, .optionTag =>
    .ok ({ terminal := .tag, ival := tag.toUInt32 },
      ⟨if tag = 0 ∨ tag = optionTagEnd then .optionTag else .optionLength, rest⟩)
  | size :: rest, .optionLength =>
    -- the value is read from the message and not from the scan buffer
    if size.toNat ≤ rest.length then
      .ok ({ terminal := .value, bytes := rest.take size.toNat },
        ⟨.optionTag, rest.drop size.toNat⟩)
    else .error (.fault .outOfRange)

end Scan

section Parse

variable (o : ByteOrder)

/-- Shift of the one terminal that a state of the grammar expects. -/
def shift (f : Field) (s : Scanner) : Except (Abort Fault) (Token × Scanner) := do
  let (t, s) ← yylex o s
  if t.terminal = .field f then .ok (t, s) else .error .syntaxError

/-- The swap of `xid`; the two swaps behind it discard their results. -/
def swapXid (ival : UInt32) : UInt32 :=
  if o = .littleEndian then UInt32.ofNat (ByteOrder.swap 4 ival.toNat) else ival

def header (s : Scanner) : Except (Abort Fault) (Record × Scanner) := do
  let (op, s) ← shift o .op s
  let (htype, s) ← shift o .htype s
  let (hlen, s) ← shift o .hlen s
  let (hops, s) ← shift o .hops s
  let (xid, s) ← shift o .xid s
  let (secs, s) ← shift o .secs s
  let (flags, s) ← shift o .flags s
  let (ciaddr, s) ← shift o .ciaddr s
  let (yiaddr, s) ← shift o .yiaddr s
  let (siaddr, s) ← shift o .siaddr s
  let (giaddr, s) ← shift o .giaddr s
  let (chaddr, s) ← shift o .chaddr s
  let (sname, s) ← shift o .sname s
  let (file, s) ← shift o .file s
  .ok ({ op := op.ival, htype := htype.ival.toUInt8, hlen := hlen.ival.toUInt8
         hops := hops.ival.toUInt8, xid := swapXid o xid.ival, secs := secs.ival.toUInt16
         flags := flags.ival.toUInt16, ciaddr := ciaddr.ival, yiaddr := yiaddr.ival
         siaddr := siaddr.ival, giaddr := giaddr.ival, chaddr := chaddr.bytes
         sname := sname.bytes, file := file.bytes }, s)

/-- The parser between two options, which stay on its stack until the end. -/
structure Frame where
  items : ℕ
  yychar : Option Token
  scanner : Scanner
  record : Record
  deriving DecidableEq

/-- The token ahead, which is read when there is none. -/
def Frame.ahead (f : Frame) : Except (Abort Fault) (Token × Scanner) :=
  match f.yychar with
  | some t => .ok (t, f.scanner)
  | none => yylex o f.scanner

def optionRule (items : ℕ) (tag : UInt32) (s : Scanner) (r : Record) :
    Except (Abort Fault) (Frame ⊕ Record) := do
  let (t, s) ← yylex o s
  if t.terminal = .value then do
    reserve (items + 2)
    .ok (.inl ⟨items + 1, none, s,
      { r with options := r.options.insert tag.toUInt8 t.bytes }⟩)
  else if tag = 255 then .ok (.inr r)
  else .ok (.inl ⟨items + 1, some t, s, r⟩)

def optionsRule (cookie : UInt32) (f : Frame) : Except (Abort Fault) (Frame ⊕ Record) := do
  let (t, s) ← f.ahead o
  match t.terminal with
  | .tag => do
    reserve (f.items + 1)
    optionRule o f.items t.ival s f.record
  | .end => do
    reserve (f.items + 1)
    if cookie = magicCookie then .ok (.inr { f.record with cookie })
    else .error (.fault .assertion)
  | _ => .error .syntaxError

/-- What is left to read: the bytes, and the token ahead unless it is the end. -/
def Frame.rank (f : Frame) : ℕ :=
  f.scanner.rest.length + if (f.yychar.map Token.terminal) = some .end then 0 else 1

variable {o}

theorem fieldRule_ok {f : Field} {rest : List UInt8} {t : Token} {s : Scanner}
    (h : fieldRule o f rest = .ok (t, s)) :
    f.width ≤ rest.length ∧ t = f.token o (rest.take f.width) ∧
      s = ⟨f.next, rest.drop f.width⟩ := by
  unfold fieldRule at h
  split_ifs at h with hwidth
  dsimp only at h
  split_ifs at h
  cases h
  exact ⟨hwidth, rfl, rfl⟩

theorem yylex_length {s s' : Scanner} {t : Token} (h : yylex o s = .ok (t, s')) :
    s'.rest.length + (if t.terminal = .end then 0 else 1) ≤ s.rest.length := by
  have hfield : ∀ f rest, fieldRule o f rest = .ok (t, s') →
      s'.rest.length + (if t.terminal = .end then 0 else 1) ≤ rest.length := by
    intro f rest h
    have hpos := f.width_pos
    obtain ⟨hwidth, rfl, rfl⟩ := fieldRule_ok h
    simp
    omega
  obtain ⟨condition, rest⟩ := s
  cases rest with
  | nil =>
    cases h
    simp
  | cons b rest =>
    cases condition with
    | initial => exact hfield _ _ h
    | header => exact hfield _ _ h
    | field f => exact hfield _ _ h
    | optionTag =>
      cases h
      simp
    | optionLength =>
      simp only [yylex] at h
      split_ifs at h with hsize
      cases h
      simp

theorem rank_of_ahead {f : Frame} {t : Token} {s : Scanner} (h : f.ahead o = .ok (t, s)) :
    s.rest.length + (if t.terminal = .end then 0 else 1) ≤ f.rank := by
  obtain ⟨items, yychar, scanner, record⟩ := f
  cases yychar with
  | none =>
    have hlength : s.rest.length + (if t.terminal = .end then 0 else 1) ≤ scanner.rest.length :=
      yylex_length h
    simp only [Frame.rank, Option.map_none, reduceCtorEq, if_false]
    omega
  | some t' =>
    cases h
    simp [Frame.rank]

theorem optionsRule_rank {cookie : UInt32} {f f' : Frame}
    (h : optionsRule o cookie f = .ok (.inl f')) : f'.rank < f.rank := by
  obtain ⟨⟨t, s⟩, hahead, h⟩ := bind_eq_ok.mp h
  have hrank := rank_of_ahead hahead
  cases hterminal : t.terminal with
  | tag =>
    simp only [hterminal, reduceCtorEq, if_false] at h hrank
    obtain ⟨-, -, h⟩ := bind_eq_ok.mp h
    obtain ⟨⟨t', s'⟩, hlex, h⟩ := bind_eq_ok.mp h
    have hlength := yylex_length hlex
    dsimp only at h
    split_ifs at h with hvalue hend
    · obtain ⟨-, -, h⟩ := bind_eq_ok.mp h
      cases h
      simp only [hvalue, reduceCtorEq, if_false] at hlength
      have hnext : s'.rest.length + 1 < f.rank := by omega
      simpa [Frame.rank] using hnext
    · cases h
    · cases h
      have hnext : s'.rest.length + (if t'.terminal = .end then 0 else 1) < f.rank := by omega
      simpa [Frame.rank] using hnext
  | «end» =>
    simp only [hterminal] at h
    obtain ⟨-, -, h⟩ := bind_eq_ok.mp h
    split_ifs at h
    cases h
  | field f =>
    simp only [hterminal] at h
    cases h
  | value =>
    simp only [hterminal] at h
    cases h

variable (o)

def options (cookie : UInt32) : Transducer Frame Unit (Except (Abort Fault) Record) where
  step f :=
    match optionsRule o cookie f with
    | .ok (.inl f') => .silent f'
    | .ok (.inr r) => .halt (.ok r)
    | .error e => .halt (.error e)
  rank := Frame.rank
  rank_lt f f' h := by
    split at h
    · cases h
      exact optionsRule_rank (by assumption)
    · cases h
    · cases h

section Equations

variable {o} {cookie : UInt32} {items : ℕ} {tag size : UInt8} {rest : List UInt8} {r : Record}

theorem optionsRule_tag (hitems : items + 1 ≤ maxItems) :
    optionsRule o cookie ⟨items, none, ⟨.optionTag, tag :: rest⟩, r⟩ =
      optionRule o items tag.toUInt32
        ⟨if tag = 0 ∨ tag = optionTagEnd then .optionTag else .optionLength, rest⟩ r := by
  calc optionsRule o cookie ⟨items, none, ⟨.optionTag, tag :: rest⟩, r⟩
      = (reserve (items + 1) >>= fun _ => optionRule o items tag.toUInt32
          ⟨if tag = 0 ∨ tag = optionTagEnd then .optionTag else .optionLength, rest⟩ r) := rfl
    _ = _ := by rw [reserve_ok hitems]; rfl

theorem exists_yylex_optionTag (o : ByteOrder) (rest : List UInt8) : ∃ t s,
    yylex o ⟨.optionTag, rest⟩ = .ok (t, s) ∧ t.terminal ≠ .value := by
  cases rest with
  | nil => exact ⟨_, _, rfl, by simp⟩
  | cons b rest => exact ⟨_, _, rfl, by simp⟩

theorem optionRule_end :
    optionRule o items optionTagEnd.toUInt32 ⟨.optionTag, rest⟩ r = .ok (.inr r) := by
  obtain ⟨t, s, hlex, hvalue⟩ := exists_yylex_optionTag o rest
  simp [optionRule, hlex, hvalue, optionTagEnd, bind, Except.bind]

theorem optionRule_value (hitems : items + 2 ≤ maxItems) (hsize : size.toNat ≤ rest.length) :
    optionRule o items tag.toUInt32 ⟨.optionLength, size :: rest⟩ r =
      .ok (.inl ⟨items + 1, none, ⟨.optionTag, rest.drop size.toNat⟩,
        { r with options := r.options.insert tag (rest.take size.toNat) }⟩) := by
  simp [optionRule, yylex, hsize, reserve_ok hitems, bind, Except.bind]

variable {f f' : Frame} {e : Abort Fault}

theorem run_next (h : optionsRule o cookie f = .ok (.inl f')) :
    ((options o cookie).run f).2 = ((options o cookie).run f').2 := by
  rw [Transducer.run_silent (options o cookie) (show (options o cookie).step f = .silent f' by simp [options, h])]

theorem run_accept (h : optionsRule o cookie f = .ok (.inr r)) :
    ((options o cookie).run f).2 = .ok r := by
  rw [Transducer.run_halt (options o cookie)
    (show (options o cookie).step f = .halt (.ok r) by simp [options, h])]

end Equations

def parse (datagram : List UInt8) : Except (Abort Fault) Record := do
  let (r, s) ← header o ⟨.initial, datagram⟩
  let (cookie, s) ← shift o .cookie s
  ((options o cookie.ival).run ⟨3, none, s, r⟩).2

end Parse

end ACENetwork.DHCP
