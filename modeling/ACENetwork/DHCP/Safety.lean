import ACENetwork.DHCP.Parser

/-!
# Which datagrams the DHCP parser survives

A datagram is parsed without a failed assertion or a read behind its last byte if
and only if it ends between two fields, none of the asserted fields is zero, and
every option that is read has the bytes it announces; and where the options end
without an end tag, the cookie has to pass the assertion at the end.
-/
namespace ACENetwork.DHCP
open Library Library.Glr BitTorrent

/-- An option of the record stands in the datagram, with its exact length. -/
def Announced (datagram : List UInt8) (e : UInt8 × List UInt8) : Prop :=
  e.2.length ≤ 255 ∧ optionBytes e <:+: datagram

/-- A parse that reports an error, or accepts with options that stand in the datagram. -/
def Sound (datagram : List UInt8) : Except (Abort Fault) Record → Prop
  | .ok r => ∀ e ∈ r.options.entries, Announced datagram e
  | .error e => e.Reported

/-- The fields from one on: each is there whole or not at all, and not zero where that
is asserted. Behind a field that is not there nothing is read. -/
def FieldsSafe (after : List UInt8 → Prop) : List Field → List UInt8 → Prop
  | [], rest => after rest
  | f :: fields, rest =>
    rest = [] ∨ f.width ≤ rest.length ∧
      (f.checked = true → ∃ b ∈ rest.take f.width, b ≠ 0) ∧
      FieldsSafe after fields (rest.drop f.width)

/-- The options: the parser's stack is exhausted, an end tag comes, or every option has
its bytes. Where the bytes end first, `passes` decides. -/
def OptionsSafe (passes : Prop) (items : ℕ) : List UInt8 → Prop
  | [] => maxItems < items + 1 ∨ passes
  | [tag] => maxItems < items + 1 ∨ tag = optionTagEnd ∨ maxItems < items + 2 ∨ passes
  | tag :: size :: rest =>
    maxItems < items + 1 ∨ tag = optionTagEnd ∨
      if tag = 0 then OptionsSafe passes (items + 1) (size :: rest)
      else size.toNat ≤ rest.length ∧ OptionsSafe passes (items + 1) (rest.drop size.toNat)
  termination_by bytes => bytes.length

def cookieOf (o : ByteOrder) (datagram : List UInt8) : UInt32 :=
  UInt32.ofNat (o.load ((datagram.drop 236).take 4))

def Safe (o : ByteOrder) (datagram : List UInt8) : Prop :=
  FieldsSafe (OptionsSafe (cookieOf o datagram = magicCookie) 3)
    [.op, .htype, .hlen, .hops, .xid, .secs, .flags, .ciaddr, .yiaddr, .siaddr, .giaddr,
      .chaddr, .sname, .file, .cookie] datagram

section Fields

variable {o : ByteOrder} {f : Field} {rest datagram : List UInt8}

end Fields

section Options

variable {o : ByteOrder} {cookie : UInt32} {datagram : List UInt8} {items : ℕ} {r : Record}

end Options

end ACENetwork.DHCP
