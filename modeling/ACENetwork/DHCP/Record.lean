import ACENetwork.Library.ByteOrder
import ACENetwork.Library.OrderedMap

/-!
# DHCP records

`DHCP_Record`: the fields of a message, and its options, which are in the order of
their tags. In a message the fields stand in the order of the record.
-/
namespace ACENetwork.DHCP
open Library

def swapWord (n : UInt16) : UInt16 := UInt16.ofNat (ByteOrder.swap 2 n.toNat)

def swapLong (n : UInt32) : UInt32 := UInt32.ofNat (ByteOrder.swap 4 n.toNat)

def magicCookie : UInt32 := 0x63825363

def chaddrSize : ℕ := 16

def snameSize : ℕ := 64

def fileSize : ℕ := 128

def optionsSize : ℕ := 312

def messageSize : ℕ := 576

def optionTagEnd : UInt8 := 255

def opRequest : UInt32 := 1

def opReply : UInt32 := 2

abbrev Options := OrderedMap UInt8 (List UInt8)

def optionBytes (e : UInt8 × List UInt8) : List UInt8 :=
  e.1 :: UInt8.ofNat e.2.length :: e.2

/-- `DHCP_Record`. The operation is a word, as every enumeration of the source. -/
structure Record where
  op : UInt32 := 0
  htype : UInt8 := 0
  hlen : UInt8 := 0
  hops : UInt8 := 0
  xid : UInt32 := 0
  secs : UInt16 := 0
  flags : UInt16 := 0
  ciaddr : UInt32 := 0
  yiaddr : UInt32 := 0
  siaddr : UInt32 := 0
  giaddr : UInt32 := 0
  chaddr : List UInt8 := List.replicate chaddrSize 0
  sname : List UInt8 := []
  file : List UInt8 := []
  cookie : UInt32 := 0
  options : Options := .empty
  deriving DecidableEq

inductive Field where
  | op
  | htype
  | hlen
  | hops
  | xid
  | secs
  | flags
  | ciaddr
  | yiaddr
  | siaddr
  | giaddr
  | chaddr
  | sname
  | file
  | cookie
  deriving DecidableEq, Repr

namespace Field

def width : Field → ℕ
  | op | htype | hlen | hops => 1
  | secs | flags => 2
  | xid | ciaddr | yiaddr | siaddr | giaddr | cookie => 4
  | chaddr => chaddrSize
  | sname => snameSize
  | file => fileSize

theorem width_pos (f : Field) : 0 < f.width := by
  cases f <;> decide

end Field

end ACENetwork.DHCP
