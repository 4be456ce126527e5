import ACENetwork.Library.Decimal

/-!
# Texts over octets

The octets of literals, and the classes of octets that the C library and the scanners
tell apart.
-/
namespace ACENetwork.Library

abbrev Bytes := List UInt8

def text (s : String) : Bytes := s.toUTF8.data.toList

def isSpace (b : UInt8) : Bool := b == 0x20 || 0x09 ≤ b && b ≤ 0x0D

def isAlpha (b : UInt8) : Bool := 0x41 ≤ b && b ≤ 0x5A || 0x61 ≤ b && b ≤ 0x7A

def lower (b : UInt8) : UInt8 := if 0x41 ≤ b && b ≤ 0x5A then b + 0x20 else b

def tolower (s : Bytes) : Bytes := s.map lower

end ACENetwork.Library
