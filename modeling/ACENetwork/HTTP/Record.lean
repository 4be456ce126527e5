import ACENetwork.Library.Text

/-!
# HTTP records

`HTTP_Record`: what the parser keeps of the head of a message. The names of the headers
are kept in lower case, and the order of a hash table is not observed.
-/
namespace ACENetwork.HTTP

open Library

inductive Method where
  | get
  | post
  | head
  | mSearch
  | notify
  | invalid
  deriving DecidableEq, Repr

inductive Version where
  | v0_9
  | v1_0
  | v1_1
  | v2
  | v3
  | invalid
  deriving DecidableEq, Repr

def statusInvalid : ℕ := 1001

structure Record where
  headers : AList (fun _ : Bytes => Bytes) := ∅
  method : Method := .invalid
  reason : Bytes := []
  status : ℕ := statusInvalid
  uri : Bytes := []
  version : Version := .invalid
  deriving DecidableEq

def methodToType (method : Bytes) : Method :=
  if method = text "GET" then .get
  else if method = text "POST" then .post
  else if method = text "HEAD" then .head
  else if method = text "M-SEARCH" then .mSearch
  else if method = text "NOTIFY" then .notify
  else .invalid

def versionToType (version : Bytes) : Version :=
  if version = text "0.9" then .v0_9
  else if version = text "1.0" then .v1_0
  else if version = text "1.1" then .v1_1
  else if version = text "2" then .v2
  else .invalid

def strip (s : Bytes) : Bytes := ((s.dropWhile isSpace).reverse.dropWhile isSpace).reverse

def digitsValue (base : ℕ) (digits : Bytes) : ℕ :=
  digits.foldl (fun n b =>
    n * base + (if isDigit b then b.toNat - 0x30 else (b ||| 0x20).toNat - 0x61 + 10)) 0

/-- `std::istream::operator>>` on an unsigned number of 64 bits, in a base: blanks are
skipped, a sign is allowed, and a number that does not fit is the largest one. -/
def extract (base : ℕ) (isDigit : UInt8 → Bool) (s : Bytes) : UInt64 :=
  let s := s.dropWhile isSpace
  let digits := (if s.head? = some 0x2D ∨ s.head? = some 0x2B then s.tail else s).takeWhile isDigit
  let n := digitsValue base digits
  if 2 ^ 64 ≤ n then UInt64.ofNat (2 ^ 64 - 1)
  else if s.head? = some 0x2D then -UInt64.ofNat n
  else UInt64.ofNat n

def Record.contentLength (r : Record) : Option UInt64 :=
  (r.headers.lookup (tolower (text "Content-Length"))).map (extract 10 isDigit)

end ACENetwork.HTTP
