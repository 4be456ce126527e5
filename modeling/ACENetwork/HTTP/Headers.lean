import ACENetwork.BitTorrent.Common
import ACENetwork.Library.HashTable
import ACENetwork.Library.Text

/-!
# HTTP headers

`HTTP_Headers_t` is an unordered map that compares names without their case but hashes them
with it. The parser stores the headers of a message, a client and the streamer add theirs, and
the session takes its compression format from one of them.
-/
namespace ACENetwork.HTTP
open BitTorrent (Fault)
open Library Library.HashTable

/-- What `ci_equal` compares: the octets up to the first NUL, in lower case. -/
def ciKey (name : Bytes) : Bytes := tolower (name.takeWhile (· != 0))

def ciEqual (s1 s2 : Bytes) : Bool := ciKey s1 == ciKey s2

def contentEncoding : Bytes := text "Content-Encoding"

def isLineEnd (b : UInt8) : Bool := b == 0x0A || b == 0x0D

/-- The groups of a header that matches `^([^:]+):\s*(.*)$`. -/
def headerLine (header : Bytes) : Option (Bytes × Bytes) :=
  let name := header.takeWhile (· != 0x3A)
  match header.dropWhile (· != 0x3A) with
  | [] => none
  | _ :: rest =>
    let value := rest.dropWhile isSpace
    if name = [] ∨ value.any isLineEnd = true then none else some (name, value)

/-- What stores a header: a line of the message, an insertion, which keeps the value that is
there, or the streamer, which keeps one that is not empty. -/
inductive HeaderOperation where
  | line (header : Bytes)
  | insert (name value : Bytes)
  | supply (name value : Bytes)
  deriving DecidableEq, Repr

/-- The access of an operation; a line that does not match is skipped. The parser stores the
names in lower case. -/
def HeaderOperation.access : HeaderOperation → Option (Access Bytes Bytes)
  | .line header => (headerLine header).map fun (name, value) =>
      { key := tolower name, value := value, stores := fun _ => true }
  | .insert name value => some { key := name, value := value, stores := Option.isNone }
  | .supply name value =>
    some { key := name, value := value, stores := fun found => found.all List.isEmpty }

def accesses (operations : List HeaderOperation) : List (Access Bytes Bytes) :=
  operations.filterMap HeaderOperation.access

/-- The format of a session that its headers decide. -/
inductive CompressionFormat where
  | gzip
  | invalid
  deriving DecidableEq, Repr

def encodingToCompressionFormat (encoding : Bytes) : CompressionFormat :=
  if tolower encoding = text "deflate" ∨ tolower encoding = text "gzip" then .gzip else .invalid

section

variable {hash : Bytes → UInt64} (c : Comparison ciKey hash)

/-- The operation on the headers: for a name in canonical case the parser calls `encoding`,
which asserts false. -/
def apply (headers : List (Bytes × Bytes)) (operation : HeaderOperation) :
    Except Fault (List (Bytes × Bytes)) :=
  match operation.access with
  | none => .ok headers
  | some a =>
    match operation with
    | .line header =>
      if (headerLine header).map Prod.fst = some contentEncoding then .error .assertion
      else .ok (put c headers a)
    | _ => .ok (put c headers a)

def build (operations : List HeaderOperation) : Except Fault (List (Bytes × Bytes)) :=
  operations.foldlM (apply c) []

def recordFormat (headers : List (Bytes × Bytes)) (format : CompressionFormat) : CompressionFormat :=
  match find c headers contentEncoding with
  | some encoding => encodingToCompressionFormat encoding
  | none => format

end

end ACENetwork.HTTP
