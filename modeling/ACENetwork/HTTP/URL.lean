import ACENetwork.Library.Text

/-!
# URLs

`HTTP_Tools::parseURL`: an optional scheme, the host with an optional port, and an absolute path.
Whether the name of a host is resolved is up to the network.
-/
namespace ACENetwork.HTTP
open Library

def slash : UInt8 := 0x2F

/-- The schemes that `HTTP_URL_REGEX_STRING` knows, and whether they are secure. -/
def schemes : List (Bytes × Bool) :=
  [(text "http", false), (text "https", true), (text "ftp", false), (text "sftp", true),
    (text "ws", false), (text "wss", true)]

def splitScheme (URL : Bytes) : Bytes × Bool :=
  match schemes.find? fun scheme => (scheme.1 ++ text "://").isPrefixOf URL with
  | some scheme => (URL.drop (scheme.1 ++ text "://").length, scheme.2)
  | none => (URL, false)

def isHostOctet (b : UInt8) : Bool := isAlpha b || isDigit b || b == 0x2E || b == 0x2D

/-- The groups of a host that matches `^([[:alnum:].-]+)(?:\:([[:digit:]]{1,5}))?$`. -/
def splitHost (host : Bytes) : Option (Bytes × Option Bytes) :=
  let name := host.takeWhile isHostOctet
  if name.isEmpty then none
  else
    match host.dropWhile isHostOctet with
    | [] => some (name, none)
    | separator :: digits =>
      if separator == 0x3A && digits.all isDigit && 1 ≤ digits.length && digits.length ≤ 5 then
        some (name, some digits)
      else none

/-- `HTTP_ABSOLUTE_URI_REGEX_STRING`: no segment before the last one is empty. -/
def isAbsoluteURI (URI : Bytes) : Bool :=
  URI.head? == some slash && (URI.zip URI.tail).all fun pair => pair != (slash, slash)

/-- The port that is read into an `unsigned short`. -/
def readPort (digits : Bytes) : ℕ := min (decimalValue digits) 0xFFFF

structure URLParts where
  hostName : Bytes
  port : ℕ
  URI : Bytes
  useSSL : Bool
  deriving DecidableEq, Repr

def addressPort (port : ℕ) (useSSL : Bool) : ℕ :=
  if port ≠ 0 then port else if useSSL then 443 else 80

def parseURL (URL : Bytes) (resolves : Bool) : Option URLParts :=
  let (rest, useSSL) := splitScheme URL
  let host := rest.takeWhile (· != slash)
  let path := rest.dropWhile (· != slash)
  let URI := if path.isEmpty then [slash] else path
  -- `.` matches no line end
  if path.any fun b => b == 0x0A || b == 0x0D then none
  else if host.isEmpty then
    if isAbsoluteURI URI then some ⟨[], addressPort 0 useSSL, URI, useSSL⟩ else none
  else
    match splitHost host with
    | none => none
    | some (name, digits) =>
      if isAbsoluteURI URI && resolves then
        some {
          hostName := name ++ digits.elim [] fun digits => 0x3A :: digits
          port := addressPort (digits.elim 0 readPort) useSSL
          URI := URI
          useSSL := useSSL }
      else none

example : parseURL (text "https://192.168.0.1:49000/igd.xml") true =
    some ⟨text "192.168.0.1:49000", 49000, text "/igd.xml", true⟩ := by decide +kernel

end ACENetwork.HTTP
