import ACENetwork.HTTP.Record
import ACENetwork.Library.Regex

/-!
# The patterns of the HTTP scanner

The definitions of the scanner, under its names. A class that is a union or a difference of
others is spelled as such.
-/
namespace ACENetwork.HTTP.Rules
open Library Library.Regex

abbrev Pattern := Regex UInt8

def lit (s : String) : Pattern := Regex.word (text s)

def among (s : String) (b : UInt8) : Bool := (text s).contains b

def upto (low high b : UInt8) : Bool := low ≤ b && b ≤ high

def isAlpha (b : UInt8) : Bool := upto 0x41 0x5A b || upto 0x61 0x7A b

def isAlnum (b : UInt8) : Bool := isAlpha b || isDigit b

def isHex (b : UInt8) : Bool := upto 0x61 0x66 b || upto 0x41 0x46 b || isDigit b

def isCtl (b : UInt8) : Bool := upto 0x00 0x1F b || b == 0x7F

def isToken (b : UInt8) : Bool :=
  upto 0x00 0x7F b && !isCtl b || among "()<>@,;:\\\"/[]?=\x7b\x7d \t" b

def isCText (b : UInt8) : Bool := (!upto 0x00 0x1F b || among "\t\n\r " b) && !among "()" b

def isQdText (b : UInt8) : Bool := !(upto 0x00 0x1F b || b == 0x22) || among "\t\n\r " b

def isReserved (b : UInt8) : Bool := among ";/?:@&=+" b

def isExtra (b : UInt8) : Bool := among "!*'()," b

def isSafe (b : UInt8) : Bool := among "$-_." b

def isNational (b : UInt8) : Bool :=
  !isAlnum b && !isReserved b && !isExtra b && !isSafe b && !isCtl b && !(b == 0x20) &&
    !among "\"#%<>" b

def isUnreserved (b : UInt8) : Bool := isNational b || isAlnum b || isSafe b || isExtra b

def isPChar (b : UInt8) : Bool := isAlnum b || among "$-_.!*'(),%:@&=+" b || isNational b

def octet : Pattern := symbol fun _ => true
def digit : Pattern := symbol isDigit
def hex : Pattern := symbol isHex
def sp : Pattern := lit " "
def crlf : Pattern := lit "\r\n"
def token : Pattern := symbol isToken
def comment : Pattern := all [lit "\"", star (symbol isCText), lit "\""]
def quotedString : Pattern := all [lit "\"", star (symbol isQdText), lit "\""]
def wordPattern : Pattern := or token quotedString

def version : Pattern := all [lit "HTTP/", digit, lit ".", digit]

def escape : Pattern := all [lit "%", hex, hex]
def uChar : Pattern := or (symbol isUnreserved) escape
def pChar : Pattern := symbol isPChar
def path : Pattern := seq pChar (star (seq (lit "/") (star pChar)))
def absolutePath : Pattern := seq (lit "/") (opt path)
def scheme : Pattern := plus (symbol fun b => isAlnum b || among "+-." b)
def absoluteUri : Pattern :=
  or (all [scheme, lit ":", star (or uChar (symbol isReserved))]) (lit "*")

def method : Pattern :=
  anyOf [lit "GET", lit "HEAD", lit "POST", lit "M-SEARCH", lit "NOTIFY"]
def requestUri : Pattern := or absoluteUri absolutePath

def wkday : Pattern :=
  anyOf [lit "Mon", lit "Tue", lit "Wed", lit "Thu", lit "Fri", lit "Sat", lit "Sun"]
def month : Pattern :=
  anyOf [lit "Jan", lit "Feb", lit "Mar", lit "Apr", lit "May", lit "Jun", lit "Jul", lit "Aug",
    lit "Sep", lit "Oct", lit "Nov", lit "Dec"]
def weekday : Pattern :=
  anyOf [lit "Monday", lit "Tuesday", lit "Wednesday", lit "Thursday", lit "Friday",
    lit "Saturday", lit "Sunday"]
def date1 : Pattern := all [times 2 digit, sp, month, sp, times 4 digit]
def date2 : Pattern := all [times 2 digit, lit "-", month, lit "-", times 2 digit]
def time : Pattern := all [times 2 digit, lit ":", times 2 digit, lit ":", times 2 digit]
def rfc1123Date : Pattern := all [wkday, lit ",", sp, date1, sp, time, sp, lit "GMT"]
def rfc850Date : Pattern := all [weekday, lit ",", sp, date2, sp, time, sp, lit "GMT"]
def asctimeDate : Pattern := all [wkday, sp, date2, sp, time, sp, times 4 digit]
def date : Pattern := anyOf [rfc1123Date, rfc850Date, asctimeDate]

def contentCoding : Pattern := anyOf [lit "x-gzip", lit "x-compress", plus token]
def value : Pattern := or (plus token) quotedString
def typeParameter : Pattern := all [plus token, lit "=", value]
def mediaType : Pattern :=
  all [plus token, lit "/", plus token, star (seq (lit ";") typeParameter)]
def product : Pattern := seq (plus token) (opt (seq (lit "/") (plus token)))
def header : Pattern := all [plus token, lit ":", opt (seq (opt sp) (star token))]

def headerDate : Pattern := all [lit "Date:", sp, date]
def pragmaToken : Pattern := seq (plus token) (opt (seq (lit "=") wordPattern))
def headerPragma : Pattern := all [lit "Pragma:", sp, or (lit "no-cache") pragmaToken]
def generalHeader : Pattern := or headerDate headerPragma

/-- The alternatives of the referer are literals: the scanner's braces are missing. -/
def requestHeader : Pattern :=
  anyOf [all [lit "Authorization:", sp, plus token], all [lit "From:", sp, plus token],
    all [lit "If-Modified-Since:", sp, date],
    all [lit "Referer:", sp, or (lit "ABSOLUTE_URI") (lit "RELATIVE_URI")],
    all [lit "User-Agent:", sp, or product comment]]

def challenge : Pattern :=
  all [plus token, sp, seq (lit "realm=") quotedString,
    star (all [lit ",", plus token, lit "=", quotedString])]
def responseHeader : Pattern :=
  anyOf [all [lit "Location:", sp, plus (symbol fun b => !(b == 0x0D))],
    all [lit "Server:", sp, or product comment], all [lit "WWW-Authenticate:", sp, challenge]]

def reason : Pattern := star (symbol fun b => !upto 0x00 0x1F b || b == 0x09)

def entityHeader : Pattern :=
  anyOf [all [lit "Allow:", sp, plus method], all [lit "Content-Encoding:", sp, contentCoding],
    all [lit "Content-Length:", sp, plus digit], all [lit "Content-Type:", sp, mediaType],
    all [lit "Expires:", sp, date], all [lit "Last-Modified:", sp, date], header]

def chunkExtension : Pattern :=
  seq (plus token) (opt (or (seq (lit "=") (plus token)) quotedString))
def chunkLine : Pattern := seq (plus hex) (star (seq (lit ";") chunkExtension))

end ACENetwork.HTTP.Rules
