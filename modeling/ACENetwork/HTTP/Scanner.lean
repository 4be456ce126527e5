import ACENetwork.HTTP.Headers
import ACENetwork.HTTP.Rules

/-!
# The scanner of HTTP messages

`HTTP_Scanner`, with what it reads and changes of `HTTP_ParserDriver_T` and
`HTTP_Module_Parser_T`. The parser does not block: where no rule of a start condition matches,
and at the end of the text, the scanner terminates.
-/
namespace ACENetwork.HTTP
open BitTorrent (Fault)
open Library Library.Regex

inductive StartCondition where
  | initial
  | request
  | method
  | uri
  | version
  | requestHeaders
  | response
  | status
  | reason
  | responseHeaders
  | body
  | chunkedBody
  | chunk
  | data
  | data2
  deriving DecidableEq, Repr

/-- What the driver and the module keep. -/
structure Parser where
  /-- `headerOnly` of the configuration. -/
  headerOnly : Bool := false
  condition : StartCondition := .initial
  finished : Bool := false
  offset : UInt64 := 0
  record : Record := {}
  bodyOrChunkBytesToSkip : UInt64 := 0
  chunks : List (UInt64 × UInt32) := []
  contentLengthOrChunkSize : UInt64 := 0
  isFirstFragment : Bool := true
  multiBody : Bool := false
  /-- The blocks of the chain that starts with `headFragment_`. -/
  chain : List Bytes := []
  /-- The record that the head fragment has been initialized with. -/
  recorded : Option Record := none
  deriving DecidableEq

namespace Parser

variable (p : Parser)

def begin (condition : StartCondition) : Parser := { p with condition := condition }

/-- `HTTP_ParserDriver_T::offset`, which takes and returns an `unsigned int`. -/
def addOffset (count : UInt32) : Parser := { p with offset := p.offset + count.toUInt64 }

def getOffset : UInt32 := p.offset.toUInt32

def currentChunkSize : UInt32 := (p.chunks.getLast?.map Prod.snd).getD 0

def chunk (size : UInt32) : Parser :=
  { p with chunks := p.chunks ++ [(p.getOffset.toUInt64, size)] }

def setContentLengthOrChunkSize (size : UInt64) : Parser :=
  { p with contentLengthOrChunkSize := size, bodyOrChunkBytesToSkip := size }

def bodyOrChunkBytesSkipped (count : UInt64) : Parser :=
  { p with bodyOrChunkBytesToSkip := p.bodyOrChunkBytesToSkip - count }

def totalLength : UInt64 := UInt64.ofNat p.chain.flatten.length

/-- The body is what is left of the chain, and of the chains that follow. -/
def unknownLength : Parser :=
  { p.setContentLengthOrChunkSize (p.totalLength - p.getOffset.toUInt64) with multiBody := true }

end Parser

inductive Token where
  | method (s : Bytes)
  | uri (s : Bytes)
  | version (s : Bytes)
  | header (s : Bytes)
  | delimiter
  | status (s : Bytes)
  | reason (s : Bytes)
  | body
  | chunk (size : UInt32)
  | endOfInput
  deriving DecidableEq, Repr

/-- What the scanner makes of a match: a token, or it goes on. -/
inductive Lexed where
  | token (t : Token) (taken : ℕ) (p : Parser)
  | more (taken : ℕ) (p : Parser)
  deriving DecidableEq

def terminate (p : Parser) : Lexed := .token .endOfInput 1 p

/-- A start condition with one rule: the token is the text that matches, without its last
octets. -/
def lexOne (pattern : Rules.Pattern) (last : ℕ) (token : Bytes → Token) (next : StartCondition)
    (p : Parser) (text : Bytes) : Lexed :=
  match pattern.longest text with
  | some n => .token (token (text.take (n - last))) n ((p.addOffset (UInt32.ofNat n)).begin next)
  | none => terminate p

def lexRequest : Parser → Bytes → Lexed := lexOne (seq Rules.method Rules.sp) 1 .method .uri
def lexUri : Parser → Bytes → Lexed := lexOne (seq Rules.requestUri Rules.sp) 1 .uri .version
def lexVersion : Parser → Bytes → Lexed :=
  lexOne (seq Rules.version Rules.crlf) 2 .version .requestHeaders
def lexResponse : Parser → Bytes → Lexed := lexOne (seq Rules.version Rules.sp) 1 .version .status
def lexStatus : Parser → Bytes → Lexed :=
  lexOne (seq (times 3 Rules.digit) Rules.sp) 1 .status .reason
def lexReason : Parser → Bytes → Lexed :=
  lexOne (seq Rules.reason Rules.crlf) 2 .reason .responseHeaders

/-- The scanner reads the text again in the next start condition. -/
def lexInitial (p : Parser) (text : Bytes) : Lexed :=
  match first [(Rules.version, StartCondition.response), (Rules.method, .request)] text with
  | some (_, .response) => lexResponse (p.begin .response) text
  | some _ => lexRequest (p.begin .request) text
  | none => terminate p

inductive LineRule where
  | chunkLine
  | header
  | delimiter
  deriving DecidableEq, Repr

def line (pattern : Rules.Pattern) (rule : LineRule) : Rules.Pattern × LineRule :=
  (seq pattern Rules.crlf, rule)

def requestLines : List (Rules.Pattern × LineRule) :=
  [line Rules.generalHeader .header, line Rules.requestHeader .header,
    line Rules.entityHeader .header, (Rules.crlf, .delimiter)]

def responseLines : List (Rules.Pattern × LineRule) :=
  [line Rules.generalHeader .header, line Rules.responseHeader .header,
    line Rules.entityHeader .header, (Rules.crlf, .delimiter)]

def chunkedLines : List (Rules.Pattern × LineRule) :=
  [line Rules.chunkLine .chunkLine, line Rules.entityHeader .header, (Rules.crlf, .delimiter)]

def lexHeader (p : Parser) (text : Bytes) (n : ℕ) : Lexed :=
  .token (.header (text.take (n - 2))) n (p.addOffset (UInt32.ofNat n))

def transferEncoding : Bytes := text "Transfer-Encoding"

/-- The body is chunked; the start condition stays where the encoding is not known. -/
def beginEncoded (p : Parser) (encoding : Bytes) : Parser :=
  if tolower (strip encoding) = text "chunked" then p.begin .chunkedBody else p

def endRequestHeaders (p : Parser) : Parser :=
  match p.record.contentLength with
  | some length =>
    (p.setContentLengthOrChunkSize length).begin (if length = 0 then .initial else .body)
  | none =>
    match p.record.headers.lookup (tolower transferEncoding) with
    | some encoding => beginEncoded p encoding
    | none => p.begin .initial

def endResponseHeaders (p : Parser) : Parser :=
  match p.record.contentLength with
  | some length =>
    if length = 0 then p.unknownLength.begin .initial
    else (p.setContentLengthOrChunkSize length).begin .body
  | none =>
    match p.record.headers.lookup (tolower transferEncoding) with
    | some encoding => beginEncoded p encoding
    | none => p.unknownLength.begin .initial

def lexRequestHeaders (p : Parser) (text : Bytes) : Lexed :=
  match first requestLines text with
  | some (n, .header) => lexHeader p text n
  | some (n, _) => .token .delimiter n (endRequestHeaders (p.addOffset (UInt32.ofNat n)))
  | none => terminate p

def lexResponseHeaders (p : Parser) (text : Bytes) : Lexed :=
  match first responseLines text with
  | some (n, .header) => lexHeader p text n
  | some (n, _) => .token .delimiter n (endResponseHeaders (p.addOffset (UInt32.ofNat n)))
  | none => terminate p

def lexBody (p : Parser) : Lexed :=
  let p := if p.bodyOrChunkBytesToSkip = 0 then p.unknownLength else p
  .more 1 ((p.bodyOrChunkBytesSkipped 1).begin .data)

def lexData (p : Parser) : Lexed :=
  let p := p.bodyOrChunkBytesSkipped 1
  if p.bodyOrChunkBytesToSkip = 0 then
    .token .body 1
      (if p.multiBody then p.begin .body else { p with finished := true }.begin .initial)
  else .more 1 p

def lineEnd : Bytes := [0x0D, 0x0A]

/-- The group of a line that matches `^([[:xdigit:]]+)(?:(;.*)*)(?:\r\n)$`. -/
def chunkLineDigits (line : Bytes) : Option Bytes :=
  let digits := line.takeWhile Rules.isHex
  let rest := line.dropWhile Rules.isHex
  let extensions := rest.take (rest.length - 2)
  if digits ≠ [] ∧ rest.drop (rest.length - 2) = lineEnd ∧
      (extensions = [] ∨ extensions.head? = some 0x3B) ∧ extensions.any isLineEnd = false then
    some digits
  else none

def lexChunk (p : Parser) (text : Bytes) : Lexed :=
  match (seq Rules.chunkLine Rules.crlf).longest text with
  | some n =>
    let p := p.addOffset (UInt32.ofNat n)
    if p.contentLengthOrChunkSize = 0 then
      .token (.chunk 0) n ({ p with finished := true }.begin .chunkedBody)
    else .more n (p.begin .data2)
  | none => terminate p

def countChunk (p : Parser) : Parser :=
  if p.currentChunkSize = 0 then p else p.addOffset (p.currentChunkSize + 2)

def beginChunk (p : Parser) (digits : Bytes) : Parser :=
  ((countChunk p).setContentLengthOrChunkSize (extract 16 Rules.isHex digits)).begin .chunk

/-- A chunk line is read twice; the first time, its size is read. -/
def lexChunkedBody (p : Parser) (text : Bytes) : Lexed :=
  match first chunkedLines text with
  | some (n, .chunkLine) =>
    match chunkLineDigits (text.take n) with
    | some digits => lexChunk (beginChunk p digits) text
    | none => terminate (countChunk p)
  | some (n, .header) => lexHeader p text n
  | some (n, .delimiter) => .token .delimiter n ((p.addOffset (UInt32.ofNat n)).begin .initial)
  | none => terminate p

/-- The octets of a chunk; `yyinput` takes the line end behind the last one. -/
def lexData2 (p : Parser) (text : Bytes) : Except Fault Lexed :=
  let p := p.bodyOrChunkBytesSkipped 1
  if p.bodyOrChunkBytesToSkip = 0 then
    if (text.drop 1).take 2 = lineEnd then
      .ok (.token (.chunk p.contentLengthOrChunkSize.toUInt32) 3 (p.begin .chunkedBody))
    else .error .assertion
  else .ok (.more 1 p)

def lex (p : Parser) (text : Bytes) : Except Fault Lexed :=
  match p.condition with
  | .initial => .ok (lexInitial p text)
  | .request => .ok (lexRequest p text)
  | .method => .ok (terminate p)
  | .uri => .ok (lexUri p text)
  | .version => .ok (lexVersion p text)
  | .requestHeaders => .ok (lexRequestHeaders p text)
  | .response => .ok (lexResponse p text)
  | .status => .ok (lexStatus p text)
  | .reason => .ok (lexReason p text)
  | .responseHeaders => .ok (lexResponseHeaders p text)
  | .body => .ok (lexBody p)
  | .chunkedBody => .ok (lexChunkedBody p text)
  | .chunk => .ok (lexChunk p text)
  | .data => .ok (lexData p)
  | .data2 => lexData2 p text

end ACENetwork.HTTP
