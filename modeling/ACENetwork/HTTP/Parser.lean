import ACENetwork.HTTP.Scanner
import ACENetwork.Library.Blocks
import ACENetwork.Library.Cursor

/-!
# The parser of HTTP messages

The grammar of `HTTP_Parser` as what it expects next, `HTTP_ParserDriver_T::parse`, and what
`HTTP_Module_Parser_T` makes of a message. The values of the nonterminals are not used.
-/
namespace ACENetwork.HTTP
open BitTorrent (Fault)
open Library Library.Blocks

/-- What the parser expects next, with the values of the tokens whose actions are to come. -/
inductive Expecting where
  | message
  | uri (method : Bytes)
  | version (method uri : Bytes)
  | requestHeaders (method : Bytes)
  | status (version : Bytes)
  | reason (version status : Bytes)
  | responseHeaders (version : Bytes)
  | body
  | bodies
  | chunks
  | trailers
  deriving DecidableEq, Repr

structure State where
  expecting : Expecting
  parser : Parser
  deriving DecidableEq

abbrev Verdict := Except Fault (Bool × Parser)

def onChain : Option (Cursor UInt8) → Except Fault (Cursor UInt8)
  | some c => .ok c
  | none => .error .assertion

/-- The delimiter of a chunk; the blocks that are empty are left without a check. -/
def expectOctet (b : UInt8) (c : Cursor UInt8) : Except Fault (Cursor UInt8) :=
  match Cursor.expect b c.behind c.ahead with
  | some c => .ok c
  | none => .error (if c.ahead.flatten = [] then .nullPointer else .assertion)

/-- The data of the chunks are kept, and what stands between them is skipped. -/
def frameChunks (offset : UInt32) : List (UInt64 × UInt32) → Cursor UInt8 →
    Except Fault (Cursor UInt8)
  | [], c => .ok c
  | (first, size) :: chunks, c =>
    if size = 0 then do
      let c ← onChain (Cursor.skip (offset.toUInt64 - first).toNat c.behind c.ahead)
      frameChunks offset chunks c
    else do
      let c ← onChain (Cursor.keep size.toNat c.behind c.ahead)
      let c ← expectOctet 0x0D c
      let c ← expectOctet 0x0A c
      match chunks with
      | [] => .error .assertion
      | (next, _) :: _ =>
        let c ← onChain (Cursor.skip (next - (first + size.toUInt64 + 2)).toNat c.behind c.ahead)
        frameChunks offset chunks c

namespace Parser

variable (p : Parser)

def frame : Except Fault Parser :=
  let p := { p with recorded := some p.record }
  match p.chunks with
  | [] => do
    let c ← onChain (Cursor.skip p.getOffset.toNat [] p.chain)
    .ok { p with
      chain := c.behind ++ c.ahead
      finished := p.finished || p.record.contentLength.isNone }
  | (first, _) :: _ => do
    let c ← onChain (Cursor.skip first.toNat [] p.chain)
    let c ← frameChunks p.getOffset p.chunks c.settle
    .ok { p with chain := c.behind ++ c.ahead }

/-- The action of a header: one that does not match is left out, and `encoding` asserts
false. -/
def header (line : Bytes) : Except Fault Parser :=
  match headerLine line with
  | none => .ok p
  | some (name, value) =>
    if name = contentEncoding then .error .assertion
    else
      .ok { p with
        record := { p.record with headers := p.record.headers.insert (tolower name) value } }

def getContentLength : UInt64 :=
  match p.recorded, p.chunks with
  | none, _ => 0
  | some record, [] =>
    match record.contentLength with
    | some length => if length = 0 then p.totalLength else length
    | none => p.totalLength
  | some _, chunks => (chunks.map fun chunk => chunk.2.toUInt64).sum

end Parser

/-- The digits of a version that matches `^HTTP/([[:digit:]]{1}\.[[:digit:]]{1})$`. -/
def versionDigits (version : Bytes) : Option Bytes :=
  if Rules.version.accepts version then some (version.drop 5) else none

def accept (p : Parser) : Progress State Verdict := .closed (.ok (true, p))
def reject (p : Parser) : Progress State Verdict := .closed (.ok (false, p))

/-- The parser goes on, unless an action has failed. -/
def goOn (expecting : Expecting) : Except Fault Parser → Progress State Verdict
  | .ok p => .opened ⟨expecting, p⟩
  | .error f => .closed (.error f)

def acceptFramed (p : Parser) : Progress State Verdict :=
  .closed (p.frame.map fun p => (true, p))

def delimited (p : Parser) : Progress State Verdict :=
  if p.headerOnly then acceptFramed { p with finished := true }
  else if p.multiBody then acceptFramed p
  else .opened ⟨.body, p⟩

def shift : Expecting → Token → Parser → Progress State Verdict
  | .message, .method method, p => .opened ⟨.uri method, p⟩
  | .uri method, .uri uri, p => .opened ⟨.version method uri, p⟩
  | .version method uri, .version version, p =>
    match versionDigits version with
    | some digits =>
      .opened ⟨.requestHeaders method,
        { p with record := { p.record with version := versionToType digits, uri := uri } }⟩
    | none => reject p
  | .requestHeaders method, .header line, p => goOn (.requestHeaders method) (p.header line)
  | .requestHeaders method, .delimiter, p =>
    delimited { p with record := { p.record with method := methodToType method } }
  | .message, .version version, p => .opened ⟨.status version, p⟩
  | .status version, .status status, p => .opened ⟨.reason version status, p⟩
  | .reason version status, .reason reason, p =>
    .opened ⟨.responseHeaders version,
      { p with record := { p.record with reason := reason, status := digitsValue 10 status } }⟩
  | .responseHeaders version, .header line, p => goOn (.responseHeaders version) (p.header line)
  | .responseHeaders version, .delimiter, p =>
    match versionDigits version with
    | some digits =>
      delimited { p with record := { p.record with version := versionToType digits } }
    | none => reject p
  | .body, .body, p =>
    match p.frame with
    | .ok p => if p.multiBody then .opened ⟨.bodies, p⟩ else accept p
    | .error f => .closed (.error f)
  | .bodies, .body, p => goOn .bodies p.frame
  | .body, .chunk size, p => .opened ⟨.chunks, p.chunk size⟩
  | .chunks, .chunk size, p => .opened ⟨.chunks, p.chunk size⟩
  | .chunks, .header line, p => goOn .trailers (p.header line)
  | .trailers, .header line, p => goOn .trailers (p.header line)
  | .chunks, .delimiter, p => acceptFramed p
  | .trailers, .delimiter, p => acceptFramed p
  | .body, .endOfInput, p => accept p
  | .bodies, .endOfInput, p => accept p
  | _, _, p => reject p

/-- A token is scanned and parsed, or octets are scanned. -/
def step (s : State) (text : Bytes) : Progress State Verdict × ℕ :=
  match lex s.parser text with
  | .ok (.token t taken p) => (shift s.expecting t p, taken)
  | .ok (.more taken p) => (.opened { s with parser := p }, taken)
  | .error f => (.closed (.error f), 1)

def endOfBuffer (s : State) : Verdict :=
  .ok (s.expecting == .body || s.expecting == .bodies, s.parser)

/-- `HTTP_ParserDriver_T::parse` starts over, but for the start condition. -/
def start (p : Parser) : State := ⟨.message, { p with finished := false, offset := 0, record := {} }⟩

def parse (p : Parser) (text : Bytes) : Verdict :=
  match scan step (start p) 0 text with
  | .opened s => endOfBuffer s
  | .closed verdict => verdict

end ACENetwork.HTTP
