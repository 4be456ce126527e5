import ACENetwork.HTTP.Reassembly

/-!
# What becomes of the fragments of HTTP messages

`HTTP_Module_Parser_T::dispatch`. The counters of a body or a chunk are written before they are
read, so that parsers with different counters make the same of what arrives.
-/
namespace ACENetwork.HTTP
open BitTorrent (Fault)
open Library Library.Blocks Library.Regex

section Source

inductive Outcome where
  /-- The fragments are not parsed, and released. -/
  | rejected
  /-- Others are to follow. -/
  | waiting (record : Record) (chain : List Bytes)
  /-- A message is passed on, with its record; octets may be left. -/
  | delivered (record : Option Record) (message left : List Bytes)
  /-- The fragment is passed on as it is. -/
  | passed (fragment : Bytes)
  deriving DecidableEq

/-- The message that has been parsed, and what is left of the chain. -/
def deliver (p : Parser) : Except Fault (Outcome × Parser) :=
  let length := p.getContentLength
  if length = 0 ∨ p.totalLength ≤ length then
    .ok (.delivered p.recorded p.chain [], { p with chunks := [], chain := [], recorded := none })
  else
    match onChain (Cursor.keep length.toNat [] p.chain) with
    | .error f => .error f
    | .ok c => .ok (.delivered p.recorded c.behind c.ahead,
        { p with chunks := [], chain := c.ahead, recorded := none })

/-- What follows `HTTP_ParserDriver_T::parse`. The parser does not block; `switchBuffer` ends the
scan of a fragment that has been ended. -/
def afterParse : Verdict → Except Fault (Outcome × Parser)
  | .error f => .error f
  | .ok (false, p) => .ok (.rejected, { p with chain := [], recorded := none })
  | .ok (true, p) =>
    if p.finished then deliver p
    else if p.chain.tail = [] then .ok (.waiting p.record p.chain, p)
    else .error .assertion

namespace Parser

def receive (p : Parser) (fragment : Bytes) : Parser :=
  { p with isFirstFragment := false, chain := p.chain ++ [fragment] }

def dispatch (p : Parser) (fragment : Bytes) : Except Fault (Outcome × Parser) :=
  if !p.isFirstFragment && p.multiBody then .ok (.passed fragment, { p with chunks := [] })
  else afterParse (parse (p.receive fragment) ((p.receive fragment).chain.headD []))

def dispatchHead (useYYScanBuffer : Bool) (p : Parser) (fragment : Bytes) :
    Except Fault (Outcome × Parser) :=
  if !p.isFirstFragment && p.multiBody then .ok (.passed fragment, { p with chunks := [] })
  else afterParse ((p.receive fragment).parseHead useYYScanBuffer)

def outcome (p : Parser) (fragment : Bytes) : Except Fault Outcome :=
  (p.dispatch fragment).map Prod.fst

end Parser

theorem dispatchHead_false {p : Parser} {fragment : Bytes}
    (h : ((p.receive fragment).chain.headD []).length + 2 < 2 ^ 31) :
    p.dispatchHead false fragment = p.dispatch fragment := by
  have hshort : ¬ 2 ^ 31 ≤ ((p.receive fragment).chain.headD []).length + overhead false :=
    not_le.mpr h
  rw [Parser.dispatchHead, Parser.dispatch, Parser.parseHead, if_neg hshort]
  rfl

end Source

def StartCondition.Counts : StartCondition → Prop
  | .body | .chunk | .data | .data2 => True
  | _ => False

def Parser.leftWith (p : Parser) (size skip : UInt64) : Parser :=
  { p with contentLengthOrChunkSize := size, bodyOrChunkBytesToSkip := skip }

/-- Parsers that are told apart by what is not read. -/
inductive Parser.Agrees (p : Parser) : Parser → Prop
  | same : p.Agrees p
  | stale (h : ¬ p.condition.Counts) (size skip : UInt64) : p.Agrees (p.leftWith size skip)

section Scanning

def Lexed.Agrees : Lexed → Lexed → Prop
  | .token t n p, .token t' n' q => t = t' ∧ n = n' ∧ p.Agrees q
  | .more n p, .more n' q => n = n' ∧ p.Agrees q
  | _, _ => False

variable {p q : Parser} {octets : Bytes} {size skip : UInt64}

theorem Lexed.Agrees.refl (l : Lexed) : l.Agrees l := by
  cases l with
  | token t n p => exact ⟨rfl, rfl, .same⟩
  | more n p => exact ⟨rfl, .same⟩

theorem lexOne_agrees {pattern : Rules.Pattern} {last : ℕ} {token : Bytes → Token}
    {next : StartCondition} (hp : ¬ p.condition.Counts) (hnext : ¬ next.Counts) :
    (lexOne pattern last token next p octets).Agrees
      (lexOne pattern last token next (p.leftWith size skip) octets) := by
  rw [lexOne, lexOne]
  cases pattern.longest octets with
  | none => exact ⟨rfl, rfl, .stale hp size skip⟩
  | some n => exact ⟨rfl, rfl, .stale hnext size skip⟩

theorem lexInitial_agrees (hp : ¬ p.condition.Counts) :
    (lexInitial p octets).Agrees (lexInitial (p.leftWith size skip) octets) := by
  rw [lexInitial, lexInitial]
  generalize first [(Rules.version, StartCondition.response), (Rules.method, .request)] octets = m
  rcases m with _ | ⟨n, c⟩
  · exact ⟨rfl, rfl, .stale hp size skip⟩
  · cases c
    case response => exact lexOne_agrees (p := p.begin .response) id id
    all_goals exact lexOne_agrees (p := p.begin .request) id id

theorem beginEncoded_agrees (hp : ¬ p.condition.Counts) (encoding : Bytes) :
    (beginEncoded p encoding).Agrees (beginEncoded (p.leftWith size skip) encoding) := by
  rw [beginEncoded, beginEncoded]
  split_ifs
  · exact .stale (p := p.begin .chunkedBody) id size skip
  · exact .stale hp size skip

theorem endRequestHeaders_agrees (hp : ¬ p.condition.Counts) :
    (endRequestHeaders p).Agrees (endRequestHeaders (p.leftWith size skip)) := by
  have hrecord : (p.leftWith size skip).record = p.record := rfl
  rw [endRequestHeaders, endRequestHeaders, hrecord]
  cases p.record.contentLength with
  | some length => exact .same
  | none =>
    cases p.record.headers.lookup (tolower transferEncoding) with
    | some encoding => exact beginEncoded_agrees hp encoding
    | none => exact .stale (p := p.begin .initial) id size skip

theorem endResponseHeaders_agrees (hp : ¬ p.condition.Counts) :
    (endResponseHeaders p).Agrees (endResponseHeaders (p.leftWith size skip)) := by
  have hrecord : (p.leftWith size skip).record = p.record := rfl
  rw [endResponseHeaders, endResponseHeaders, hrecord]
  cases p.record.contentLength with
  | some length => exact .same
  | none =>
    cases p.record.headers.lookup (tolower transferEncoding) with
    | some encoding => exact beginEncoded_agrees hp encoding
    | none => exact .same

theorem lexRequestHeaders_agrees (hp : ¬ p.condition.Counts) :
    (lexRequestHeaders p octets).Agrees (lexRequestHeaders (p.leftWith size skip) octets) := by
  rw [lexRequestHeaders, lexRequestHeaders]
  rcases first requestLines octets with _ | ⟨n, rule⟩
  · exact ⟨rfl, rfl, .stale hp size skip⟩
  · cases rule
    case header => exact ⟨rfl, rfl, .stale (p := p.addOffset _) hp size skip⟩
    all_goals exact ⟨rfl, rfl, endRequestHeaders_agrees (p := p.addOffset _) hp⟩

theorem lexResponseHeaders_agrees (hp : ¬ p.condition.Counts) :
    (lexResponseHeaders p octets).Agrees (lexResponseHeaders (p.leftWith size skip) octets) := by
  rw [lexResponseHeaders, lexResponseHeaders]
  rcases first responseLines octets with _ | ⟨n, rule⟩
  · exact ⟨rfl, rfl, .stale hp size skip⟩
  · cases rule
    case header => exact ⟨rfl, rfl, .stale (p := p.addOffset _) hp size skip⟩
    all_goals exact ⟨rfl, rfl, endResponseHeaders_agrees (p := p.addOffset _) hp⟩

theorem countChunk_leftWith :
    countChunk (p.leftWith size skip) = (countChunk p).leftWith size skip := by
  have hsize : (p.leftWith size skip).currentChunkSize = p.currentChunkSize := rfl
  rw [countChunk, countChunk, hsize]
  split_ifs <;> rfl

theorem beginChunk_leftWith (digits : Bytes) :
    beginChunk (p.leftWith size skip) digits = beginChunk p digits := by
  rw [beginChunk, countChunk_leftWith]
  rfl

theorem condition_countChunk (p : Parser) : (countChunk p).condition = p.condition := by
  rw [countChunk]
  split_ifs <;> rfl

theorem lexChunkedBody_agrees (hp : ¬ p.condition.Counts) :
    (lexChunkedBody p octets).Agrees (lexChunkedBody (p.leftWith size skip) octets) := by
  rw [lexChunkedBody, lexChunkedBody]
  rcases first chunkedLines octets with _ | ⟨n, rule⟩
  · exact ⟨rfl, rfl, .stale hp size skip⟩
  · cases rule with
    | header => exact ⟨rfl, rfl, .stale (p := p.addOffset _) hp size skip⟩
    | delimiter => exact ⟨rfl, rfl, .stale (p := (p.addOffset _).begin .initial) id size skip⟩
    | chunkLine =>
      dsimp only
      cases chunkLineDigits (octets.take n) with
      | none =>
        dsimp only
        rw [countChunk_leftWith]
        exact ⟨rfl, rfl, .stale ((condition_countChunk p).symm ▸ hp) size skip⟩
      | some digits =>
        dsimp only
        rw [beginChunk_leftWith]
        exact .refl _

theorem lex_agrees (hp : ¬ p.condition.Counts) (size skip : UInt64) (octets : Bytes) :
    ∃ l l', lex p octets = .ok l ∧ lex (p.leftWith size skip) octets = .ok l' ∧ l.Agrees l' := by
  have hcondition : (p.leftWith size skip).condition = p.condition := rfl
  rw [lex, lex, hcondition]
  cases h : p.condition
  case initial => exact ⟨_, _, rfl, rfl, lexInitial_agrees hp⟩
  case requestHeaders => exact ⟨_, _, rfl, rfl, lexRequestHeaders_agrees hp⟩
  case responseHeaders => exact ⟨_, _, rfl, rfl, lexResponseHeaders_agrees hp⟩
  case chunkedBody => exact ⟨_, _, rfl, rfl, lexChunkedBody_agrees hp⟩
  case method => exact ⟨_, _, rfl, rfl, rfl, rfl, .stale hp size skip⟩
  case body => exact absurd (h ▸ trivial) hp
  case chunk => exact absurd (h ▸ trivial) hp
  case data => exact absurd (h ▸ trivial) hp
  case data2 => exact absurd (h ▸ trivial) hp
  all_goals exact ⟨_, _, rfl, rfl, lexOne_agrees hp id⟩

end Scanning

section Parsing

def ResultsAgree {β : Type} : Except Fault (β × Parser) → Except Fault (β × Parser) → Prop
  | .error f, .error f' => f = f'
  | .ok (b, p), .ok (b', q) => b = b' ∧ p.Agrees q
  | _, _ => False

def State.Agrees (s t : State) : Prop := s.expecting = t.expecting ∧ s.parser.Agrees t.parser

abbrev ProgressAgrees : Progress State Verdict → Progress State Verdict → Prop :=
  Related State.Agrees ResultsAgree

variable {p q : Parser} {octets : Bytes} {size skip : UInt64} {e : Expecting}

theorem ResultsAgree.refl {β : Type} (x : Except Fault (β × Parser)) : ResultsAgree x x := by
  cases x with
  | error f => exact rfl
  | ok r => exact ⟨rfl, .same⟩

theorem ProgressAgrees.refl (x : Progress State Verdict) : ProgressAgrees x x := by
  cases x with
  | opened s => exact ⟨rfl, .same⟩
  | closed v => exact ResultsAgree.refl v

theorem header_leftWith (line : Bytes) :
    (p.leftWith size skip).header line = (p.header line).map (·.leftWith size skip) := by
  rw [Parser.header, Parser.header]
  cases headerLine line with
  | none => rfl
  | some field =>
    dsimp only
    split_ifs <;> rfl

theorem frame_of_nil (h : p.chunks = []) :
    p.frame = (onChain (Cursor.skip p.getOffset.toNat [] p.chain) >>= fun c =>
      .ok { p with
        recorded := some p.record
        chain := c.behind ++ c.ahead
        finished := p.finished || p.record.contentLength.isNone }) := by
  rw [Parser.frame]
  dsimp only
  rw [h]
  rfl

theorem frame_leftWith : (p.leftWith size skip).frame = p.frame.map (·.leftWith size skip) := by
  cases hchunks : p.chunks with
  | nil =>
    rw [frame_of_nil hchunks, frame_of_nil (p := p.leftWith size skip) hchunks]
    show (onChain (Cursor.skip p.getOffset.toNat [] p.chain) >>= _) = _
    cases onChain (Cursor.skip p.getOffset.toNat [] p.chain) <;> rfl
  | cons chunk chunks =>
    rw [frame_of_chunks hchunks, frame_of_chunks (q := p.leftWith size skip) hchunks]
    show (onChain (Cursor.skip chunk.1.toNat [] p.chain) >>= fun c =>
      frameChunks p.getOffset p.chunks c.settle >>= _) = _
    cases onChain (Cursor.skip chunk.1.toNat [] p.chain) with
    | error f => rfl
    | ok c =>
      show (frameChunks p.getOffset p.chunks c.settle >>= _) =
        (frameChunks p.getOffset p.chunks c.settle >>= _).map _
      cases frameChunks p.getOffset p.chunks c.settle <;> rfl

theorem frame_condition {q r : Parser} (h : q.frame = .ok r) : r.condition = q.condition := by
  rw [Parser.frame] at h
  split at h
  · obtain ⟨c, -, hc⟩ := BitTorrent.fault_bind_ok.mp h
    cases hc
    rfl
  · obtain ⟨c, -, hc⟩ := BitTorrent.fault_bind_ok.mp h
    obtain ⟨c', -, hc'⟩ := BitTorrent.fault_bind_ok.mp hc
    cases hc'
    rfl

theorem opened_agrees (hp : ¬ p.condition.Counts) (record : Record) :
    ProgressAgrees (.opened ⟨e, { p with record := record }⟩)
      (.opened ⟨e, { p.leftWith size skip with record := record }⟩) :=
  ⟨rfl, .stale (p := { p with record := record }) hp size skip⟩

theorem goOn_agrees {x : Except Fault Parser} (hx : ∀ q, x = .ok q → ¬ q.condition.Counts) :
    ProgressAgrees (goOn e x) (goOn e (x.map (·.leftWith size skip))) := by
  cases x with
  | error f => exact rfl
  | ok q => exact ⟨rfl, .stale (hx q rfl) size skip⟩

theorem header_agrees (hp : ¬ p.condition.Counts) (line : Bytes) :
    ProgressAgrees (goOn e (p.header line)) (goOn e ((p.leftWith size skip).header line)) := by
  rw [header_leftWith]
  refine goOn_agrees fun q hq => ?_
  obtain ⟨record, rfl⟩ := header_ok hq
  exact hp

theorem frame_agrees (hp : ¬ p.condition.Counts) :
    ProgressAgrees (goOn e p.frame) (goOn e (p.leftWith size skip).frame) := by
  rw [frame_leftWith]
  exact goOn_agrees fun q hq => (frame_condition hq).symm ▸ hp

theorem acceptFramed_agrees (hp : ¬ p.condition.Counts) :
    ProgressAgrees (acceptFramed p) (acceptFramed (p.leftWith size skip)) := by
  rw [acceptFramed, acceptFramed, frame_leftWith]
  cases hframe : p.frame with
  | error f => exact rfl
  | ok q => exact ⟨rfl, .stale ((frame_condition hframe).symm ▸ hp) size skip⟩

theorem delimited_agrees (hp : ¬ p.condition.Counts) :
    ProgressAgrees (delimited p) (delimited (p.leftWith size skip)) := by
  have hheader : (p.leftWith size skip).headerOnly = p.headerOnly := rfl
  have hmulti : (p.leftWith size skip).multiBody = p.multiBody := rfl
  rw [delimited, delimited, hheader, hmulti]
  split_ifs
  · exact acceptFramed_agrees (p := { p with finished := true }) hp
  · exact acceptFramed_agrees hp
  · exact ⟨rfl, .stale hp size skip⟩

theorem shift_agrees (h : p.Agrees q) (e : Expecting) (t : Token) :
    ProgressAgrees (shift e t p) (shift e t q) := by
  cases h with
  | same => exact ProgressAgrees.refl _
  | stale hp size skip =>
    cases e <;> cases t <;> try exact ⟨rfl, .stale hp size skip⟩
    case version.version method uri version =>
      dsimp only [shift]
      cases versionDigits version with
      | none => exact ⟨rfl, .stale hp size skip⟩
      | some digits => exact opened_agrees hp _
    case reason.reason => exact opened_agrees hp _
    case body.chunk size' => exact ⟨rfl, .stale (p := p.chunk size') hp size skip⟩
    case chunks.chunk size' => exact ⟨rfl, .stale (p := p.chunk size') hp size skip⟩
    case requestHeaders.header => exact header_agrees hp _
    case requestHeaders.delimiter method =>
      exact delimited_agrees (p := { p with record := _ }) hp
    case responseHeaders.header => exact header_agrees hp _
    case responseHeaders.delimiter version =>
      dsimp only [shift]
      cases versionDigits version with
      | none => exact ⟨rfl, .stale hp size skip⟩
      | some digits => exact delimited_agrees (p := { p with record := _ }) hp
    case body.body =>
      dsimp only [shift]
      rw [frame_leftWith]
      cases hframe : p.frame with
      | error f => exact rfl
      | ok r =>
        have hr : ¬ r.condition.Counts := (frame_condition hframe).symm ▸ hp
        have hmulti : (r.leftWith size skip).multiBody = r.multiBody := rfl
        dsimp only [Except.map]
        rw [hmulti]
        split_ifs
        · exact ⟨rfl, .stale hr size skip⟩
        · exact ⟨rfl, .stale hr size skip⟩
    case bodies.body => exact frame_agrees hp
    case chunks.header => exact header_agrees hp _
    case chunks.delimiter => exact acceptFramed_agrees hp
    case trailers.header => exact header_agrees hp _
    case trailers.delimiter => exact acceptFramed_agrees hp

theorem step_agrees (s t : State) (octets : Bytes) (h : s.Agrees t) :
    (step s octets).2 = (step t octets).2 ∧
      ProgressAgrees (step s octets).1 (step t octets).1 := by
  obtain ⟨e, p⟩ := s
  obtain ⟨e', q⟩ := t
  obtain ⟨he, hagrees⟩ := h
  obtain rfl : e = e' := he
  replace hagrees : p.Agrees q := hagrees
  cases hagrees with
  | same => exact ⟨rfl, ProgressAgrees.refl _⟩
  | stale hp size skip =>
    obtain ⟨l, l', hl, hl', hlexed⟩ := lex_agrees hp size skip octets
    have hs : lex (State.mk e p).parser octets = .ok l := hl
    have ht : lex (State.mk e (p.leftWith size skip)).parser octets = .ok l' := hl'
    rw [step, step, hs, ht]
    cases l with
    | token t n r =>
      cases l' with
      | token t' n' r' =>
        obtain ⟨rfl, rfl, hr⟩ := hlexed
        exact ⟨rfl, shift_agrees hr e t⟩
      | more n' r' => exact hlexed.elim
    | more n r =>
      cases l' with
      | token t' n' r' => exact hlexed.elim
      | more n' r' =>
        obtain ⟨rfl, hr⟩ := hlexed
        exact ⟨rfl, rfl, hr⟩

theorem parse_agrees (h : (start p).parser.Agrees (start q).parser) (octets : Bytes) :
    ResultsAgree (parse p octets) (parse q octets) := by
  have hstart : (start p).Agrees (start q) := ⟨rfl, h⟩
  have hscan := scan_related step_agrees hstart 0 octets
  rw [parse, parse]
  cases hs : scan step (start p) 0 octets with
  | opened s =>
    cases ht : scan step (start q) 0 octets with
    | opened t =>
      rw [hs, ht] at hscan
      obtain ⟨he, hagrees⟩ := hscan
      exact ⟨by rw [he], hagrees⟩
    | closed w =>
      rw [hs, ht] at hscan
      exact hscan.elim
  | closed v =>
    cases ht : scan step (start q) 0 octets with
    | opened t =>
      rw [hs, ht] at hscan
      exact hscan.elim
    | closed w =>
      rw [hs, ht] at hscan
      exact hscan

end Parsing

section Dispatching
variable {p q : Parser} {size skip : UInt64}

theorem deliver_agrees (hp : ¬ p.condition.Counts) :
    ResultsAgree (deliver p) (deliver (p.leftWith size skip)) := by
  have hlength : (p.leftWith size skip).getContentLength = p.getContentLength := rfl
  have htotal : (p.leftWith size skip).totalLength = p.totalLength := rfl
  rw [deliver, deliver, hlength, htotal]
  split_ifs
  · exact ⟨rfl, .stale (p := { p with chunks := [], chain := [], recorded := none }) hp size skip⟩
  · show ResultsAgree _ (match onChain (Cursor.keep p.getContentLength.toNat [] p.chain) with
      | .error f => .error f
      | .ok c => _)
    cases onChain (Cursor.keep p.getContentLength.toNat [] p.chain) with
    | error f => exact rfl
    | ok c =>
      exact ⟨rfl, .stale (p := { p with chunks := [], chain := c.ahead, recorded := none }) hp size
        skip⟩

theorem afterParse_agrees {v w : Verdict} (h : ResultsAgree v w) :
    ResultsAgree (afterParse v) (afterParse w) := by
  rcases v with f | ⟨b, p⟩
  · rcases w with f' | ⟨b', q⟩
    · exact h
    · exact h.elim
  · rcases w with f' | ⟨b', q⟩
    · exact h.elim
    · obtain ⟨rfl, hagrees⟩ := h
      cases hagrees with
      | same => exact ResultsAgree.refl _
      | stale hp size skip =>
        cases b with
        | false => exact ⟨rfl, .stale (p := { p with chain := [], recorded := none }) hp size skip⟩
        | true =>
          have hfinished : (p.leftWith size skip).finished = p.finished := rfl
          have hchain : (p.leftWith size skip).chain = p.chain := rfl
          rw [afterParse, afterParse, hfinished, hchain]
          split_ifs
          · exact deliver_agrees hp
          · exact ⟨rfl, .stale hp size skip⟩
          · exact rfl

theorem ResultsAgree.map_fst {β : Type} {x y : Except Fault (β × Parser)} (h : ResultsAgree x y) :
    x.map Prod.fst = y.map Prod.fst := by
  rcases x with f | ⟨b, p⟩
  · rcases y with f' | ⟨b', q⟩
    · exact congrArg Except.error h
    · exact h.elim
  · rcases y with f' | ⟨b', q⟩
    · exact h.elim
    · exact congrArg Except.ok h.1

end Dispatching

end ACENetwork.HTTP
