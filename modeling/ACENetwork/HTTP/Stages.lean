import ACENetwork.HTTP.Parser

/-!
# The stages of a message

What the parser expects next goes with a few start conditions of the scanner only, and with what
the driver has counted.
-/
namespace ACENetwork.HTTP
open BitTorrent (Fault)
open Library Library.Blocks Library.Regex

section Scanning
variable {p q : Parser} {text : Bytes} {t : Token} {n : ℕ} {l : Lexed}

def Lexed.parser : Lexed → Parser
  | .token _ _ p => p
  | .more _ p => p

def Lexed.taken : Lexed → ℕ
  | .token _ n _ => n
  | .more n _ => n

/-- The scanner changes the start condition and what has been counted. -/
structure Parser.Scans (p q : Parser) : Prop where
  headerOnly : q.headerOnly = p.headerOnly
  record : q.record = p.record
  chunks : q.chunks = p.chunks
  chain : q.chain = p.chain
  recorded : q.recorded = p.recorded

theorem lexOne_token {pattern : Rules.Pattern} {last : ℕ} {token : Bytes → Token}
    {next : StartCondition} (h : lexOne pattern last token next p text = .token t n q) :
    t = .endOfInput ∧ q = p ∨ pattern.longest text = some n ∧ t = token (text.take (n - last)) ∧
      q = (p.addOffset (UInt32.ofNat n)).begin next := by
  rw [lexOne] at h
  cases hlongest : pattern.longest text with
  | none =>
    rw [hlongest] at h
    cases h
    exact .inl ⟨rfl, rfl⟩
  | some k =>
    rw [hlongest] at h
    cases h
    exact .inr ⟨rfl, rfl, rfl⟩

theorem lexOne_scans (pattern : Rules.Pattern) (last : ℕ) (token : Bytes → Token)
    (next : StartCondition) (p : Parser) (text : Bytes) :
    p.Scans (lexOne pattern last token next p text).parser := by
  rw [lexOne]
  cases pattern.longest text <;> exact ⟨rfl, rfl, rfl, rfl, rfl⟩

theorem Parser.Scans.trans {r : Parser} (h : p.Scans q) (h' : q.Scans r) : p.Scans r :=
  ⟨h'.headerOnly.trans h.headerOnly, h'.record.trans h.record, h'.chunks.trans h.chunks,
    h'.chain.trans h.chain, h'.recorded.trans h.recorded⟩

theorem begin_scans (p : Parser) (condition : StartCondition) : p.Scans (p.begin condition) :=
  ⟨rfl, rfl, rfl, rfl, rfl⟩

theorem addOffset_scans (p : Parser) (count : UInt32) : p.Scans (p.addOffset count) :=
  ⟨rfl, rfl, rfl, rfl, rfl⟩

theorem beginEncoded_scans (p : Parser) (encoding : Bytes) : p.Scans (beginEncoded p encoding) := by
  rw [beginEncoded]
  split_ifs <;> exact ⟨rfl, rfl, rfl, rfl, rfl⟩

theorem endRequestHeaders_scans (p : Parser) : p.Scans (endRequestHeaders p) := by
  rw [endRequestHeaders]
  split
  · exact ⟨rfl, rfl, rfl, rfl, rfl⟩
  · split
    · exact beginEncoded_scans p _
    · exact begin_scans p _

theorem endResponseHeaders_scans (p : Parser) : p.Scans (endResponseHeaders p) := by
  rw [endResponseHeaders]
  split
  · split_ifs <;> exact ⟨rfl, rfl, rfl, rfl, rfl⟩
  · split
    · exact beginEncoded_scans p _
    · exact ⟨rfl, rfl, rfl, rfl, rfl⟩

theorem lexChunk_scans (p : Parser) (text : Bytes) : p.Scans (lexChunk p text).parser := by
  rw [lexChunk]
  split
  · dsimp only
    split_ifs <;> exact ⟨rfl, rfl, rfl, rfl, rfl⟩
  · exact ⟨rfl, rfl, rfl, rfl, rfl⟩

theorem countChunk_scans (p : Parser) : p.Scans (countChunk p) := by
  rw [countChunk]
  split_ifs <;> exact ⟨rfl, rfl, rfl, rfl, rfl⟩

theorem beginChunk_scans (p : Parser) (digits : Bytes) : p.Scans (beginChunk p digits) :=
  (countChunk_scans p).trans ⟨rfl, rfl, rfl, rfl, rfl⟩

theorem lexInitial_scans (p : Parser) (text : Bytes) : p.Scans (lexInitial p text).parser := by
  rw [lexInitial]
  split
  · exact (begin_scans p _).trans (lexOne_scans _ _ _ _ _ _)
  · exact (begin_scans p _).trans (lexOne_scans _ _ _ _ _ _)
  · exact ⟨rfl, rfl, rfl, rfl, rfl⟩

theorem lexRequestHeaders_scans (p : Parser) (text : Bytes) :
    p.Scans (lexRequestHeaders p text).parser := by
  rw [lexRequestHeaders]
  split
  · exact addOffset_scans p _
  · exact (addOffset_scans p _).trans (endRequestHeaders_scans _)
  · exact ⟨rfl, rfl, rfl, rfl, rfl⟩

theorem lexResponseHeaders_scans (p : Parser) (text : Bytes) :
    p.Scans (lexResponseHeaders p text).parser := by
  rw [lexResponseHeaders]
  split
  · exact addOffset_scans p _
  · exact (addOffset_scans p _).trans (endResponseHeaders_scans _)
  · exact ⟨rfl, rfl, rfl, rfl, rfl⟩

theorem lexChunkedBody_scans (p : Parser) (text : Bytes) :
    p.Scans (lexChunkedBody p text).parser := by
  rw [lexChunkedBody]
  split
  · split
    · exact (beginChunk_scans p _).trans (lexChunk_scans _ text)
    · exact countChunk_scans p
  · exact addOffset_scans p _
  · exact (addOffset_scans p _).trans (begin_scans _ _)
  · exact ⟨rfl, rfl, rfl, rfl, rfl⟩

theorem lex_scans (h : lex p text = .ok l) : p.Scans l.parser := by
  rw [lex] at h
  cases hcondition : p.condition <;> rw [hcondition] at h
  case data2 =>
    dsimp only [lexData2] at h
    split_ifs at h <;> obtain rfl := Except.ok.inj h <;> exact ⟨rfl, rfl, rfl, rfl, rfl⟩
  all_goals obtain rfl := Except.ok.inj h
  case initial => exact lexInitial_scans p text
  case requestHeaders => exact lexRequestHeaders_scans p text
  case responseHeaders => exact lexResponseHeaders_scans p text
  case chunkedBody => exact lexChunkedBody_scans p text
  case chunk => exact lexChunk_scans p text
  case body =>
    rw [lexBody]
    split_ifs <;> exact ⟨rfl, rfl, rfl, rfl, rfl⟩
  case data =>
    dsimp only [lexData]
    split_ifs <;> exact ⟨rfl, rfl, rfl, rfl, rfl⟩
  case method => exact ⟨rfl, rfl, rfl, rfl, rfl⟩
  all_goals exact lexOne_scans _ _ _ _ _ _

theorem lexOne_taken {pattern : Rules.Pattern} (hpattern : pattern.nullable = false) (last : ℕ)
    (token : Bytes → Token) (next : StartCondition) (p : Parser) (a : UInt8) (text : Bytes) :
    1 ≤ (lexOne pattern last token next p (a :: text)).taken ∧
      (lexOne pattern last token next p (a :: text)).taken ≤ text.length + 1 := by
  rw [lexOne]
  cases hlongest : pattern.longest (a :: text) with
  | none => exact ⟨le_rfl, Nat.le_add_left 1 _⟩
  | some n => exact ⟨longest_pos hpattern hlongest, longest_le hlongest⟩

theorem first_taken {β : Type} {rules : List (Rules.Pattern × β)}
    (hrules : ∀ rule ∈ rules, rule.1.nullable = false) {b : β} (h : first rules text = some (n, b)) :
    1 ≤ n ∧ n ≤ text.length := by
  obtain ⟨r, hr, hlongest⟩ := first_some h
  exact ⟨longest_pos (hrules _ hr) hlongest, longest_le hlongest⟩

theorem lexChunk_taken (p : Parser) (a : UInt8) (text : Bytes) :
    1 ≤ (lexChunk p (a :: text)).taken ∧ (lexChunk p (a :: text)).taken ≤ text.length + 1 := by
  rw [lexChunk]
  cases hlongest : (seq Rules.chunkLine Rules.crlf).longest (a :: text) with
  | none => exact ⟨le_rfl, Nat.le_add_left 1 _⟩
  | some n =>
    have hn : 1 ≤ n ∧ n ≤ text.length + 1 := ⟨longest_pos rfl hlongest, longest_le hlongest⟩
    dsimp only
    split_ifs <;> exact hn

theorem lex_taken {a : UInt8} (h : lex p (a :: text) = .ok l) :
    1 ≤ l.taken ∧ l.taken ≤ text.length + 1 := by
  have hone : 1 ≤ 1 ∧ 1 ≤ text.length + 1 := ⟨le_rfl, Nat.le_add_left 1 _⟩
  have hrequest : ∀ rule ∈ requestLines, rule.1.nullable = false := by decide
  have hresponse : ∀ rule ∈ responseLines, rule.1.nullable = false := by decide
  have hchunked : ∀ rule ∈ chunkedLines, rule.1.nullable = false := by decide
  rw [lex] at h
  cases hcondition : p.condition <;> rw [hcondition] at h
  case data2 =>
    dsimp only [lexData2] at h
    split_ifs at h with hzero hdelimiter <;> obtain rfl := Except.ok.inj h
    · have hlength := congrArg List.length hdelimiter
      simp [lineEnd] at hlength
      exact ⟨Nat.le_add_left 1 2, show 3 ≤ text.length + 1 by omega⟩
    · exact hone
  all_goals obtain rfl := Except.ok.inj h
  case initial =>
    rw [lexInitial]
    split
    · exact lexOne_taken rfl _ _ _ _ _ _
    · exact lexOne_taken rfl _ _ _ _ _ _
    · exact hone
  case requestHeaders =>
    rw [lexRequestHeaders]
    split
    · exact first_taken hrequest ‹_›
    · exact first_taken hrequest ‹_›
    · exact hone
  case responseHeaders =>
    rw [lexResponseHeaders]
    split
    · exact first_taken hresponse ‹_›
    · exact first_taken hresponse ‹_›
    · exact hone
  case chunkedBody =>
    rw [lexChunkedBody]
    split
    · split
      · exact lexChunk_taken _ a text
      · exact hone
    · exact first_taken hchunked ‹_›
    · exact first_taken hchunked ‹_›
    · exact hone
  case chunk => exact lexChunk_taken p a text
  case body => exact hone
  case data =>
    dsimp only [lexData]
    split_ifs <;> exact hone
  case method => exact hone
  all_goals exact lexOne_taken rfl _ _ _ _ _ _

theorem takes_step : Takes step := by
  intro s a text
  rw [step]
  cases hlex : lex s.parser (a :: text) with
  | error f => exact ⟨le_rfl, Nat.le_add_left 1 _⟩
  | ok l => cases l <;> exact lex_taken hlex

end Scanning

section Tokens
variable {p q : Parser} {s s' : State} {octets : Bytes} {t : Token} {n : ℕ} {e : Expecting}

@[simp] theorem getOffset_begin (p : Parser) (condition : StartCondition) :
    (p.begin condition).getOffset = p.getOffset := rfl

@[simp] theorem getOffset_addOffset (p : Parser) (count : UInt32) :
    (p.addOffset count).getOffset = p.getOffset + count := by
  simp [Parser.addOffset, Parser.getOffset]

theorem getOffset_beginEncoded (p : Parser) (encoding : Bytes) :
    (beginEncoded p encoding).getOffset = p.getOffset := by
  rw [beginEncoded]
  split_ifs <;> rfl

theorem getOffset_endRequestHeaders (p : Parser) :
    (endRequestHeaders p).getOffset = p.getOffset := by
  rw [endRequestHeaders]
  split
  · rfl
  · split
    · exact getOffset_beginEncoded p _
    · rfl

theorem getOffset_endResponseHeaders (p : Parser) :
    (endResponseHeaders p).getOffset = p.getOffset := by
  rw [endResponseHeaders]
  split
  · split_ifs <;> rfl
  · split
    · exact getOffset_beginEncoded p _
    · rfl

def Undecided (record : Record) : Prop :=
  record.contentLength = none ∧ ∃ encoding, record.headers.lookup (tolower transferEncoding) =
    some encoding ∧ tolower (strip encoding) ≠ text "chunked"

inductive EndsHeaders (p : Parser) : Parser → Prop
  | request (h : p.condition = .requestHeaders) : EndsHeaders p (endRequestHeaders p)
  | response (h : p.condition = .responseHeaders) : EndsHeaders p (endResponseHeaders p)

def Token.LeadsTo (p : Parser) (n : ℕ) (q : Parser) : Token → Prop
  | .method _ => q.condition = .uri
  | .uri _ => q.condition = .version
  | .version v => (versionDigits v).isSome = true ∧
      (p.condition = .version ∧ q.condition = .requestHeaders ∨
        (p.condition = .initial ∨ p.condition = .response) ∧ q.condition = .status)
  | .status _ => q.condition = .reason
  | .reason _ => q.condition = .responseHeaders
  | .header _ => q.condition = p.condition
  | .delimiter => EndsHeaders (p.addOffset (UInt32.ofNat n)) q ∨
      p.condition = .chunkedBody ∧ q.condition = .initial
  | .body => p.condition = .data
  | .chunk _ => q.condition = .chunkedBody
  | .endOfInput => q.condition = p.condition ∨
      p.condition = .initial ∧ (q.condition = .request ∨ q.condition = .response) ∨
      p.condition = .chunkedBody ∧ q.condition = .chunk

theorem isSome_versionDigits {k : ℕ} {last : Rules.Pattern}
    (hlast : ∀ v ∈ last.language, v.length = k)
    (h : (seq Rules.version last).longest octets = some n) :
    (versionDigits (octets.take (n - k))).isSome = true := by
  obtain ⟨v, hv, u, hu, heq⟩ := mem_seq.mp (longest_mem h)
  have hlength := congrArg List.length heq
  rw [List.length_append, List.length_take, Nat.min_eq_left (longest_le h), hlast u hu] at hlength
  have htake : octets.take (n - k) = v := by
    rw [← hlength, Nat.add_sub_cancel, ← Nat.min_eq_left (Nat.le_add_right v.length k),
      ← List.take_take, hlength, ← heq, List.take_left]
  rw [htake, versionDigits, if_pos (accepts_iff.mpr hv)]
  rfl

theorem versionDigits_sp (h : (seq Rules.version Rules.sp).longest octets = some n) :
    (versionDigits (octets.take (n - 1))).isSome = true := by
  have hlast : ∀ v ∈ Rules.sp.language, v.length = 1 := by
    rintro v hv
    rw [mem_word.mp hv]
    rfl
  exact isSome_versionDigits hlast h

theorem versionDigits_crlf (h : (seq Rules.version Rules.crlf).longest octets = some n) :
    (versionDigits (octets.take (n - 2))).isSome = true := by
  have hlast : ∀ v ∈ Rules.crlf.language, v.length = 2 := by
    rintro v hv
    rw [mem_word.mp hv]
    rfl
  exact isSome_versionDigits hlast h

theorem leadsTo_request (h : lexRequest p octets = .token t n q) : t.LeadsTo p n q := by
  rcases lexOne_token h with ⟨rfl, rfl⟩ | ⟨-, rfl, rfl⟩
  · exact .inl rfl
  · rfl

theorem leadsTo_response (hp : p.condition = .initial ∨ p.condition = .response)
    (h : lexResponse p octets = .token t n q) : t.LeadsTo p n q := by
  rcases lexOne_token h with ⟨rfl, rfl⟩ | ⟨hlongest, rfl, rfl⟩
  · exact .inl rfl
  · exact ⟨versionDigits_sp hlongest, .inr ⟨hp, rfl⟩⟩

theorem leadsTo_chunk (h : lexChunk p octets = .token t n q) :
    q.condition = .chunkedBody ∧ t = .chunk 0 ∨ q.condition = p.condition ∧ t = .endOfInput := by
  rw [lexChunk] at h
  split at h
  · dsimp only at h
    split_ifs at h
    cases h
    exact .inl ⟨rfl, rfl⟩
  · cases h
    exact .inr ⟨rfl, rfl⟩

theorem lex_leadsTo (h : lex p octets = .ok (.token t n q)) : t.LeadsTo p n q := by
  rw [lex] at h
  cases hp : p.condition <;> rw [hp] at h
  case data2 =>
    dsimp only [lexData2] at h
    split_ifs at h <;> cases h
    rfl
  case initial =>
    replace h := Except.ok.inj h
    rw [lexInitial] at h
    split at h
    · rcases lexOne_token h with ⟨rfl, rfl⟩ | ⟨hlongest, rfl, rfl⟩
      · exact .inr (.inl ⟨hp, .inr rfl⟩)
      · exact ⟨versionDigits_sp hlongest, .inr ⟨.inl hp, rfl⟩⟩
    · rcases lexOne_token h with ⟨rfl, rfl⟩ | ⟨-, rfl, rfl⟩
      · exact .inr (.inl ⟨hp, .inl rfl⟩)
      · rfl
    · cases h
      exact .inl rfl
  case request => exact leadsTo_request (Except.ok.inj h)
  case response => exact leadsTo_response (.inr hp) (Except.ok.inj h)
  case method =>
    cases h
    exact .inl rfl
  case version =>
    rcases lexOne_token (Except.ok.inj h) with ⟨rfl, rfl⟩ | ⟨hlongest, rfl, rfl⟩
    · exact .inl rfl
    · exact ⟨versionDigits_crlf hlongest, .inl ⟨hp, rfl⟩⟩
  case requestHeaders =>
    replace h := Except.ok.inj h
    rw [lexRequestHeaders] at h
    split at h <;> cases h
    · rfl
    · exact .inl (.request hp)
    · exact .inl rfl
  case responseHeaders =>
    replace h := Except.ok.inj h
    rw [lexResponseHeaders] at h
    split at h <;> cases h
    · rfl
    · exact .inl (.response hp)
    · exact .inl rfl
  case body =>
    rw [lexBody] at h
    cases h
  case data =>
    dsimp only [lexData] at h
    split_ifs at h <;> cases h
    · exact hp
    · exact hp
  case chunkedBody =>
    replace h := Except.ok.inj h
    rw [lexChunkedBody] at h
    split at h
    · split at h
      · rcases leadsTo_chunk h with ⟨hq, rfl⟩ | ⟨hq, rfl⟩
        · exact hq
        · exact .inr (.inr ⟨hp, hq⟩)
      · cases h
        refine .inl ?_
        rw [countChunk]
        split_ifs <;> rfl
    · cases h
      rfl
    · cases h
      exact .inr ⟨hp, rfl⟩
    · cases h
      exact .inl rfl
  case chunk =>
    rcases leadsTo_chunk (Except.ok.inj h) with ⟨hq, rfl⟩ | ⟨hq, rfl⟩
    · exact hq
    · exact .inl hq
  all_goals
    rcases lexOne_token (Except.ok.inj h) with ⟨rfl, rfl⟩ | ⟨-, rfl, rfl⟩
    · exact .inl rfl
    · rfl

def Lexed.InBody : Lexed → Prop
  | .more _ _ => True
  | .token (.chunk _) _ _ => True
  | .token _ _ _ => False

theorem lex_inBody {l : Lexed} (h : lex p octets = .ok l) (hl : l.InBody) :
    ((p.condition = .body ∨ p.condition = .data) ∧ ∃ n q, l = .more n q ∧
        q.getOffset = p.getOffset ∧ q.condition = .data) ∨
      (p.condition = .chunkedBody ∧ ∃ digits, lexChunk (beginChunk p digits) octets = l) ∨
        (p.condition = .chunk ∧ lexChunk p octets = l) ∨
          p.condition = .data2 ∧ lexData2 p octets = .ok l := by
  have hone {pattern : Rules.Pattern} {last : ℕ} {token : Bytes → Token} {next : StartCondition}
      {p : Parser} (htoken : ∀ b n q, ¬ (Lexed.token (token b) n q).InBody) :
      lexOne pattern last token next p octets ≠ l := by
    rintro rfl
    rw [lexOne] at hl
    split at hl
    · exact htoken _ _ _ hl
    · exact hl
  rw [lex] at h
  cases hp : p.condition <;> rw [hp] at h
  case data2 => exact .inr (.inr (.inr ⟨rfl, h⟩))
  case initial =>
    replace h := Except.ok.inj h
    rw [lexInitial] at h
    split at h
    · exact absurd h (hone fun _ _ _ => id)
    · exact absurd h (hone fun _ _ _ => id)
    · cases h
      exact hl.elim
  case method =>
    cases h
    exact hl.elim
  case requestHeaders =>
    replace h := Except.ok.inj h
    rw [lexRequestHeaders] at h
    split at h <;> cases h <;> exact hl.elim
  case responseHeaders =>
    replace h := Except.ok.inj h
    rw [lexResponseHeaders] at h
    split at h <;> cases h <;> exact hl.elim
  case body =>
    dsimp only [lexBody] at h
    split_ifs at h <;> cases h <;> exact .inl ⟨.inl rfl, _, _, rfl, rfl, rfl⟩
  case data =>
    dsimp only [lexData] at h
    split_ifs at h <;> cases h
    · exact hl.elim
    · exact hl.elim
    · exact .inl ⟨.inr rfl, _, _, rfl, rfl, hp⟩
  case chunkedBody =>
    replace h := Except.ok.inj h
    rw [lexChunkedBody] at h
    split at h
    · split at h
      · exact .inr (.inl ⟨rfl, _, h⟩)
      · cases h
        exact hl.elim
    all_goals
      cases h
      exact hl.elim
  case chunk => exact .inr (.inr (.inl ⟨rfl, Except.ok.inj h⟩))
  all_goals exact absurd (Except.ok.inj h) (hone fun _ _ _ => id)

theorem lex_more_cases (h : lex p octets = .ok (.more n q)) :
    ((p.condition = .body ∨ p.condition = .data) ∧ q.getOffset = p.getOffset ∧
        q.condition = .data) ∨
      (p.condition = .chunkedBody ∧ ∃ digits, lexChunk (beginChunk p digits) octets = .more n q) ∨
        (p.condition = .chunk ∧ lexChunk p octets = .more n q) ∨
          p.condition = .data2 ∧ n = 1 ∧ q = p.bodyOrChunkBytesSkipped 1 ∧
            p.bodyOrChunkBytesToSkip - 1 ≠ 0 := by
  rcases lex_inBody h trivial with ⟨hp, n, q, heq, hq⟩ | hchunked | hchunk | ⟨hp, hdata⟩
  · cases heq
    exact .inl ⟨hp, hq⟩
  · exact .inr (.inl hchunked)
  · exact .inr (.inr (.inl hchunk))
  · dsimp only [lexData2] at hdata
    split_ifs at hdata with hzero <;> cases hdata
    exact .inr (.inr (.inr ⟨hp, rfl, rfl, hzero⟩))

theorem lex_more (h : lex p octets = .ok (.more n q)) :
    (p.condition = .body ∨ p.condition = .data) ∧ q.condition = .data ∨
      (p.condition = .chunkedBody ∨ p.condition = .chunk ∨ p.condition = .data2) ∧
        q.condition = .data2 := by
  have hchunk {p q : Parser} (h : lexChunk p octets = .more n q) : q.condition = .data2 := by
    rw [lexChunk] at h
    split at h
    · dsimp only at h
      split_ifs at h
      cases h
      rfl
    · cases h
  rcases lex_more_cases h with ⟨hp, -, hq⟩ | ⟨hp, digits, hline⟩ | ⟨hp, hline⟩ | ⟨hp, -, rfl, -⟩
  · exact .inl ⟨hp, hq⟩
  · exact .inr ⟨.inl hp, hchunk hline⟩
  · exact .inr ⟨.inr (.inl hp), hchunk hline⟩
  · exact .inr ⟨.inr (.inr hp), hp⟩

theorem lex_offset (h : lex p octets = .ok (.token t n q)) (hend : t ≠ .endOfInput)
    (hbody : t ≠ .body) (hchunk : ∀ size, t ≠ .chunk size) :
    q.getOffset = p.getOffset + UInt32.ofNat n := by
  have hone {pattern : Rules.Pattern} {last : ℕ} {token : Bytes → Token} {next : StartCondition}
      {p q : Parser} (h : lexOne pattern last token next p octets = .token t n q) :
      q.getOffset = p.getOffset + UInt32.ofNat n := by
    rcases lexOne_token h with ⟨rfl, -⟩ | ⟨-, -, rfl⟩
    · exact absurd rfl hend
    · rw [getOffset_begin, getOffset_addOffset]
  have hnot {p q : Parser} : lexChunk p octets ≠ .token t n q := by
    intro h
    rcases leadsTo_chunk h with ⟨-, rfl⟩ | ⟨-, rfl⟩
    · exact hchunk 0 rfl
    · exact hend rfl
  rw [lex] at h
  cases hp : p.condition <;> rw [hp] at h
  case data2 =>
    dsimp only [lexData2] at h
    split_ifs at h <;> cases h
    exact absurd rfl (hchunk _)
  case initial =>
    replace h := Except.ok.inj h
    rw [lexInitial] at h
    split at h
    · have hoffset := hone h
      exact hoffset
    · have hoffset := hone h
      exact hoffset
    · cases h
      exact absurd rfl hend
  case method =>
    cases h
    exact absurd rfl hend
  case requestHeaders =>
    replace h := Except.ok.inj h
    rw [lexRequestHeaders] at h
    split at h <;> cases h
    · exact getOffset_addOffset p _
    · rw [getOffset_endRequestHeaders, getOffset_addOffset]
    · exact absurd rfl hend
  case responseHeaders =>
    replace h := Except.ok.inj h
    rw [lexResponseHeaders] at h
    split at h <;> cases h
    · exact getOffset_addOffset p _
    · rw [getOffset_endResponseHeaders, getOffset_addOffset]
    · exact absurd rfl hend
  case body =>
    rw [lexBody] at h
    cases h
  case data =>
    dsimp only [lexData] at h
    split_ifs at h <;> cases h <;> exact absurd rfl hbody
  case chunkedBody =>
    replace h := Except.ok.inj h
    rw [lexChunkedBody] at h
    split at h
    · split at h
      · exact absurd h hnot
      · cases h
        exact absurd rfl hend
    · cases h
      exact getOffset_addOffset p _
    · cases h
      rw [getOffset_begin, getOffset_addOffset]
    · cases h
      exact absurd rfl hend
  case chunk => exact absurd (Except.ok.inj h) hnot
  all_goals exact hone (Except.ok.inj h)

inductive Shifts (q : Parser) : Expecting → Token → State → Prop
  | method (method : Bytes) : Shifts q .message (.method method) ⟨.uri method, q⟩
  | uri (method uri : Bytes) : Shifts q (.uri method) (.uri uri) ⟨.version method uri, q⟩
  | requestLine (method uri version : Bytes) (record : Record) :
    Shifts q (.version method uri) (.version version)
      ⟨.requestHeaders method, { q with record := record }⟩
  | version (version : Bytes) : Shifts q .message (.version version) ⟨.status version, q⟩
  | status (version status : Bytes) :
    Shifts q (.status version) (.status status) ⟨.reason version status, q⟩
  | statusLine (version status reason : Bytes) (record : Record) :
    Shifts q (.reason version status) (.reason reason)
      ⟨.responseHeaders version, { q with record := record }⟩
  | requestHeader (method line : Bytes) (record : Record) :
    Shifts q (.requestHeaders method) (.header line)
      ⟨.requestHeaders method, { q with record := record }⟩
  | responseHeader (version line : Bytes) (record : Record) :
    Shifts q (.responseHeaders version) (.header line)
      ⟨.responseHeaders version, { q with record := record }⟩
  | requestHead (method : Bytes) (record : Record) (hmulti : q.multiBody = false)
      (hheaders : record.headers = q.record.headers) :
    Shifts q (.requestHeaders method) .delimiter ⟨.body, { q with record := record }⟩
  | responseHead (version : Bytes) (record : Record) (hmulti : q.multiBody = false)
      (hheaders : record.headers = q.record.headers) :
    Shifts q (.responseHeaders version) .delimiter ⟨.body, { q with record := record }⟩
  | chunk {e : Expecting} (he : e = .body ∨ e = .chunks) (size : UInt32) :
    Shifts q e (.chunk size) ⟨.chunks, q.chunk size⟩
  | trailer {e : Expecting} (he : e = .chunks ∨ e = .trailers) (line : Bytes) (record : Record) :
    Shifts q e (.header line) ⟨.trailers, { q with record := record }⟩
  | body {r : Parser} (hframe : q.frame = .ok r) (hmulti : r.multiBody = true) :
    Shifts q .body .body ⟨.bodies, r⟩
  | bodies {r : Parser} (hframe : q.frame = .ok r) : Shifts q .bodies .body ⟨.bodies, r⟩

theorem header_ok {line : Bytes} {r : Parser} (h : q.header line = .ok r) :
    ∃ record, r = { q with record := record } := by
  rw [Parser.header] at h
  split at h
  · cases h
    exact ⟨q.record, rfl⟩
  · split_ifs at h
    cases h
    exact ⟨_, rfl⟩

theorem goOn_opened {x : Except Fault Parser} (h : goOn e x = .opened s') :
    ∃ r, x = .ok r ∧ s' = ⟨e, r⟩ := by
  cases x with
  | error f => cases h
  | ok r =>
    cases h
    exact ⟨r, rfl, rfl⟩

theorem delimited_opened (h : delimited q = .opened s') :
    q.multiBody = false ∧ s' = ⟨.body, q⟩ := by
  rw [delimited] at h
  split_ifs at h with hheader hmulti
  · cases h
  · cases h
  · cases h
    exact ⟨Bool.eq_false_iff.mpr hmulti, rfl⟩

theorem shift_opened (h : shift e t q = .opened s') : Shifts q e t s' := by
  cases e with
  | message =>
    cases t with
    | method method =>
      cases h
      exact .method method
    | version version =>
      cases h
      exact .version version
    | _ => cases h
  | uri method =>
    cases t with
    | uri uri =>
      cases h
      exact .uri method uri
    | _ => cases h
  | version method uri =>
    cases t with
    | version version =>
      dsimp only [shift] at h
      split at h <;> cases h
      exact .requestLine method uri version _
    | _ => cases h
  | requestHeaders method =>
    cases t with
    | header line =>
      obtain ⟨r, hr, rfl⟩ := goOn_opened h
      obtain ⟨record, rfl⟩ := header_ok hr
      exact .requestHeader method line record
    | delimiter =>
      obtain ⟨hmulti, rfl⟩ := delimited_opened h
      exact .requestHead method _ hmulti rfl
    | _ => cases h
  | status version =>
    cases t with
    | status status =>
      cases h
      exact .status version status
    | _ => cases h
  | reason version status =>
    cases t with
    | reason reason =>
      cases h
      exact .statusLine version status reason _
    | _ => cases h
  | responseHeaders version =>
    cases t with
    | header line =>
      obtain ⟨r, hr, rfl⟩ := goOn_opened h
      obtain ⟨record, rfl⟩ := header_ok hr
      exact .responseHeader version line record
    | delimiter =>
      dsimp only [shift] at h
      split at h
      · obtain ⟨hmulti, rfl⟩ := delimited_opened h
        exact .responseHead version _ hmulti rfl
      · cases h
    | _ => cases h
  | body =>
    cases t with
    | body =>
      dsimp only [shift] at h
      split at h
      · split_ifs at h with hmulti <;> cases h
        exact .body ‹_› hmulti
      · cases h
    | chunk size =>
      cases h
      exact .chunk (.inl rfl) size
    | _ => cases h
  | bodies =>
    cases t with
    | body =>
      obtain ⟨r, hr, rfl⟩ := goOn_opened h
      exact .bodies hr
    | _ => cases h
  | chunks =>
    cases t with
    | chunk size =>
      cases h
      exact .chunk (.inr rfl) size
    | header line =>
      obtain ⟨r, hr, rfl⟩ := goOn_opened h
      obtain ⟨record, rfl⟩ := header_ok hr
      exact .trailer (.inl rfl) line record
    | _ => cases h
  | trailers =>
    cases t with
    | header line =>
      obtain ⟨r, hr, rfl⟩ := goOn_opened h
      obtain ⟨record, rfl⟩ := header_ok hr
      exact .trailer (.inr rfl) line record
    | _ => cases h

/-- The body has a length, it is chunked, there is none, or nothing is known of it. -/
theorem EndsHeaders.condition {r : Parser} (h : EndsHeaders r q) : q.condition = .initial ∨
    q.condition = .body ∧ q.bodyOrChunkBytesToSkip ≠ 0 ∨ q.condition = .chunkedBody ∨
      (q.condition = .requestHeaders ∨ q.condition = .responseHeaders) ∧ Undecided q.record := by
  have hencoded {r : Parser} {encoding : Bytes} (hlength : r.record.contentLength = none)
      (hlookup : r.record.headers.lookup (tolower transferEncoding) = some encoding)
      (hr : r.condition = .requestHeaders ∨ r.condition = .responseHeaders) :
      (beginEncoded r encoding).condition = .chunkedBody ∨
        ((beginEncoded r encoding).condition = .requestHeaders ∨
          (beginEncoded r encoding).condition = .responseHeaders) ∧
          Undecided (beginEncoded r encoding).record := by
    rw [beginEncoded]
    split_ifs with hchunked
    · exact .inl rfl
    · exact .inr ⟨hr, hlength, encoding, hlookup, hchunked⟩
  cases h with
  | request h =>
    rw [endRequestHeaders]
    split
    · next length hlength =>
      by_cases hzero : length = 0
      · left
        rw [if_pos hzero]
        rfl
      · right; left
        rw [if_neg hzero]
        exact ⟨rfl, hzero⟩
    · next hlength =>
      split
      · next encoding hlookup => exact .inr (.inr (hencoded hlength hlookup (.inl h)))
      · exact .inl rfl
  | response h =>
    rw [endResponseHeaders]
    split
    · next length hlength =>
      split_ifs with hzero
      · exact .inl rfl
      · exact .inr (.inl ⟨rfl, hzero⟩)
    · next hlength =>
      split
      · next encoding hlookup => exact .inr (.inr (hencoded hlength hlookup (.inr h)))
      · exact .inl rfl

/-- Only the end of the headers, and a body whose length is not known, may set the flag. -/
theorem lex_multiBody {l : Lexed} (h : lex p octets = .ok l)
    (hbody : p.condition = .body → p.bodyOrChunkBytesToSkip ≠ 0) :
    l.parser.multiBody = p.multiBody ∨ ∃ n q, l = .token .delimiter n q := by
  have hone {pattern : Rules.Pattern} {last : ℕ} {token : Bytes → Token} {next : StartCondition}
      {p : Parser} : (lexOne pattern last token next p octets).parser.multiBody = p.multiBody := by
    rw [lexOne]
    split <;> rfl
  have hchunk {p : Parser} : (lexChunk p octets).parser.multiBody = p.multiBody := by
    rw [lexChunk]
    split
    · dsimp only
      split_ifs <;> rfl
    · rfl
  have hcount {p : Parser} : (countChunk p).multiBody = p.multiBody := by
    rw [countChunk]
    split_ifs <;> rfl
  rw [lex] at h
  cases hp : p.condition <;> rw [hp] at h
  case data2 =>
    dsimp only [lexData2] at h
    split_ifs at h <;> cases h <;> exact .inl rfl
  all_goals obtain rfl := Except.ok.inj h
  case initial =>
    left
    rw [lexInitial]
    split
    · exact hone
    · exact hone
    · rfl
  case requestHeaders =>
    rw [lexRequestHeaders]
    split
    · exact .inl rfl
    · exact .inr ⟨_, _, rfl⟩
    · exact .inl rfl
  case responseHeaders =>
    rw [lexResponseHeaders]
    split
    · exact .inl rfl
    · exact .inr ⟨_, _, rfl⟩
    · exact .inl rfl
  case body =>
    left
    rw [lexBody, if_neg (hbody hp)]
    rfl
  case data =>
    left
    dsimp only [lexData]
    split_ifs <;> rfl
  case chunkedBody =>
    left
    rw [lexChunkedBody]
    split
    · split
      · exact hchunk.trans hcount
      · exact hcount
    all_goals rfl
  case chunk => exact .inl hchunk
  case method => exact .inl rfl
  all_goals exact .inl hone

end Tokens

section Stages
variable {p : Parser} {s s' : State} {octets rest piece : Bytes} {n : ℕ} {r : Verdict}

def Expecting.Fits : Expecting → StartCondition → Prop
  | .message, c => c = .initial ∨ c = .request ∨ c = .response
  | .uri _, c => c = .uri
  | .version _ _, c => c = .version
  | .requestHeaders _, c => c = .requestHeaders
  | .status v, c => (versionDigits v).isSome = true ∧ c = .status
  | .reason v _, c => (versionDigits v).isSome = true ∧ c = .reason
  | .responseHeaders v, c => (versionDigits v).isSome = true ∧ c = .responseHeaders
  | .body, c => c ∈ [.initial, .body, .data, .chunkedBody, .data2, .requestHeaders,
      StartCondition.responseHeaders]
  | .bodies, _ => False
  | .chunks, c => c = .chunkedBody ∨ c = .data2
  | .trailers, c => c = .chunkedBody ∨ c = .data2

/-- The octets that have been taken have been counted, up to the data of a body. -/
def State.AtHead (s : State) : Prop :=
  match s.expecting with
  | .body => s.parser.condition = .chunkedBody
  | .bodies | .chunks | .trailers => False
  | _ => True

/-- What holds at any stage of a message that begins with `octets`. -/
structure Stage (p : Parser) (octets : Bytes) (s : State) (rest : Bytes) : Prop where
  fits : s.expecting.Fits s.parser.condition
  headerOnly : s.parser.headerOnly = p.headerOnly
  chain : s.parser.chain = p.chain
  recorded : s.parser.recorded = p.recorded
  chunks : s.expecting ≠ .chunks → s.expecting ≠ .trailers → s.parser.chunks = p.chunks
  multiBody : s.parser.multiBody = false
  counting : s.parser.condition = .body → s.parser.bodyOrChunkBytesToSkip ≠ 0
  undecided : s.expecting = .body →
    s.parser.condition = .requestHeaders ∨ s.parser.condition = .responseHeaders →
    Undecided s.parser.record
  offset : s.AtHead → s.parser.getOffset + UInt32.ofNat rest.length = UInt32.ofNat octets.length

theorem step_opened (h : step s octets = (.opened s', n)) :
    (∃ t q, lex s.parser octets = .ok (.token t n q) ∧ Shifts q s.expecting t s') ∨
      ∃ q, lex s.parser octets = .ok (.more n q) ∧ s' = { s with parser := q } := by
  rw [step] at h
  cases hlex : lex s.parser octets with
  | error f =>
    rw [hlex] at h
    cases h
  | ok l =>
    rw [hlex] at h
    cases l with
    | token t k q =>
      obtain ⟨hs, rfl⟩ := Prod.mk.inj h
      exact .inl ⟨t, q, rfl, shift_opened hs⟩
    | more k q =>
      cases h
      exact .inr ⟨q, rfl, rfl⟩

def Expecting.InHead : Expecting → Prop
  | .body | .bodies | .chunks | .trailers => False
  | _ => True

theorem Expecting.InHead.atHead (h : s.expecting.InHead) : s.AtHead := by
  rw [State.AtHead]
  cases he : s.expecting <;> rw [he] at h <;> trivial

theorem Expecting.InHead.ne_body {e : Expecting} {c : StartCondition} (h : e.InHead)
    (hfits : e.Fits c) : c ≠ .body := by
  rintro rfl
  cases e <;> simp [Expecting.Fits, Expecting.InHead] at h hfits

def Token.InHead : Token → Prop
  | .endOfInput | .body | .delimiter | .chunk _ => False
  | _ => True

theorem Stage.counted {t : Token} {q : Parser} (h : Stage p octets s (piece ++ rest))
    (hs : s.AtHead) (hlex : lex s.parser (piece ++ rest) = .ok (.token t piece.length q))
    (hend : t ≠ .endOfInput) (hbody : t ≠ .body) (hchunk : ∀ size, t ≠ .chunk size) :
    q.getOffset + UInt32.ofNat rest.length = UInt32.ofNat octets.length := by
  rw [lex_offset hlex hend hbody hchunk, ← h.offset hs, List.length_append, UInt32.ofNat_add,
    add_assoc]

theorem Stage.inHead {t : Token} {q : Parser} (h : Stage p octets s (piece ++ rest))
    (hs : s.expecting.InHead) (hlex : lex s.parser (piece ++ rest) = .ok (.token t piece.length q))
    (ht : t.InHead) {e : Expecting} (he : e.InHead) (hfits : e.Fits q.condition)
    (record : Record) : Stage p octets ⟨e, { q with record := record }⟩ rest := by
  have hscan := lex_scans hlex
  have hmulti : q.multiBody = s.parser.multiBody := by
    rcases lex_multiBody hlex h.counting with hmulti | ⟨n, r, heq⟩
    · exact hmulti
    · cases heq
      exact ht.elim
  have hbody : e ≠ .body := by
    rintro rfl
    exact he
  have hcounted : q.getOffset + UInt32.ofNat rest.length = UInt32.ofNat octets.length := by
    refine h.counted hs.atHead hlex ?_ ?_ ?_
    · rintro rfl
      exact ht
    · rintro rfl
      exact ht
    · rintro size rfl
      exact ht
  refine ⟨hfits, hscan.headerOnly.trans h.headerOnly, hscan.chain.trans h.chain,
    hscan.recorded.trans h.recorded, fun _ _ => ?_, hmulti.trans h.multiBody,
    fun hq => absurd hq (he.ne_body hfits), fun hbody' => absurd hbody' hbody, fun _ => hcounted⟩
  refine hscan.chunks.trans (h.chunks ?_ ?_) <;> intro hnot <;> rw [hnot] at hs <;> exact hs

/-- The empty line behind the headers leads to the body. -/
theorem Stage.delimited {q : Parser} (h : Stage p octets s (piece ++ rest))
    (hs : s.expecting.InHead)
    (hlex : lex s.parser (piece ++ rest) = .ok (.token .delimiter piece.length q))
    (hne : s.parser.condition ≠ .chunkedBody) (hmulti : q.multiBody = false) {record : Record}
    (hheaders : record.headers = q.record.headers) :
    Stage p octets ⟨.body, { q with record := record }⟩ rest := by
  have hscan := lex_scans hlex
  have hends : EndsHeaders (s.parser.addOffset (UInt32.ofNat piece.length)) q := by
    rcases lex_leadsTo hlex with hends | ⟨hchunked, -⟩
    · exact hends
    · exact absurd hchunked hne
  have hcondition := hends.condition
  have hcounted : q.getOffset + UInt32.ofNat rest.length = UInt32.ofNat octets.length :=
    h.counted hs.atHead hlex Token.noConfusion Token.noConfusion fun _ => Token.noConfusion
  refine ⟨?_, hscan.headerOnly.trans h.headerOnly, hscan.chain.trans h.chain,
    hscan.recorded.trans h.recorded, fun _ _ => ?_, hmulti, fun hq => ?_, fun _ hq => ?_,
    fun _ => hcounted⟩
  · show q.condition ∈ _
    rcases hcondition with hq | ⟨hq, -⟩ | hq | ⟨hq | hq, -⟩ <;> simp [hq]
  · refine hscan.chunks.trans (h.chunks ?_ ?_) <;> intro hnot <;> rw [hnot] at hs <;> exact hs
  · have hq : q.condition = .body := hq
    rw [hq] at hcondition
    simpa using hcondition
  · have hq : q.condition = .requestHeaders ∨ q.condition = .responseHeaders := hq
    have hundecided : Undecided q.record := by
      rcases hcondition with hq' | ⟨hq', -⟩ | hq' | ⟨-, hundecided⟩
      · rw [hq'] at hq
        simp at hq
      · rw [hq'] at hq
        simp at hq
      · rw [hq'] at hq
        simp at hq
      · exact hundecided
    rw [Undecided, Record.contentLength] at hundecided ⊢
    rw [hheaders]
    exact hundecided

theorem frame_multiBody {q r : Parser} (h : q.frame = .ok r) : r.multiBody = q.multiBody := by
  rw [Parser.frame] at h
  split at h
  · obtain ⟨c, -, hc⟩ := BitTorrent.fault_bind_ok.mp h
    cases hc
    rfl
  · obtain ⟨c, -, hc⟩ := BitTorrent.fault_bind_ok.mp h
    obtain ⟨c', -, hc'⟩ := BitTorrent.fault_bind_ok.mp hc
    cases hc'
    rfl

theorem Expecting.Fits.body {e : Expecting} {c : StartCondition} (h : e.Fits c)
    (hc : c = .body ∨ c = .data ∨ c = .chunkedBody ∨ c = .chunk ∨ c = .data2) :
    e = .body ∨ e = .chunks ∨ e = .trailers := by
  cases e <;> rcases hc with rfl | rfl | rfl | rfl | rfl <;> simp [Expecting.Fits] at h ⊢

theorem Expecting.Fits.data {e : Expecting} {c : StartCondition} (h : e.Fits c)
    (hc : c = .body ∨ c = .data) : e.Fits .data := by
  cases e <;> rcases hc with rfl | rfl <;> simp [Expecting.Fits] at h ⊢

theorem Expecting.Fits.data2 {e : Expecting} {c : StartCondition} (h : e.Fits c)
    (hc : c = .chunkedBody ∨ c = .chunk ∨ c = .data2) : e.Fits .data2 := by
  cases e <;> rcases hc with rfl | rfl | rfl <;> simp [Expecting.Fits] at h ⊢

theorem Stage.more {q : Parser} (h : Stage p octets s (piece ++ rest))
    (hlex : lex s.parser (piece ++ rest) = .ok (.more piece.length q)) :
    Stage p octets { s with parser := q } rest := by
  have hscan := lex_scans hlex
  have hmulti : q.multiBody = s.parser.multiBody := by
    rcases lex_multiBody hlex h.counting with hmulti | ⟨n, r, heq⟩
    · exact hmulti
    · cases heq
  obtain ⟨hc, hq⟩ : (s.parser.condition = .body ∨ s.parser.condition = .data ∨
      s.parser.condition = .chunkedBody ∨ s.parser.condition = .chunk ∨
        s.parser.condition = .data2) ∧ (q.condition = .data ∨ q.condition = .data2) := by
    rcases lex_more hlex with ⟨hc | hc, hq⟩ | ⟨hc | hc | hc, hq⟩ <;> simp [hc, hq]
  have hfits : s.expecting.Fits q.condition := by
    rcases lex_more hlex with ⟨hc, hq⟩ | ⟨hc, hq⟩
    · rw [hq]
      exact h.fits.data hc
    · rw [hq]
      exact h.fits.data2 hc
  refine ⟨hfits, hscan.headerOnly.trans h.headerOnly, hscan.chain.trans h.chain,
    hscan.recorded.trans h.recorded, fun hne hne' => hscan.chunks.trans (h.chunks hne hne'),
    hmulti.trans h.multiBody, fun hbody => ?_, fun _ hheaders => ?_, fun hhead => ?_⟩
  · have hbody : q.condition = .body := hbody
    rcases hq with hq | hq <;> rw [hq] at hbody <;> cases hbody
  · have hheaders : q.condition = .requestHeaders ∨ q.condition = .responseHeaders := hheaders
    rcases hq with hq | hq <;> rw [hq] at hheaders <;> simp at hheaders
  · rcases h.fits.body hc with he | he | he <;> rw [State.AtHead] at hhead <;> dsimp only at hhead <;>
      rw [he] at hhead
    · have hhead : q.condition = .chunkedBody := hhead
      rcases hq with hq | hq <;> rw [hq] at hhead <;> cases hhead
    · exact hhead.elim
    · exact hhead.elim

theorem Stage.step (h : Stage p octets s (piece ++ rest))
    (hstep : HTTP.step s (piece ++ rest) = (.opened s', piece.length)) :
    Stage p octets s' rest := by
  rcases step_opened hstep with ⟨t, q, hlex, hshift⟩ | ⟨q, hlex, rfl⟩
  · have hleads := lex_leadsTo hlex
    have hscan := lex_scans hlex
    have hmulti : t = .delimiter ∨ q.multiBody = false := by
      rcases lex_multiBody hlex h.counting with hmulti | ⟨n, r, heq⟩
      · exact .inr (hmulti.trans h.multiBody)
      · cases heq
        exact .inl rfl
    have hfits := h.fits
    obtain ⟨e, r⟩ := s
    cases hshift with
    | method method => exact h.inHead trivial hlex trivial (e := .uri method) trivial hleads q.record
    | uri method uri =>
      exact h.inHead trivial hlex trivial (e := .version method uri) trivial hleads q.record
    | requestLine method uri version record =>
      refine h.inHead trivial hlex trivial (e := .requestHeaders method) trivial ?_ record
      rcases hleads.2 with ⟨-, hq⟩ | ⟨hr, -⟩
      · exact hq
      · rw [show r.condition = .version from hfits] at hr
        simp at hr
    | version version =>
      refine h.inHead trivial hlex trivial (e := .status version) trivial ?_ q.record
      rcases hleads.2 with ⟨hr, -⟩ | ⟨-, hq⟩
      · rcases hfits with hfits | hfits | hfits <;> rw [hr] at hfits <;> cases hfits
      · exact ⟨hleads.1, hq⟩
    | status version status =>
      exact h.inHead trivial hlex trivial (e := .reason version status) trivial ⟨hfits.1, hleads⟩
        q.record
    | statusLine version status reason record =>
      exact h.inHead trivial hlex trivial (e := .responseHeaders version) trivial
        ⟨hfits.1, hleads⟩ record
    | requestHeader method line record =>
      exact h.inHead trivial hlex trivial (e := .requestHeaders method) trivial
        (hleads.trans hfits) record
    | responseHeader version line record =>
      exact h.inHead trivial hlex trivial (e := .responseHeaders version) trivial
        ⟨hfits.1, hleads.trans hfits.2⟩ record
    | requestHead method record hsingle hheaders =>
      have hr : r.condition = .requestHeaders := hfits
      exact h.delimited trivial hlex (by simp [hr]) hsingle hheaders
    | responseHead version record hsingle hheaders =>
      have hr : r.condition = .responseHeaders := hfits.2
      exact h.delimited trivial hlex (by simp [hr]) hsingle hheaders
    | chunk he size =>
      have hq : q.condition = .chunkedBody := hleads
      refine ⟨.inl hq, hscan.headerOnly.trans h.headerOnly, hscan.chain.trans h.chain,
        hscan.recorded.trans h.recorded, fun hne => absurd rfl hne,
        hmulti.resolve_left Token.noConfusion, fun hbody => ?_, fun hbody => ?_, False.elim⟩
      · have hbody : q.condition = .body := hbody
        rw [hq] at hbody
        cases hbody
      · cases hbody
    | trailer he line record =>
      have hq : q.condition = r.condition := hleads
      have hr : r.condition = .chunkedBody ∨ r.condition = .data2 := by
        rcases he with he | he <;> dsimp only at he <;> subst he <;> exact hfits
      refine ⟨hq ▸ hr, hscan.headerOnly.trans h.headerOnly, hscan.chain.trans h.chain,
        hscan.recorded.trans h.recorded, fun _ hne => absurd rfl hne,
        hmulti.resolve_left Token.noConfusion, fun hbody => ?_, fun hbody => ?_, False.elim⟩
      · have hbody : q.condition = .body := hbody
        rw [hq] at hbody
        rcases hr with hr | hr <;> rw [hr] at hbody <;> cases hbody
      · cases hbody
    | body hframe hframed =>
      rw [frame_multiBody hframe, hmulti.resolve_left Token.noConfusion] at hframed
      cases hframed
    | bodies hframe => exact hfits.elim
  · exact h.more hlex

/-- A parser that begins with the next octets as a message. -/
structure Parser.Clean (p : Parser) : Prop where
  condition : p.condition = .initial
  chunks : p.chunks = []
  multiBody : p.multiBody = false

theorem stage_of_steps (hp : p.condition = .initial ∨ p.condition = .request ∨
    p.condition = .response) (hmulti : p.multiBody = false)
    (h : Steps HTTP.step (start p) octets s rest) : Stage p octets s rest := by
  refine Steps.keeps (fun _ _ _ _ _ hstage hstep => Stage.step hstage hstep) h ?_
  refine ⟨hp, rfl, rfl, rfl, fun _ _ => rfl, hmulti, fun hbody => ?_, fun hbody => ?_, fun _ => ?_⟩
  · have hbody : p.condition = .body := hbody
    rw [hbody] at hp
    simp at hp
  · cases hbody
  · show (0 : UInt64).toUInt32 + UInt32.ofNat octets.length = UInt32.ofNat octets.length
    simp

end Stages

end ACENetwork.HTTP
