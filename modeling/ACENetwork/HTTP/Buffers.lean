import ACENetwork.HTTP.Stages

/-!
# The blocks that the scanner is given

`HTTP_ParserDriver_T::begin` has the head fragment copied, or scanned where it is. Flex puts a NUL
behind each match. The octet that it takes the place of is put back when the next one is looked
for, so that it is lost behind the last one.
-/
namespace ACENetwork.HTTP
open BitTorrent (Fault)
open Library Library.Blocks Library.Regex

section Source

/-- `yy_scan_bytes` takes an `int`, and adds the end of the buffer to it. -/
def overhead (useYYScanBuffer : Bool) : ℕ := if useYYScanBuffer then 0 else 2

/-- Where the NUL is that the last match leaves. The rule of any octet puts the octet back, and so
do those of a body whose length is not known, and of the delimiter of a chunk. -/
def terminator (p : Parser) (octets : Bytes) : Option ℕ :=
  match lex p octets with
  | .error _ => none
  | .ok (.more _ _) => none
  | .ok (.token .endOfInput _ _) =>
    match p.condition, first chunkedLines octets with
    | .chunkedBody, some (n, .chunkLine) => some n
    | _, _ => none
  | .ok (.token .delimiter n q) =>
    if p.condition = .responseHeaders ∧ q.condition = .initial then none else some n
  | .ok (.token _ n _) => if p.condition = .data2 then none else some n

namespace Parser

variable (p : Parser)

def withChain (chain : List Bytes) : Parser := { p with chain := chain }

def scanned (block : Bytes) : Bytes :=
  match closing step (start p) 0 block with
  | none => block
  | some (s, left) =>
    match terminator s.parser left with
    | none => block
    | some n => block.set (block.length - left.length + n) 0

/-- The chain as the last action finds it; only `record` reads its octets. -/
def scannedChain (useYYScanBuffer : Bool) : List Bytes :=
  if useYYScanBuffer then p.chain.modifyHead p.scanned else p.chain

/-- `HTTP_ParserDriver_T::parse` on the head of a chain, whose length `begin` casts to an `int`. -/
def parseHead (useYYScanBuffer : Bool) : Verdict :=
  if 2 ^ 31 ≤ (p.chain.headD []).length + overhead useYYScanBuffer then .error .signedOverflow
  else parse (p.withChain (p.scannedChain useYYScanBuffer)) (p.chain.headD [])

end Parser

end Source

section Chain
variable {p q : Parser} {s s' : State} {chain : List Bytes} {octets block front rest left : Bytes}
  {n k : ℕ} {verdict : Verdict} {useYYScanBuffer : Bool}

@[simp] theorem length_scanned (p : Parser) (block : Bytes) :
    (p.scanned block).length = block.length := by
  rw [Parser.scanned]
  split
  · rfl
  · split
    · rfl
    · rw [List.length_set]

theorem length_scannedChain (p : Parser) (useYYScanBuffer : Bool) :
    (p.scannedChain useYYScanBuffer).flatten.length = p.chain.flatten.length := by
  rw [Parser.scannedChain]
  split_ifs
  · cases p.chain <;> simp
  · rfl

theorem scanned_of_steps (hsteps : Steps step (start p) block s left) (hleft : left ≠ [])
    (hstep : step s left = (.closed verdict, k)) (hterminator : terminator s.parser left = some n)
    (hblock : block = front ++ rest) (hn : front.length + left.length = block.length + n) :
    p.scanned block = front ++ rest.set 0 0 := by
  have hclosing : closing step (start p) 0 block = some (s, left) :=
    hsteps.closing_eq.trans (closing_closed hleft hstep)
  obtain ⟨taken, htaken⟩ := hsteps.exists_front
  have hlength := congrArg List.length htaken
  rw [List.length_append] at hlength
  have hindex : block.length - left.length + n = front.length := by omega
  rw [Parser.scanned, hclosing]
  dsimp only
  rw [hterminator]
  dsimp only
  rw [hindex, hblock, List.set_append_right _ _ le_rfl, Nat.sub_self]

/-- The chain of a parser counts with its length only, until a record is passed on. -/
def Lexed.withChain (chain : List Bytes) : Lexed → Lexed
  | .token t n p => .token t n (p.withChain chain)
  | .more n p => .more n (p.withChain chain)

def State.withChain (chain : List Bytes) (s : State) : State :=
  { s with parser := s.parser.withChain chain }

theorem lexOne_withChain (pattern : Rules.Pattern) (last : ℕ) (token : Bytes → Token)
    (next : StartCondition) (p : Parser) (octets : Bytes) :
    lexOne pattern last token next (p.withChain chain) octets =
      (lexOne pattern last token next p octets).withChain chain := by
  rw [lexOne, lexOne]
  cases pattern.longest octets <;> rfl

theorem beginEncoded_withChain (p : Parser) (encoding : Bytes) :
    beginEncoded (p.withChain chain) encoding = (beginEncoded p encoding).withChain chain := by
  rw [beginEncoded, beginEncoded]
  split_ifs <;> rfl

theorem endRequestHeaders_withChain (p : Parser) :
    endRequestHeaders (p.withChain chain) = (endRequestHeaders p).withChain chain := by
  have hrecord : (p.withChain chain).record = p.record := rfl
  rw [endRequestHeaders, endRequestHeaders, hrecord]
  cases p.record.contentLength with
  | some length => rfl
  | none =>
    cases p.record.headers.lookup (tolower transferEncoding) with
    | some encoding => exact beginEncoded_withChain p encoding
    | none => rfl

theorem unknownLength_withChain (hlength : chain.flatten.length = p.chain.flatten.length) :
    (p.withChain chain).unknownLength = p.unknownLength.withChain chain := by
  have htotal : (p.withChain chain).totalLength = p.totalLength := by
    show UInt64.ofNat chain.flatten.length = _
    rw [hlength]
    rfl
  rw [Parser.unknownLength, htotal]
  rfl

theorem endResponseHeaders_withChain (hlength : chain.flatten.length = p.chain.flatten.length) :
    endResponseHeaders (p.withChain chain) = (endResponseHeaders p).withChain chain := by
  have hrecord : (p.withChain chain).record = p.record := rfl
  rw [endResponseHeaders, endResponseHeaders, hrecord]
  cases p.record.contentLength with
  | some length =>
    dsimp only
    split_ifs
    · rw [unknownLength_withChain hlength]
      rfl
    · rfl
  | none =>
    cases p.record.headers.lookup (tolower transferEncoding) with
    | some encoding => exact beginEncoded_withChain p encoding
    | none =>
      dsimp only
      rw [unknownLength_withChain hlength]
      rfl

theorem countChunk_withChain (p : Parser) :
    countChunk (p.withChain chain) = (countChunk p).withChain chain := by
  have hsize : (p.withChain chain).currentChunkSize = p.currentChunkSize := rfl
  rw [countChunk, countChunk, hsize]
  split_ifs <;> rfl

theorem beginChunk_withChain (p : Parser) (digits : Bytes) :
    beginChunk (p.withChain chain) digits = (beginChunk p digits).withChain chain := by
  rw [beginChunk, countChunk_withChain]
  rfl

theorem lexChunk_withChain (p : Parser) (octets : Bytes) :
    lexChunk (p.withChain chain) octets = (lexChunk p octets).withChain chain := by
  rw [lexChunk, lexChunk]
  cases (seq Rules.chunkLine Rules.crlf).longest octets with
  | none => rfl
  | some n =>
    have hsize : ((p.withChain chain).addOffset (UInt32.ofNat n)).contentLengthOrChunkSize =
      (p.addOffset (UInt32.ofNat n)).contentLengthOrChunkSize := rfl
    dsimp only
    rw [hsize]
    split_ifs <;> rfl

theorem lexChunkedBody_withChain (p : Parser) (octets : Bytes) :
    lexChunkedBody (p.withChain chain) octets = (lexChunkedBody p octets).withChain chain := by
  rw [lexChunkedBody, lexChunkedBody]
  rcases first chunkedLines octets with _ | ⟨n, rule⟩
  · rfl
  · cases rule with
    | header => rfl
    | delimiter => rfl
    | chunkLine =>
      dsimp only
      cases chunkLineDigits (octets.take n) with
      | none =>
        dsimp only
        rw [countChunk_withChain]
        rfl
      | some digits =>
        dsimp only
        rw [beginChunk_withChain, lexChunk_withChain]

theorem lex_withChain (hlength : chain.flatten.length = p.chain.flatten.length) (octets : Bytes) :
    lex (p.withChain chain) octets = (lex p octets).map (Lexed.withChain chain) := by
  have hcondition : (p.withChain chain).condition = p.condition := rfl
  rw [lex, lex, hcondition]
  cases p.condition
  case initial =>
    refine congrArg Except.ok ?_
    rw [lexInitial, lexInitial]
    rcases first [(Rules.version, StartCondition.response), (Rules.method, .request)] octets with
      _ | ⟨n, c⟩
    · rfl
    · cases c
      case response => exact lexOne_withChain _ _ _ _ (p.begin .response) octets
      all_goals exact lexOne_withChain _ _ _ _ (p.begin .request) octets
  case requestHeaders =>
    refine congrArg Except.ok ?_
    rw [lexRequestHeaders, lexRequestHeaders]
    rcases first requestLines octets with _ | ⟨n, rule⟩
    · rfl
    · have hend : endRequestHeaders ((p.addOffset (UInt32.ofNat n)).withChain chain) =
        (endRequestHeaders (p.addOffset (UInt32.ofNat n))).withChain chain :=
        endRequestHeaders_withChain _
      cases rule
      case header => rfl
      all_goals exact congrArg (Lexed.token .delimiter n) hend
  case responseHeaders =>
    refine congrArg Except.ok ?_
    rw [lexResponseHeaders, lexResponseHeaders]
    rcases first responseLines octets with _ | ⟨n, rule⟩
    · rfl
    · have hend := endResponseHeaders_withChain (p := p.addOffset (UInt32.ofNat n)) hlength
      cases rule
      case header => rfl
      all_goals exact congrArg (Lexed.token .delimiter n) hend
  case body =>
    refine congrArg Except.ok ?_
    have hskip : (p.withChain chain).bodyOrChunkBytesToSkip = p.bodyOrChunkBytesToSkip := rfl
    rw [lexBody, lexBody, hskip, unknownLength_withChain hlength]
    split_ifs <;> rfl
  case chunkedBody => exact congrArg Except.ok (lexChunkedBody_withChain p octets)
  case chunk => exact congrArg Except.ok (lexChunk_withChain p octets)
  case data =>
    refine congrArg Except.ok ?_
    have hskip : ((p.withChain chain).bodyOrChunkBytesSkipped 1).bodyOrChunkBytesToSkip =
      (p.bodyOrChunkBytesSkipped 1).bodyOrChunkBytesToSkip := rfl
    have hmulti : ((p.withChain chain).bodyOrChunkBytesSkipped 1).multiBody =
      (p.bodyOrChunkBytesSkipped 1).multiBody := rfl
    dsimp only [lexData]
    rw [hskip, hmulti]
    split_ifs <;> rfl
  case data2 =>
    have hskip : ((p.withChain chain).bodyOrChunkBytesSkipped 1).bodyOrChunkBytesToSkip =
      (p.bodyOrChunkBytesSkipped 1).bodyOrChunkBytesToSkip := rfl
    dsimp only [lexData2]
    rw [hskip]
    split_ifs <;> rfl
  case method => rfl
  all_goals exact congrArg Except.ok (lexOne_withChain _ _ _ _ p octets)

theorem header_withChain (p : Parser) (line : Bytes) :
    (p.withChain chain).header line = (p.header line).map (Parser.withChain · chain) := by
  rw [Parser.header, Parser.header]
  cases headerLine line with
  | none => rfl
  | some field =>
    dsimp only
    split_ifs <;> rfl

theorem goOn_withChain {e : Expecting} {x : Except Fault Parser} (h : goOn e x = .opened s') :
    goOn e (x.map (Parser.withChain · chain)) = .opened (s'.withChain chain) := by
  obtain ⟨r, rfl, rfl⟩ := goOn_opened h
  rfl

theorem delimited_withChain (h : delimited q = .opened s') :
    delimited (q.withChain chain) = .opened (s'.withChain chain) := by
  rw [delimited] at h ⊢
  have hheader : (q.withChain chain).headerOnly = q.headerOnly := rfl
  have hmulti : (q.withChain chain).multiBody = q.multiBody := rfl
  rw [hheader, hmulti]
  split_ifs at h ⊢
  · cases h
  · cases h
  · cases h
    rfl

/-- Nor does the parser look at the chain, as long as it goes on with a single body. -/
theorem shift_withChain {e : Expecting} {t : Token} (h : shift e t q = .opened s')
    (hmulti : s'.parser.multiBody = false) (he : e ≠ .bodies) :
    shift e t (q.withChain chain) = .opened (s'.withChain chain) := by
  cases e <;> cases t <;> try (cases h; done)
  case version.version method uri version =>
    dsimp only [shift] at h ⊢
    cases hversion : versionDigits version with
    | none =>
      rw [hversion] at h
      cases h
    | some digits =>
      rw [hversion] at h
      cases h
      rfl
  case requestHeaders.header =>
    dsimp only [shift] at h ⊢
    rw [header_withChain]
    exact goOn_withChain h
  case requestHeaders.delimiter => exact delimited_withChain h
  case responseHeaders.header =>
    dsimp only [shift] at h ⊢
    rw [header_withChain]
    exact goOn_withChain h
  case responseHeaders.delimiter version =>
    dsimp only [shift] at h ⊢
    cases hversion : versionDigits version with
    | none =>
      rw [hversion] at h
      cases h
    | some digits =>
      rw [hversion] at h
      exact delimited_withChain h
  case body.body =>
    dsimp only [shift] at h
    split at h
    · split_ifs at h with hmany
      · cases h
        cases hmulti.symm.trans hmany
      · rw [accept] at h
        cases h
    · cases h
  case bodies.body => exact absurd rfl he
  case chunks.header =>
    dsimp only [shift] at h ⊢
    rw [header_withChain]
    exact goOn_withChain h
  case trailers.header =>
    dsimp only [shift] at h ⊢
    rw [header_withChain]
    exact goOn_withChain h
  all_goals
    cases h
    rfl

theorem step_withChain (hlength : chain.flatten.length = s.parser.chain.flatten.length)
    (hmulti : s'.parser.multiBody = false) (he : s.expecting ≠ .bodies)
    (h : step s octets = (.opened s', n)) :
    step (s.withChain chain) octets = (.opened (s'.withChain chain), n) := by
  have hlex : lex (s.withChain chain).parser octets =
    (lex s.parser octets).map (Lexed.withChain chain) := lex_withChain hlength octets
  rw [step] at h ⊢
  rw [hlex]
  cases hs : lex s.parser octets with
  | error f =>
    rw [hs] at h
    cases h
  | ok l =>
    rw [hs] at h
    cases l with
    | token t k q =>
      obtain ⟨hshift, rfl⟩ := Prod.mk.inj h
      exact congrArg (·, k) (shift_withChain hshift hmulti he)
    | more k q =>
      cases h
      rfl

theorem steps_withChain (hp : p.condition = .initial ∨ p.condition = .request ∨
    p.condition = .response) (hmulti : p.multiBody = false)
    (hlength : chain.flatten.length = p.chain.flatten.length)
    (h : Steps step (start p) octets s rest) :
    Steps step (start (p.withChain chain)) octets (s.withChain chain) rest := by
  have hstage := stage_of_steps hp hmulti (.refl (start p) octets)
  have hsteps {s s' : State} {text rest : Bytes} (h : Steps step s text s' rest)
      (hs : Stage p octets s text) :
      Steps step (s.withChain chain) text (s'.withChain chain) rest := by
    induction h with
    | refl => exact .refl _ _
    | head hpiece hstep _ ih =>
      have hs' := hs.step hstep
      refine .head hpiece (step_withChain ?_ hs'.multiBody ?_ hstep) (ih hs')
      · rw [hs.chain, hlength]
      · intro he
        have hfits := hs.fits
        rw [he] at hfits
        exact hfits
  exact hsteps h hstage

end Chain

section Prefixes
variable {p : Parser} {s s' : State} {l : Lexed} {piece rest rest' : Bytes} {n : ℕ}

theorem take_piece {k : ℕ} (hk : k ≤ piece.length) (rest rest' : Bytes) :
    (piece ++ rest).take k = (piece ++ rest').take k := by
  rw [List.take_append_of_le_length hk, List.take_append_of_le_length hk]

theorem lexOne_front {pattern : Rules.Pattern} {last : ℕ} {token : Bytes → Token}
    {next : StartCondition} (hfront : rest' <+: rest)
    (h : lexOne pattern last token next p (piece ++ rest) = l) (htaken : l.taken = piece.length)
    (hend : ∀ n q, l ≠ .token .endOfInput n q) :
    lexOne pattern last token next p (piece ++ rest') = l := by
  subst h
  rw [lexOne] at htaken hend ⊢
  cases hlongest : pattern.longest (piece ++ rest) with
  | none =>
    rw [hlongest] at hend
    exact absurd rfl (hend 1 p)
  | some n =>
    rw [hlongest] at htaken
    obtain rfl : n = piece.length := htaken
    have hshort := longest_of_front ((List.prefix_append_right_inj piece).mpr hfront) hlongest
      (by simp)
    rw [lexOne, hlongest, hshort]
    dsimp only
    rw [take_piece (Nat.sub_le _ _) rest rest']

/-- The start of a message that is read again ends within what is taken then. -/
theorem start_le {pattern : Rules.Pattern} {m : ℕ} {octets : Bytes}
    (hblank : pattern.Over fun b => b ≠ 0x20) (hm : octets.take m ∈ pattern.language)
    (h : (seq pattern Rules.sp).longest octets = some n) : m ≤ n := by
  obtain ⟨u, hu, v, hv, heq⟩ := mem_seq.mp (longest_mem h)
  obtain rfl := mem_word.mp hv
  by_contra hlt
  have hmem : (0x20 : UInt8) ∈ octets.take m := by
    refine List.mem_of_mem_take (i := n) ?_
    rw [List.take_take, Nat.min_eq_left (by omega), ← heq]
    exact List.mem_append_right u (by decide)
  exact hblank.mem hm _ hmem rfl

theorem lexInitial_front (hfront : rest' <+: rest) (h : lexInitial p (piece ++ rest) = l)
    (htaken : l.taken = piece.length) (hend : ∀ n q, l ≠ .token .endOfInput n q) :
    lexInitial p (piece ++ rest') = l := by
  have hshort := (List.prefix_append_right_inj piece).mpr hfront
  have hone {pattern : Rules.Pattern} {token : Bytes → Token} {next : StartCondition} {m : ℕ}
      {q : Parser} (hblank : pattern.Over fun b => b ≠ 0x20)
      (hm : (piece ++ rest).take m ∈ pattern.language)
      (h : lexOne (seq pattern Rules.sp) 1 token next q (piece ++ rest) = l) :
      m ≤ (piece ++ rest').length := by
    rcases hlongest : (seq pattern Rules.sp).longest (piece ++ rest) with _ | n
    · rw [lexOne, hlongest] at h
      exact absurd h.symm (hend 1 q)
    · rw [lexOne, hlongest] at h
      have hn : n = piece.length := by
        rw [← htaken, ← h]
        rfl
      have hle := start_le hblank hm hlongest
      rw [List.length_append]
      omega
  rw [lexInitial] at h ⊢
  rcases hfirst : first [(Rules.version, StartCondition.response), (Rules.method, .request)]
    (piece ++ rest) with _ | ⟨m, c⟩
  · rw [hfirst] at h
    exact absurd h.symm (hend 1 p)
  · obtain ⟨r, hr, hlongest⟩ := first_some hfirst
    rw [hfirst] at h
    simp only [List.mem_cons, Prod.mk.injEq, List.not_mem_nil, or_false] at hr
    rcases hr with ⟨rfl, rfl⟩ | ⟨rfl, rfl⟩
    · rw [first_of_front hshort hfirst (hone (by decide +kernel) (longest_mem hlongest) h)]
      exact lexOne_front hfront h htaken hend
    · rw [first_of_front hshort hfirst (hone (by decide +kernel) (longest_mem hlongest) h)]
      exact lexOne_front hfront h htaken hend

theorem lexChunk_front (hfront : rest' <+: rest) (h : lexChunk p (piece ++ rest) = l)
    (htaken : l.taken = piece.length) (hend : ∀ n q, l ≠ .token .endOfInput n q) :
    (seq Rules.chunkLine Rules.crlf).longest (piece ++ rest) = some piece.length ∧
      lexChunk p (piece ++ rest') = l := by
  rw [lexChunk] at h ⊢
  cases hlongest : (seq Rules.chunkLine Rules.crlf).longest (piece ++ rest) with
  | none =>
    rw [hlongest] at h
    exact absurd h.symm (hend 1 p)
  | some n =>
    rw [hlongest] at h
    have hn : n = piece.length := by
      rw [← htaken, ← h]
      dsimp only
      split_ifs <;> rfl
    subst hn
    rw [longest_of_front ((List.prefix_append_right_inj piece).mpr hfront) hlongest (by simp)]
    exact ⟨rfl, h⟩

theorem lexChunkedBody_front (hfront : rest' <+: rest)
    (h : lexChunkedBody p (piece ++ rest) = l) (htaken : l.taken = piece.length)
    (hend : ∀ n q, l ≠ .token .endOfInput n q) : lexChunkedBody p (piece ++ rest') = l := by
  have hshort := (List.prefix_append_right_inj piece).mpr hfront
  rw [lexChunkedBody] at h ⊢
  rcases hfirst : first chunkedLines (piece ++ rest) with _ | ⟨n, rule⟩
  · rw [hfirst] at h
    exact absurd h.symm (hend 1 p)
  rw [hfirst] at h
  cases rule with
  | header =>
    have hn : n = piece.length := by
      rw [← htaken, ← h]
      rfl
    subst hn
    rw [first_of_front hshort hfirst (by simp), ← h]
    dsimp only [lexHeader]
    rw [take_piece (Nat.sub_le _ _) rest' rest]
  | delimiter =>
    have hn : n = piece.length := by
      rw [← htaken, ← h]
      rfl
    subst hn
    rw [first_of_front hshort hfirst (by simp)]
    exact h
  | chunkLine =>
    dsimp only at h
    cases hdigits : chunkLineDigits ((piece ++ rest).take n) with
    | none =>
      rw [hdigits] at h
      exact absurd h.symm (hend 1 _)
    | some digits =>
      rw [hdigits] at h
      obtain ⟨hlongest, hchunk⟩ := lexChunk_front hfront h htaken hend
      obtain ⟨r, hr, hlongest'⟩ := first_some hfirst
      have hr : r = seq Rules.chunkLine Rules.crlf := by
        simp only [chunkedLines, line, List.mem_cons, Prod.mk.injEq, List.not_mem_nil,
          or_false, reduceCtorEq, and_false] at hr
        exact hr.1
      rw [hr, hlongest] at hlongest'
      cases hlongest'
      rw [first_of_front hshort hfirst (by simp)]
      dsimp only
      rw [take_piece le_rfl rest' rest, hdigits]
      exact hchunk

/-- What the scanner takes does not depend on what is behind it, unless it is the end. -/
theorem lex_front (hfront : rest' <+: rest) (h : lex p (piece ++ rest) = .ok l)
    (htaken : l.taken = piece.length) (hend : ∀ n q, l ≠ .token .endOfInput n q) :
    lex p (piece ++ rest') = .ok l := by
  have hshort := (List.prefix_append_right_inj piece).mpr hfront
  rw [lex] at h ⊢
  cases hp : p.condition <;> rw [hp] at h
  case data2 =>
    dsimp only [lexData2] at h ⊢
    split_ifs at h with hzero hdelimiter <;> cases h
    · have hpiece : piece.length = 3 := htaken.symm
      have hdrop (rest : Bytes) : ((piece ++ rest).drop 1).take 2 = piece.drop 1 := by
        rw [List.drop_append_of_le_length (by omega), List.take_append_of_le_length
          (by rw [List.length_drop]; omega), List.take_of_length_le (by rw [List.length_drop]; omega)]
      rw [hdrop] at hdelimiter
      rw [if_pos hzero, if_pos ((hdrop rest').trans hdelimiter)]
    · rw [if_neg hzero]
  case requestHeaders =>
    replace h := Except.ok.inj h
    refine congrArg Except.ok ?_
    rw [lexRequestHeaders] at h ⊢
    rcases hfirst : first requestLines (piece ++ rest) with _ | ⟨n, rule⟩
    · rw [hfirst] at h
      exact absurd h.symm (hend 1 p)
    · rw [hfirst] at h
      have hn : n = piece.length := by
        rw [← htaken, ← h]
        cases rule <;> rfl
      subst hn
      rw [first_of_front hshort hfirst (by simp), ← h]
      cases rule
      case header =>
        dsimp only [lexHeader]
        rw [take_piece (Nat.sub_le _ _) rest' rest]
      all_goals rfl
  case responseHeaders =>
    replace h := Except.ok.inj h
    refine congrArg Except.ok ?_
    rw [lexResponseHeaders] at h ⊢
    rcases hfirst : first responseLines (piece ++ rest) with _ | ⟨n, rule⟩
    · rw [hfirst] at h
      exact absurd h.symm (hend 1 p)
    · rw [hfirst] at h
      have hn : n = piece.length := by
        rw [← htaken, ← h]
        cases rule <;> rfl
      subst hn
      rw [first_of_front hshort hfirst (by simp), ← h]
      cases rule
      case header =>
        dsimp only [lexHeader]
        rw [take_piece (Nat.sub_le _ _) rest' rest]
      all_goals rfl
  all_goals
    replace h := Except.ok.inj h
    refine congrArg Except.ok ?_
  case initial => exact lexInitial_front hfront h htaken hend
  case chunkedBody => exact lexChunkedBody_front hfront h htaken hend
  case chunk => exact (lexChunk_front hfront h htaken hend).2
  case method => exact h
  case body => exact h
  case data => exact h
  all_goals exact lexOne_front hfront h htaken hend

theorem step_front (hfront : rest' <+: rest)
    (h : step s (piece ++ rest) = (.opened s', piece.length)) :
    step s (piece ++ rest') = (.opened s', piece.length) := by
  rcases step_opened h with ⟨t, q, hlex, hshift⟩ | ⟨q, hlex, rfl⟩
  · have hend : ∀ n r, Lexed.token t piece.length q ≠ .token .endOfInput n r := by
      rintro n r heq
      cases heq
      obtain ⟨e, p⟩ := s
      cases hshift
    have hlex' := lex_front hfront hlex rfl hend
    rw [step, hlex] at h
    rw [step, hlex', ← h]
  · rw [step, lex_front hfront hlex rfl (fun _ _ => Lexed.noConfusion)]

end Prefixes

/-- The octets of a chunk that have been taken, and are counted with the next line. -/
def Parser.uncounted (p : Parser) : ℕ :=
  match p.condition with
  | .chunkedBody => if p.currentChunkSize = 0 then 0 else p.currentChunkSize.toNat + 2
  | .data2 => p.contentLengthOrChunkSize.toNat - p.bodyOrChunkBytesToSkip.toNat
  | _ => 0

def Parser.Skips (p : Parser) : Prop :=
  p.condition = .data2 → 1 ≤ p.bodyOrChunkBytesToSkip.toNat ∧
    p.bodyOrChunkBytesToSkip.toNat ≤ p.contentLengthOrChunkSize.toNat

structure Counting (total : ℕ) (s : State) (left : Bytes) : Prop where
  counted : s.parser.getOffset.toNat + s.parser.uncounted + left.length ≤ total
  skips : s.parser.Skips
  places : ∀ e ∈ s.parser.chunks, e.1.toNat < 2 ^ 32

section Counting
variable {p q r : Parser} {s s' : State} {t : Token} {octets piece rest left : Bytes} {n total : ℕ}
  {size : UInt32}

theorem toNat_add_le (a b : UInt32) : (a + b).toNat ≤ a.toNat + b.toNat := by
  rw [UInt32.toNat_add]
  exact Nat.mod_le _ _

theorem toNat_addOffset_le (p : Parser) (n : ℕ) :
    (p.addOffset (UInt32.ofNat n)).getOffset.toNat ≤ p.getOffset.toNat + n := by
  rw [getOffset_addOffset]
  refine (toNat_add_le _ _).trans (Nat.add_le_add_left ?_ _)
  rw [UInt32.toNat_ofNat']
  exact Nat.mod_le _ _

theorem getOffset_beginChunk_le (hp : p.condition = .chunkedBody) (digits : Bytes) :
    (beginChunk p digits).getOffset.toNat ≤ p.getOffset.toNat + p.uncounted := by
  have hcount : (beginChunk p digits).getOffset = (countChunk p).getOffset := rfl
  rw [hcount, countChunk, Parser.uncounted, hp]
  dsimp only
  split_ifs
  · exact le_rfl
  · rw [getOffset_addOffset]
    have htwo : (2 : UInt32).toNat = 2 := rfl
    have hsize := toNat_add_le p.currentChunkSize 2
    have hall := toNat_add_le p.getOffset (p.currentChunkSize + 2)
    omega

theorem lexChunk_cases {l : Lexed} (h : lexChunk p octets = l)
    (hend : ∀ n q, l ≠ .token .endOfInput n q) : ∃ n,
    l = .token (.chunk 0) n
        ({ p.addOffset (UInt32.ofNat n) with finished := true }.begin .chunkedBody) ∨
      p.contentLengthOrChunkSize ≠ 0 ∧
        l = .more n ((p.addOffset (UInt32.ofNat n)).begin .data2) := by
  rw [lexChunk] at h
  cases hlongest : (seq Rules.chunkLine Rules.crlf).longest octets with
  | none =>
    rw [hlongest] at h
    exact absurd h.symm (hend 1 p)
  | some n =>
    rw [hlongest] at h
    dsimp only at h
    split_ifs at h with hzero
    · exact ⟨n, .inl h.symm⟩
    · exact ⟨n, .inr ⟨hzero, h.symm⟩⟩

theorem lex_chunk (h : lex p octets = .ok (.token (.chunk size) n q)) :
    (p.condition = .chunkedBody ∧ ∃ digits, lexChunk (beginChunk p digits) octets =
        .token (.chunk size) n q) ∨
      (p.condition = .chunk ∧ lexChunk p octets = .token (.chunk size) n q) ∨
        p.condition = .data2 ∧ p.bodyOrChunkBytesToSkip - 1 = 0 ∧ n = 3 ∧
          size = p.contentLengthOrChunkSize.toUInt32 ∧ q.getOffset = p.getOffset := by
  rcases lex_inBody h trivial with ⟨-, n, q, heq, -⟩ | hchunked | hchunk | ⟨hp, hdata⟩
  · cases heq
  · exact .inl hchunked
  · exact .inr (.inl hchunk)
  · dsimp only [lexData2] at hdata
    split_ifs at hdata with hzero <;> cases hdata
    exact .inr (.inr ⟨hp, hzero, rfl, rfl, rfl⟩)

theorem lex_chunk_le (h : lex p octets = .ok (.token (.chunk size) n q))
    (hskip : p.Skips) : q.getOffset.toNat + (if size = 0 then 0 else size.toNat + 2) ≤
      p.getOffset.toNat + p.uncounted + n := by
  have hend {q' : Parser} : ∀ k r, Lexed.token (.chunk size) n q' ≠ .token .endOfInput k r :=
    fun _ _ => by simp
  rcases lex_chunk h with ⟨hp, digits, hline⟩ | ⟨hp, hline⟩ | ⟨hp, hzero, rfl, rfl, hoffset⟩
  · obtain ⟨k, heq | ⟨-, heq⟩⟩ := lexChunk_cases hline hend
    · cases heq
      have hle := getOffset_beginChunk_le hp digits
      have hadd := toNat_addOffset_le (beginChunk p digits) n
      rw [if_pos rfl]
      show ((beginChunk p digits).addOffset (UInt32.ofNat n)).getOffset.toNat + 0 ≤ _
      omega
    · cases heq
  · obtain ⟨k, heq | ⟨-, heq⟩⟩ := lexChunk_cases hline hend
    · cases heq
      have hadd := toNat_addOffset_le p n
      rw [if_pos rfl]
      show (p.addOffset (UInt32.ofNat n)).getOffset.toNat + 0 ≤ _
      omega
    · cases heq
  · obtain ⟨hpos, hle⟩ := hskip hp
    have hone : p.bodyOrChunkBytesToSkip = 1 := sub_eq_zero.mp hzero
    have hsize : p.contentLengthOrChunkSize.toUInt32.toNat ≤ p.contentLengthOrChunkSize.toNat := by
      rw [UInt64.toNat_toUInt32]
      exact Nat.mod_le _ _
    have htoOne : (1 : UInt64).toNat = 1 := rfl
    rw [hoffset, Parser.uncounted, hp]
    dsimp only
    rw [hone] at hle ⊢
    split_ifs <;> omega

theorem lex_more_le (h : lex p octets = .ok (.more n q)) (hpos : 1 ≤ n) (hp : p.condition ≠ .chunk)
    (hskip : p.Skips) :
    q.getOffset.toNat + q.uncounted ≤ p.getOffset.toNat + p.uncounted + n ∧ q.Skips := by
  rcases lex_more_cases h with ⟨-, hoffset, hq⟩ | ⟨hp', digits, hline⟩ | ⟨hp', -⟩ |
    ⟨hp', rfl, rfl, hne⟩
  · refine ⟨?_, fun hq' => absurd (hq.symm.trans hq') (by decide)⟩
    rw [hoffset, Parser.uncounted, hq]
    dsimp only
    omega
  · obtain ⟨k, heq | ⟨hne, heq⟩⟩ := lexChunk_cases hline fun _ _ => Lexed.noConfusion
    · cases heq
    · cases heq
      have hle := getOffset_beginChunk_le hp' digits
      have hadd := toNat_addOffset_le (beginChunk p digits) n
      have hsize : (beginChunk p digits).contentLengthOrChunkSize.toNat ≠ 0 := fun hzero =>
        hne (UInt64.toNat_inj.mp hzero)
      refine ⟨?_, fun _ => ⟨Nat.one_le_iff_ne_zero.mpr hsize, le_rfl⟩⟩
      show ((beginChunk p digits).addOffset (UInt32.ofNat n)).getOffset.toNat +
        ((beginChunk p digits).contentLengthOrChunkSize.toNat -
          (beginChunk p digits).contentLengthOrChunkSize.toNat) ≤ _
      omega
  · exact absurd hp' hp
  · obtain ⟨hone, hle⟩ := hskip hp'
    have hne' : (p.bodyOrChunkBytesToSkip - 1).toNat ≠ 0 := fun hzero =>
      hne (UInt64.toNat_inj.mp hzero)
    have hsub : (p.bodyOrChunkBytesToSkip - 1).toNat = p.bodyOrChunkBytesToSkip.toNat - 1 :=
      UInt64.toNat_sub_of_le _ _ (UInt64.le_iff_toNat_le.mpr hone)
    have hq : (p.bodyOrChunkBytesSkipped 1).condition = .data2 := hp'
    have hskips : 1 ≤ (p.bodyOrChunkBytesToSkip - 1).toNat ∧
        (p.bodyOrChunkBytesToSkip - 1).toNat ≤ p.contentLengthOrChunkSize.toNat := by omega
    refine ⟨?_, fun _ => hskips⟩
    rw [Parser.uncounted, Parser.uncounted, hq, hp']
    show p.getOffset.toNat + (p.contentLengthOrChunkSize.toNat -
      (p.bodyOrChunkBytesToSkip - 1).toNat) ≤ p.getOffset.toNat +
        (p.contentLengthOrChunkSize.toNat - p.bodyOrChunkBytesToSkip.toNat) + 1
    omega

theorem uncounted_eq_zero (hchunks : q.chunks = []) (hq : q.condition ≠ .data2) :
    q.uncounted = 0 := by
  have hsize : q.currentChunkSize = 0 := by
    rw [Parser.currentChunkSize, hchunks]
    rfl
  rw [Parser.uncounted]
  split
  · exact if_pos hsize
  · exact absurd ‹_› hq
  · rfl

theorem Counting.token {record : Record} {e : Expecting} (h : Counting total s (piece ++ left))
    (hlex : lex s.parser (piece ++ left) = .ok (.token t piece.length q)) (hend : t ≠ .endOfInput)
    (hbody : t ≠ .body) (hchunk : ∀ size, t ≠ .chunk size)
    (hq : q.uncounted ≤ s.parser.uncounted) (hne : q.condition ≠ .data2) :
    Counting total ⟨e, { q with record := record }⟩ left := by
  have hcounted := h.counted
  have hadd := toNat_addOffset_le s.parser piece.length
  rw [getOffset_addOffset, ← lex_offset hlex hend hbody hchunk] at hadd
  rw [List.length_append] at hcounted
  refine ⟨?_, fun hq' => absurd hq' hne, fun e he => h.places e ?_⟩
  · show q.getOffset.toNat + q.uncounted + left.length ≤ total
    omega
  · rwa [← (lex_scans hlex).chunks]

theorem Expecting.InHead.ne_data2 {e : Expecting} {c : StartCondition} (h : e.InHead)
    (hfits : e.Fits c) : c ≠ .data2 := by
  rintro rfl
  cases e <;> simp [Expecting.Fits, Expecting.InHead] at h hfits

theorem Token.LeadsTo.ne_data2 (h : t.LeadsTo p n q) (hp : p.condition ≠ .data2)
    (hbody : t ≠ .body) : q.condition ≠ .data2 := by
  cases t with
  | body => exact absurd rfl hbody
  | header => exact fun hq => hp (h.symm.trans hq)
  | version =>
    rcases h.2 with ⟨-, hq⟩ | ⟨-, hq⟩ <;> rw [hq] <;> decide
  | delimiter =>
    rcases h with hends | ⟨-, hq⟩
    · rcases hends.condition with hq | ⟨hq, -⟩ | hq | ⟨hq | hq, -⟩ <;> rw [hq] <;> decide
    · rw [hq]
      decide
  | endOfInput =>
    rcases h with hq | ⟨-, hq | hq⟩ | ⟨-, hq⟩ <;> rw [hq] <;> first | exact hp | decide
  | _ =>
    dsimp only [Token.LeadsTo] at h
    rw [h]
    decide

theorem Expecting.Fits.ne_chunk {e : Expecting} {c : StartCondition} (h : e.Fits c) :
    c ≠ .chunk := by
  rintro rfl
  cases e <;> simp [Expecting.Fits] at h

theorem Counting.step (hstage : Stage p octets s (piece ++ left)) (hchunks : p.chunks = [])
    (hpiece : piece ≠ []) (h : Counting total s (piece ++ left))
    (hstep : HTTP.step s (piece ++ left) = (.opened s', piece.length)) :
    Counting total s' left := by
  have hsingle := (hstage.step hstep).multiBody
  rcases step_opened hstep with ⟨t, q, hlex, hshift⟩ | ⟨q, hlex, rfl⟩
  · have hleads := lex_leadsTo hlex
    have hkept : q.chunks = s.parser.chunks := (lex_scans hlex).chunks
    have hfits := hstage.fits
    have hnone (he : s.expecting.InHead) : q.chunks = [] := by
      refine (hkept.trans (hstage.chunks ?_ ?_)).trans hchunks <;> intro hnot <;>
        rw [hnot] at he <;> exact he
    have hhead (record : Record) {e : Expecting} (he : s.expecting.InHead)
        (hend : t ≠ .endOfInput) (hbody : t ≠ .body) (hchunk : ∀ size, t ≠ .chunk size) :
        Counting total ⟨e, { q with record := record }⟩ left :=
      have hq := hleads.ne_data2 (he.ne_data2 hfits) hbody
      h.token hlex hend hbody hchunk
        ((uncounted_eq_zero (hnone he) hq).trans_le (Nat.zero_le _)) hq
    obtain ⟨e, r⟩ := s
    cases hshift with
    | chunk he size =>
      have hq : (q.chunk size).condition = .chunkedBody := hleads
      have hsize : (q.chunk size).currentChunkSize = size := by
        rw [Parser.currentChunkSize, Parser.chunk, List.getLast?_concat]
        rfl
      have hcounted := h.counted
      have hle := lex_chunk_le hlex h.skips
      rw [List.length_append] at hcounted
      refine ⟨?_, fun hq' => by simp [hq] at hq', fun e he => ?_⟩
      · show q.getOffset.toNat + (q.chunk size).uncounted + left.length ≤ total
        rw [Parser.uncounted, hq]
        dsimp only at hcounted hle ⊢
        rw [hsize]
        omega
      · rcases List.mem_append.mp he with he | he
        · rw [hkept] at he
          exact h.places e he
        · rw [List.mem_singleton.mp he]
          exact UInt32.toNat_toUInt64 _ ▸ UInt32.toNat_lt _
    | trailer he line record =>
      have hq : q.condition = r.condition := hleads
      have hr : r.condition = .chunkedBody := by
        have hr : r.condition = .chunkedBody ∨ r.condition = .data2 := by
          rcases he with he | he <;> dsimp only at he <;> subst he <;> exact hfits
        refine hr.resolve_right fun hdata => ?_
        rw [lex, show (State.mk e r).parser.condition = .data2 from hdata] at hlex
        dsimp only [lexData2] at hlex
        split_ifs at hlex <;> cases hlex
      refine h.token hlex (by simp) (by simp) (by simp) (le_of_eq ?_) (by rw [hq, hr]; decide)
      have hsize : q.currentChunkSize = r.currentChunkSize := by
        rw [Parser.currentChunkSize, hkept]
        rfl
      show q.uncounted = r.uncounted
      rw [Parser.uncounted, Parser.uncounted, hq, hsize, hr]
    | body hframe hframed => cases hsingle.symm.trans hframed
    | bodies hframe => exact hfits.elim
    | _ => exact hhead _ trivial (by simp) (by simp) (by simp)
  · have hcounted := h.counted
    obtain ⟨hle, hskips⟩ := lex_more_le hlex (List.length_pos_of_ne_nil hpiece)
      hstage.fits.ne_chunk h.skips
    rw [List.length_append] at hcounted
    refine ⟨?_, hskips, fun e he => h.places e ?_⟩
    · show q.getOffset.toNat + q.uncounted + left.length ≤ total
      omega
    · have hkept : q.chunks = s.parser.chunks := (lex_scans hlex).chunks
      rwa [← hkept]

def CountsAt (p : Parser) (octets : Bytes) (s : State) (left : Bytes) : Prop :=
  Stage p octets s left ∧ Counting octets.length s left

theorem countsAt_start (hp : p.Clean) (octets : Bytes) : CountsAt p octets (start p) octets := by
  have hplace : (start p).parser.getOffset.toNat = 0 := rfl
  have hcondition : (start p).parser.condition = .initial := hp.condition
  have huncounted : (start p).parser.uncounted = 0 :=
    uncounted_eq_zero hp.chunks (hcondition ▸ by decide)
  refine ⟨stage_of_steps (.inl hp.condition) hp.multiBody (.refl _ _), ?_, fun hq => ?_, ?_⟩
  · omega
  · cases hcondition.symm.trans hq
  · intro e he
    rw [show (start p).parser.chunks = [] from hp.chunks] at he
    cases he

theorem counting_of_steps (hp : p.Clean) (h : Steps HTTP.step (start p) octets s left) :
    Counting octets.length s left := by
  have hkeeps : CountsAt p octets s left := by
    refine Steps.keeps ?_ h (countsAt_start hp octets)
    rintro s s' piece rest hpiece ⟨hstage, hcounting⟩ hstep
    exact ⟨hstage.step hstep, hcounting.step hstage hp.chunks hpiece hstep⟩
  exact hkeeps.2

end Counting

end ACENetwork.HTTP
