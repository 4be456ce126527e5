import ACENetwork.HTTP.Rejection

/-!
# Bodies with a content length

The first octet of a body and the others are counted in two start conditions, each of which takes an
octet before it looks at what is left. A length of zero stands for one that is not known. A buffer
that is scanned where it is loses the octet behind the body.
-/
namespace ACENetwork.HTTP
open BitTorrent (Fault)
open Library Library.Blocks Library.Regex

def AnnouncesLength (p : Parser) (head octets : Bytes) (length : UInt64) : Prop :=
  ∃ lines v r, head = lines ++ lineEnd ∧
    Steps step (start p) (head ++ octets) ⟨.responseHeaders v, r⟩ (lineEnd ++ octets) ∧
      r.record.contentLength = some length

/-- The scanner returns the body behind its last octet, and as many octets are to be skipped as are
left of it. -/
def Counted (p : Parser) (head body rest : Bytes) : Prop :=
  ∃ s, Steps step (start p) (head ++ (body ++ rest)) s (body ++ rest) ∧
    (∀ t left, Steps step s (body ++ rest) t left →
      t.parser.bodyOrChunkBytesToSkip.toNat + rest.length = left.length) ∧
    ∃ t last q, Steps step s (body ++ rest) t (last :: rest) ∧
      lex t.parser (last :: rest) = .ok (.token .body 1 q)

/-- The message that is passed on is the body, and what is left begins the next message. -/
def Framed (useYYScanBuffer : Bool) (p : Parser) (octets body rest : Bytes) : Prop :=
  ∃ record message left q,
    p.dispatchHead useYYScanBuffer octets = .ok (.delivered (some record) message left, q) ∧
      message.flatten = body ∧ left.flatten = rest ∧ q.Clean ∧ q.chain = left

section Counting
variable {p q r : Parser} {s t : State} {data body rest left : Bytes} {last : UInt8}

theorem toNat_sub_one {n : UInt64} (h : n ≠ 0) : (n - 1).toNat + 1 = n.toNat := by
  have hpos : n.toNat ≠ 0 := fun hzero => h (UInt64.toNat_inj.mp hzero)
  have hle : (1 : UInt64) ≤ n := UInt64.le_iff_toNat_le.mpr (Nat.one_le_iff_ne_zero.mpr hpos)
  rw [UInt64.toNat_sub_of_le _ _ hle]
  exact Nat.sub_add_cancel (Nat.one_le_iff_ne_zero.mpr hpos)

theorem lexData_more (hp : p.condition = .data) (h : p.bodyOrChunkBytesToSkip - 1 ≠ 0)
    (octets : Bytes) : lex p octets = .ok (.more 1 (p.bodyOrChunkBytesSkipped 1)) := by
  have hne : (p.bodyOrChunkBytesSkipped 1).bodyOrChunkBytesToSkip ≠ 0 := h
  rw [lex, hp]
  dsimp only [lexData]
  rw [if_neg hne]

theorem lexData_last (hp : p.condition = .data) (hmulti : p.multiBody = false)
    (h : p.bodyOrChunkBytesToSkip - 1 = 0) (octets : Bytes) :
    lex p octets = .ok (.token .body 1
      ({ p.bodyOrChunkBytesSkipped 1 with finished := true }.begin .initial)) := by
  have hzero : (p.bodyOrChunkBytesSkipped 1).bodyOrChunkBytesToSkip = 0 := h
  have hsingle : (p.bodyOrChunkBytesSkipped 1).multiBody = false := hmulti
  rw [lex, hp]
  dsimp only [lexData]
  rw [if_pos hzero, hsingle]
  rfl

theorem lexBody_more (hp : p.condition = .body) (h : p.bodyOrChunkBytesToSkip ≠ 0)
    (octets : Bytes) : lex p octets = .ok (.more 1 ((p.bodyOrChunkBytesSkipped 1).begin .data)) := by
  rw [lex, hp]
  dsimp only [lexBody]
  rw [if_neg h]

theorem shift_body (hmulti : q.multiBody = false) : shift .body .body q = acceptFramed q := by
  rw [acceptFramed]
  dsimp only [shift]
  cases hframe : q.frame with
  | error f => rfl
  | ok r =>
    have hr : r.multiBody = false := (frame_multiBody hframe).trans hmulti
    dsimp only
    rw [hr]
    rfl

theorem steps_content (hp : p.condition = .data)
    (hskip : p.bodyOrChunkBytesToSkip.toNat = data.length + 1) :
    Steps step ⟨.body, p⟩ (data ++ last :: rest)
      ⟨.body, { p with bodyOrChunkBytesToSkip := 1 }⟩ (last :: rest) := by
  induction data generalizing p with
  | nil =>
    have hone : p.bodyOrChunkBytesToSkip = 1 := UInt64.toNat_inj.mp hskip
    rw [← hone]
    exact .refl _ _
  | cons b data ih =>
    have hne : p.bodyOrChunkBytesToSkip ≠ 0 := fun hzero => by
      rw [hzero] at hskip
      cases hskip
    have hleft : (p.bodyOrChunkBytesToSkip - 1).toNat = data.length + 1 := by
      have hsub := toNat_sub_one hne
      rw [List.length_cons] at hskip
      omega
    have hmore : p.bodyOrChunkBytesToSkip - 1 ≠ 0 := fun hzero => by
      rw [hzero] at hleft
      cases hleft
    have hstep : step ⟨.body, p⟩ ([b] ++ (data ++ last :: rest)) =
        (.opened ⟨.body, p.bodyOrChunkBytesSkipped 1⟩, [b].length) := by
      rw [step, lexData_more hp hmore]
      rfl
    have hall := Steps.head (List.cons_ne_nil b []) hstep
      (ih (p := p.bodyOrChunkBytesSkipped 1) hp hleft)
    exact hall

/-- Where the scanner stands within a body. -/
structure InBody (rest : Bytes) (s : State) (left : Bytes) : Prop where
  expecting : s.expecting = .body
  multiBody : s.parser.multiBody = false
  counted : s.parser.bodyOrChunkBytesToSkip.toNat + rest.length = left.length
  condition : s.parser.condition = .body ∧ 2 ≤ s.parser.bodyOrChunkBytesToSkip.toNat ∨
    s.parser.condition = .data ∧ 1 ≤ s.parser.bodyOrChunkBytesToSkip.toNat

theorem InBody.step {piece : Bytes} (h : InBody rest s (piece ++ left))
    (hstep : HTTP.step s (piece ++ left) = (.opened t, piece.length)) : InBody rest t left := by
  obtain ⟨e, p⟩ := s
  obtain ⟨he, hmulti, hcounted, hcondition⟩ := h
  obtain rfl : e = .body := he
  replace hmulti : p.multiBody = false := hmulti
  replace hcounted : p.bodyOrChunkBytesToSkip.toNat + rest.length = (piece ++ left).length := hcounted
  rw [List.length_append] at hcounted
  rcases hcondition with ⟨hp, hskip⟩ | ⟨hp, hskip⟩
  · replace hp : p.condition = .body := hp
    replace hskip : 2 ≤ p.bodyOrChunkBytesToSkip.toNat := hskip
    have hne : p.bodyOrChunkBytesToSkip ≠ 0 := fun hzero => by
      rw [hzero] at hskip
      simp at hskip
    have hsub := toNat_sub_one hne
    rw [HTTP.step, lexBody_more hp hne] at hstep
    obtain ⟨hopened, hlength⟩ := Prod.mk.inj hstep
    obtain rfl := Progress.opened.inj hopened
    refine ⟨rfl, hmulti, ?_, .inr ⟨rfl, ?_⟩⟩
    · show (p.bodyOrChunkBytesToSkip - 1).toNat + rest.length = left.length
      omega
    · show 1 ≤ (p.bodyOrChunkBytesToSkip - 1).toNat
      omega
  · replace hp : p.condition = .data := hp
    replace hskip : 1 ≤ p.bodyOrChunkBytesToSkip.toNat := hskip
    have hne : p.bodyOrChunkBytesToSkip ≠ 0 := fun hzero => by
      rw [hzero] at hskip
      simp at hskip
    have hsub := toNat_sub_one hne
    by_cases hlast : p.bodyOrChunkBytesToSkip - 1 = 0
    · rw [HTTP.step, lexData_last hp hmulti hlast] at hstep
      have hclosed := congrArg Prod.fst hstep
      dsimp only at hclosed
      have hsingle : ({ p.bodyOrChunkBytesSkipped 1 with finished := true }.begin
        .initial).multiBody = false := hmulti
      rw [shift_body hsingle, acceptFramed] at hclosed
      cases hclosed
    · have hpos : (p.bodyOrChunkBytesToSkip - 1).toNat ≠ 0 := fun hzero =>
        hlast (UInt64.toNat_inj.mp hzero)
      rw [HTTP.step, lexData_more hp hlast] at hstep
      obtain ⟨hopened, hlength⟩ := Prod.mk.inj hstep
      obtain rfl := Progress.opened.inj hopened
      refine ⟨rfl, hmulti, ?_, .inr ⟨hp, ?_⟩⟩
      · show (p.bodyOrChunkBytesToSkip - 1).toNat + rest.length = left.length
        omega
      · show 1 ≤ (p.bodyOrChunkBytesToSkip - 1).toNat
        omega

theorem scan_short (hp : p.condition = .data)
    (h : rest.length ≤ (p.bodyOrChunkBytesToSkip - 1).toNat) :
    ∃ q, scan step ⟨.body, p⟩ 0 rest = .opened ⟨.body, q⟩ := by
  induction rest generalizing p with
  | nil => exact ⟨p, rfl⟩
  | cons b rest ih =>
    rw [List.length_cons] at h
    have hmore : p.bodyOrChunkBytesToSkip - 1 ≠ 0 := fun hzero => by
      rw [hzero] at h
      simp at h
    have hsub := toNat_sub_one hmore
    have hstep : step ⟨.body, p⟩ ([b] ++ rest) =
        (.opened ⟨.body, p.bodyOrChunkBytesSkipped 1⟩, [b].length) := by
      rw [step, lexData_more hp hmore]
      rfl
    have hleft : rest.length ≤
        ((p.bodyOrChunkBytesSkipped 1).bodyOrChunkBytesToSkip - 1).toNat := by
      show rest.length ≤ (p.bodyOrChunkBytesToSkip - 1 - 1).toNat
      omega
    have hscan := scan_opened (List.cons_ne_nil b []) hstep
    obtain ⟨q, hq⟩ := ih (p := p.bodyOrChunkBytesSkipped 1) hp hleft
    exact ⟨q, hscan.trans hq⟩

end Counting

section HeadEnd
variable {p q r : Parser} {v digits octets head : Bytes} {length : UInt64}

theorem first_responseLine (octets : Bytes) :
    first responseLines (lineEnd ++ octets) = some (2, .delimiter) := by
  have hgeneral : (seq Rules.generalHeader Rules.crlf).longest (lineEnd ++ octets) = none :=
    longest_none rfl rfl _
  have hresponse : (seq Rules.responseHeader Rules.crlf).longest (lineEnd ++ octets) = none :=
    longest_none rfl rfl _
  have hentity : (seq Rules.entityHeader Rules.crlf).longest (lineEnd ++ octets) = none :=
    longest_none rfl rfl _
  have hcrlf : Rules.crlf.longest (lineEnd ++ octets) = some 2 := longest_lineEnd octets
  rw [responseLines, line, line, line, first, first, first, first, first, hgeneral, hresponse,
    hentity, hcrlf]

/-- The parser behind the empty line, with the version that the action sets. -/
def headEnd (r : Parser) (digits : Bytes) : Parser :=
  { endResponseHeaders (r.addOffset 2) with
    record := { (endResponseHeaders (r.addOffset 2)).record with
      version := versionToType digits } }

theorem step_headEnd (hr : r.condition = .responseHeaders) (hv : versionDigits v = some digits)
    (octets : Bytes) : step ⟨.responseHeaders v, r⟩ (lineEnd ++ octets) =
      (delimited (headEnd r digits), 2) := by
  rw [step, lex, hr]
  dsimp only
  rw [lexResponseHeaders, first_responseLine]
  dsimp only [shift]
  rw [hv]
  rfl

theorem headEnd_body (hlength : r.record.contentLength = some length) (hne : length ≠ 0)
    (digits : Bytes) : headEnd r digits =
      { ((r.addOffset 2).setContentLengthOrChunkSize length).begin .body with
        record := { r.record with version := versionToType digits } } := by
  have hrecord : (r.addOffset 2).record = r.record := rfl
  rw [headEnd, endResponseHeaders, hrecord, hlength]
  dsimp only
  rw [if_neg hne]
  rfl

theorem headEnd_zero (hlength : r.record.contentLength = some 0) (digits : Bytes) :
    (headEnd r digits).multiBody = true := by
  have hrecord : (r.addOffset 2).record = r.record := rfl
  rw [headEnd, endResponseHeaders, hrecord, hlength]
  rfl

end HeadEnd

section Delivered
variable {p q r : Parser} {octets body rest : Bytes} {length : UInt64}

theorem afterParse_keeps {b : Bool} {outcome : Outcome}
    (h : afterParse (.ok (b, r)) = .ok (outcome, q)) :
    q.condition = r.condition ∧ q.multiBody = r.multiBody ∧
      ∀ record message left, outcome = .delivered (some record) message left →
        r.recorded = some record := by
  cases b with
  | false =>
    cases h
    exact ⟨rfl, rfl, fun _ _ _ => Outcome.noConfusion⟩
  | true =>
    rw [afterParse] at h
    split_ifs at h
    · rw [deliver] at h
      split_ifs at h
      · cases h
        exact ⟨rfl, rfl, fun _ _ _ hout => (Outcome.delivered.inj hout).1⟩
      · split at h <;> cases h
        exact ⟨rfl, rfl, fun _ _ _ hout => (Outcome.delivered.inj hout).1⟩
    · cases h
      exact ⟨rfl, rfl, fun _ _ _ => Outcome.noConfusion⟩

theorem deliver_block (hchain : p.chain = [octets]) (hlength : p.getContentLength = length)
    (hne : length ≠ 0) (hfits : octets.length < 2 ^ 64) : ∃ left q,
      deliver p = .ok (.delivered p.recorded [octets.take length.toNat] left, q) ∧
        left.flatten = octets.drop length.toNat ∧ q.condition = p.condition ∧ q.chunks = [] ∧
          q.multiBody = p.multiBody ∧ q.chain = left := by
  have htotal : p.totalLength = UInt64.ofNat octets.length := by
    rw [Parser.totalLength, hchain, List.flatten_singleton]
  have hle : p.totalLength ≤ length ↔ octets.length ≤ length.toNat := by
    rw [htotal, UInt64.le_iff_toNat_le, UInt64.toNat_ofNat_of_lt' hfits]
  rw [deliver, hlength]
  split_ifs with hall
  · have hshort := hle.mp (hall.resolve_left hne)
    refine ⟨[], { p with chunks := [], chain := [], recorded := none }, ?_, ?_, rfl, rfl, rfl, rfl⟩
    · rw [hchain, List.take_of_length_le hshort]
    · rw [List.drop_eq_nil_of_le hshort]
      rfl
  · have hlong : length.toNat < octets.length :=
      not_le.mp fun hshort => hall (.inr (hle.mpr hshort))
    have hkeep : Cursor.keep length.toNat [] p.chain =
        some ⟨[octets.take length.toNat], [octets.drop length.toNat]⟩ := by
      rw [hchain, Cursor.keep, if_pos hlong]
      rfl
    rw [hkeep]
    exact ⟨_, _, rfl, by simp, rfl, rfl, rfl, rfl⟩

end Delivered

section Failing
variable {p q r : Parser} {octets body rest : Bytes} {useYYScanBuffer : Bool}

def Parser.given (useYYScanBuffer : Bool) (p : Parser) (octets : Bytes) : Parser :=
  (p.receive octets).withChain ((p.receive octets).scannedChain useYYScanBuffer)

theorem chain_receive (hchain : p.chain = []) : (p.receive octets).chain = [octets] := by
  rw [Parser.receive, hchain]
  rfl

theorem dispatchHead_given (hparses : p.isFirstFragment = true ∨ p.multiBody = false)
    (hchain : p.chain = []) : p.dispatchHead useYYScanBuffer octets =
      if 2 ^ 31 ≤ octets.length + overhead useYYScanBuffer then .error .signedOverflow
      else afterParse (parse (p.given useYYScanBuffer octets) octets) := by
  have hnot : ¬ (!p.isFirstFragment && p.multiBody) = true := by
    rcases hparses with h | h <;> simp [h]
  have hhead : (p.receive octets).chain.headD [] = octets := by
    rw [chain_receive hchain]
    rfl
  rw [Parser.dispatchHead, if_neg hnot, Parser.parseHead, hhead]
  by_cases hlong : 2 ^ 31 ≤ octets.length + overhead useYYScanBuffer
  · rw [if_pos hlong, if_pos hlong]
    rfl
  · rw [if_neg hlong, if_neg hlong]
    rfl

/-- A message is not framed where the parser is not ready for the next one, or where no record has
been passed on. -/
theorem not_framed (hparses : p.isFirstFragment = true ∨ p.multiBody = false) (hchain : p.chain = [])
    (h : ∀ b q, parse (p.given useYYScanBuffer octets) octets = .ok (b, q) →
      q.condition ≠ .initial ∨ q.multiBody = true ∨ q.recorded = none) :
    ¬ Framed useYYScanBuffer p octets body rest := by
  rintro ⟨record, message, left, q', hdispatch, -, -, hclean, -⟩
  rw [dispatchHead_given hparses hchain] at hdispatch
  split_ifs at hdispatch
  rcases hparse : parse (p.given useYYScanBuffer octets) octets with f | ⟨b, q⟩
  · rw [hparse] at hdispatch
    cases hdispatch
  · rw [hparse] at hdispatch
    obtain ⟨hcondition, hmulti, hrecorded⟩ := afterParse_keeps hdispatch
    rcases h b q hparse with hne | hseveral | hnone
    · exact hne (hcondition.symm.trans hclean.condition)
    · cases hseveral.symm.trans (hmulti.symm.trans hclean.multiBody)
    · cases hnone.symm.trans (hrecorded record message left rfl)

theorem not_framed_multiBody (hmulti : p.multiBody = true) (hchain : p.chain = []) :
    ¬ Framed useYYScanBuffer p octets body rest := by
  cases hfirst : p.isFirstFragment with
  | true =>
    refine not_framed (.inl hfirst) hchain fun b q hparse => .inr (.inl ?_)
    have hgiven : (p.given useYYScanBuffer octets).Passes := ⟨rfl, hmulti⟩
    exact (parse_passes hgiven hparse).2
  | false =>
    rintro ⟨record, message, left, q, hdispatch, -⟩
    rw [Parser.dispatchHead, hfirst, hmulti] at hdispatch
    cases hdispatch

end Failing

section Framing
variable {p q r : Parser} {v digits head body rest octets : Bytes} {place : ℕ} {length : UInt64}
  {useYYScanBuffer : Bool}

theorem frame_block (hchunks : q.chunks = []) (hchain : q.chain = [octets])
    (hoffset : q.getOffset.toNat ≤ octets.length) : q.frame =
      .ok { q with
        recorded := some q.record
        chain := [octets.drop q.getOffset.toNat]
        finished := q.finished || q.record.contentLength.isNone } := by
  have hskip : Cursor.skip q.getOffset.toNat [] q.chain =
      some ⟨[], [octets.drop q.getOffset.toNat]⟩ := by
    rw [hchain, Cursor.skip, if_pos hoffset]
  rw [frame_of_nil hchunks, hskip]
  rfl

structure AtHeadEnd (p : Parser) (place : ℕ) (length : UInt64) (v : Bytes) (r : Parser) : Prop where
  condition : r.condition = .responseHeaders
  version : (versionDigits v).isSome = true
  headerOnly : r.headerOnly = p.headerOnly
  chunks : r.chunks = []
  chain : r.chain = p.chain
  multiBody : r.multiBody = false
  offset : r.getOffset + 2 = UInt32.ofNat place
  contentLength : r.record.contentLength = some length

theorem exists_atHeadEnd (hp : p.Clean) (h : AnnouncesLength p head rest length) :
    ∃ v r, AtHeadEnd p head.length length v r ∧
      Steps step (start p) (head ++ rest) ⟨.responseHeaders v, r⟩ (lineEnd ++ rest) := by
  obtain ⟨lines, v, r, hlines, hsteps, hlength⟩ := h
  have hstage := stage_of_steps (.inl hp.condition) hp.multiBody hsteps
  have hoffset : r.getOffset + UInt32.ofNat (lineEnd ++ rest).length =
      UInt32.ofNat (head ++ rest).length := hstage.offset trivial
  refine ⟨v, r, ⟨hstage.fits.2, hstage.fits.1, hstage.headerOnly,
    (hstage.chunks (by simp) (by simp)).trans hp.chunks, hstage.chain,
    hstage.multiBody, ofNat_add_cancel (k := rest.length) ?_, hlength⟩, hsteps⟩
  calc r.getOffset + 2 + UInt32.ofNat rest.length
      = r.getOffset + UInt32.ofNat (2 + rest.length) := by
        rw [UInt32.ofNat_add, add_assoc]
        rfl
    _ = r.getOffset + UInt32.ofNat (lineEnd ++ rest).length := by
        rw [List.length_append]
        rfl
    _ = UInt32.ofNat (head ++ rest).length := hoffset
    _ = UInt32.ofNat (head.length + rest.length) := by
        rw [List.length_append]

structure AtContent (p : Parser) (place : ℕ) (length : UInt64) (r : Parser) : Prop where
  condition : r.condition = .body
  toSkip : r.bodyOrChunkBytesToSkip = length
  chunks : r.chunks = []
  chain : r.chain = p.chain
  multiBody : r.multiBody = false
  offset : r.getOffset = UInt32.ofNat place
  contentLength : r.record.contentLength = some length

theorem exists_atContent (hp : p.Clean) (hheader : p.headerOnly = false)
    (h : AnnouncesLength p head rest length) (hne : length ≠ 0) :
    ∃ r, AtContent p head.length length r ∧
      Steps step (start p) (head ++ rest) ⟨.body, r⟩ rest := by
  obtain ⟨v, r, hr, hsteps⟩ := exists_atHeadEnd hp h
  obtain ⟨digits, hv⟩ := Option.isSome_iff_exists.mp hr.version
  have hend := headEnd_body hr.contentLength hne digits
  have hendHeader : (headEnd r digits).headerOnly = false := by
    rw [hend]
    exact hr.headerOnly.trans hheader
  have hendMulti : (headEnd r digits).multiBody = false := by
    rw [hend]
    exact hr.multiBody
  have hstep : step ⟨.responseHeaders v, r⟩ (lineEnd ++ rest) =
      (.opened ⟨.body, headEnd r digits⟩, lineEnd.length) := by
    rw [step_headEnd hr.condition hv, delimited, hendHeader, hendMulti]
    rfl
  refine ⟨headEnd r digits, ?_, hsteps.trans (.single (List.cons_ne_nil _ _) hstep)⟩
  constructor
  case condition => rw [hend]; rfl
  case toSkip => rw [hend]; rfl
  case chunks => rw [hend]; exact hr.chunks
  case chain => rw [hend]; exact hr.chain
  case multiBody => exact hendMulti
  case offset =>
    have hcounted : (headEnd r digits).getOffset = (r.addOffset 2).getOffset := by
      rw [hend]
      rfl
    rw [hcounted, getOffset_addOffset, hr.offset]
  case contentLength => rw [hend]; exact hr.contentLength

def lastOctet (r : Parser) : Parser := { r.begin .data with bodyOrChunkBytesToSkip := 1 }

def contentEnd (r : Parser) : Parser :=
  { (lastOctet r).bodyOrChunkBytesSkipped 1 with finished := true }.begin .initial

theorem steps_lastOctet (hr : AtContent p place length r) (hbody : body.length = length.toNat)
    (htwo : 2 ≤ length.toNat) (rest : Bytes) :
    ∃ last, Steps step ⟨.body, r⟩ (body ++ rest) ⟨.body, lastOctet r⟩ (last :: rest) := by
  rcases body with _ | ⟨b, data⟩
  · rw [← hbody] at htwo
    cases htwo
  rcases data.eq_nil_or_concat' with rfl | ⟨data, last, rfl⟩
  · rw [← hbody, List.length_singleton] at htwo
    omega
  have hne : length ≠ 0 := fun hzero => by
    rw [hzero] at htwo
    cases htwo
  have hstep : step ⟨.body, r⟩ ([b] ++ (data ++ last :: rest)) =
      (.opened ⟨.body, (r.bodyOrChunkBytesSkipped 1).begin .data⟩, [b].length) := by
    rw [step, lexBody_more hr.condition (hr.toSkip ▸ hne)]
    rfl
  have hleft : (r.bodyOrChunkBytesToSkip - 1).toNat = data.length + 1 := by
    have hsub := toNat_sub_one hne
    rw [hr.toSkip]
    rw [List.length_cons, List.length_append, List.length_singleton] at hbody
    omega
  have hdata : Steps step ⟨.body, (r.bodyOrChunkBytesSkipped 1).begin .data⟩ (data ++ last :: rest)
      ⟨.body, lastOctet r⟩ (last :: rest) :=
    steps_content (p := (r.bodyOrChunkBytesSkipped 1).begin .data) rfl hleft
  have hall := Steps.head (List.cons_ne_nil b []) hstep hdata
  rw [List.cons_append, List.append_assoc]
  exact ⟨last, hall⟩

theorem lex_lastOctet (hmulti : r.multiBody = false) (octets : Bytes) :
    lex (lastOctet r) octets = .ok (.token .body 1 (contentEnd r)) :=
  lexData_last (p := lastOctet r) rfl hmulti (sub_self (1 : UInt64)) octets

theorem parse_of_steps {s : State} {left : Bytes} {verdict : Verdict} {k : ℕ}
    (h : Steps step (start p) octets s left) (hleft : left ≠ [])
    (hstep : step s left = (.closed verdict, k)) : parse p octets = verdict := by
  rw [parse, h.scan_eq, scan_closed hleft hstep]

theorem step_lastOctet (hmulti : r.multiBody = false) (last : UInt8) (rest : Bytes) :
    step ⟨.body, lastOctet r⟩ (last :: rest) = (acceptFramed (contentEnd r), 1) := by
  have hsingle : (contentEnd r).multiBody = false := hmulti
  rw [step, lex_lastOctet hmulti]
  dsimp only
  rw [shift_body hsingle]

theorem parse_content (hr : AtContent p place length r) (hchain : p.chain = [octets])
    (hsteps : Steps step (start p) (head ++ (body ++ rest)) ⟨.body, r⟩ (body ++ rest))
    (hbody : body.length = length.toNat) (htwo : 2 ≤ length.toNat)
    (hplace : place ≤ octets.length) (hcounted : place < 2 ^ 32) :
    parse p (head ++ (body ++ rest)) = .ok (true, { contentEnd r with
      recorded := some r.record
      chain := [octets.drop place] }) := by
  obtain ⟨last, hlast⟩ := steps_lastOctet hr hbody htwo rest
  have hoffset : (contentEnd r).getOffset.toNat = place := by
    have hcount : (contentEnd r).getOffset = r.getOffset := rfl
    rw [hcount, hr.offset, UInt32.toNat_ofNat_of_lt' hcounted]
  have hframe := frame_block (q := contentEnd r) hr.chunks (hr.chain.trans hchain)
    (hoffset.symm ▸ hplace)
  have hstep := step_lastOctet hr.multiBody last rest
  rw [acceptFramed, hframe, hoffset] at hstep
  exact parse_of_steps (hsteps.trans hlast) (List.cons_ne_nil last rest) hstep

theorem scanned_content (hr : AtContent p place length r)
    (hsteps : Steps step (start p) (head ++ (body ++ rest)) ⟨.body, r⟩ (body ++ rest))
    (hbody : body.length = length.toNat) (htwo : 2 ≤ length.toNat) :
    p.scanned (head ++ (body ++ rest)) = head ++ (body ++ rest.set 0 0) := by
  obtain ⟨last, hlast⟩ := steps_lastOctet hr hbody htwo rest
  have hterminator : terminator (lastOctet r) (last :: rest) = some 1 := by
    rw [terminator, lex_lastOctet hr.multiBody]
    rfl
  have hfront : (head ++ body).length + (last :: rest).length =
      (head ++ (body ++ rest)).length + 1 := by
    simp only [List.length_append, List.length_cons]
    omega
  have hscanned := scanned_of_steps (hsteps.trans hlast) (List.cons_ne_nil last rest)
    (step_lastOctet hr.multiBody last rest) hterminator (List.append_assoc _ _ _).symm hfront
  rw [hscanned, List.append_assoc]

theorem clean_receive (hp : p.Ready) (hmulti : p.multiBody = false) (octets : Bytes) :
    (p.receive octets).Clean := ⟨hp.condition, hp.chunks, hmulti⟩

theorem clean_given (hp : p.Ready) (hmulti : p.multiBody = false) (useYYScanBuffer : Bool)
    (octets : Bytes) :
    (p.given useYYScanBuffer octets).Clean := ⟨hp.condition, hp.chunks, hmulti⟩

theorem AnnouncesLength.given (hp : p.Ready) (hmulti : p.multiBody = false)
    (useYYScanBuffer : Bool) (h : AnnouncesLength (p.receive octets) head rest length) :
    AnnouncesLength (p.given useYYScanBuffer octets) head rest length := by
  obtain ⟨lines, v, r, hlines, hsteps, hlength⟩ := h
  have hclean := clean_receive hp hmulti octets
  exact ⟨lines, v, _, hlines, steps_withChain (.inl hclean.condition) hclean.multiBody
    (length_scannedChain _ _) hsteps, hlength⟩

/-- A content of at least two octets is framed exactly when the octet behind it is not lost. -/
theorem framed_content_iff (hp : p.Ready) (hmulti : p.multiBody = false)
    (hheader : p.headerOnly = false) (hoctets : octets = head ++ (body ++ rest))
    (hhead : AnnouncesLength (p.receive octets) head (body ++ rest) length)
    (hshort : octets.length + overhead useYYScanBuffer < 2 ^ 31)
    (hbody : body.length = length.toNat) (htwo : 2 ≤ length.toNat) :
    Framed useYYScanBuffer p octets body rest ↔
      (useYYScanBuffer = true → ∀ b ∈ rest.head?, b = 0) := by
  have hne : length ≠ 0 := fun hzero => by
    rw [hzero] at htwo
    cases htwo
  obtain ⟨r₁, hr₁, hsteps₁⟩ :=
    exists_atContent (clean_receive hp hmulti octets) hheader hhead hne
  obtain ⟨r, hr, hsteps⟩ :=
    exists_atContent (clean_given hp hmulti useYYScanBuffer octets) hheader
      (hhead.given hp hmulti useYYScanBuffer) hne
  -- the octets when they have been scanned
  set rest' := if useYYScanBuffer then rest.set 0 0 else rest with hrest'
  have hchain : (p.given useYYScanBuffer octets).chain = [head ++ (body ++ rest')] := by
    have hscanned := scanned_content hr₁ hsteps₁ hbody htwo
    show (p.receive octets).scannedChain useYYScanBuffer = _
    rw [Parser.scannedChain, chain_receive hp.chain, hrest']
    cases useYYScanBuffer with
    | true =>
      rw [← hoctets] at hscanned
      simp only [if_true, List.modifyHead_cons, hscanned]
    | false => rw [if_neg Bool.false_ne_true, if_neg Bool.false_ne_true, hoctets]
  have hcounted : head.length < 2 ^ 32 := by
    rw [hoctets, List.length_append] at hshort
    omega
  have hparse := parse_content hr hchain hsteps hbody htwo (by simp) hcounted
  rw [List.drop_left, ← hoctets] at hparse
  set f : Parser := { contentEnd r with
    recorded := some r.record
    chain := [body ++ rest'] } with hf
  have hlength : f.getContentLength = length := by
    have hchunks : f.chunks = [] := hr.chunks
    have hrecorded : f.recorded = some r.record := rfl
    rw [Parser.getContentLength, hrecorded, hchunks]
    dsimp only
    rw [hr.contentLength]
    dsimp only
    rw [if_neg hne]
  have hfits : (body ++ rest').length < 2 ^ 64 := by
    have hsame : rest'.length = rest.length := by
      rw [hrest']
      split_ifs
      · rw [List.length_set]
      · rfl
    rw [hoctets, List.length_append, List.length_append] at hshort
    rw [List.length_append, hsame]
    omega
  obtain ⟨left, q, hdeliver, hleft, hcondition, hchunks, hsingle, hchain'⟩ :=
    deliver_block (p := f) rfl hlength hne hfits
  rw [← hbody, List.take_left] at hdeliver
  rw [← hbody, List.drop_left] at hleft
  have hdispatch : p.dispatchHead useYYScanBuffer octets =
      .ok (.delivered (some r.record) [body] left, q) := by
    rw [dispatchHead_given (.inr hmulti) hp.chain, if_neg (not_le.mpr hshort), hparse]
    exact hdeliver
  have hlost : rest' = rest ↔ (useYYScanBuffer = true → ∀ b ∈ rest.head?, b = 0) := by
    rw [hrest']
    split_ifs with huse
    · rw [set_eq_self_iff]
      exact ⟨fun h _ => h, fun h => h huse⟩
    · exact ⟨fun _ h => absurd h huse, fun _ => rfl⟩
  rw [← hlost]
  constructor
  · rintro ⟨record, message, left', q', h, -, hrest, -, -⟩
    rw [hdispatch] at h
    obtain ⟨hout, -⟩ := Prod.mk.inj (Except.ok.inj h)
    obtain ⟨-, -, rfl⟩ := Outcome.delivered.inj hout
    rw [← hleft, hrest]
  · intro hsame
    exact ⟨r.record, _, left, q, hdispatch, List.flatten_singleton, hleft.trans hsame,
      ⟨hcondition, hchunks, hsingle.trans hr.multiBody⟩, hchain'⟩

theorem counted_content (hr : AtContent p place length r)
    (hsteps : Steps step (start p) (head ++ (body ++ rest)) ⟨.body, r⟩ (body ++ rest))
    (hbody : body.length = length.toNat) (htwo : 2 ≤ length.toNat) : Counted p head body rest := by
  obtain ⟨last, hlast⟩ := steps_lastOctet hr hbody htwo rest
  refine ⟨⟨.body, r⟩, hsteps, fun t left h => ?_,
    ⟨.body, lastOctet r⟩, last, contentEnd r, hlast, lex_lastOctet hr.multiBody _⟩
  have hbegin : InBody rest ⟨.body, r⟩ (body ++ rest) := by
    refine ⟨rfl, hr.multiBody, ?_, .inl ⟨hr.condition, ?_⟩⟩
    · rw [List.length_append, hbody, hr.toSkip]
    · rw [hr.toSkip]
      exact htwo
  exact (h.keeps (fun _ _ _ _ _ hs hstep => hs.step hstep) hbegin).counted

theorem delimited_closed (h : r.headerOnly = true ∨ r.multiBody = true) : ∃ verdict,
    delimited r = .closed verdict ∧ ∀ b q, verdict = .ok (b, q) →
      q.condition = r.condition ∧ q.multiBody = r.multiBody := by
  rw [delimited]
  split_ifs with hheader hmulti
  · refine ⟨_, rfl, fun b q hq => ?_⟩
    have hframe := acceptFramed_ok (congrArg Progress.closed hq)
    have hcondition := frame_condition hframe
    have hseveral := frame_multiBody hframe
    exact ⟨hcondition, hseveral⟩
  · refine ⟨_, rfl, fun b q hq => ?_⟩
    have hframe := acceptFramed_ok (congrArg Progress.closed hq)
    exact ⟨frame_condition hframe, frame_multiBody hframe⟩
  · exact absurd h (not_or.mpr ⟨hheader, hmulti⟩)

/-- A message that ends with its head is not framed: the parser goes on with a body, or with the
octets of an unknown one. -/
theorem not_framed_head (hp : p.Ready) (hmulti : p.multiBody = false)
    (h : AnnouncesLength (p.given useYYScanBuffer octets) head (body ++ rest) length)
    (hoctets : octets = head ++ (body ++ rest)) (hends : length = 0 ∨ p.headerOnly = true) :
    ¬ Framed useYYScanBuffer p octets body rest := by
  obtain ⟨v, r, hr, hsteps⟩ := exists_atHeadEnd (clean_given hp hmulti useYYScanBuffer octets) h
  rw [← hoctets] at hsteps
  obtain ⟨digits, hv⟩ := Option.isSome_iff_exists.mp hr.version
  have hkeeps : (headEnd r digits).multiBody = true ∨
      (headEnd r digits).headerOnly = true ∧ (headEnd r digits).condition = .body := by
    by_cases hzero : length = 0
    · exact .inl (headEnd_zero (hzero ▸ hr.contentLength) digits)
    · have hend := headEnd_body hr.contentLength hzero digits
      refine .inr ⟨?_, ?_⟩
      · rw [hend]
        exact hr.headerOnly.trans (hends.resolve_left hzero)
      · rw [hend]
        rfl
  obtain ⟨verdict, hclosed, hverdict⟩ :=
    delimited_closed (hkeeps.elim .inr fun h => .inl h.1)
  have hstep := (step_headEnd hr.condition hv (body ++ rest)).trans (congrArg (·, 2) hclosed)
  refine not_framed (.inr hmulti) hp.chain fun b q hparse => ?_
  rw [parse_of_steps hsteps (List.cons_ne_nil _ _) hstep] at hparse
  obtain ⟨hcondition, hseveral⟩ := hverdict b q hparse
  rcases hkeeps with hmany | ⟨-, hbody⟩
  · exact .inr (.inl (hseveral.trans hmany))
  · left
    rw [hcondition, hbody]
    exact StartCondition.noConfusion

/-- The count of a content of one octet wraps before it is tested, and the message does not end
within the octets. -/
theorem not_framed_one (hp : p.Ready) (hmulti : p.multiBody = false)
    (hheader : p.headerOnly = false) (hoctets : octets = head ++ (body ++ rest))
    (h : AnnouncesLength (p.given useYYScanBuffer octets) head (body ++ rest) 1)
    (hbody : body.length = 1) : ¬ Framed useYYScanBuffer p octets body rest := by
  by_cases hlong : 2 ^ 31 ≤ octets.length + overhead useYYScanBuffer
  · rintro ⟨record, message, left, q, hdispatch, -⟩
    rw [dispatchHead_given (.inr hmulti) hp.chain, if_pos hlong] at hdispatch
    cases hdispatch
  have hclean := clean_given hp hmulti useYYScanBuffer octets
  obtain ⟨r, hr, hsteps⟩ := exists_atContent hclean hheader h (by decide)
  rw [← hoctets] at hsteps
  obtain ⟨b, rfl⟩ := List.length_eq_one_iff.mp hbody
  have hne : r.bodyOrChunkBytesToSkip ≠ 0 := by
    rw [hr.toSkip]
    decide
  have hstep : step ⟨.body, r⟩ ([b] ++ rest) =
      (.opened ⟨.body, (r.bodyOrChunkBytesSkipped 1).begin .data⟩, [b].length) := by
    rw [step, lexBody_more hr.condition hne]
    rfl
  have hwraps : rest.length ≤ (r.bodyOrChunkBytesToSkip - 1 - 1).toNat := by
    have htotal : octets.length = head.length + (1 + rest.length) := by
      rw [hoctets, List.length_append, List.length_append, hbody]
    rw [hr.toSkip]
    show rest.length ≤ 2 ^ 64 - 1
    omega
  obtain ⟨q, hopened⟩ :=
    scan_short (p := (r.bodyOrChunkBytesSkipped 1).begin .data) rfl hwraps
  have hscan : scan step (start (p.given useYYScanBuffer octets)) 0 octets = .opened ⟨.body, q⟩ := by
    rw [hsteps.scan_eq, scan_opened (List.cons_ne_nil b []) hstep, hopened]
  have hrecorded : q.recorded = none := (scan_recorded hclean hscan).trans hp.recorded
  refine not_framed (.inr hmulti) hp.chain fun b q' hparse => .inr (.inr ?_)
  rw [parse, hscan] at hparse
  obtain ⟨-, rfl⟩ := Prod.mk.inj (Except.ok.inj hparse)
  exact hrecorded

/-- The body with a content length is counted and framed exactly when it has two octets or more,
for a parser that parses single bodies, in a buffer whose length is an `int`; in place, no octet
but a NUL follows it there. -/
theorem contentLength_exact_iff (hp : p.Ready)
    (hhead : AnnouncesLength (p.receive (head ++ (body ++ rest))) head (body ++ rest) length)
    (hbody : body.length = length.toNat) (useYYScanBuffer : Bool) :
    Counted (p.receive (head ++ (body ++ rest))) head body rest ∧
        Framed useYYScanBuffer p (head ++ (body ++ rest)) body rest ↔
      p.multiBody = false ∧ p.headerOnly = false ∧ 2 ≤ length.toNat ∧
        (head ++ (body ++ rest)).length + overhead useYYScanBuffer < 2 ^ 31 ∧
          (useYYScanBuffer = true → ∀ b ∈ rest.head?, b = 0) := by
  cases hmulti : p.multiBody with
  | true => exact iff_of_false (fun h => not_framed_multiBody hmulti hp.chain h.2) (by simp)
  | false =>
    have hgiven := hhead.given hp hmulti useYYScanBuffer
    by_cases hends : length = 0 ∨ p.headerOnly = true
    · refine iff_of_false (fun h => not_framed_head hp hmulti hgiven rfl hends h.2) ?_
      rintro ⟨-, hheader, htwo, -⟩
      rcases hends with rfl | hheads
      · cases htwo
      · cases hheader.symm.trans hheads
    rw [not_or, Bool.not_eq_true] at hends
    obtain ⟨hne, hheader⟩ := hends
    by_cases htwo : 2 ≤ length.toNat
    · by_cases hlong : 2 ^ 31 ≤ (head ++ (body ++ rest)).length + overhead useYYScanBuffer
      · refine iff_of_false (fun h => ?_) fun h => not_le.mpr h.2.2.2.1 hlong
        obtain ⟨-, record, message, left, q, hdispatch, -⟩ := h
        rw [dispatchHead_given (.inr hmulti) hp.chain, if_pos hlong] at hdispatch
        cases hdispatch
      · have hshort := not_le.mp hlong
        obtain ⟨r, hr, hsteps⟩ :=
          exists_atContent (clean_receive hp hmulti _) hheader hhead hne
        have hcounted := counted_content hr hsteps hbody htwo
        have hframed := framed_content_iff hp hmulti hheader rfl hhead hshort hbody htwo
        exact ⟨fun h => ⟨rfl, hheader, htwo, hshort, hframed.mp h.2⟩,
          fun h => ⟨hcounted, hframed.mpr h.2.2.2.2⟩⟩
    · have hpos : length.toNat ≠ 0 := fun hzero => hne (UInt64.toNat_inj.mp hzero)
      have hone : length = 1 := UInt64.toNat_inj.mp (show length.toNat = 1 by omega)
      subst hone
      exact iff_of_false (fun h => not_framed_one hp hmulti hheader rfl hgiven hbody h.2)
        fun h => htwo h.2.2.1

end Framing

theorem announcesLength_of_advance {p : Parser} {lines v octets : Bytes} {length : UInt64} (k : ℕ)
    (h : (advance step k (start p) (lines ++ lineEnd ++ octets)).map (fun s =>
      (s.1.expecting, s.1.parser.record.contentLength, s.2)) =
        some (.responseHeaders v, some length, lineEnd ++ octets)) :
    AnnouncesLength p (lines ++ lineEnd) octets length := by
  obtain ⟨⟨⟨e, r⟩, left⟩, hadvance, heq⟩ := Option.map_eq_some_iff.mp h
  simp only [Prod.mk.injEq] at heq
  obtain ⟨rfl, hlength, rfl⟩ := heq
  exact ⟨lines, v, r, rfl, steps_advance hadvance, hlength⟩

def lengthLines (digit : UInt8) : Bytes :=
  text "HTTP/1.1 200 OK\r\nContent-Length: " ++ (digit :: lineEnd)

/-- Two octets, and the next response. -/
theorem contentLength_exact_two :
    Counted (({} : Parser).receive (lengthLines 0x32 ++ lineEnd ++ (text "AB" ++ text "HTTP")))
        (lengthLines 0x32 ++ lineEnd) (text "AB") (text "HTTP") ∧
      Framed false {} (lengthLines 0x32 ++ lineEnd ++ (text "AB" ++ text "HTTP")) (text "AB")
        (text "HTTP") :=
  have hhead : AnnouncesLength
      (({} : Parser).receive (lengthLines 0x32 ++ lineEnd ++ (text "AB" ++ text "HTTP")))
      (lengthLines 0x32 ++ lineEnd) (text "AB" ++ text "HTTP") 2 :=
    announcesLength_of_advance (v := text "HTTP/1.1") 4 (by decide +kernel)
  (contentLength_exact_iff ⟨rfl, rfl, rfl, rfl⟩ hhead (by decide +kernel) false).mpr
    ⟨rfl, rfl, by decide, by decide +kernel, fun hin => by cases hin⟩

def Outcome.passesOn : Outcome → Bool
  | .delivered (some _) _ _ => true
  | _ => false

/-- The octets behind a body of one octet are taken as its own, and the message waits for
others. -/
theorem oneOctet_not_framed :
    AnnouncesLength
        (({} : Parser).receive (lengthLines 0x31 ++ lineEnd ++ (text "A" ++ text "HTTP")))
        (lengthLines 0x31 ++ lineEnd) (text "A" ++ text "HTTP") 1 ∧
      ¬ Framed false {} (lengthLines 0x31 ++ lineEnd ++ (text "A" ++ text "HTTP")) (text "A")
        (text "HTTP") := by
  refine ⟨announcesLength_of_advance (v := text "HTTP/1.1") 4 (by decide +kernel), ?_⟩
  rintro ⟨record, message, left, q, hdispatch, -⟩
  have hresult : (({} : Parser).dispatchHead false
      (lengthLines 0x31 ++ lineEnd ++ (text "A" ++ text "HTTP"))).map (fun r => r.1.passesOn) =
      .ok false := by decide +kernel
  rw [hdispatch] at hresult
  cases hresult

end ACENetwork.HTTP
