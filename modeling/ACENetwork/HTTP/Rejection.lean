import ACENetwork.HTTP.Dispatch
import ACENetwork.HTTP.Reassembly

/-!
# Behind a message that is rejected

A message that is not parsed is released, and the start condition, the chunks and the flag for
several bodies stay as they are. What follows is parsed as a new message only in some of the start
conditions.
-/
namespace ACENetwork.HTTP
open BitTorrent (Fault)
open Library Library.Blocks Library.Regex

def Parser.fresh (p : Parser) : Parser := { headerOnly := p.headerOnly, multiBody := p.multiBody }

/-- No fragment waits, and the next one begins a message. -/
structure Parser.Ready (p : Parser) : Prop where
  condition : p.condition = .initial
  chunks : p.chunks = []
  chain : p.chain = []
  recorded : p.recorded = none

def Parser.Understands (p : Parser) (fragment : Bytes) : Prop :=
  ∃ outcome, p.outcome fragment = .ok outcome ∧ outcome ≠ .rejected

/-- The text begins with a word of the pattern that no blank follows. -/
def CutBehind (pattern : Rules.Pattern) (text : Bytes) : Prop :=
  ¬ pattern.NoPrefix text ∧ (seq pattern Rules.sp).NoPrefix text

/-- An empty line stands in the place of the chunked body that the head announces. -/
def EmptyBody (p : Parser) (text : Bytes) : Prop :=
  ∃ head octets, text = head ++ octets ∧ octets.take 2 = lineEnd ∧ Announces p head octets

/-- A text that is rejected leaves nothing behind that matters for the next one: it does not begin
a message, or it is cut off behind a word with which the next one begins too, or it has an empty
line instead of a chunked body. -/
def Spares (p : Parser) (bad next : Bytes) : Prop :=
  p.multiBody = false ∧
    (Rules.version.NoPrefix bad ∧ Rules.method.NoPrefix bad ∨
      CutBehind Rules.method bad ∧ ¬ Rules.method.NoPrefix next ∨
      CutBehind Rules.version bad ∧ ¬ Rules.version.NoPrefix next ∨
      EmptyBody (p.receive bad) bad)

section SeveralBodies

def Parser.Passes (p : Parser) : Prop := p.isFirstFragment = false ∧ p.multiBody = true

variable {p q : Parser} {octets : Bytes} {t : Token} {e : Expecting}

theorem lexOne_passes (pattern : Rules.Pattern) (last : ℕ) (token : Bytes → Token)
    (next : StartCondition) (octets : Bytes) (h : p.Passes) :
    (lexOne pattern last token next p octets).parser.Passes := by
  rw [lexOne]
  cases pattern.longest octets <;> exact h

theorem lexChunk_passes (octets : Bytes) (h : p.Passes) : (lexChunk p octets).parser.Passes := by
  rw [lexChunk]
  split
  · dsimp only
    split_ifs <;> exact h
  · exact h

theorem countChunk_passes (h : p.Passes) : (countChunk p).Passes := by
  rw [countChunk]
  split_ifs <;> exact h

theorem beginEncoded_passes (encoding : Bytes) (h : p.Passes) :
    (beginEncoded p encoding).Passes := by
  rw [beginEncoded]
  split_ifs <;> exact h

theorem endRequestHeaders_passes (h : p.Passes) : (endRequestHeaders p).Passes := by
  rw [endRequestHeaders]
  split
  · exact h
  · split
    · exact beginEncoded_passes _ h
    · exact h

theorem endResponseHeaders_passes (h : p.Passes) : (endResponseHeaders p).Passes := by
  rw [endResponseHeaders]
  split
  · split_ifs
    · exact ⟨h.1, rfl⟩
    · exact h
  · split
    · exact beginEncoded_passes _ h
    · exact ⟨h.1, rfl⟩

theorem lex_passes {l : Lexed} (hp : p.Passes) (h : lex p octets = .ok l) : l.parser.Passes := by
  rw [lex] at h
  cases hcondition : p.condition <;> rw [hcondition] at h
  case data2 =>
    dsimp only [lexData2] at h
    split_ifs at h <;> obtain rfl := Except.ok.inj h <;> exact hp
  all_goals obtain rfl := Except.ok.inj h
  case initial =>
    rw [lexInitial]
    split
    · exact lexOne_passes (p := p.begin .response) _ _ _ _ _ hp
    · exact lexOne_passes (p := p.begin .request) _ _ _ _ _ hp
    · exact hp
  case requestHeaders =>
    rw [lexRequestHeaders]
    split
    · exact hp
    · exact endRequestHeaders_passes (p := p.addOffset _) hp
    · exact hp
  case responseHeaders =>
    rw [lexResponseHeaders]
    split
    · exact hp
    · exact endResponseHeaders_passes (p := p.addOffset _) hp
    · exact hp
  case chunkedBody =>
    rw [lexChunkedBody]
    split
    · split
      · exact lexChunk_passes octets (p := beginChunk p _) (countChunk_passes hp)
      · exact countChunk_passes hp
    all_goals exact hp
  case chunk => exact lexChunk_passes octets hp
  case body =>
    rw [lexBody]
    split_ifs
    · exact ⟨hp.1, rfl⟩
    · exact hp
  case data =>
    dsimp only [lexData]
    split_ifs <;> exact hp
  case method => exact hp
  all_goals exact lexOne_passes _ _ _ _ octets hp

theorem frame_passes (hp : p.Passes) (h : p.frame = .ok q) : q.Passes := by
  rw [Parser.frame] at h
  split at h
  · obtain ⟨c, -, hc⟩ := BitTorrent.fault_bind_ok.mp h
    cases hc
    exact hp
  · obtain ⟨c, -, hc⟩ := BitTorrent.fault_bind_ok.mp h
    obtain ⟨c', -, hc'⟩ := BitTorrent.fault_bind_ok.mp hc
    cases hc'
    exact hp

abbrev ProgressPasses : Progress State Verdict → Prop :=
  Keeps (fun s => s.parser.Passes) fun v => ∀ b q, v = .ok (b, q) → q.Passes

theorem closed_passes {b : Bool} (hp : p.Passes) : ProgressPasses (.closed (.ok (b, p))) := by
  rintro b' q hv
  cases hv
  exact hp

theorem goOn_passes {x : Except Fault Parser} (hx : ∀ q, x = .ok q → q.Passes) :
    ProgressPasses (goOn e x) := by
  cases x with
  | error f =>
    intro b q hv
    cases hv
  | ok q => exact hx q rfl

theorem header_passes (line : Bytes) (hp : p.Passes) : ProgressPasses (goOn e (p.header line)) := by
  refine goOn_passes fun q hq => ?_
  obtain ⟨record, rfl⟩ := header_ok hq
  exact hp

theorem acceptFramed_passes (hp : p.Passes) : ProgressPasses (acceptFramed p) := by
  intro b q hv
  exact frame_passes hp (acceptFramed_ok (congrArg Progress.closed hv))

theorem delimited_passes (hp : p.Passes) : ProgressPasses (delimited p) := by
  rw [delimited]
  split_ifs
  · exact acceptFramed_passes (p := { p with finished := true }) hp
  · exact acceptFramed_passes hp
  · exact hp

theorem shift_passes (hp : p.Passes) (e : Expecting) (t : Token) : ProgressPasses (shift e t p) := by
  cases e <;> cases t <;> first | exact closed_passes hp | skip
  all_goals try exact hp
  case version.version method uri version =>
    dsimp only [shift]
    cases versionDigits version with
    | none => exact closed_passes hp
    | some digits => exact hp
  case requestHeaders.header => exact header_passes _ hp
  case requestHeaders.delimiter method => exact delimited_passes (p := { p with record := _ }) hp
  case responseHeaders.header => exact header_passes _ hp
  case responseHeaders.delimiter version =>
    dsimp only [shift]
    cases versionDigits version with
    | none => exact closed_passes hp
    | some digits => exact delimited_passes (p := { p with record := _ }) hp
  case body.body =>
    dsimp only [shift]
    cases hframe : p.frame with
    | error f =>
      intro b q hv
      cases hv
    | ok r =>
      have hr := frame_passes hp hframe
      dsimp only
      split_ifs
      · exact hr
      · exact closed_passes hr
  case bodies.body => exact goOn_passes fun q hq => frame_passes hp hq
  case chunks.header => exact header_passes _ hp
  case chunks.delimiter => exact acceptFramed_passes hp
  case trailers.header => exact header_passes _ hp
  case trailers.delimiter => exact acceptFramed_passes hp

theorem step_passes (s : State) (octets : Bytes) (hs : s.parser.Passes) :
    ProgressPasses (step s octets).1 := by
  rw [step]
  cases hlex : lex s.parser octets with
  | error f =>
    intro b q hv
    cases hv
  | ok l =>
    have hl := lex_passes hs hlex
    cases l with
    | token t n r => exact shift_passes hl s.expecting t
    | more n r => exact hl

theorem parse_passes {b : Bool} (hp : p.Passes) (h : parse p octets = .ok (b, q)) : q.Passes := by
  have hstart : (start p).parser.Passes := hp
  have hkeeps := scan_keeps step_passes hstart 0 octets
  rw [parse] at h
  cases hscan : scan step (start p) 0 octets with
  | opened s =>
    rw [hscan] at h hkeeps
    cases h
    exact hkeeps
  | closed v =>
    rw [hscan] at h hkeeps
    exact hkeeps b q h

end SeveralBodies

section Beginnings
variable {p q : Parser} {octets : Bytes}

theorem noPrefix_nil {r : Rules.Pattern} (h : r.nullable = false) : r.NoPrefix [] := by
  intro m _ hmem
  rw [List.take_nil] at hmem
  exact Bool.false_ne_true (h.symm.trans (nullable_iff.mpr hmem))

theorem noPrefix_seq {r s : Rules.Pattern} (h : r.NoPrefix octets) : (seq r s).NoPrefix octets := by
  intro m hm hmem
  obtain ⟨u, hu, v, -, huv⟩ := mem_seq.mp hmem
  have hfront : u <+: octets := (List.prefix_append u v).trans (huv ▸ List.take_prefix m octets)
  refine h u.length hfront.length_le ?_
  rw [← List.prefix_iff_eq_take.mp hfront]
  exact hu

theorem noPrefix_method (h : ¬ Rules.version.NoPrefix octets) : Rules.method.NoPrefix octets := by
  rw [Regex.NoPrefix] at h
  push Not at h
  obtain ⟨m, -, hm⟩ := h
  have hversion : octets.take m ∈ (seq (Rules.lit "HTTP/")
      (all [Rules.digit, Rules.lit ".", Rules.digit])).language := hm
  obtain ⟨u, hu, v, -, huv⟩ := mem_seq.mp hversion
  have hhttp : text "HTTP/" <+: octets := by
    rw [← mem_word.mp hu]
    exact (List.prefix_append u v).trans (huv ▸ List.take_prefix m octets)
  intro k _ hk
  obtain ⟨r, hr, hword⟩ := mem_anyOf.mp hk
  have hdisjoint : ∀ s ∈ [text "GET", text "HEAD", text "POST", text "M-SEARCH", text "NOTIFY"],
      ¬ (s <+: text "HTTP/" ∨ text "HTTP/" <+: s) := by decide +kernel
  have htake : ∀ s, octets.take k = s → s <+: octets := by
    rintro s rfl
    exact List.take_prefix k octets
  have hnot : ∀ s ∈ [text "GET", text "HEAD", text "POST", text "M-SEARCH", text "NOTIFY"],
      octets.take k ≠ s := fun s hs heq => by
    have hboth := List.prefix_or_prefix_of_prefix (htake s heq) hhttp
    exact hdisjoint s hs hboth
  simp only [List.mem_cons, List.not_mem_nil, or_false] at hr
  rcases hr with rfl | rfl | rfl | rfl | rfl <;> exact hnot _ (by simp) (mem_word.mp hword)

theorem lexInitial_none (hversion : Rules.version.NoPrefix octets)
    (hmethod : Rules.method.NoPrefix octets) : lexInitial p octets = terminate p := by
  rw [lexInitial, first, first, first, longest_eq_none.mpr hversion, longest_eq_none.mpr hmethod]

theorem lexInitial_method (h : ¬ Rules.method.NoPrefix octets) :
    lexInitial p octets = lexRequest (p.begin .request) octets := by
  have hversion : Rules.version.longest octets = none := by
    by_contra hsome
    exact h (noPrefix_method (mt longest_eq_none.mpr hsome))
  obtain ⟨n, hn⟩ := Option.ne_none_iff_exists'.mp (mt longest_eq_none.mp h)
  rw [lexInitial, first, first, first, hversion, hn]

theorem lexInitial_version (h : ¬ Rules.version.NoPrefix octets) :
    lexInitial p octets = lexResponse (p.begin .response) octets := by
  have hmethod := longest_eq_none.mpr (noPrefix_method h)
  obtain ⟨n, hn⟩ := Option.ne_none_iff_exists'.mp (mt longest_eq_none.mp h)
  rw [lexInitial, first, first, first, hmethod, hn]

theorem lexOne_none {pattern : Rules.Pattern} {last : ℕ} {token : Bytes → Token}
    {next : StartCondition} (h : pattern.NoPrefix octets) :
    lexOne pattern last token next p octets = terminate p := by
  rw [lexOne, longest_eq_none.mpr h]

theorem parse_terminate (h : octets ≠ [] → lex (start p).parser octets = .ok (terminate q))
    (hnil : octets = [] → q = (start p).parser) : parse p octets = .ok (false, q) := by
  cases octets with
  | nil =>
    rw [hnil rfl]
    rfl
  | cons a octets =>
    have hstep : step (start p) (a :: octets) = (.closed (.ok (false, q)), 1) := by
      rw [step, h (List.cons_ne_nil a octets)]
      rfl
    rw [parse, scan_closed (List.cons_ne_nil a octets) hstep]

theorem lex_initial (hp : p.condition = .initial) (octets : Bytes) :
    lex (start p).parser octets = .ok (lexInitial (start p).parser octets) := by
  have hcondition : (start p).parser.condition = .initial := hp
  rw [lex, hcondition]

theorem ne_nil_of_begun {r : Rules.Pattern} (hr : r.nullable = false) (h : ¬ r.NoPrefix octets) :
    octets ≠ [] := by
  rintro rfl
  exact h (noPrefix_nil hr)

theorem parse_garbage (hp : p.condition = .initial) (hversion : Rules.version.NoPrefix octets)
    (hmethod : Rules.method.NoPrefix octets) : parse p octets = .ok (false, (start p).parser) := by
  refine parse_terminate (fun _ => ?_) fun _ => rfl
  rw [lex_initial hp, lexInitial_none hversion hmethod]

theorem parse_cutBehind_method (hp : p.condition = .initial) (h : CutBehind Rules.method octets) :
    parse p octets = .ok (false, (start p).parser.begin .request) := by
  refine parse_terminate (fun _ => ?_) fun hnil => absurd hnil (ne_nil_of_begun rfl h.1)
  rw [lex_initial hp, lexInitial_method h.1, lexRequest, lexOne_none h.2]

theorem parse_cutBehind_version (hp : p.condition = .initial) (h : CutBehind Rules.version octets) :
    parse p octets = .ok (false, (start p).parser.begin .response) := by
  refine parse_terminate (fun _ => ?_) fun hnil => absurd hnil (ne_nil_of_begun rfl h.1)
  rw [lex_initial hp, lexInitial_version h.1, lexResponse, lexOne_none h.2]

theorem parse_congr (hne : octets ≠ []) (h : step (start p) octets = step (start q) octets) :
    parse p octets = parse q octets := by
  obtain ⟨a, octets, rfl⟩ := List.exists_cons_of_ne_nil hne
  rw [parse, parse, scan, scan, h]

theorem parse_begun {condition : StartCondition} {scan : Parser → Bytes → Lexed}
    (hscan : ∀ p : Parser, p.condition = condition → lex p octets = .ok (scan p octets))
    (hinitial : ∀ p : Parser, lexInitial p octets = scan (p.begin condition) octets)
    (hp : p.condition = condition) (hne : octets ≠ []) :
    parse p octets = parse (p.begin .initial) octets := by
  have hbegin : (start (p.begin .initial)).parser.begin condition = (start p).parser := by
    cases p
    cases hp
    rfl
  have hstart : (start p).parser.condition = condition := hp
  have hlex : lex (start p).parser octets = lex (start (p.begin .initial)).parser octets := by
    rw [lex_initial (p := p.begin .initial) rfl, hinitial, hbegin, hscan _ hstart]
  refine parse_congr hne ?_
  rw [step, step, hlex]
  rfl

theorem lex_request (hp : p.condition = .request) : lex p octets = .ok (lexRequest p octets) := by
  rw [lex, hp]

theorem lex_response (hp : p.condition = .response) :
    lex p octets = .ok (lexResponse p octets) := by rw [lex, hp]

theorem parse_request (hp : p.condition = .request) (h : ¬ Rules.method.NoPrefix octets) :
    parse p octets = parse (p.begin .initial) octets :=
  parse_begun (fun _ => lex_request) (fun _ => lexInitial_method h) hp (ne_nil_of_begun rfl h)

theorem parse_response (hp : p.condition = .response) (h : ¬ Rules.version.NoPrefix octets) :
    parse p octets = parse (p.begin .initial) octets :=
  parse_begun (fun _ => lex_response) (fun _ => lexInitial_version h) hp (ne_nil_of_begun rfl h)

theorem parse_request_none (hp : p.condition = .request) (h : Rules.method.NoPrefix octets) :
    parse p octets = .ok (false, (start p).parser) := by
  refine parse_terminate (fun _ => ?_) fun _ => rfl
  rw [lex_request (p := (start p).parser) hp, lexRequest, lexOne_none (noPrefix_seq h)]

theorem parse_response_none (hp : p.condition = .response) (h : Rules.version.NoPrefix octets) :
    parse p octets = .ok (false, (start p).parser) := by
  refine parse_terminate (fun _ => ?_) fun _ => rfl
  rw [lex_response (p := (start p).parser) hp, lexResponse, lexOne_none (noPrefix_seq h)]

end Beginnings

section Lost
variable {p q : Parser} {octets : Bytes} {t : Token} {n : ℕ}

def Token.ComesFrom (c : StartCondition) : Token → Prop
  | .method _ => c = .initial ∨ c = .request
  | .status _ => c = .status
  | .header _ => c = .requestHeaders ∨ c = .responseHeaders ∨ c = .chunkedBody
  | _ => True

theorem lex_comesFrom (h : lex p octets = .ok (.token t n q)) : t.ComesFrom p.condition := by
  rw [lex] at h
  cases hp : p.condition <;> rw [hp] at h
  case data2 =>
    dsimp only [lexData2] at h
    split_ifs at h <;> cases h
    trivial
  case initial =>
    replace h := Except.ok.inj h
    rw [lexInitial] at h
    split at h
    · rcases lexOne_token h with ⟨rfl, -⟩ | ⟨-, rfl, -⟩ <;> trivial
    · rcases lexOne_token h with ⟨rfl, -⟩ | ⟨-, rfl, -⟩
      · trivial
      · exact .inl rfl
    · cases h
      trivial
  case request =>
    rcases lexOne_token (Except.ok.inj h) with ⟨rfl, -⟩ | ⟨-, rfl, -⟩
    · trivial
    · exact .inr rfl
  case method =>
    cases h
    trivial
  case requestHeaders =>
    replace h := Except.ok.inj h
    rw [lexRequestHeaders] at h
    split at h <;> cases h
    · exact .inl rfl
    · trivial
    · trivial
  case responseHeaders =>
    replace h := Except.ok.inj h
    rw [lexResponseHeaders] at h
    split at h <;> cases h
    · exact .inr (.inl rfl)
    · trivial
    · trivial
  case body => cases h
  case data =>
    dsimp only [lexData] at h
    split_ifs at h <;> cases h <;> trivial
  case chunkedBody =>
    replace h := Except.ok.inj h
    rw [lexChunkedBody] at h
    split at h
    · split at h
      · rcases leadsTo_chunk h with ⟨-, rfl⟩ | ⟨-, rfl⟩ <;> trivial
      · cases h
        trivial
    · cases h
      exact .inr (.inr rfl)
    · cases h
      trivial
    · cases h
      trivial
  case chunk => rcases leadsTo_chunk (Except.ok.inj h) with ⟨-, rfl⟩ | ⟨-, rfl⟩ <;> trivial
  case status =>
    rcases lexOne_token (Except.ok.inj h) with ⟨rfl, -⟩ | ⟨-, rfl, -⟩
    · trivial
    · exact rfl
  all_goals rcases lexOne_token (Except.ok.inj h) with ⟨rfl, -⟩ | ⟨-, rfl, -⟩ <;> trivial

def StartCondition.Stuck (c : StartCondition) : Prop :=
  c ∈ [.uri, .version, .requestHeaders, .status, .reason, .responseHeaders, .chunkedBody, .chunk,
    StartCondition.data2]

instance (c : StartCondition) : Decidable c.Stuck := inferInstanceAs (Decidable (c ∈ _))

/-- The scanner finds nothing that the parser expects. -/
def State.Lost (s : State) : Prop :=
  s.expecting = .message ∧ s.parser.condition.Stuck ∨
    (∃ version, s.expecting = .status version) ∧ s.parser.condition = .requestHeaders

theorem reject_lost (p : Parser) :
    Keeps State.Lost (fun v : Verdict => ∀ q, v ≠ .ok (true, q)) (reject p) := by
  rintro q hv
  cases hv

theorem step_lost (s : State) (octets : Bytes) (h : s.Lost) :
    Keeps State.Lost (fun v : Verdict => ∀ q, v ≠ .ok (true, q)) (step s octets).1 := by
  obtain ⟨e, p⟩ := s
  rw [step]
  cases hlex : lex p octets with
  | error f =>
    rintro q hv
    cases hv
  | ok l =>
    cases l with
    | more n r =>
      rcases h with ⟨he, hc⟩ | ⟨-, hc⟩
      · have hr : r.condition = .data2 := by
          rcases lex_more hlex with ⟨hbody | hdata, -⟩ | ⟨-, hr⟩
          · exact absurd hc (by rw [hbody]; decide)
          · exact absurd hc (by rw [hdata]; decide)
          · exact hr
        exact .inl ⟨he, by simp [hr, StartCondition.Stuck]⟩
      · replace hc : p.condition = .requestHeaders := hc
        have hmore := lex_more hlex
        simp [hc] at hmore
    | token t n r =>
      have hleads := lex_leadsTo hlex
      have hfrom := lex_comesFrom hlex
      rcases h with ⟨he, hc⟩ | ⟨⟨version, he⟩, hc⟩
      · obtain rfl : e = .message := he
        replace hc : p.condition.Stuck := hc
        cases t with
        | method s => rcases hfrom with hp | hp <;> simp [hp, StartCondition.Stuck] at hc
        | version v =>
          rcases hleads.2 with ⟨-, hr⟩ | ⟨hp | hp, -⟩
          · exact .inr ⟨⟨v, rfl⟩, hr⟩
          · simp [hp, StartCondition.Stuck] at hc
          · simp [hp, StartCondition.Stuck] at hc
        | _ => exact reject_lost r
      · obtain rfl : e = .status version := he
        replace hc : p.condition = .requestHeaders := hc
        cases t with
        | status s =>
          replace hfrom : p.condition = .status := hfrom
          rw [hc] at hfrom
          cases hfrom
        | _ => exact reject_lost r

theorem parse_stuck (hp : p.condition.Stuck) (octets : Bytes) (q : Parser) :
    parse p octets ≠ .ok (true, q) := by
  have hstart : (start p).Lost := .inl ⟨rfl, hp⟩
  have hkeeps := scan_keeps step_lost hstart 0 octets
  rw [parse]
  cases hscan : scan step (start p) 0 octets with
  | opened s =>
    rw [hscan] at hkeeps
    have hexpecting : (s.expecting == .body || s.expecting == .bodies) = false := by
      rcases hkeeps with ⟨he, -⟩ | ⟨⟨version, he⟩, -⟩ <;> rw [he] <;> rfl
    rintro hv
    have htrue := congrArg Prod.fst (Except.ok.inj hv)
    rw [hexpecting] at htrue
    cases htrue
  | closed v =>
    rw [hscan] at hkeeps
    exact hkeeps q

end Lost

section Rejected
variable {p q r : Parser} {s s' : State} {octets rest : Bytes} {t : Token} {n : ℕ} {e : Expecting}

theorem Shifts.expecting (h : Shifts q e t s) : s.expecting ≠ .message := by
  cases h <;> intro he <;> cases he

theorem step_expecting (hfits : s.expecting.Fits s.parser.condition)
    (h : step s octets = (.opened s', n)) : s'.expecting ≠ .message := by
  rcases step_opened h with ⟨t, q, -, hshift⟩ | ⟨q, hlex, rfl⟩
  · exact hshift.expecting
  · have hc : s.parser.condition = .body ∨ s.parser.condition = .data ∨
        s.parser.condition = .chunkedBody ∨ s.parser.condition = .chunk ∨
          s.parser.condition = .data2 := by
      rcases lex_more hlex with ⟨hc | hc, -⟩ | ⟨hc | hc | hc, -⟩ <;> simp [hc]
    intro he
    replace he : s.expecting = .message := he
    rcases hfits.body hc with hbody | hbody | hbody <;> rw [he] at hbody <;> cases hbody

def BeginsAt (p : Parser) (octets : Bytes) (s : State) (rest : Bytes) : Prop :=
  Stage p octets s rest ∧ (s.expecting = .message → s = start p ∧ rest = octets)

theorem beginsAt_of_steps (hp : p.Clean) (h : Steps step (start p) octets s rest) :
    BeginsAt p octets s rest := by
  refine Steps.keeps ?_ h ⟨?_, fun _ => ⟨rfl, rfl⟩⟩
  · rintro s s' piece rest - ⟨hstage, -⟩ hstep
    exact ⟨hstage.step hstep, fun hmessage => absurd hmessage (step_expecting hstage.fits hstep)⟩
  · exact stage_of_steps (.inl hp.condition) hp.multiBody (.refl _ _)

theorem exists_append_of_steps (h : Steps step s octets s' rest) :
    ∃ piece, octets = piece ++ rest := by
  induction h with
  | refl => exact ⟨[], rfl⟩
  | head _ _ _ ih =>
    obtain ⟨piece, rfl⟩ := ih
    exact ⟨_, (List.append_assoc _ _ _).symm⟩

def Expecting.Refuses : Expecting → Token → Prop
  | .requestHeaders _, .delimiter | .body, .body | .body, .endOfInput | .chunks, .delimiter
  | .trailers, .delimiter => False
  | .responseHeaders v, .delimiter => (versionDigits v).isSome = false
  | _, _ => True

theorem goOn_rejected {x : Except Fault Parser} : goOn e x ≠ .closed (.ok (false, q)) := by
  cases x with
  | error f =>
    intro h
    cases h
  | ok p =>
    intro h
    cases h

theorem acceptFramed_rejected : acceptFramed r ≠ .closed (.ok (false, q)) := by
  rw [acceptFramed]
  cases r.frame with
  | error f =>
    intro h
    cases h
  | ok p =>
    intro h
    cases h

theorem delimited_rejected : delimited r ≠ .closed (.ok (false, q)) := by
  rw [delimited]
  split_ifs
  · exact acceptFramed_rejected
  · exact acceptFramed_rejected
  · intro h
    cases h

theorem shift_rejected (h : shift e t r = .closed (.ok (false, q))) : q = r ∧ e.Refuses t := by
  cases e <;> cases t
  all_goals try (cases h <;> exact ⟨rfl, trivial⟩)
  case version.version method uri version =>
    dsimp only [shift] at h
    cases hdigits : versionDigits version with
    | none =>
      rw [hdigits] at h
      cases h
      exact ⟨rfl, trivial⟩
    | some digits =>
      rw [hdigits] at h
      cases h
  case requestHeaders.delimiter => exact absurd h delimited_rejected
  case responseHeaders.delimiter v =>
    dsimp only [shift] at h
    cases hdigits : versionDigits v with
    | none =>
      rw [hdigits] at h
      cases h
      exact ⟨rfl, by rw [Expecting.Refuses, hdigits]; rfl⟩
    | some digits =>
      rw [hdigits] at h
      exact absurd h delimited_rejected
  case body.body =>
    dsimp only [shift] at h
    cases hframe : r.frame with
    | error f =>
      rw [hframe] at h
      cases h
    | ok p =>
      rw [hframe] at h
      dsimp only at h
      split_ifs at h
      cases h
  case chunks.delimiter => exact absurd h acceptFramed_rejected
  case trailers.delimiter => exact absurd h acceptFramed_rejected
  all_goals exact absurd h goOn_rejected

theorem Expecting.Fits.stuck {c : StartCondition} (h : e.Fits c) (hmessage : e ≠ .message)
    (hbody : e ≠ .body) : c.Stuck := by
  cases e with
  | message => exact absurd rfl hmessage
  | body => exact absurd rfl hbody
  | bodies => exact h.elim
  | uri | version | requestHeaders =>
    rw [show c = _ from h]
    decide
  | status | reason | responseHeaders =>
    rw [show c = _ from h.2]
    decide
  | chunks | trailers => rcases h with rfl | rfl <;> decide

theorem endHeaders_undecided (h : Undecided p.record) :
    endRequestHeaders p = p ∧ endResponseHeaders p = p := by
  obtain ⟨hlength, encoding, hlookup, hchunked⟩ := h
  rw [endRequestHeaders, endResponseHeaders, hlength]
  dsimp only
  rw [hlookup]
  dsimp only
  rw [beginEncoded, if_neg hchunked]
  exact ⟨rfl, rfl⟩

/-- A token that is refused within a message leaves the scanner there, but for an empty line
instead of a chunked body. -/
theorem stuck_of_refused (hstage : Stage p octets s rest) (hmessage : s.expecting ≠ .message)
    (hlex : lex s.parser rest = .ok (.token t n r)) (hrefuses : s.expecting.Refuses t) :
    r.condition.Stuck ∨ s.expecting = .body ∧ s.parser.condition = .chunkedBody ∧ t = .delimiter := by
  have hleads := lex_leadsTo hlex
  have hfrom := lex_comesFrom hlex
  have hfits := hstage.fits
  cases t with
  | method m =>
    left
    rw [show r.condition = .uri from hleads]
    decide
  | uri u =>
    left
    rw [show r.condition = .version from hleads]
    decide
  | version v =>
    left
    rcases hleads.2 with ⟨-, hr⟩ | ⟨-, hr⟩ <;> rw [hr] <;> decide
  | status st =>
    left
    rw [show r.condition = .reason from hleads]
    decide
  | reason rs =>
    left
    rw [show r.condition = .responseHeaders from hleads]
    decide
  | header line =>
    left
    rw [show r.condition = s.parser.condition from hleads]
    rcases hfrom with hs | hs | hs <;> rw [hs] <;> decide
  | chunk size =>
    left
    rw [show r.condition = .chunkedBody from hleads]
    decide
  | body =>
    have hdata : s.parser.condition = .data := hleads
    rcases hfits.body (.inr (.inl hdata)) with he | he | he
    · rw [he] at hrefuses
      exact hrefuses.elim
    · rw [he, hdata] at hfits
      simp [Expecting.Fits] at hfits
    · rw [he, hdata] at hfits
      simp [Expecting.Fits] at hfits
  | endOfInput =>
    left
    have hbody : s.expecting ≠ .body := fun he => by
      rw [he] at hrefuses
      exact hrefuses
    have hstuck := hfits.stuck hmessage hbody
    rcases hleads with hr | ⟨hs, -⟩ | ⟨-, hr⟩
    · rwa [hr]
    · rw [hs] at hstuck
      exact absurd hstuck (by decide)
    · rw [hr]
      decide
  | delimiter =>
    rcases hleads with hends | ⟨hchunked, -⟩
    · left
      have hbody (hc : s.parser.condition = .requestHeaders ∨ s.parser.condition = .responseHeaders) :
          s.expecting = .body := by
        cases he : s.expecting <;> rw [he] at hfits hrefuses hmessage <;>
          rcases hc with hc | hc <;> rw [hc] at hfits <;>
            simp_all [Expecting.Fits, Expecting.Refuses]
      cases hends with
      | request hs =>
        have hundecided := hstage.undecided (hbody (.inl hs)) (.inl hs)
        rw [(endHeaders_undecided (p := s.parser.addOffset _) hundecided).1, hs]
        decide
      | response hs =>
        have hundecided := hstage.undecided (hbody (.inr hs)) (.inr hs)
        rw [(endHeaders_undecided (p := s.parser.addOffset _) hundecided).2, hs]
        decide
    · refine .inr ⟨?_, hchunked, rfl⟩
      rcases hfits.body (.inr (.inr (.inl hchunked))) with he | he | he
      · exact he
      · rw [he] at hrefuses
        exact hrefuses.elim
      · rw [he] at hrefuses
        exact hrefuses.elim

/-- What begins a message, and is not cut off behind its first word. -/
theorem step_begun (hp : p.condition = .initial)
    (hbegins : ¬ (Rules.version.NoPrefix octets ∧ Rules.method.NoPrefix octets))
    (hmethod : ¬ CutBehind Rules.method octets) (hversion : ¬ CutBehind Rules.version octets) :
    ∃ s n, step (start p) octets = (.opened s, n) := by
  by_cases hm : Rules.method.NoPrefix octets
  · have hv : ¬ Rules.version.NoPrefix octets := fun hv => hbegins ⟨hv, hm⟩
    obtain ⟨n, hn⟩ := Option.ne_none_iff_exists'.mp
      (mt longest_eq_none.mp fun hcut => hversion ⟨hv, hcut⟩)
    rw [step, lex_initial hp, lexInitial_version hv, lexResponse, lexOne, hn]
    exact ⟨_, _, rfl⟩
  · obtain ⟨n, hn⟩ := Option.ne_none_iff_exists'.mp
      (mt longest_eq_none.mp fun hcut => hmethod ⟨hm, hcut⟩)
    rw [step, lex_initial hp, lexInitial_method hm, lexRequest, lexOne, hn]
    exact ⟨_, _, rfl⟩

theorem take_of_crlf (h : Rules.crlf.longest octets = some n) : octets.take 2 = lineEnd := by
  have htake := mem_crlf.mp (longest_mem h)
  have hlength := congrArg List.length htake
  rw [List.length_take, Nat.min_eq_left (longest_le h)] at hlength
  rw [← htake, hlength]
  rfl

theorem take_of_delimiter (h : first chunkedLines octets = some (n, .delimiter)) :
    octets.take 2 = lineEnd := by
  obtain ⟨pattern, hpattern, hlongest⟩ := first_some h
  simp only [chunkedLines, line, List.mem_cons, Prod.mk.injEq, List.not_mem_nil, or_false,
    reduceCtorEq, and_false, false_or, and_true] at hpattern
  rw [hpattern] at hlongest
  exact take_of_crlf hlongest

theorem emptyLine_of_lex (hp : p.condition = .chunkedBody)
    (h : lex p octets = .ok (.token .delimiter n q)) : octets.take 2 = lineEnd := by
  rw [lex_chunkedBody hp] at h
  replace h := Except.ok.inj h
  rw [lexChunkedBody] at h
  split at h
  · split at h
    · rcases leadsTo_chunk h with ⟨-, ht⟩ | ⟨-, ht⟩ <;> cases ht
    · cases h
  · cases h
  · next hfirst => exact take_of_delimiter hfirst
  · cases h

theorem longest_never (octets : Bytes) : (Regex.never : Rules.Pattern).longest octets = none := by
  induction octets with
  | nil => rfl
  | cons a octets ih =>
    rw [longest, show (Regex.never : Rules.Pattern).deriv a = .never from rfl, ih]
    rfl

theorem longest_none {r : Rules.Pattern} {a : UInt8} (hderiv : r.deriv a = .never)
    (hnullable : r.nullable = false) (octets : Bytes) : r.longest (a :: octets) = none := by
  rw [longest, hderiv, longest_never, hnullable]
  rfl

theorem longest_lineEnd (rest : Bytes) : Rules.crlf.longest (0x0D :: 0x0A :: rest) = some 2 := by
  refine longest_eq_some.mpr ⟨by simp, mem_crlf.mpr rfl, fun m hm hle hmem => ?_⟩
  have hlength := congrArg List.length (mem_crlf.mp hmem)
  rw [List.length_take, Nat.min_eq_left hle] at hlength
  have htwo : lineEnd.length = 2 := rfl
  omega

theorem first_emptyLine (h : octets.take 2 = lineEnd) :
    first chunkedLines octets = some (2, .delimiter) := by
  obtain ⟨rest, rfl⟩ : ∃ rest, octets = 0x0D :: 0x0A :: rest := by
    refine ⟨octets.drop 2, ?_⟩
    rw [← List.take_append_drop 2 octets, h]
    rfl
  have hchunk : (seq Rules.chunkLine Rules.crlf).longest (0x0D :: 0x0A :: rest) = none :=
    longest_none rfl rfl _
  have hheader : (seq Rules.entityHeader Rules.crlf).longest (0x0D :: 0x0A :: rest) = none :=
    longest_none rfl rfl _
  rw [chunkedLines, line, line, first, first, first, first, hchunk, hheader, longest_lineEnd]

theorem parse_emptyBody (hp : p.Clean) (h : EmptyBody p octets) : ∃ q,
    parse p octets = .ok (false, q) ∧ q.Clean ∧ q.headerOnly = p.headerOnly := by
  obtain ⟨head, rest, rfl, hline, ⟨e, r⟩, hsteps, he, hchunked⟩ := h
  obtain rfl : e = .body := he
  replace hchunked : r.condition = .chunkedBody := hchunked
  have hstage := stage_of_steps (.inl hp.condition) hp.multiBody hsteps
  have hchunks : r.chunks = [] := (hstage.chunks (by simp) (by simp)).trans hp.chunks
  have hne : rest ≠ [] := by
    rintro rfl
    cases hline
  have hstep : step ⟨.body, r⟩ rest =
      (.closed (.ok (false, (r.addOffset (UInt32.ofNat 2)).begin .initial)), 2) := by
    rw [step, lex_chunkedBody hchunked, lexChunkedBody, first_emptyLine hline]
    rfl
  refine ⟨(r.addOffset (UInt32.ofNat 2)).begin .initial, ?_, ⟨rfl, hchunks, hstage.multiBody⟩,
    hstage.headerOnly⟩
  rw [parse, hsteps.scan_eq, scan_closed hne hstep]

/-- The scanner of a message that is rejected elsewhere is left within the message. -/
theorem parse_leavesStuck (hp : p.Clean) (h : parse p octets = .ok (false, q))
    (hbegins : ¬ (Rules.version.NoPrefix octets ∧ Rules.method.NoPrefix octets))
    (hmethod : ¬ CutBehind Rules.method octets) (hversion : ¬ CutBehind Rules.version octets)
    (hempty : ¬ EmptyBody p octets) : q.condition.Stuck := by
  obtain ⟨s, rest, hsteps, hend⟩ := exists_steps takes_step (start p) octets
  have hstage := stage_of_steps (.inl hp.condition) hp.multiBody hsteps
  obtain ⟨s', n, hfirst⟩ := step_begun hp.condition hbegins hmethod hversion
  rcases hend with ⟨rfl, hscan⟩ | ⟨v, k, -, hstep, hscan⟩
  · have hmessage : s.expecting ≠ .message := fun he => by
      obtain ⟨-, rfl⟩ := (beginsAt_of_steps hp hsteps).2 he
      exact hbegins ⟨noPrefix_nil rfl, noPrefix_nil rfl⟩
    rw [parse, hscan] at h
    have hpair := Except.ok.inj h
    have hbody : s.expecting ≠ .body := fun he => by
      have hfalse := congrArg Prod.fst hpair
      rw [he] at hfalse
      cases hfalse
    have hq : s.parser = q := congrArg Prod.snd hpair
    rw [← hq]
    exact hstage.fits.stuck hmessage hbody
  · have hmessage : s.expecting ≠ .message := fun he => by
      obtain ⟨rfl, rfl⟩ := (beginsAt_of_steps hp hsteps).2 he
      rw [hstep] at hfirst
      cases hfirst
    rw [parse, hscan] at h
    obtain rfl : v = .ok (false, q) := h
    rw [step] at hstep
    cases hlex : lex s.parser rest with
    | error f =>
      rw [hlex] at hstep
      cases hstep
    | ok l =>
      rw [hlex] at hstep
      cases l with
      | more m r => cases hstep
      | token t m r =>
        obtain ⟨rfl, hrefuses⟩ := shift_rejected (congrArg Prod.fst hstep)
        rcases stuck_of_refused hstage hmessage hlex hrefuses with hstuck | ⟨he, hchunked, rfl⟩
        · exact hstuck
        · obtain ⟨head, rfl⟩ := exists_append_of_steps hsteps
          have hline := emptyLine_of_lex hchunked hlex
          exact absurd ⟨head, rest, rfl, hline, s, hsteps, he, hchunked⟩ hempty

end Rejected

section Leftovers
variable {p p' q : Parser} {bad next : Bytes}

/-- A parser that differs from a fresh one in what is not read. -/
structure Parser.Renewed (p q : Parser) : Prop where
  clean : q.Clean
  headerOnly : q.headerOnly = p.headerOnly
  chain : q.chain = []
  recorded : q.recorded = none

theorem dispatch_parse (h : p.isFirstFragment = true ∨ p.multiBody = false) (hchain : p.chain = [])
    (fragment : Bytes) : p.dispatch fragment = afterParse (parse (p.receive fragment) fragment) := by
  have hhead : (p.receive fragment).chain.headD [] = fragment := by
    rw [Parser.receive, hchain]
    rfl
  rw [Parser.dispatch, hhead]
  rcases h with h | h <;> simp [h]

theorem deliver_ok {outcome : Outcome} (h : deliver p = .ok (outcome, q)) :
    outcome ≠ .rejected ∧ ∀ fragment, outcome ≠ .passed fragment := by
  rw [deliver] at h
  split_ifs at h
  · cases h
    exact ⟨Outcome.noConfusion, fun _ => Outcome.noConfusion⟩
  · split at h <;> cases h
    exact ⟨Outcome.noConfusion, fun _ => Outcome.noConfusion⟩

/-- What is not parsed is rejected, and what is parsed is neither rejected nor passed on as it is. -/
theorem afterParse_ok {v : Verdict} {outcome : Outcome} (h : afterParse v = .ok (outcome, q)) :
    (outcome = .rejected ∧ ∃ r, v = .ok (false, r) ∧ q = { r with chain := [], recorded := none }) ∨
      (outcome ≠ .rejected ∧ ∀ fragment, outcome ≠ .passed fragment) ∧ ∃ r, v = .ok (true, r) := by
  rcases v with f | ⟨_ | _, r⟩
  · cases h
  · cases h
    exact .inl ⟨rfl, r, rfl, rfl⟩
  · refine .inr ⟨?_, r, rfl⟩
    rw [afterParse] at h
    split_ifs at h
    · exact deliver_ok h
    · cases h
      exact ⟨Outcome.noConfusion, fun _ => Outcome.noConfusion⟩

theorem outcome_ok {fragment : Bytes} {outcome : Outcome} (h : p.outcome fragment = .ok outcome) :
    ∃ q, p.dispatch fragment = .ok (outcome, q) := by
  rw [Parser.outcome] at h
  rcases hdispatch : p.dispatch fragment with f | ⟨outcome', q⟩
  · rw [hdispatch] at h
    cases h
  · rw [hdispatch] at h
    cases h
    exact ⟨q, rfl⟩

theorem outcome_renewed (hmulti : p.multiBody = false) (h : p.Renewed q) :
    q.outcome next = p.fresh.outcome next := by
  obtain ⟨⟨hcondition, hchunks, hq⟩, hheader, hchain, hrecorded⟩ := h
  have hparser : (start (q.receive next)).parser = (start (p.fresh.receive next)).parser.leftWith
      q.contentLengthOrChunkSize q.bodyOrChunkBytesToSkip := by
    obtain ⟨⟩ := q
    dsimp only at hcondition hchunks hq hheader hchain hrecorded
    subst hcondition hchunks hq hheader hchain hrecorded
    simp [start, Parser.receive, Parser.fresh, Parser.leftWith, hmulti]
  have hagrees : (start (p.fresh.receive next)).parser.Agrees (start (q.receive next)).parser := by
    rw [hparser]
    exact .stale id _ _
  have hresults := afterParse_agrees (parse_agrees hagrees next)
  rw [Parser.outcome, Parser.outcome, dispatch_parse (p := p.fresh) (.inl rfl) rfl,
    dispatch_parse (.inr hq) hchain]
  exact hresults.map_fst.symm

theorem outcome_ne (hnever : q.isFirstFragment = true ∨ q.multiBody = false →
      ∀ r, parse (q.receive next) next ≠ .ok (true, r)) (hchain : q.chain = [])
    (hnext : p.fresh.Understands next) :
    q.outcome next ≠ p.fresh.outcome next := by
  intro heq
  obtain ⟨outcome, houtcome, hrejected⟩ := hnext
  obtain ⟨r, hfresh⟩ := outcome_ok houtcome
  obtain ⟨r', hdispatch⟩ := outcome_ok (heq.trans houtcome)
  rw [dispatch_parse (p := p.fresh) (.inl rfl) rfl] at hfresh
  rcases afterParse_ok hfresh with ⟨hout, -⟩ | ⟨⟨-, hpassed⟩, -⟩
  · exact hrejected hout
  · by_cases hpasses : q.isFirstFragment = true ∨ q.multiBody = false
    · rw [dispatch_parse hpasses hchain] at hdispatch
      rcases afterParse_ok hdispatch with ⟨hout, -⟩ | ⟨-, r, hparse⟩
      · exact hrejected hout
      · exact hnever hpasses r hparse
    · have hpass : (!q.isFirstFragment && q.multiBody) = true := by
        rw [not_or, Bool.not_eq_true, Bool.not_eq_false] at hpasses
        rw [hpasses.1, hpasses.2]
        rfl
      rw [Parser.dispatch, if_pos hpass] at hdispatch
      cases hdispatch
      exact hpassed next rfl

theorem outcome_begun (hmulti : q.multiBody = false) (hchain : q.chain = [])
    (h : parse (q.receive next) next = parse ((q.receive next).begin .initial) next) :
    q.outcome next = (q.begin .initial).outcome next := by
  rw [Parser.outcome, Parser.outcome, dispatch_parse (.inr hmulti) hchain,
    dispatch_parse (p := q.begin .initial) (.inr hmulti) hchain, h]
  rfl

/-- The parser that `dispatch` keeps of a message that is rejected. -/
def Parser.released (q : Parser) : Parser := { q with chain := [], recorded := none }

/-- A text that begins no message leaves the parser as it was. -/
theorem outcome_garbage (hp : p.Ready) (hmulti : p.multiBody = false)
    (hversion : Rules.version.NoPrefix bad) (hmethod : Rules.method.NoPrefix bad)
    (hparse : parse (p.receive bad) bad = .ok (false, q)) :
    q.released.outcome next = p.fresh.outcome next := by
  rw [parse_garbage (p := p.receive bad) hp.condition hversion hmethod] at hparse
  obtain rfl : (start (p.receive bad)).parser = q := congrArg Prod.snd (Except.ok.inj hparse)
  exact outcome_renewed hmulti ⟨⟨hp.condition, hp.chunks, hmulti⟩, rfl, rfl, rfl⟩

/-- A text that is cut off behind a word leaves the parser where it looks for this word. -/
theorem outcome_cutBehind {pattern : Rules.Pattern} {condition : StartCondition}
    (hnone : pattern.NoPrefix next → ∀ p : Parser, p.condition = condition →
      parse p next = .ok (false, (start p).parser))
    (hfound : ¬ pattern.NoPrefix next → ∀ p : Parser, p.condition = condition →
      parse p next = parse (p.begin .initial) next)
    (hp : p.Ready) (hmulti : p.multiBody = false)
    (hq : q = (start (p.receive bad)).parser.begin condition)
    (hnext : p.fresh.Understands next) :
    q.released.outcome next = p.fresh.outcome next ↔
      ¬ pattern.NoPrefix next := by
  have hcondition : (q.released.receive next).condition = condition := by
    rw [hq]
    rfl
  have hreleased : q.released.multiBody = false := by
    rw [hq]
    exact hmulti
  constructor
  · intro heq h
    refine outcome_ne (fun _ r hr => ?_) rfl hnext heq
    rw [hnone h _ hcondition] at hr
    cases hr
  · intro h
    rw [outcome_begun hreleased rfl (hfound h _ hcondition)]
    refine outcome_renewed hmulti ⟨⟨rfl, ?_, hreleased⟩, ?_, rfl, rfl⟩ <;> rw [hq]
    · exact hp.chunks
    · rfl

/-- What arrives behind a rejected message is parsed as by a fresh parser exactly when the message
spares it. -/
theorem outcome_released_iff (hp : p.Ready) (hmulti : p.multiBody = false)
    (hparse : parse (p.receive bad) bad = .ok (false, q))
    (hnext : p.fresh.Understands next) :
    q.released.outcome next = p.fresh.outcome next ↔ Spares p bad next := by
  have hclean : (p.receive bad).Clean := ⟨hp.condition, hp.chunks, hmulti⟩
  have hempty (h : EmptyBody (p.receive bad) bad) : q.Clean ∧ q.headerOnly = p.headerOnly := by
    obtain ⟨r, hr, hrclean, hrheader⟩ := parse_emptyBody hclean h
    rw [hparse] at hr
    obtain rfl := congrArg Prod.snd (Except.ok.inj hr)
    exact ⟨hrclean, hrheader⟩
  by_cases hgarbage : Rules.version.NoPrefix bad ∧ Rules.method.NoPrefix bad
  · exact iff_of_true (outcome_garbage hp hmulti hgarbage.1 hgarbage.2 hparse)
      ⟨hmulti, .inl hgarbage⟩
  by_cases hmethod : CutBehind Rules.method bad
  · rw [parse_cutBehind_method (p := p.receive bad) hp.condition hmethod] at hparse
    have hq : (start (p.receive bad)).parser.begin .request = q :=
      congrArg Prod.snd (Except.ok.inj hparse)
    rw [outcome_cutBehind (fun h _ hp => parse_request_none hp h)
      (fun h _ hp => parse_request hp h) hp hmulti hq.symm hnext]
    constructor
    · exact fun h => ⟨hmulti, .inr (.inl ⟨hmethod, h⟩)⟩
    · rintro ⟨-, h | ⟨-, h⟩ | ⟨h, -⟩ | h⟩
      · exact absurd h hgarbage
      · exact h
      · exact absurd (noPrefix_method h.1) hmethod.1
      · have hcondition := (hempty h).1.condition
        rw [← hq] at hcondition
        cases hcondition
  by_cases hversion : CutBehind Rules.version bad
  · rw [parse_cutBehind_version (p := p.receive bad) hp.condition hversion] at hparse
    have hq : (start (p.receive bad)).parser.begin .response = q :=
      congrArg Prod.snd (Except.ok.inj hparse)
    rw [outcome_cutBehind (fun h _ hp => parse_response_none hp h)
      (fun h _ hp => parse_response hp h) hp hmulti hq.symm hnext]
    constructor
    · exact fun h => ⟨hmulti, .inr (.inr (.inl ⟨hversion, h⟩))⟩
    · rintro ⟨-, h | ⟨h, -⟩ | ⟨-, h⟩ | h⟩
      · exact absurd h hgarbage
      · exact absurd h hmethod
      · exact h
      · have hcondition := (hempty h).1.condition
        rw [← hq] at hcondition
        cases hcondition
  by_cases hbody : EmptyBody (p.receive bad) bad
  · obtain ⟨hq, hheader⟩ := hempty hbody
    exact iff_of_true (outcome_renewed hmulti
      ⟨⟨hq.condition, hq.chunks, hq.multiBody⟩, hheader, rfl, rfl⟩)
      ⟨hmulti, .inr (.inr (.inr hbody))⟩
  · have hstuck := parse_leavesStuck hclean hparse hgarbage hmethod hversion hbody
    have hnever : ∀ r, parse (q.released.receive next) next ≠ .ok (true, r) :=
      parse_stuck (p := q.released.receive next) hstuck next
    refine iff_of_false (outcome_ne (fun _ => hnever) rfl hnext) ?_
    rintro ⟨-, h | ⟨h, -⟩ | ⟨h, -⟩ | h⟩
    · exact hgarbage h
    · exact hmethod h
    · exact hversion h
    · exact hbody h

/-- What arrives behind a message that is rejected is parsed as by a fresh parser exactly when the
message spares it. -/
theorem rejected_then_parsed_iff (hp : p.Ready) (hbad : p.dispatch bad = .ok (.rejected, p'))
    (hnext : p.fresh.Understands next) :
    p'.outcome next = p.fresh.outcome next ↔ Spares p bad next := by
  have hparses : p.isFirstFragment = true ∨ p.multiBody = false := by
    by_contra hpasses
    rw [not_or, Bool.not_eq_true, Bool.not_eq_false] at hpasses
    rw [Parser.dispatch, hpasses.1, hpasses.2] at hbad
    cases hbad
  rw [dispatch_parse hparses hp.chain] at hbad
  rcases afterParse_ok hbad with ⟨-, q, hparse, rfl⟩ | ⟨⟨hrejected, -⟩, -⟩
  · cases hmulti : p.multiBody with
    | true =>
      have hreceive : (p.receive bad).Passes := ⟨rfl, hmulti⟩
      have hq : q.Passes := parse_passes hreceive hparse
      have hreleased : q.released.Passes := hq
      refine iff_of_false (outcome_ne (q := q.released) ?_ rfl hnext) ?_
      · rintro (hfirst | hsingle)
        · rw [hreleased.1] at hfirst
          cases hfirst
        · rw [hreleased.2] at hsingle
          cases hsingle
      · rintro ⟨hsingle, -⟩
        rw [hmulti] at hsingle
        cases hsingle
    | false => exact outcome_released_iff hp hmulti hparse hnext
  · exact absurd rfl hrejected

end Leftovers

theorem understands_of_outcome {p : Parser} {fragment : Bytes}
    (h : (p.outcome fragment).map (fun outcome => decide (outcome = .rejected)) = .ok false) :
    p.Understands fragment := by
  cases houtcome : p.outcome fragment with
  | error f =>
    rw [houtcome] at h
    cases h
  | ok outcome =>
    rw [houtcome] at h
    exact ⟨outcome, houtcome, of_decide_eq_false (Except.ok.inj h)⟩

def postMessage : Bytes := text "POST / HTTP/1.1\r\nContent-Length: 2\r\n\r\nAB"

theorem understands_postMessage : (Parser.fresh {}).Understands postMessage :=
  understands_of_outcome (by decide +kernel)

/-- An empty line in front of a message. -/
theorem emptyLine_then_parsed :
    ({ isFirstFragment := false } : Parser).outcome postMessage =
      (Parser.fresh {}).outcome postMessage :=
  have hgarbage : Rules.version.NoPrefix lineEnd ∧ Rules.method.NoPrefix lineEnd :=
    ⟨longest_eq_none.mp (by decide +kernel), longest_eq_none.mp (by decide +kernel)⟩
  have hbad : ({} : Parser).dispatch lineEnd = .ok (.rejected, { isFirstFragment := false }) := by
    rw [dispatch_parse (.inl rfl) rfl, parse_garbage rfl hgarbage.1 hgarbage.2]
    rfl
  (rejected_then_parsed_iff ⟨rfl, rfl, rfl, rfl⟩ hbad understands_postMessage).mpr
    ⟨rfl, .inl hgarbage⟩

/-- A head that is cut off leaves the scanner in its headers. -/
theorem cutHead_spoils : ∃ p', ({} : Parser).dispatch (text "GET / HTTP/1.1\r\nHost") =
      .ok (.rejected, p') ∧ (Parser.fresh {}).Understands postMessage ∧
      p'.outcome postMessage ≠ (Parser.fresh {}).outcome postMessage := by
  have hresult : (({} : Parser).dispatch (text "GET / HTTP/1.1\r\nHost")).map (fun r =>
      (decide (r.1 = .rejected),
        decide (r.2.outcome postMessage = (Parser.fresh {}).outcome postMessage))) =
      .ok (true, false) := by decide +kernel
  rcases hdispatch : ({} : Parser).dispatch (text "GET / HTTP/1.1\r\nHost") with f | ⟨outcome, p'⟩
  · rw [hdispatch] at hresult
    cases hresult
  · rw [hdispatch] at hresult
    have hpair := Prod.mk.inj (Except.ok.inj hresult)
    obtain rfl : outcome = .rejected := of_decide_eq_true hpair.1
    exact ⟨p', rfl, understands_postMessage, of_decide_eq_false hpair.2⟩

end ACENetwork.HTTP
