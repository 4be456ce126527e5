import ACENetwork.HTTP.Buffers

/-!
# Chunked bodies

The scanner records where the data of the chunks start, counted in 32 bits, and the module cuts
them out of the chain of blocks. The line of a chunk ends where the longest match of the
scanner's rule ends, which may be far behind it: quoted strings take line ends.
-/
namespace ACENetwork.HTTP
open BitTorrent (Fault)
open Library Library.Blocks Library.Regex

/-- The line of a chunk: the digits of its size, and extensions. -/
structure ChunkLine where
  digits : Bytes
  extensions : Bytes
  digits_ne : digits ≠ []
  hex : ∀ b ∈ digits, Rules.isHex b = true
  separated : extensions = [] ∨ extensions.head? = some 0x3B
  unbroken : ∀ b ∈ extensions, isLineEnd b = false

def ChunkLine.size (l : ChunkLine) : ℕ := digitsValue 16 l.digits

def ChunkLine.octets (l : ChunkLine) : Bytes := l.digits ++ l.extensions ++ lineEnd

structure Chunk where
  line : ChunkLine
  data : Bytes
  data_ne : data ≠ []
  size : line.size = data.length

def Chunk.octets (c : Chunk) : Bytes := c.line.octets ++ (c.data ++ lineEnd)

def isNameChar (b : UInt8) : Bool :=
  Rules.isAlnum b || Rules.among "!#$%&*+-.^_|~" b || b == 0x27 || b == 0x60

structure Trailer where
  name : Bytes
  value : Bytes
  name_ne : name ≠ []
  named : ∀ b ∈ name, isNameChar b = true
  unbroken : ∀ b ∈ value, isLineEnd b = false

def Trailer.octets (t : Trailer) : Bytes := t.name ++ 0x3A :: (t.value ++ lineEnd)

structure ChunkedBody where
  chunks : List Chunk
  last : ChunkLine
  last_size : last.size = 0
  trailers : List Trailer

namespace ChunkedBody

variable (body : ChunkedBody)

def data : Bytes := body.chunks.flatMap Chunk.data

def ending : Bytes := body.trailers.flatMap Trailer.octets ++ lineEnd

def octets : Bytes := body.chunks.flatMap Chunk.octets ++ (body.last.octets ++ body.ending)

end ChunkedBody

def ChunkLine.Taken (l : ChunkLine) (rest : Bytes) : Prop :=
  (seq Rules.chunkLine Rules.crlf).longest (l.octets ++ rest) = some l.octets.length

instance (l : ChunkLine) (rest : Bytes) : Decidable (l.Taken rest) :=
  inferInstanceAs (Decidable (_ = _))

def LinesTaken : List Chunk → Bytes → Prop
  | [], _ => True
  | c :: cs, rest =>
    c.line.Taken (c.data ++ lineEnd ++ (cs.flatMap Chunk.octets ++ rest)) ∧ LinesTaken cs rest

/-- The headers that the scanner finds in front of an empty line end with it behind `n` octets,
and none of them is the header whose action asserts false. -/
inductive EndsAt : Bytes → ℕ → Prop
  | delimiter {octets : Bytes} {n : ℕ} (h : first chunkedLines octets = some (n, .delimiter)) :
    EndsAt octets n
  | header {octets : Bytes} {n m : ℕ} (h : first chunkedLines octets = some (n, .header))
    (hname : (headerLine (octets.take (n - 2))).map Prod.fst ≠ some contentEncoding)
    (hrest : EndsAt (octets.drop n) m) : EndsAt octets (n + m)

/-- The octets of a head behind which a parser expects a chunked body. -/
def Announces (p : Parser) (head rest : Bytes) : Prop :=
  ∃ s, Steps step (start p) (head ++ rest) s rest ∧ s.expecting = .body ∧
    s.parser.condition = .chunkedBody

def ChunkedBody.sizes (body : ChunkedBody) : List UInt32 :=
  (body.chunks.map fun c => UInt32.ofNat c.data.length) ++ [0]

/-- The message is parsed, its chunks are recorded and its record is passed on, and the content is
the data of the chunks, followed by the octets behind the message. -/
def Reassembles (useYYScanBuffer : Bool) (p : Parser) (body : ChunkedBody) (rest : Bytes) : Prop :=
  ∃ q, p.parseHead useYYScanBuffer = .ok (true, q) ∧ q.recorded.isSome = true ∧
    q.chunks.map Prod.snd = body.sizes ∧
      q.chain.flatten.take q.getContentLength.toNat = body.data ∧
        q.chain.flatten.drop q.getContentLength.toNat = rest

section Lines
variable {l : ChunkLine} {octets rest : Bytes} {n : ℕ}

theorem mem_crlf {w : Bytes} : w ∈ Rules.crlf.language ↔ w = lineEnd := mem_word

/-- What a line takes ends with the first line end that it does not take. -/
theorem longest_crlf {pattern : Rules.Pattern}
    (h : (seq pattern Rules.crlf).longest octets = some n) :
    ∃ w ∈ pattern.language, octets.take n = w ++ lineEnd ∧ n = w.length + 2 := by
  obtain ⟨w, hw, u, hu, heq⟩ := mem_seq.mp (longest_mem h)
  obtain rfl := mem_crlf.1 hu
  have hlength := congrArg List.length heq
  rw [List.length_append, List.length_take, Nat.min_eq_left (longest_le h)] at hlength
  exact ⟨w, hw, heq.symm, hlength.symm⟩

theorem isLineEnd_of_isHex {b : UInt8} (h : Rules.isHex b = true) : isLineEnd b = false := by
  revert b
  decide +kernel

theorem isSpace_of_isHex {b : UInt8} (h : Rules.isHex b = true) : isSpace b = false := by
  revert b
  decide +kernel

theorem ChunkLine.unbroken_all (l : ChunkLine) :
    ∀ b ∈ l.digits ++ l.extensions, isLineEnd b = false := fun b hb =>
  (List.mem_append.mp hb).elim (fun hb => isLineEnd_of_isHex (l.hex b hb)) (l.unbroken b)

theorem ChunkLine.stops (l : ChunkLine) (rest : Bytes) :
    Stops Rules.isHex (l.extensions ++ (lineEnd ++ rest)) := by
  rintro b hb
  rcases l.separated with hnil | hhead
  · rw [hnil, List.nil_append] at hb
    cases hb
    rfl
  · rw [List.head?_append, hhead] at hb
    cases hb
    rfl

theorem chunkLineDigits_octets (l : ChunkLine) : chunkLineDigits l.octets = some l.digits := by
  have hsplit : l.octets = l.digits ++ (l.extensions ++ (lineEnd ++ [])) := by
    simp [ChunkLine.octets]
  have htake := takeWhile_run l.hex (l.stops [])
  have hdrop := dropWhile_run l.hex (l.stops [])
  rw [← hsplit] at htake hdrop
  rw [List.append_nil] at hdrop
  have hlength : (l.extensions ++ lineEnd).length - 2 = l.extensions.length := by
    simp [lineEnd]
  have hunbroken : l.extensions.any isLineEnd = false := by
    rw [List.any_eq_false]
    exact fun b hb => by simp [l.unbroken b hb]
  simp only [chunkLineDigits, htake, hdrop, hlength, List.take_left, List.drop_left]
  rw [if_pos ⟨l.digits_ne, trivial, l.separated, hunbroken⟩]

/-- A line that the expression of the action matches ends with its first line end. -/
theorem chunkLineDigits_some {line digits : Bytes} (h : chunkLineDigits line = some digits) :
    ∃ front, line = front ++ lineEnd ∧ ∀ b ∈ front, isLineEnd b = false := by
  rw [chunkLineDigits] at h
  split_ifs at h with hmatch
  obtain ⟨-, hend, -, hunbroken⟩ := hmatch
  refine ⟨line.takeWhile Rules.isHex ++ (line.dropWhile Rules.isHex).take
    ((line.dropWhile Rules.isHex).length - 2), ?_, fun b hb => ?_⟩
  · rw [List.append_assoc, ← hend, List.take_append_drop, List.takeWhile_append_dropWhile]
  · rcases List.mem_append.mp hb with hb | hb
    · exact isLineEnd_of_isHex (List.mem_takeWhile_imp hb)
    · rw [List.any_eq_false] at hunbroken
      simpa using hunbroken b hb

theorem stops_lineEnd (rest : Bytes) : Stops (fun b => !isLineEnd b) (lineEnd ++ rest) := by
  rintro b hb
  cases hb
  rfl

theorem front_unique {front front' rest rest' : Bytes} (h : ∀ b ∈ front, isLineEnd b = false)
    (h' : ∀ b ∈ front', isLineEnd b = false)
    (heq : front ++ (lineEnd ++ rest) = front' ++ (lineEnd ++ rest')) :
    front = front' ∧ lineEnd ++ rest = lineEnd ++ rest' :=
  run_unique (fun b hb => by simp [h b hb]) (fun b hb => by simp [h' b hb]) (stops_lineEnd rest)
    (stops_lineEnd rest') heq

theorem ChunkLine.octets_append (l : ChunkLine) (rest : Bytes) :
    l.octets ++ rest = (l.digits ++ l.extensions) ++ (lineEnd ++ rest) := by
  simp [ChunkLine.octets]

theorem ChunkLine.length_octets (l : ChunkLine) :
    l.octets.length = (l.digits ++ l.extensions).length + 2 := by
  simp [ChunkLine.octets, lineEnd, add_assoc]

/-- What the scanner takes as a chunk line, and the expression of the action matches, is the
line. -/
theorem chunkLineDigits_taken {digits : Bytes}
    (h : (seq Rules.chunkLine Rules.crlf).longest (l.octets ++ rest) = some n)
    (hdigits : chunkLineDigits ((l.octets ++ rest).take n) = some digits) :
    n = l.octets.length := by
  obtain ⟨front, hfront, hunbroken⟩ := chunkLineDigits_some hdigits
  have heq : front ++ (lineEnd ++ (l.octets ++ rest).drop n) =
      (l.digits ++ l.extensions) ++ (lineEnd ++ rest) := by
    rw [← l.octets_append, ← List.append_assoc, ← hfront, List.take_append_drop]
  obtain ⟨rfl, -⟩ := front_unique hunbroken l.unbroken_all heq
  have hlength := congrArg List.length hfront
  rw [List.length_take, Nat.min_eq_left (longest_le h), List.length_append] at hlength
  rw [hlength, l.length_octets]
  rfl

theorem header_over : Rules.header.Over fun b => isLineEnd b = false ∧ Rules.isToken b = true := by
  decide +kernel

theorem isHex_of_octets {b : UInt8} {w : Bytes} (h : l.octets ++ rest = b :: w) :
    Rules.isHex b = true := by
  rw [l.octets_append] at h
  obtain ⟨d, digits, hdigits⟩ := List.exists_cons_of_ne_nil l.digits_ne
  rw [hdigits] at h
  cases h
  exact l.hex _ (by simp [hdigits])

theorem ne_of_octets {c : UInt8} {w : Bytes} (hc : c ∉ [0x0D, 0x3B]) (hhex : Rules.isHex c = false)
    {b : UInt8} (h : l.octets ++ rest = b :: c :: w) : False := by
  rw [l.octets_append] at h
  obtain ⟨d, digits, hdigits⟩ := List.exists_cons_of_ne_nil l.digits_ne
  rw [hdigits] at h
  cases digits with
  | cons d' digits =>
    obtain rfl : d' = c := by
      cases h
      rfl
    have hd := l.hex d' (by simp [hdigits])
    rw [hhex] at hd
    cases hd
  | nil =>
    cases hextensions : l.extensions with
    | nil =>
      rw [hextensions] at h
      cases h
      exact hc (by decide)
    | cons e extensions =>
      rw [hextensions] at h
      cases h
      have hhead := l.separated.resolve_left (by simp [hextensions])
      rw [hextensions] at hhead
      cases hhead
      exact hc (by decide)

/-- A header that the scanner finds in front of a chunk line is the line, which it takes as a
chunk line too. -/
theorem entityHeader_line (h : (seq Rules.entityHeader Rules.crlf).longest (l.octets ++ rest) =
    some n) : n = l.octets.length ∧ l.digits ++ l.extensions ∈ Rules.header.language := by
  obtain ⟨w, hw, htake, hn⟩ := longest_crlf h
  have heq : l.octets ++ rest = w ++ (lineEnd ++ (l.octets ++ rest).drop n) := by
    rw [← List.append_assoc, ← htake, List.take_append_drop]
  have hliteral {s : String} {rs : List (Regex UInt8)} {a c : UInt8} {s' : Bytes}
      (hs : text s = a :: c :: s') (hc : c ∉ [0x0D, 0x3B]) (hhex : Rules.isHex c = false)
      (hw : w ∈ (Regex.all (Rules.lit s :: rs)).language) : False := by
    obtain ⟨u, hu, v, -, rfl⟩ := mem_seq.mp hw
    obtain rfl := mem_word.mp hu
    rw [hs] at heq
    exact ne_of_octets hc hhex heq
  obtain ⟨r, hr, hwr⟩ := mem_anyOf.mp hw
  simp only [List.mem_cons, List.not_mem_nil, or_false] at hr
  rcases hr with rfl | rfl | rfl | rfl | rfl | rfl | rfl
  · exact (hliteral rfl (by decide) (by decide) hwr).elim
  · exact (hliteral rfl (by decide) (by decide) hwr).elim
  · exact (hliteral rfl (by decide) (by decide) hwr).elim
  · exact (hliteral rfl (by decide) (by decide) hwr).elim
  · exact (hliteral rfl (by decide) (by decide) hwr).elim
  · obtain ⟨u, hu, v, -, rfl⟩ := mem_seq.mp hwr
    obtain rfl := mem_word.mp hu
    exact absurd (isHex_of_octets heq) (by decide)
  · rw [l.octets_append] at heq
    obtain ⟨rfl, -⟩ := front_unique l.unbroken_all (fun b hb => (Over.mem header_over hwr b hb).1) heq
    exact ⟨by rw [hn, l.length_octets], hwr⟩

theorem crlf_none (l : ChunkLine) (rest : Bytes) :
    Rules.crlf.longest (l.octets ++ rest) = none := by
  cases h : Rules.crlf.longest (l.octets ++ rest) with
  | none => rfl
  | some n =>
    have htake := mem_crlf.1 (longest_mem h)
    have heq : l.octets ++ rest = lineEnd ++ (l.octets ++ rest).drop n := by
      rw [← htake, List.take_append_drop]
    exact absurd (isHex_of_octets heq) (by decide)

theorem chunkLine_of_header (h : l.digits ++ l.extensions ∈ Rules.header.language) :
    l.octets ∈ (seq Rules.chunkLine Rules.crlf).language := by
  have hcolon : (0x3A : UInt8) ∈ l.digits ++ l.extensions := by
    obtain ⟨u, -, v, hv, heq⟩ := mem_seq.mp h
    obtain ⟨w, hw, x, -, rfl⟩ := mem_seq.mp hv
    obtain rfl := mem_word.mp hw
    rw [← heq]
    exact List.mem_append_right u (List.mem_append_left x (by decide))
  have hextensions : (0x3A : UInt8) ∈ l.extensions := by
    rcases List.mem_append.mp hcolon with hdigit | hextensions
    · exact absurd (l.hex _ hdigit) (by decide)
    · exact hextensions
  obtain ⟨b, extension, hcons⟩ := List.exists_cons_of_ne_nil (List.ne_nil_of_mem hextensions)
  have hhead := l.separated.resolve_left (by simp [hcons])
  rw [hcons] at hhead hextensions
  cases hhead
  have hne : extension ≠ [] := by
    rintro rfl
    exact absurd hextensions (by decide)
  have htoken : ∀ b ∈ extension, Rules.isToken b = true := fun b hb =>
    (Over.mem header_over h b (by simp [hcons, hb])).2
  refine mem_seq.mpr ⟨l.digits ++ l.extensions, mem_seq.mpr ⟨l.digits,
    mem_plus_symbol.mpr ⟨l.digits_ne, l.hex⟩, l.extensions, ?_, rfl⟩, lineEnd, mem_crlf.2 rfl, rfl⟩
  refine ⟨[l.extensions], by simp, List.forall_mem_singleton.mpr ?_⟩
  rw [hcons]
  exact mem_seq.mpr ⟨[0x3B], mem_word.mpr rfl, extension, mem_seq.mpr ⟨extension,
    mem_plus_symbol.mpr ⟨hne, htoken⟩, [], mem_opt.mpr (.inl rfl), List.append_nil _⟩, rfl⟩

theorem first_octets (l : ChunkLine) (rest : Bytes) : first chunkedLines (l.octets ++ rest) =
    ((seq Rules.chunkLine Rules.crlf).longest (l.octets ++ rest)).map fun n => (n, .chunkLine) := by
  have hcrlf := crlf_none l rest
  rw [chunkedLines, line, line, first, first, first, hcrlf, first]
  cases hentity : (seq Rules.entityHeader Rules.crlf).longest (l.octets ++ rest) with
  | none => cases (seq Rules.chunkLine Rules.crlf).longest (l.octets ++ rest) <;> rfl
  | some m =>
    obtain ⟨rfl, hheader⟩ := entityHeader_line hentity
    have hmem : (l.octets ++ rest).take l.octets.length ∈
        (seq Rules.chunkLine Rules.crlf).language := by
      rw [List.take_left]
      exact chunkLine_of_header hheader
    cases hchunk : (seq Rules.chunkLine Rules.crlf).longest (l.octets ++ rest) with
    | none => exact absurd hmem (longest_eq_none.mp hchunk _ (by simp))
    | some n =>
      have hle : l.octets.length ≤ n := by
        by_contra hlt
        exact (longest_eq_some.mp hchunk).2.2 _ (by omega) (by simp) hmem
      dsimp only [Option.map_some]
      rw [if_pos hle]

end Lines

section Scanning
variable {l : ChunkLine} {c : Chunk} {p q : Parser} {e : Expecting} {rest : Bytes}

def afterLine (p : Parser) (l : ChunkLine) : Parser :=
  (beginChunk p l.digits).addOffset (UInt32.ofNat l.octets.length)

def afterChunk (p : Parser) (c : Chunk) : Parser :=
  ({ afterLine p c.line with bodyOrChunkBytesToSkip := 0 }.begin .chunkedBody).chunk
    (UInt32.ofNat c.data.length)

def afterLast (p : Parser) (l : ChunkLine) : Parser :=
  ({ afterLine p l with finished := true }.begin .chunkedBody).chunk 0

theorem extract_digits (h : l.size < 2 ^ 64) :
    extract 16 Rules.isHex l.digits = UInt64.ofNat l.size := by
  obtain ⟨b, digits, hcons⟩ := List.exists_cons_of_ne_nil l.digits_ne
  have hb := l.hex b (by simp [hcons])
  have hspace := isSpace_of_isHex hb
  have hsign : ¬ (some b = some 0x2D ∨ some b = some 0x2B) := by
    rintro (h | h) <;> cases h <;> exact absurd hb (by decide)
  have hdrop : l.digits.dropWhile isSpace = l.digits := by
    rw [hcons, List.dropWhile_cons, if_neg (by simp [hspace])]
  have htake : l.digits.takeWhile Rules.isHex = l.digits := by
    rw [List.takeWhile_eq_self_iff]
    exact l.hex
  have hhead : l.digits.head? = some b := by rw [hcons, List.head?_cons]
  simp only [extract, hdrop, hhead, if_neg hsign, htake]
  have hfits : ¬ 2 ^ 64 ≤ digitsValue 16 l.digits := Nat.not_le.mpr h
  rw [if_neg hfits, if_neg (fun h => hsign (.inl h))]
  rfl

theorem lexChunkedBody_taken (h : l.Taken rest) (p : Parser) :
    lexChunkedBody p (l.octets ++ rest) =
      if (afterLine p l).contentLengthOrChunkSize = 0 then
        .token (.chunk 0) l.octets.length
          ({ afterLine p l with finished := true }.begin .chunkedBody)
      else .more l.octets.length ((afterLine p l).begin .data2) := by
  rw [lexChunkedBody, first_octets, h, Option.map_some]
  dsimp only
  rw [List.take_left, chunkLineDigits_octets]
  dsimp only
  rw [lexChunk, h]
  rfl

theorem lexChunkedBody_broken (h : ¬ l.Taken rest) (p : Parser) :
    ∃ q, lexChunkedBody p (l.octets ++ rest) = terminate q ∧ q.recorded = p.recorded := by
  rw [lexChunkedBody, first_octets]
  cases hlongest : (seq Rules.chunkLine Rules.crlf).longest (l.octets ++ rest) with
  | none => exact ⟨p, rfl, rfl⟩
  | some n =>
    dsimp only [Option.map_some]
    cases hdigits : chunkLineDigits ((l.octets ++ rest).take n) with
    | none => exact ⟨countChunk p, rfl, (countChunk_scans p).recorded⟩
    | some digits =>
      refine absurd ?_ h
      rw [ChunkLine.Taken, hlongest, chunkLineDigits_taken hlongest hdigits]

theorem lex_chunkedBody (hp : p.condition = .chunkedBody) (octets : Bytes) :
    lex p octets = .ok (lexChunkedBody p octets) := by rw [lex, hp]

/-- The message ends at a line that the scanner does not take, and no record is passed on. -/
theorem scan_broken (hp : p.condition = .chunkedBody) (h : ¬ l.Taken rest) :
    ∃ b q, scan step ⟨e, p⟩ 0 (l.octets ++ rest) = .closed (.ok (b, q)) ∧
      q.recorded = p.recorded := by
  obtain ⟨q, hlex, hq⟩ := lexChunkedBody_broken h p
  have hne : l.octets ++ rest ≠ [] := by simp [ChunkLine.octets, lineEnd]
  have hstep : step ⟨e, p⟩ (l.octets ++ rest) = (shift e .endOfInput q, 1) := by
    rw [step, lex_chunkedBody hp, hlex, terminate]
  have hshift : ∃ b, shift e .endOfInput q = .closed (.ok (b, q)) := by
    cases e <;> exact ⟨_, rfl⟩
  obtain ⟨b, hb⟩ := hshift
  rw [hb] at hstep
  exact ⟨b, q, scan_closed hne hstep, hq⟩

theorem shift_chunk (he : e = .body ∨ e = .chunks) (size : UInt32) (p : Parser) :
    shift e (.chunk size) p = .opened ⟨.chunks, p.chunk size⟩ := by
  rcases he with rfl | rfl <;> rfl

theorem lexData2_last {b : UInt8} (h : p.bodyOrChunkBytesToSkip - 1 = 0) :
    lexData2 p (b :: (lineEnd ++ rest)) = .ok (.token (.chunk p.contentLengthOrChunkSize.toUInt32) 3
      ({ p with bodyOrChunkBytesToSkip := 0 }.begin .chunkedBody)) := by
  have hzero : (p.bodyOrChunkBytesSkipped 1).bodyOrChunkBytesToSkip = 0 := h
  have hskipped : p.bodyOrChunkBytesSkipped 1 = { p with bodyOrChunkBytesToSkip := 0 } := by
    rw [Parser.bodyOrChunkBytesSkipped, h]
  dsimp only [lexData2]
  rw [if_pos hzero, hskipped]
  rfl

theorem lexData2_more (h : p.bodyOrChunkBytesToSkip - 1 ≠ 0) (octets : Bytes) :
    lexData2 p octets = .ok (.more 1 (p.bodyOrChunkBytesSkipped 1)) := by
  have hne : (p.bodyOrChunkBytesSkipped 1).bodyOrChunkBytesToSkip ≠ 0 := h
  dsimp only [lexData2]
  rw [if_neg hne]

variable (rest) in
theorem steps_data {data : Bytes} (hdata : data ≠ []) (hlength : data.length < 2 ^ 64)
    (hp : p.condition = .data2) (hskip : p.bodyOrChunkBytesToSkip = UInt64.ofNat data.length)
    (he : e = .body ∨ e = .chunks) :
    Steps step ⟨e, p⟩ (data ++ (lineEnd ++ rest))
      ⟨.chunks, ({ p with bodyOrChunkBytesToSkip := 0 }.begin .chunkedBody).chunk
        p.contentLengthOrChunkSize.toUInt32⟩ rest := by
  induction data generalizing p with
  | nil => exact absurd rfl hdata
  | cons b data ih =>
    have hleft : p.bodyOrChunkBytesToSkip - 1 = UInt64.ofNat data.length := by
      rw [hskip, List.length_cons, UInt64.ofNat_add]
      exact add_sub_cancel_right _ _
    cases data with
    | nil =>
      have hzero : p.bodyOrChunkBytesToSkip - 1 = 0 := hleft
      have hstep : step ⟨e, p⟩ ((b :: lineEnd) ++ rest) = (.opened ⟨.chunks,
          ({ p with bodyOrChunkBytesToSkip := 0 }.begin .chunkedBody).chunk
            p.contentLengthOrChunkSize.toUInt32⟩, (b :: lineEnd).length) := by
        rw [step, lex, hp]
        dsimp only
        rw [List.cons_append, lexData2_last hzero]
        dsimp only
        rw [shift_chunk he]
        rfl
      exact Steps.single (List.cons_ne_nil _ _) hstep
    | cons b' data =>
      rw [List.length_cons] at hlength
      have hne : p.bodyOrChunkBytesToSkip - 1 ≠ 0 := by
        rw [hleft]
        intro hzero
        have hmod := congrArg UInt64.toNat hzero
        have hfits : (b' :: data).length < UInt64.size := Nat.lt_of_succ_lt hlength
        rw [UInt64.toNat_ofNat_of_lt' hfits] at hmod
        simp at hmod
      have hstep : step ⟨e, p⟩ ([b] ++ (b' :: data ++ (lineEnd ++ rest))) =
          (.opened ⟨e, p.bodyOrChunkBytesSkipped 1⟩, [b].length) := by
        rw [step, lex, hp]
        dsimp only
        rw [lexData2_more hne]
        rfl
      have hsteps := ih (List.cons_ne_nil b' data) (by omega) (p := p.bodyOrChunkBytesSkipped 1) hp
        hleft
      have hall := Steps.head (List.cons_ne_nil b []) hstep hsteps
      exact hall

theorem ofNat_ne_zero {n : ℕ} (hpos : 0 < n) (h : n < 2 ^ 64) : UInt64.ofNat n ≠ 0 := by
  intro hzero
  have hmod := congrArg UInt64.toNat hzero
  rw [UInt64.toNat_ofNat_of_lt' h] at hmod
  simp at hmod
  omega

theorem steps_chunk (hlength : c.data.length < 2 ^ 64) (hp : p.condition = .chunkedBody)
    (he : e = .body ∨ e = .chunks) (h : c.line.Taken (c.data ++ lineEnd ++ rest)) :
    Steps step ⟨e, p⟩ (c.octets ++ rest) ⟨.chunks, afterChunk p c⟩ rest := by
  have hpos : 0 < c.data.length := List.length_pos_of_ne_nil c.data_ne
  have hextract : extract 16 Rules.isHex c.line.digits = UInt64.ofNat c.data.length := by
    rw [extract_digits (by rwa [c.size]), c.size]
  have hsplit : c.octets ++ rest = c.line.octets ++ (c.data ++ lineEnd ++ rest) := by
    simp [Chunk.octets]
  have hsize : (afterLine p c.line).contentLengthOrChunkSize = UInt64.ofNat c.data.length := hextract
  have hskip : (afterLine p c.line).bodyOrChunkBytesToSkip = UInt64.ofNat c.data.length := hextract
  have hne : (afterLine p c.line).contentLengthOrChunkSize ≠ 0 := by
    rw [hsize]
    exact ofNat_ne_zero hpos hlength
  have hstep : step ⟨e, p⟩ (c.line.octets ++ (c.data ++ lineEnd ++ rest)) =
      (.opened ⟨e, (afterLine p c.line).begin .data2⟩, c.line.octets.length) := by
    rw [step, lex_chunkedBody hp, lexChunkedBody_taken h, if_neg hne]
  have hdata := steps_data rest (p := (afterLine p c.line).begin .data2) c.data_ne hlength rfl
    hskip he
  rw [← List.append_assoc] at hdata
  have hline : c.line.octets ≠ [] := by simp [ChunkLine.octets, lineEnd]
  have hsteps := Steps.head hline hstep hdata
  rw [hsplit]
  have hchunk : UInt64.toUInt32 (UInt64.ofNat c.data.length) = UInt32.ofNat c.data.length := by
    simp
  have hafter : (({ (afterLine p c.line).begin .data2 with bodyOrChunkBytesToSkip := 0 }.begin
      .chunkedBody).chunk ((afterLine p c.line).begin .data2).contentLengthOrChunkSize.toUInt32) =
        afterChunk p c := by
    rw [afterChunk, ← hchunk, ← hsize]
    rfl
  rw [hafter] at hsteps
  exact hsteps

theorem steps_last (hl : l.size = 0) (hp : p.condition = .chunkedBody)
    (he : e = .body ∨ e = .chunks) (h : l.Taken rest) :
    Steps step ⟨e, p⟩ (l.octets ++ rest) ⟨.chunks, afterLast p l⟩ rest := by
  have hextract : extract 16 Rules.isHex l.digits = 0 := by
    rw [extract_digits (by rw [hl]; decide), hl]
    rfl
  have hzero : (afterLine p l).contentLengthOrChunkSize = 0 := hextract
  have hstep : step ⟨e, p⟩ (l.octets ++ rest) = (.opened ⟨.chunks, afterLast p l⟩, l.octets.length) := by
    rw [step, lex_chunkedBody hp, lexChunkedBody_taken h, if_pos hzero]
    dsimp only
    rw [shift_chunk he]
    rfl
  have hline : l.octets ≠ [] := by simp [ChunkLine.octets, lineEnd]
  exact Steps.single hline hstep

theorem flatMap_cons_append (c : Chunk) (chunks : List Chunk) (rest : Bytes) :
    (c :: chunks).flatMap Chunk.octets ++ rest = c.octets ++ (chunks.flatMap Chunk.octets ++ rest) := by
  rw [List.flatMap_cons, List.append_assoc]

theorem steps_chunks {chunks : List Chunk} (hlengths : ∀ c ∈ chunks, c.data.length < 2 ^ 64)
    (hp : p.condition = .chunkedBody) (he : e = .body ∨ e = .chunks) (h : LinesTaken chunks rest) :
    ∃ e', (e' = .body ∨ e' = .chunks) ∧ (chunks.foldl afterChunk p).condition = .chunkedBody ∧
      Steps step ⟨e, p⟩ (chunks.flatMap Chunk.octets ++ rest) ⟨e', chunks.foldl afterChunk p⟩
        rest := by
  induction chunks generalizing p e with
  | nil => exact ⟨e, he, hp, .refl _ _⟩
  | cons c chunks ih =>
    obtain ⟨hlength, hlengths⟩ := List.forall_mem_cons.mp hlengths
    obtain ⟨hline, hlines⟩ := h
    have hchunk := steps_chunk hlength hp he hline
    obtain ⟨e', he', hp', hsteps⟩ := ih (p := afterChunk p c) hlengths rfl (.inr rfl) hlines
    rw [flatMap_cons_append]
    exact ⟨e', he', hp', hchunk.trans hsteps⟩

theorem recorded_afterChunk (p : Parser) (c : Chunk) : (afterChunk p c).recorded = p.recorded :=
  (beginChunk_scans p c.line.digits).recorded

/-- The message ends at the first line of a chunk that the scanner does not take. -/
theorem scan_chunks_broken {chunks : List Chunk}
    (hlengths : ∀ c ∈ chunks, c.data.length < 2 ^ 64) (hp : p.condition = .chunkedBody)
    (he : e = .body ∨ e = .chunks) (h : ¬ LinesTaken chunks rest) :
    ∃ b q, scan step ⟨e, p⟩ 0 (chunks.flatMap Chunk.octets ++ rest) = .closed (.ok (b, q)) ∧
      q.recorded = p.recorded := by
  induction chunks generalizing p e with
  | nil => exact absurd trivial h
  | cons c chunks ih =>
    obtain ⟨hlength, hlengths⟩ := List.forall_mem_cons.mp hlengths
    rw [flatMap_cons_append]
    by_cases hline : c.line.Taken (c.data ++ lineEnd ++ (chunks.flatMap Chunk.octets ++ rest))
    · have hlines : ¬ LinesTaken chunks rest := fun hlines => h ⟨hline, hlines⟩
      obtain ⟨b, q, hscan, hq⟩ := ih (p := afterChunk p c) hlengths rfl (.inr rfl) hlines
      rw [(steps_chunk hlength hp he hline).scan_eq]
      exact ⟨b, q, hscan, hq.trans (recorded_afterChunk p c)⟩
    · have hsplit : c.octets ++ (chunks.flatMap Chunk.octets ++ rest) =
          c.line.octets ++ (c.data ++ lineEnd ++ (chunks.flatMap Chunk.octets ++ rest)) := by
        simp [Chunk.octets]
      rw [hsplit]
      exact scan_broken hp hline

end Scanning

section Endings
variable {p q : Parser} {e : Expecting} {octets rest : Bytes} {n : ℕ}

theorem chunkedLines_nullable : ∀ rule ∈ chunkedLines, rule.1.nullable = false := by decide

theorem step_header (hp : p.condition = .chunkedBody) (he : e = .chunks ∨ e = .trailers)
    (h : first chunkedLines octets = some (n, .header)) : step ⟨e, p⟩ octets =
      (goOn .trailers ((p.addOffset (UInt32.ofNat n)).header (octets.take (n - 2))), n) := by
  rw [step, lex_chunkedBody hp, lexChunkedBody, h]
  rcases he with rfl | rfl <;> rfl

theorem step_delimiter (hp : p.condition = .chunkedBody) (he : e = .chunks ∨ e = .trailers)
    (h : first chunkedLines octets = some (n, .delimiter)) : step ⟨e, p⟩ octets =
      (acceptFramed ((p.addOffset (UInt32.ofNat n)).begin .initial), n) := by
  rw [step, lex_chunkedBody hp, lexChunkedBody, h]
  rcases he with rfl | rfl <;> rfl

/-- The parser is as it was, but for what has been read of the trailers. -/
structure Ends (p : Parser) (n : ℕ) (q : Parser) : Prop where
  chunks : q.chunks = p.chunks
  chain : q.chain = p.chain
  offset : q.getOffset = p.getOffset + UInt32.ofNat n

theorem header_eq_ok {line : Bytes} (h : (headerLine line).map Prod.fst ≠ some contentEncoding) :
    ∃ record, p.header line = .ok { p with record := record } := by
  rw [Parser.header]
  cases hline : headerLine line with
  | none => exact ⟨p.record, rfl⟩
  | some f =>
    obtain ⟨name, value⟩ := f
    rw [hline] at h
    have hname : name ≠ contentEncoding := fun heq => h (by rw [Option.map_some, heq])
    dsimp only
    rw [if_neg hname]
    exact ⟨_, rfl⟩

theorem header_error {line : Bytes} (h : (headerLine line).map Prod.fst = some contentEncoding) :
    p.header line = .error .assertion := by
  rw [Parser.header]
  obtain ⟨⟨name, value⟩, hline, rfl⟩ := Option.map_eq_some_iff.mp h
  rw [hline]
  exact if_pos rfl

theorem steps_ends (h : EndsAt octets n) (hp : p.condition = .chunkedBody)
    (he : e = .chunks ∨ e = .trailers) :
    ∃ s left m q, Steps step ⟨e, p⟩ octets s left ∧ left ≠ [] ∧
      step s left = (acceptFramed q, m) ∧ terminator s.parser left = some m ∧
        n + left.length = octets.length + m ∧ m ≤ left.length ∧ Ends p n q := by
  induction h generalizing p e with
  | @delimiter octets n h =>
    have hne : octets ≠ [] := by
      rintro rfl
      cases h
    have hlex : lex p octets =
        .ok (.token .delimiter n ((p.addOffset (UInt32.ofNat n)).begin .initial)) := by
      rw [lex_chunkedBody hp, lexChunkedBody, h]
    refine ⟨⟨e, p⟩, octets, n, (p.addOffset (UInt32.ofNat n)).begin .initial, .refl _ _, hne,
      step_delimiter hp he h, ?_, Nat.add_comm _ _, (first_taken chunkedLines_nullable h).2, rfl, rfl,
      by simp⟩
    rw [terminator, hlex]
    exact if_neg fun hnot => by simp [hp] at hnot
  | @header octets n m h hname hrest ih =>
    obtain ⟨record, hheader⟩ := header_eq_ok (p := p.addOffset (UInt32.ofNat n)) hname
    have hstep := step_header hp he h
    rw [hheader] at hstep
    obtain ⟨hpos, hle⟩ := first_taken chunkedLines_nullable h
    obtain ⟨s, left, k, q, hsteps, hne, hclosed, hterminator, hlength, hk, hq⟩ :=
      ih (p := { p.addOffset (UInt32.ofNat n) with record := record }) hp (.inr rfl)
    rw [List.length_drop] at hlength
    refine ⟨s, left, k, q, .taken hpos hle hstep hsteps, hne, hclosed, hterminator, by omega, hk,
      hq.chunks, hq.chain, ?_⟩
    have hoffset : q.getOffset = (p.addOffset (UInt32.ofNat n)).getOffset + UInt32.ofNat m :=
      hq.offset
    rw [hoffset, getOffset_addOffset, UInt32.ofNat_add, add_assoc]

theorem scan_ends (h : EndsAt octets n) (hp : p.condition = .chunkedBody)
    (he : e = .chunks ∨ e = .trailers) :
    ∃ q, scan step ⟨e, p⟩ 0 octets = acceptFramed q ∧ Ends p n q := by
  obtain ⟨s, left, m, q, hsteps, hne, hclosed, -, -, -, hq⟩ := steps_ends h hp he
  exact ⟨q, hsteps.scan_eq.trans (scan_closed hne hclosed), hq⟩

theorem EndsAt.le (h : EndsAt octets n) : n ≤ octets.length := by
  induction h with
  | delimiter h => exact (first_taken chunkedLines_nullable h).2
  | header h hname hrest ih =>
    have hle := (first_taken chunkedLines_nullable h).2
    rw [List.length_drop] at ih
    omega

theorem scan_data2 (hp : p.condition = .data2) (octets : Bytes) :
    scan step ⟨.trailers, p⟩ 0 octets ≠ .closed (.ok (true, q)) := by
  induction octets generalizing p with
  | nil => rintro ⟨⟩
  | cons b octets ih =>
    have hne : b :: octets ≠ [] := List.cons_ne_nil b octets
    have hlex : lex p (b :: octets) = lexData2 p (b :: octets) := by rw [lex, hp]
    by_cases hzero : p.bodyOrChunkBytesToSkip - 1 = 0
    · have hclosed : ∃ verdict k, step ⟨.trailers, p⟩ (b :: octets) = (.closed verdict, k) ∧
          verdict ≠ .ok (true, q) := by
        have hskip : (p.bodyOrChunkBytesSkipped 1).bodyOrChunkBytesToSkip = 0 := hzero
        rw [step, hlex, lexData2]
        dsimp only
        rw [if_pos hskip]
        split_ifs
        · exact ⟨_, _, rfl, by simp⟩
        · exact ⟨_, _, rfl, by simp⟩
      obtain ⟨verdict, k, hstep, hverdict⟩ := hclosed
      rw [scan_closed hne hstep]
      exact fun h => hverdict (Progress.closed.inj h)
    · have hstep : step ⟨.trailers, p⟩ (b :: octets) =
          (.opened ⟨.trailers, p.bodyOrChunkBytesSkipped 1⟩, 1) := by
        rw [step, hlex, lexData2_more hzero]
      rw [scan_taken le_rfl (by simp) hstep]
      exact ih hp

theorem scan_chunkLine (hp : p.condition = .chunkedBody)
    (h : first chunkedLines octets = some (n, .chunkLine)) :
    scan step ⟨.trailers, p⟩ 0 octets ≠ .closed (.ok (true, q)) := by
  obtain ⟨hpos, hle⟩ := first_taken chunkedLines_nullable h
  have hne : octets ≠ [] := by
    rintro rfl
    simp at hle
    omega
  have hclosed {r : Parser} {t : Token} {k : ℕ} (ht : t = .endOfInput ∨ ∃ size, t = .chunk size)
      (hlex : lexChunkedBody p octets = .token t k r) :
      scan step ⟨.trailers, p⟩ 0 octets ≠ .closed (.ok (true, q)) := by
    have hstep : step ⟨.trailers, p⟩ octets = (reject r, k) := by
      rw [step, lex_chunkedBody hp, hlex]
      rcases ht with rfl | ⟨size, rfl⟩ <;> rfl
    rw [scan_closed hne hstep]
    rintro ⟨⟩
  cases hdigits : chunkLineDigits (octets.take n) with
  | none =>
    have hlex : lexChunkedBody p octets = terminate (countChunk p) := by
      rw [lexChunkedBody, h]
      dsimp only
      rw [hdigits]
    exact hclosed (.inl rfl) hlex
  | some digits =>
    have hlex : lexChunkedBody p octets = lexChunk (beginChunk p digits) octets := by
      rw [lexChunkedBody, h]
      dsimp only
      rw [hdigits]
    cases hline : lexChunk (beginChunk p digits) octets with
    | token t k r =>
      rw [hline] at hlex
      rcases leadsTo_chunk hline with ⟨-, rfl⟩ | ⟨-, rfl⟩
      · exact hclosed (.inr ⟨0, rfl⟩) hlex
      · exact hclosed (.inl rfl) hlex
    | more k r =>
      rw [hline] at hlex
      have hlexed := lex_chunkedBody hp octets
      rw [hlex] at hlexed
      have hr : r.condition = .data2 := by
        rcases lex_more hlexed with ⟨hp', -⟩ | ⟨-, hr⟩
        · rw [hp] at hp'
          simp at hp'
        · exact hr
      have hstep : step ⟨.trailers, p⟩ octets = (.opened ⟨.trailers, r⟩, k) := by
        rw [step, hlexed]
      obtain ⟨b, octets, rfl⟩ := List.exists_cons_of_ne_nil hne
      have htaken := takes_step ⟨.trailers, p⟩ b octets
      rw [hstep] at htaken
      have hk : k ≤ (b :: octets).length := htaken.2
      rw [scan_taken htaken.1 hk hstep]
      exact scan_data2 hr _

/-- A message that is accepted ends where the scanner finds the end of its trailers. -/
theorem exists_endsAt (hp : p.condition = .chunkedBody)
    (he : e = .trailers ∨ e = .chunks ∧ (seq Rules.chunkLine Rules.crlf).longest octets = none)
    (h : scan step ⟨e, p⟩ 0 octets = .closed (.ok (true, q))) : ∃ n, EndsAt octets n := by
  induction hlength : octets.length using Nat.strong_induction_on generalizing octets p e with
  | _ k ih =>
    have hne : octets ≠ [] := by
      rintro rfl
      cases h
    have he' : e = .chunks ∨ e = .trailers := he.symm.imp_left And.left
    cases hfirst : first chunkedLines octets with
    | none =>
      have hstep : step ⟨e, p⟩ octets = (reject p, 1) := by
        rw [step, lex_chunkedBody hp, lexChunkedBody, hfirst]
        rcases he' with rfl | rfl <;> rfl
      rw [scan_closed hne hstep] at h
      cases h
    | some rule =>
      obtain ⟨n, rule⟩ := rule
      obtain ⟨hpos, hle⟩ := first_taken chunkedLines_nullable hfirst
      cases rule with
      | chunkLine =>
        rcases he with rfl | ⟨rfl, hnone⟩
        · exact absurd h (scan_chunkLine hp hfirst)
        · obtain ⟨r, hr, hlongest⟩ := first_some hfirst
          have hr : r = seq Rules.chunkLine Rules.crlf := by
            simp only [chunkedLines, line, List.mem_cons, Prod.mk.injEq, List.not_mem_nil,
              or_false, reduceCtorEq, and_false] at hr
            exact hr.1
          rw [hr, hnone] at hlongest
          cases hlongest
      | delimiter => exact ⟨n, .delimiter hfirst⟩
      | header =>
        have hstep := step_header hp he' hfirst
        by_cases hname : (headerLine (octets.take (n - 2))).map Prod.fst = some contentEncoding
        · rw [header_error hname] at hstep
          rw [scan_closed hne hstep] at h
          cases h
        · obtain ⟨record, hheader⟩ := header_eq_ok (p := p.addOffset (UInt32.ofNat n)) hname
          rw [hheader] at hstep
          rw [scan_taken hpos hle hstep] at h
          have hdrop : (octets.drop n).length < k := by
            rw [List.length_drop]
            omega
          obtain ⟨m, hm⟩ := ih _ hdrop (p := { p.addOffset (UInt32.ofNat n) with record := record })
            hp (.inl rfl) h rfl
          exact ⟨n + m, .header hfirst hname hm⟩

theorem chunkLine_front (h : (seq Rules.chunkLine Rules.crlf).longest octets = some n) :
    ∃ digits c more, octets = digits ++ c :: more ∧ digits ≠ [] ∧
      (∀ b ∈ digits, Rules.isHex b = true) ∧ (c = 0x3B ∨ c = 0x0D) := by
  obtain ⟨w, hw, htake, -⟩ := longest_crlf h
  obtain ⟨digits, hdigits, x, ⟨ws, rfl, hws⟩, rfl⟩ := mem_seq.mp hw
  obtain ⟨hne, hhex⟩ := mem_plus_symbol.mp hdigits
  have heq : octets = digits ++ (ws.flatten ++ lineEnd) ++ octets.drop n := by
    rw [← List.append_assoc, ← htake, List.take_append_drop]
  cases ws with
  | nil =>
    exact ⟨digits, 0x0D, 0x0A :: octets.drop n, by simpa [lineEnd] using heq, hne, hhex, .inr rfl⟩
  | cons u ws =>
    obtain ⟨v, hv, x, -, rfl⟩ := mem_seq.mp (hws u List.mem_cons_self)
    obtain rfl := mem_word.mp hv
    refine ⟨digits, 0x3B, x ++ (ws.flatten ++ (lineEnd ++ octets.drop n)), ?_, hne, hhex, .inl rfl⟩
    have hsemicolon : text ";" = [0x3B] := rfl
    refine heq.trans ?_
    simp [hsemicolon]

theorem ending_none (body : ChunkedBody) (rest : Bytes) :
    (seq Rules.chunkLine Rules.crlf).longest (body.ending ++ rest) = none := by
  cases h : (seq Rules.chunkLine Rules.crlf).longest (body.ending ++ rest) with
  | none => rfl
  | some n =>
    obtain ⟨digits, c, more, heq, hne, hhex, hc⟩ := chunkLine_front h
    rw [ChunkedBody.ending] at heq
    cases htrailers : body.trailers with
    | nil =>
      obtain ⟨b, digits, rfl⟩ := List.exists_cons_of_ne_nil hne
      rw [htrailers] at heq
      obtain rfl : 0x0D = b := (List.cons.inj heq).1
      exact absurd (hhex _ List.mem_cons_self) (by decide)
    | cons t trailers =>
      rw [htrailers, List.flatMap_cons, Trailer.octets] at heq
      simp only [List.append_assoc, List.cons_append] at heq
      have hcolon : c ≠ 0x3A := by rcases hc with rfl | rfl <;> decide
      rcases List.append_eq_append_iff.mp heq with ⟨z, hdigits, hz⟩ | ⟨z, hname, hz⟩
      · cases z with
        | nil => exact absurd (List.cons.inj hz).1.symm hcolon
        | cons b z =>
          obtain rfl : 0x3A = b := (List.cons.inj hz).1
          exact absurd (hhex 0x3A (by simp [hdigits])) (by decide)
      · cases z with
        | nil => exact absurd (List.cons.inj hz).1 hcolon
        | cons b z =>
          obtain rfl : c = b := (List.cons.inj hz).1
          have hnamed := t.named c (by simp [hname])
          rcases hc with rfl | rfl <;> exact absurd hnamed (by decide)

end Endings

section Recording
variable {l : ChunkLine} {c : Chunk} {chunks : List Chunk} {p : Parser} {place : ℕ}

/-- A position as the driver returns it, and a size as the token carries it. -/
def entry (place size : ℕ) : UInt64 × UInt32 := ((UInt32.ofNat place).toUInt64, UInt32.ofNat size)

/-- What is recorded of chunks of which the first one starts at `place`. -/
def entries : ℕ → List Chunk → List (UInt64 × UInt32)
  | _, [] => []
  | place, c :: cs =>
    entry (place + c.line.octets.length) c.data.length :: entries (place + c.octets.length) cs

theorem length_octets (c : Chunk) :
    c.octets.length = c.line.octets.length + c.data.length + 2 := by
  simp [Chunk.octets, lineEnd, add_assoc]

theorem getOffset_afterLine (p : Parser) (l : ChunkLine) :
    (afterLine p l).getOffset = (countChunk p).getOffset + UInt32.ofNat l.octets.length :=
  getOffset_addOffset _ _

theorem chunks_afterChunk (p : Parser) (c : Chunk) : (afterChunk p c).chunks =
    p.chunks ++ [((afterLine p c.line).getOffset.toUInt64, UInt32.ofNat c.data.length)] := by
  have hscan := beginChunk_scans p c.line.digits
  rw [afterChunk, Parser.chunk]
  exact congrArg (· ++ _) hscan.chunks

theorem chunks_afterLast (p : Parser) (l : ChunkLine) : (afterLast p l).chunks =
    p.chunks ++ [((afterLine p l).getOffset.toUInt64, 0)] := by
  have hscan := beginChunk_scans p l.digits
  rw [afterLast, Parser.chunk]
  exact congrArg (· ++ _) hscan.chunks

/-- The octets of a chunk count when the next line is read, unless its size is nothing in 32
bits. -/
theorem countChunk_afterChunk (hpos : UInt32.ofNat c.data.length ≠ 0) :
    (countChunk (afterChunk p c)).getOffset =
      (afterLine p c.line).getOffset + (UInt32.ofNat c.data.length + 2) := by
  have hsize : (afterChunk p c).currentChunkSize = UInt32.ofNat c.data.length := by
    rw [Parser.currentChunkSize, chunks_afterChunk, List.getLast?_concat]
    rfl
  rw [countChunk, hsize, if_neg hpos, getOffset_addOffset]
  rfl

theorem sizes_foldl (p : Parser) (chunks : List Chunk) :
    (chunks.foldl afterChunk p).chunks.map Prod.snd =
      p.chunks.map Prod.snd ++ chunks.map fun c => UInt32.ofNat c.data.length := by
  induction chunks generalizing p with
  | nil => simp
  | cons c chunks ih =>
    rw [List.foldl_cons, ih, chunks_afterChunk]
    simp

theorem entries_foldl (hplace : (countChunk p).getOffset = UInt32.ofNat place)
    (hpos : ∀ c ∈ chunks, UInt32.ofNat c.data.length ≠ 0) :
    (chunks.foldl afterChunk p).chunks = p.chunks ++ entries place chunks ∧
      (countChunk (chunks.foldl afterChunk p)).getOffset =
        UInt32.ofNat (place + (chunks.flatMap Chunk.octets).length) := by
  induction chunks generalizing p place with
  | nil => exact ⟨(List.append_nil _).symm, hplace⟩
  | cons c chunks ih =>
    obtain ⟨hc, hchunks⟩ := List.forall_mem_cons.mp hpos
    have hline : (afterLine p c.line).getOffset =
        UInt32.ofNat (place + c.line.octets.length) := by
      rw [getOffset_afterLine, hplace, UInt32.ofNat_add]
    have hnext : (countChunk (afterChunk p c)).getOffset =
        UInt32.ofNat (place + c.octets.length) := by
      have htwo : UInt32.ofNat 2 = 2 := rfl
      rw [countChunk_afterChunk hc, hline, length_octets]
      simp only [UInt32.ofNat_add, htwo, add_assoc]
    obtain ⟨hentries, hoffset⟩ := ih hnext hchunks
    rw [List.foldl_cons]
    refine ⟨?_, ?_⟩
    · rw [hentries, chunks_afterChunk, hline, List.append_assoc]
      rfl
    · rw [hoffset, List.flatMap_cons, List.length_append, add_assoc]

end Recording

section Framing
variable {offset : UInt32} {c c' : Cursor UInt8} {n : ℕ} {rest : Bytes}

theorem onChain_ok {x : Option (Cursor UInt8)} (h : onChain x = .ok c) : x = some c := by
  cases x with
  | none => cases h
  | some c =>
    cases h
    rfl

theorem expectOctet_ok {b : UInt8} (h : expectOctet b c = .ok c') :
    ∃ rest, c.ahead.flatten = b :: rest ∧ c'.Moves c.behind.flatten rest ∧ c'.ahead ≠ [] := by
  rw [expectOctet] at h
  cases hexpect : Cursor.expect b c.behind c.ahead with
  | none =>
    rw [hexpect] at h
    cases h
  | some c₁ =>
    rw [hexpect] at h
    cases h
    exact Cursor.expect_moves hexpect

theorem exists_expectOctet {b : UInt8} (h : c.ahead.flatten = b :: rest) :
    ∃ c', expectOctet b c = .ok c' ∧ c'.Moves c.behind.flatten rest ∧ c'.ahead ≠ [] := by
  obtain ⟨c', hexpect⟩ := Cursor.exists_expect c.behind h
  obtain ⟨rest', hrest, hmoves, hne⟩ := Cursor.expect_moves hexpect
  rw [h] at hrest
  cases hrest
  exact ⟨c', by rw [expectOctet, hexpect], hmoves, hne⟩

theorem toNat_sub {a b : UInt64} (h : (a - b).toNat < 2 ^ 63) (ha : a.toNat < 2 ^ 63)
    (hb : b.toNat < 2 ^ 63) : (a - b).toNat + b.toNat = a.toNat := by
  rw [UInt64.toNat_sub] at h ⊢
  omega

def firstPlace : List (UInt64 × UInt32) → UInt64 → UInt64
  | [], last => last
  | (first, _) :: _, _ => first

/-- Framing the chunks takes as many octets out of the chain as the places say. -/
theorem frameChunks_length {chunks : List (UInt64 × UInt32)} {last : UInt64}
    (hsizes : ∀ e ∈ chunks, e.2 ≠ 0) (hplaces : ∀ e ∈ chunks, e.1.toNat < 2 ^ 32)
    (hlast : last.toNat < 2 ^ 32) (hahead : c.ahead.flatten.length < 2 ^ 63)
    (h : frameChunks offset (chunks ++ [(last, 0)]) c = .ok c') :
    c'.symbols.length + offset.toNat = c.symbols.length +
      (chunks.map fun e => e.2.toNat).sum + (firstPlace chunks last).toNat := by
  have hoffset : offset.toUInt64.toNat < 2 ^ 32 := by
    rw [UInt32.toNat_toUInt64]
    exact offset.toNat_lt
  induction chunks generalizing c with
  | nil =>
    rw [List.nil_append, frameChunks, if_pos rfl] at h
    obtain ⟨c₁, hskip, hrest⟩ := BitTorrent.fault_bind_ok.mp h
    rw [frameChunks] at hrest
    cases hrest
    obtain ⟨hle, ⟨hbehind, hahead'⟩, -⟩ := Cursor.skip_moves (onChain_ok hskip)
    have hsub := toNat_sub (a := offset.toUInt64) (b := last) (by omega) (by omega) (by omega)
    rw [UInt32.toNat_toUInt64] at hsub
    simp only [Cursor.symbols, hbehind, hahead', List.length_append, List.length_drop,
      List.map_nil, List.sum_nil, firstPlace]
    omega
  | cons e chunks ih =>
    obtain ⟨first, size⟩ := e
    obtain ⟨hsize, hsizes⟩ := List.forall_mem_cons.mp hsizes
    obtain ⟨hfirst, hplaces⟩ := List.forall_mem_cons.mp hplaces
    have hfirst : first.toNat < 2 ^ 32 := hfirst
    have hsize : size ≠ 0 := hsize
    rw [List.cons_append, frameChunks, if_neg hsize] at h
    obtain ⟨c₁, hkeep, h⟩ := BitTorrent.fault_bind_ok.mp h
    obtain ⟨c₂, hreturn, h⟩ := BitTorrent.fault_bind_ok.mp h
    obtain ⟨c₃, hfeed, h⟩ := BitTorrent.fault_bind_ok.mp h
    obtain ⟨hle, hbehind₁, hahead₁⟩ := Cursor.keep_moves (onChain_ok hkeep)
    obtain ⟨rest₁, hrest₁, ⟨hbehind₂, hahead₂⟩, -⟩ := expectOctet_ok hreturn
    obtain ⟨rest₂, hrest₂, ⟨hbehind₃, hahead₃⟩, -⟩ := expectOctet_ok hfeed
    obtain ⟨next, k, more, hcons⟩ : ∃ next k more, chunks ++ [(last, 0)] = (next, k) :: more := by
      cases chunks with
      | nil => exact ⟨last, 0, [], rfl⟩
      | cons e chunks => exact ⟨e.1, e.2, chunks ++ [(last, 0)], rfl⟩
    have hnext : firstPlace chunks last = next := by
      cases chunks with
      | nil =>
        cases hcons
        rfl
      | cons e chunks =>
        cases hcons
        rfl
    have hnext_lt : next.toNat < 2 ^ 32 := by
      rw [← hnext]
      cases chunks with
      | nil => exact hlast
      | cons e chunks => exact hplaces e List.mem_cons_self
    rw [hcons] at h
    dsimp only at h
    rw [← hcons] at h
    obtain ⟨c₄, hskip, h⟩ := BitTorrent.fault_bind_ok.mp h
    obtain ⟨hle', ⟨hbehind₄, hahead₄⟩, -⟩ := Cursor.skip_moves (onChain_ok hskip)
    have hlength₁ := congrArg List.length hrest₁
    have hlength₂ := congrArg List.length hrest₂
    rw [hahead₁, List.length_drop, List.length_cons] at hlength₁
    rw [hahead₂, List.length_cons] at hlength₂
    rw [hahead₃] at hle'
    have hahead' : c₄.ahead.flatten.length < 2 ^ 63 := by
      rw [hahead₄, hahead₃, List.length_drop]
      omega
    have hplace : (first + size.toUInt64 + 2).toNat = first.toNat + size.toNat + 2 := by
      have hsize_lt := size.toNat_lt
      rw [UInt64.toNat_add, UInt64.toNat_add, UInt32.toNat_toUInt64]
      have htwo : (2 : UInt64).toNat = 2 := rfl
      omega
    have hsize_lt := size.toNat_lt
    have hsub := toNat_sub (a := next) (b := first + size.toUInt64 + 2) (by omega) (by omega)
      (by omega)
    have hih := ih hsizes hplaces hahead' h
    rw [hnext] at hih
    rw [hih]
    simp only [Cursor.symbols, hbehind₄, hahead₄, hbehind₃, hahead₃, hbehind₂, hbehind₁,
      List.length_append, List.length_drop, List.length_take, List.map_cons, List.sum_cons,
      firstPlace]
    omega

def behindLine (last : ChunkLine) (tail : Bytes) : List Chunk → Bytes
  | [] => tail
  | c :: cs => c.data ++ (lineEnd ++ (cs.flatMap Chunk.octets ++ (last.octets ++ tail)))

def nextLine (last : ChunkLine) : List Chunk → ChunkLine
  | [] => last
  | c :: _ => c.line

theorem nextLine_append (last : ChunkLine) (tail : Bytes) (chunks : List Chunk) :
    chunks.flatMap Chunk.octets ++ (last.octets ++ tail) =
      (nextLine last chunks).octets ++ behindLine last tail chunks := by
  cases chunks with
  | nil => rfl
  | cons c cs => simp [nextLine, behindLine, Chunk.octets]

def allEntries (place : ℕ) (chunks : List Chunk) (last : ChunkLine) : List (UInt64 × UInt32) :=
  entries place chunks ++
    [entry (place + (chunks.flatMap Chunk.octets).length + last.octets.length) 0]

theorem allEntries_cons (place : ℕ) (ch : Chunk) (chunks : List Chunk) (last : ChunkLine) :
    allEntries place (ch :: chunks) last =
      entry (place + ch.line.octets.length) ch.data.length ::
        allEntries (place + ch.octets.length) chunks last := by
  simp [allEntries, entries, add_assoc]

theorem exists_allEntries (place : ℕ) (chunks : List Chunk) (last : ChunkLine) :
    ∃ size more, allEntries place chunks last =
      ((entry (place + (nextLine last chunks).octets.length) 0).1, size) :: more := by
  cases chunks with
  | nil => exact ⟨0, [], by simp [allEntries, entries, nextLine, entry]⟩
  | cons c cs => exact ⟨_, _, allEntries_cons place c cs last⟩

theorem toNat_entry {place size : ℕ} (h : place < 2 ^ 32) : (entry place size).1.toNat = place := by
  rw [entry, UInt32.toNat_toUInt64]
  exact UInt32.toNat_ofNat_of_lt' h

theorem frameChunks_cons {e : UInt64 × UInt32} {next : UInt64} {k : UInt32}
    {more : List (UInt64 × UInt32)} (hsize : e.2 ≠ 0) :
    frameChunks offset (e :: (next, k) :: more) c =
      (onChain (Cursor.keep e.2.toNat c.behind c.ahead) >>= fun c =>
        expectOctet 0x0D c >>= fun c => expectOctet 0x0A c >>= fun c =>
          onChain (Cursor.skip (next - (e.1 + e.2.toUInt64 + 2)).toNat c.behind c.ahead) >>=
            fun c => frameChunks offset ((next, k) :: more) c) := by
  rw [frameChunks, if_neg hsize]

/-- Chunks whose places are right are framed: their data stay, and what is behind the message. -/
theorem exists_frameChunks {chunks : List Chunk} {last : ChunkLine} {ending : Bytes} {place : ℕ}
    (hahead : c.ahead.flatten = behindLine last (ending ++ rest) chunks) (hne : c.ahead ≠ [])
    (hoffset : offset.toNat = place + (chunks.flatMap Chunk.octets).length + last.octets.length +
      ending.length) :
    ∃ c', frameChunks offset (allEntries place chunks last) c = .ok c' ∧
      c'.Moves (c.behind.flatten ++ chunks.flatMap Chunk.data) rest := by
  have hlt := offset.toNat_lt
  induction chunks generalizing c place with
  | nil =>
    have hplace : place + last.octets.length < 2 ^ 32 := by
      simp only [List.flatMap_nil, List.length_nil] at hoffset
      omega
    have hskip : (offset.toUInt64 - (entry (place + last.octets.length) 0).1).toNat =
        ending.length := by
      simp only [List.flatMap_nil, List.length_nil] at hoffset
      rw [UInt64.toNat_sub, toNat_entry hplace, UInt32.toNat_toUInt64]
      omega
    rw [behindLine] at hahead
    obtain ⟨c', hc'⟩ := Cursor.exists_skip c.behind (n := ending.length) hne
      (by rw [hahead, List.length_append]; omega)
    obtain ⟨-, ⟨hbehind, hrest⟩, -⟩ := Cursor.skip_moves hc'
    rw [hahead, List.drop_left] at hrest
    refine ⟨c', ?_, by simpa using hbehind, hrest⟩
    have hframe : frameChunks offset [entry (place + last.octets.length) 0] c =
        onChain (Cursor.skip ending.length c.behind c.ahead) >>= frameChunks offset [] := by
      rw [← hskip]
      exact if_pos rfl
    have hentries : allEntries place [] last = [entry (place + last.octets.length) 0] := by
      simp [allEntries, entries]
    rw [hentries, hframe, hc']
    rfl
  | cons ch chunks ih =>
    have hoffset' : offset.toNat = place + ch.octets.length +
        (chunks.flatMap Chunk.octets).length + last.octets.length + ending.length := by
      rw [hoffset, List.flatMap_cons, List.length_append]
      omega
    have hlength := length_octets ch
    have hdata : 0 < ch.data.length := List.length_pos_of_ne_nil ch.data_ne
    have hsize : (UInt32.ofNat ch.data.length).toNat = ch.data.length :=
      UInt32.toNat_ofNat_of_lt' (by omega : ch.data.length < 2 ^ 32)
    have hsize_ne : UInt32.ofNat ch.data.length ≠ 0 := by
      intro hzero
      rw [hzero] at hsize
      exact hdata.ne hsize
    -- the data are kept
    rw [behindLine] at hahead
    obtain ⟨c₁, hkeep⟩ := Cursor.exists_keep c.behind hdata
      (by rw [hahead, List.length_append]; omega)
    obtain ⟨-, hbehind₁, hahead₁⟩ := Cursor.keep_moves hkeep
    rw [hahead, List.take_left] at hbehind₁
    rw [hahead, List.drop_left] at hahead₁
    -- the delimiter is taken out
    obtain ⟨c₂, hreturn, ⟨hbehind₂, hahead₂⟩, -⟩ := exists_expectOctet hahead₁
    obtain ⟨c₃, hfeed, ⟨hbehind₃, hahead₃⟩, hne₃⟩ := exists_expectOctet hahead₂
    -- and the next line
    have hrest : c₃.ahead.flatten = (nextLine last chunks).octets ++
        behindLine last (ending ++ rest) chunks := hahead₃.trans (nextLine_append _ _ _)
    obtain ⟨c₄, hskip⟩ := Cursor.exists_skip c₃.behind
      (n := (nextLine last chunks).octets.length) hne₃ (by rw [hrest, List.length_append]; omega)
    obtain ⟨-, ⟨hbehind₄, hahead₄⟩, hne₄⟩ := Cursor.skip_moves hskip
    rw [hrest, List.drop_left] at hahead₄
    obtain ⟨c', hframe, hbehind, hahead'⟩ := ih hahead₄ hne₄ hoffset'
    refine ⟨c', ?_, ?_, hahead'⟩
    · obtain ⟨size, more, hcons⟩ := exists_allEntries (place + ch.octets.length) chunks last
      have hnext : place + ch.octets.length + (nextLine last chunks).octets.length < 2 ^ 32 := by
        cases chunks with
        | nil => simp only [nextLine]; omega
        | cons c cs =>
          have hc := length_octets c
          simp only [nextLine, List.flatMap_cons, List.length_append] at hoffset' ⊢
          omega
      have hgap : ((entry (place + ch.octets.length + (nextLine last chunks).octets.length) 0).1 -
          ((entry (place + ch.line.octets.length) ch.data.length).1 +
            (entry (place + ch.line.octets.length) ch.data.length).2.toUInt64 + 2)).toNat =
              (nextLine last chunks).octets.length := by
        have hsize : (entry (place + ch.line.octets.length) ch.data.length).2.toNat =
          ch.data.length := hsize
        have htwo : (2 : UInt64).toNat = 2 := rfl
        rw [UInt64.toNat_sub, UInt64.toNat_add, UInt64.toNat_add, toNat_entry hnext,
          toNat_entry (by omega), UInt32.toNat_toUInt64, hsize, htwo]
        omega
      have hsize : (entry (place + ch.line.octets.length) ch.data.length).2.toNat =
        ch.data.length := hsize
      rw [allEntries_cons, hcons, frameChunks_cons hsize_ne, ← hcons]
      refine BitTorrent.fault_bind_ok.mpr ⟨c₁, by rw [hsize, hkeep]; rfl, ?_⟩
      refine BitTorrent.fault_bind_ok.mpr ⟨c₂, hreturn, ?_⟩
      refine BitTorrent.fault_bind_ok.mpr ⟨c₃, hfeed, ?_⟩
      exact BitTorrent.fault_bind_ok.mpr ⟨c₄, by rw [hgap, hskip]; rfl, hframe⟩
    · rw [hbehind, hbehind₄, hbehind₃, hbehind₂, hbehind₁]
      simp

end Framing

end ACENetwork.HTTP
