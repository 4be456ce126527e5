import ACENetwork.HTTP.Chunks

/-!
# What is left of a chain with a chunked body

The content length is the sum of the sizes that have been recorded, and the data of the chunks are
in front of the chain exactly when the message lies in the head of the chain, and each of its lines
ends where the scanner's match does.
-/
namespace ACENetwork.HTTP
open BitTorrent (Fault)
open Library Library.Blocks

/-- The lines of the body are taken, and its trailers end with it. -/
structure ChunkedBody.Framed (body : ChunkedBody) (rest : Bytes) : Prop where
  lines : LinesTaken body.chunks (body.last.octets ++ (body.ending ++ rest))
  last : body.last.Taken (body.ending ++ rest)
  ending : EndsAt (body.ending ++ rest) body.ending.length

def ChunkedBody.behind (body : ChunkedBody) (p : Parser) : Parser :=
  afterLast (body.chunks.foldl afterChunk p) body.last

section Lengths

theorem toNat_sum_le (sizes : List UInt64) : sizes.sum.toNat ≤ (sizes.map UInt64.toNat).sum := by
  induction sizes with
  | nil => exact le_rfl
  | cons size sizes ih =>
    rw [List.sum_cons, List.map_cons, List.sum_cons, UInt64.toNat_add]
    exact (Nat.mod_le _ _).trans (Nat.add_le_add_left ih _)

theorem toNat_sum {sizes : List UInt64} (h : (sizes.map UInt64.toNat).sum < 2 ^ 64) :
    sizes.sum.toNat = (sizes.map UInt64.toNat).sum := by
  induction sizes with
  | nil => rfl
  | cons size sizes ih =>
    rw [List.map_cons, List.sum_cons] at h
    rw [List.sum_cons, List.map_cons, List.sum_cons, UInt64.toNat_add, ih (by omega)]
    exact Nat.mod_eq_of_lt h

theorem lt_of_sum_mod {lengths : List ℕ} {m : ℕ} (hm : 0 < m)
    (h : lengths.sum ≤ (lengths.map (· % m)).sum) : ∀ n ∈ lengths, n < m := by
  have hle (lengths : List ℕ) : (lengths.map (· % m)).sum ≤ lengths.sum := by
    induction lengths with
    | nil => exact le_rfl
    | cons n lengths ih =>
      simp only [List.map_cons, List.sum_cons]
      exact Nat.add_le_add (Nat.mod_le n m) ih
  induction lengths with
  | nil => simp
  | cons n lengths ih =>
    simp only [List.map_cons, List.sum_cons] at h
    have hn := Nat.mod_le n m
    have hlengths := hle lengths
    refine List.forall_mem_cons.mpr ⟨?_, ih (by omega)⟩
    have hmod : n % m = n := by omega
    exact hmod ▸ Nat.mod_lt n hm

theorem ChunkedBody.length_data (body : ChunkedBody) :
    body.data.length = (body.chunks.map fun c => c.data.length).sum := by
  rw [ChunkedBody.data, List.length_flatMap]

theorem ChunkedBody.length_octets (body : ChunkedBody) : body.octets.length =
    (body.chunks.flatMap Chunk.octets).length + body.last.octets.length + body.ending.length := by
  rw [ChunkedBody.octets, List.length_append, List.length_append, add_assoc]

theorem ChunkedBody.length_data_le (body : ChunkedBody) : body.data.length ≤ body.octets.length := by
  have hchunks (chunks : List Chunk) :
      (chunks.flatMap Chunk.data).length ≤ (chunks.flatMap Chunk.octets).length := by
    induction chunks with
    | nil => exact le_rfl
    | cons c chunks ih =>
      have hc := HTTP.length_octets c
      rw [List.flatMap_cons, List.flatMap_cons, List.length_append, List.length_append]
      omega
  have hdata := hchunks body.chunks
  have hlength := body.length_octets
  rw [ChunkedBody.data]
  omega

theorem length_chunk_le {body : ChunkedBody} {c : Chunk} (hc : c ∈ body.chunks) :
    c.data.length ≤ body.data.length := by
  rw [body.length_data]
  exact List.single_le_sum (by simp) _ (List.mem_map.mpr ⟨c, hc, rfl⟩)

end Lengths

section Framed
variable {p q r : Parser} {body : ChunkedBody} {head rest : Bytes} {n : ℕ}

theorem countChunk_eq (h : p.chunks = []) : countChunk p = p := by
  have hsize : p.currentChunkSize = 0 := by rw [Parser.currentChunkSize, h]; rfl
  rw [countChunk, if_pos hsize]

theorem ofNat_add_cancel {a : UInt32} {m k : ℕ}
    (h : a + UInt32.ofNat k = UInt32.ofNat (m + k)) : a = UInt32.ofNat m := by
  rw [UInt32.ofNat_add] at h
  exact add_right_cancel h

theorem sizes_behind (h : p.chunks = []) : (body.behind p).chunks.map Prod.snd =
    body.sizes := by
  rw [ChunkedBody.behind, chunks_afterLast, List.map_append, sizes_foldl, h]
  rfl

/-- The content length is the sum of the sizes, which are recorded in 32 bits. -/
theorem getContentLength_eq (hrecorded : q.recorded.isSome = true)
    (h : q.chunks.map Prod.snd = body.sizes) :
    q.getContentLength =
      (body.chunks.map fun c => (UInt32.ofNat c.data.length).toUInt64).sum := by
  obtain ⟨record, hrecord⟩ := Option.isSome_iff_exists.mp hrecorded
  have hsum : q.getContentLength = (q.chunks.map fun chunk => chunk.2.toUInt64).sum := by
    rw [Parser.getContentLength, hrecord]
    cases hchunks : q.chunks with
    | nil =>
      rw [hchunks] at h
      simp [ChunkedBody.sizes] at h
    | cons chunk chunks => rfl
  have hmap : (q.chunks.map fun chunk => chunk.2.toUInt64) =
      (q.chunks.map Prod.snd).map UInt32.toUInt64 := by
    rw [List.map_map]
    rfl
  rw [hsum, hmap, h, ChunkedBody.sizes, List.map_append, List.map_map, List.sum_append]
  exact add_zero _

theorem getContentLength_le (hrecorded : q.recorded.isSome = true)
    (h : q.chunks.map Prod.snd = body.sizes) :
    q.getContentLength.toNat ≤ (body.chunks.map fun c => c.data.length % 2 ^ 32).sum := by
  rw [getContentLength_eq hrecorded h]
  refine (toNat_sum_le _).trans (le_of_eq ?_)
  rw [List.map_map]
  refine congrArg List.sum (List.map_congr_left fun c _ => ?_)
  rw [Function.comp_apply, UInt32.toNat_toUInt64, UInt32.toNat_ofNat']

theorem toNat_getContentLength (hrecorded : q.recorded.isSome = true)
    (h : q.chunks.map Prod.snd = body.sizes)
    (hlt : body.data.length < 2 ^ 32) : q.getContentLength.toNat = body.data.length := by
  have hmap : (body.chunks.map fun c => (UInt32.ofNat c.data.length).toUInt64).map UInt64.toNat =
      body.chunks.map fun c => c.data.length := by
    rw [List.map_map]
    refine List.map_congr_left fun c hc => ?_
    have hle := length_chunk_le hc
    rw [Function.comp_apply, UInt32.toNat_toUInt64]
    exact UInt32.toNat_ofNat_of_lt' (by omega : c.data.length < 2 ^ 32)
  rw [getContentLength_eq hrecorded h, toNat_sum, hmap, ← body.length_data]
  rw [hmap, ← body.length_data]
  omega

theorem lengths_lt (hrecorded : q.recorded.isSome = true)
    (h : q.chunks.map Prod.snd = body.sizes)
    (hle : body.data.length ≤ q.getContentLength.toNat) :
    ∀ c ∈ body.chunks, c.data.length < 2 ^ 32 := by
  have hsum := hle.trans (getContentLength_le hrecorded h)
  rw [body.length_data] at hsum
  have hmap : (body.chunks.map fun c => c.data.length % 2 ^ 32) =
      (body.chunks.map fun c => c.data.length).map (· % 2 ^ 32) := by
    rw [List.map_map]
    rfl
  rw [hmap] at hsum
  intro c hc
  exact lt_of_sum_mod (by norm_num) hsum _ (List.mem_map.mpr ⟨c, hc, rfl⟩)

end Framed

section Runs
variable {p q r : Parser} {body : ChunkedBody} {head rest : Bytes} {n : ℕ}

theorem steps_body (hlength : body.octets.length < 2 ^ 64) (hp : p.condition = .chunkedBody)
    (hlines : LinesTaken body.chunks (body.last.octets ++ (body.ending ++ rest)))
    (hlast : body.last.Taken (body.ending ++ rest)) :
    Steps step ⟨.body, p⟩ (body.octets ++ rest) ⟨.chunks, body.behind p⟩ (body.ending ++ rest) := by
  have hlengths : ∀ c ∈ body.chunks, c.data.length < 2 ^ 64 := fun c hc =>
    ((length_chunk_le hc).trans body.length_data_le).trans_lt hlength
  obtain ⟨e, he, hp', hchunks⟩ := steps_chunks hlengths hp (.inl rfl) hlines
  have hsplit : body.octets ++ rest = body.chunks.flatMap Chunk.octets ++
      (body.last.octets ++ (body.ending ++ rest)) := by simp [ChunkedBody.octets]
  rw [hsplit]
  exact hchunks.trans (steps_last body.last_size hp' he hlast)

variable (rest) in
theorem taken_of_recorded (hlength : body.octets.length < 2 ^ 64) (hp : p.condition = .chunkedBody)
    (hnone : p.recorded = none)
    (h : ∀ b q, scan step ⟨.body, p⟩ 0 (body.octets ++ rest) = .closed (.ok (b, q)) →
      q.recorded.isSome = true) :
    LinesTaken body.chunks (body.last.octets ++ (body.ending ++ rest)) ∧
      body.last.Taken (body.ending ++ rest) := by
  have hlengths : ∀ c ∈ body.chunks, c.data.length < 2 ^ 64 := fun c hc =>
    ((length_chunk_le hc).trans body.length_data_le).trans_lt hlength
  have hsplit : body.octets ++ rest = body.chunks.flatMap Chunk.octets ++
      (body.last.octets ++ (body.ending ++ rest)) := by simp [ChunkedBody.octets]
  rw [hsplit] at h
  have hnot {b : Bool} {q : Parser} (hrecorded : q.recorded = p.recorded) :
      scan step ⟨.body, p⟩ 0 (body.chunks.flatMap Chunk.octets ++
        (body.last.octets ++ (body.ending ++ rest))) ≠ .closed (.ok (b, q)) := fun hscan => by
    have hsome := h b q hscan
    rw [hrecorded, hnone] at hsome
    cases hsome
  have hlines : LinesTaken body.chunks (body.last.octets ++ (body.ending ++ rest)) := by
    by_contra hbroken
    obtain ⟨b, q, hscan, hq⟩ := scan_chunks_broken hlengths hp (.inl rfl) hbroken
    exact hnot hq hscan
  refine ⟨hlines, ?_⟩
  by_contra hbroken
  obtain ⟨e, he, hp', hchunks⟩ := steps_chunks hlengths hp (.inl rfl) hlines
  obtain ⟨b, q, hscan, hq⟩ := scan_broken (e := e) hp' hbroken
  have hrecorded (chunks : List Chunk) (p : Parser) :
      (chunks.foldl afterChunk p).recorded = p.recorded := by
    induction chunks generalizing p with
    | nil => rfl
    | cons c chunks ih => exact (ih _).trans (recorded_afterChunk p c)
  exact hnot (hq.trans (hrecorded _ _)) (hchunks.scan_eq.trans hscan)

theorem chunks_behind (h : p.chunks = [])
    (hplace : p.getOffset = UInt32.ofNat head.length)
    (hlengths : ∀ c ∈ body.chunks, c.data.length < 2 ^ 32) :
    (body.behind p).chunks = allEntries head.length body.chunks body.last ∧
      (body.behind p).getOffset = UInt32.ofNat (head.length +
        (body.chunks.flatMap Chunk.octets).length + body.last.octets.length) := by
  have hpos : ∀ c ∈ body.chunks, UInt32.ofNat c.data.length ≠ 0 := fun c hc hzero => by
    have hmod := congrArg UInt32.toNat hzero
    rw [UInt32.toNat_ofNat_of_lt' (hlengths c hc)] at hmod
    exact c.data_ne (List.length_eq_zero_iff.mp hmod)
  have hcount : (countChunk p).getOffset = UInt32.ofNat head.length := by
    rw [countChunk_eq h, hplace]
  obtain ⟨hentries, hoffset⟩ := entries_foldl hcount hpos
  have hlast : (afterLine (body.chunks.foldl afterChunk p) body.last).getOffset =
      UInt32.ofNat (head.length + (body.chunks.flatMap Chunk.octets).length +
        body.last.octets.length) := by
    rw [getOffset_afterLine, hoffset, ← UInt32.ofNat_add]
  have hchunks : (body.behind p).chunks = allEntries head.length body.chunks body.last := by
    rw [ChunkedBody.behind, chunks_afterLast, hentries, h, hlast]
    rfl
  exact ⟨hchunks, hlast⟩

end Runs

section Frames
variable {p q r : Parser} {body : ChunkedBody} {head rest : Bytes} {place : ℕ}
  {chunks : List Chunk} {last : ChunkLine} {e : UInt64 × UInt32} {more : List (UInt64 × UInt32)}

theorem frame_of_chunks (h : q.chunks = e :: more) :
    q.frame = (onChain (Cursor.skip e.1.toNat [] q.chain) >>= fun c =>
      frameChunks q.getOffset q.chunks c.settle >>= fun c =>
        .ok { q with recorded := some q.record, chain := c.behind ++ c.ahead }) := by
  rw [Parser.frame]
  dsimp only
  rw [h]
  rfl

theorem frame_chunks (h : q.frame = .ok r) : r.chunks = q.chunks := by
  rw [Parser.frame] at h
  split at h
  · obtain ⟨c, -, hc⟩ := BitTorrent.fault_bind_ok.mp h
    cases hc
    rfl
  · obtain ⟨c, -, hc⟩ := BitTorrent.fault_bind_ok.mp h
    obtain ⟨c', -, hc'⟩ := BitTorrent.fault_bind_ok.mp hc
    cases hc'
    rfl

theorem recorded_of_frame (h : q.frame = .ok r) : r.recorded.isSome = true := by
  rw [Parser.frame] at h
  split at h
  · obtain ⟨c, -, hc⟩ := BitTorrent.fault_bind_ok.mp h
    cases hc
    rfl
  · obtain ⟨c, -, hc⟩ := BitTorrent.fault_bind_ok.mp h
    obtain ⟨c', -, hc'⟩ := BitTorrent.fault_bind_ok.mp hc
    cases hc'
    rfl

/-- As many octets are taken out of the chain as have been counted, but for the data. -/
theorem frame_length {entries : List (UInt64 × UInt32)} {last : UInt64}
    (hchunks : q.chunks = entries ++ [(last, 0)]) (hsizes : ∀ e ∈ entries, e.2 ≠ 0)
    (hplaces : ∀ e ∈ q.chunks, e.1.toNat < 2 ^ 32) (hchain : q.chain.flatten.length < 2 ^ 63)
    (h : q.frame = .ok r) : r.chain.flatten.length + q.getOffset.toNat =
      q.chain.flatten.length + (entries.map fun e => e.2.toNat).sum := by
  obtain ⟨size, more, hcons⟩ : ∃ size more,
      entries ++ [(last, 0)] = (firstPlace entries last, size) :: more := by
    cases entries with
    | nil => exact ⟨0, [], rfl⟩
    | cons e entries => exact ⟨e.2, entries ++ [(last, 0)], rfl⟩
  rw [frame_of_chunks (hchunks.trans hcons)] at h
  obtain ⟨c, hskip, h⟩ := BitTorrent.fault_bind_ok.mp h
  obtain ⟨c', hframe, heq⟩ := BitTorrent.fault_bind_ok.mp h
  cases heq
  obtain ⟨hle, ⟨hbehind, hahead⟩, -⟩ := Cursor.skip_moves (onChain_ok hskip)
  obtain ⟨hbehind', hahead'⟩ := c.settle_moves
  have hlt : c.settle.ahead.flatten.length < 2 ^ 63 := by
    rw [hahead', hahead, List.length_drop]
    omega
  rw [hchunks] at hframe hplaces
  have hlength := frameChunks_length hsizes
    (fun e he => hplaces e (List.mem_append_left _ he))
    (hplaces (last, 0) (List.mem_append_right _ (List.mem_singleton_self _))) hlt hframe
  simp only [Cursor.symbols, hbehind', hahead', hbehind, hahead, List.flatten_nil, List.nil_append,
    List.length_drop] at hlength
  rw [List.flatten_append]
  dsimp only at hle
  omega

theorem frame_sizes (hsizes : q.chunks.map Prod.snd = body.sizes)
    (hplaces : ∀ e ∈ q.chunks, e.1.toNat < 2 ^ 32) (hchain : q.chain.flatten.length < 2 ^ 63)
    (h : q.frame = .ok r) (hdata : body.data.length ≤ r.getContentLength.toNat) :
    r.chain.flatten.length + q.getOffset.toNat = q.chain.flatten.length + body.data.length := by
  have hlengths := lengths_lt (recorded_of_frame h) (frame_chunks h ▸ hsizes) hdata
  obtain ⟨entries, ends, hchunks, hentries, hends⟩ := List.map_eq_append_iff.mp hsizes
  obtain ⟨⟨last, size⟩, rfl, rfl⟩ := List.map_eq_singleton_iff.mp hends
  have hsize (c : Chunk) (hc : c ∈ body.chunks) :
      (UInt32.ofNat c.data.length).toNat = c.data.length :=
    UInt32.toNat_ofNat_of_lt' (hlengths c hc)
  have hne : ∀ e ∈ entries, e.2 ≠ 0 := fun e he hzero => by
    have hmem : e.2 ∈ entries.map Prod.snd := List.mem_map.mpr ⟨e, he, rfl⟩
    rw [hentries] at hmem
    obtain ⟨c, hc, heq⟩ := List.mem_map.mp hmem
    have hlength := hsize c hc
    rw [heq, hzero] at hlength
    exact c.data_ne (List.length_eq_zero_iff.mp hlength.symm)
  have hsum : (entries.map fun e => e.2.toNat).sum = body.data.length := by
    have hmap : (entries.map fun e => e.2.toNat) = (entries.map Prod.snd).map UInt32.toNat := by
      rw [List.map_map]
      rfl
    rw [hmap, hentries, List.map_map, body.length_data]
    exact congrArg List.sum (List.map_congr_left hsize)
  rw [← hsum]
  exact frame_length hchunks hne hplaces hchain h

theorem exists_frame (hchunks : q.chunks = allEntries head.length body.chunks body.last)
    (hoffset : q.getOffset.toNat = head.length + body.octets.length)
    (hchain : q.chain.flatten = head ++ (body.octets ++ rest)) :
    ∃ r, q.frame = .ok r ∧ r.chain.flatten = body.data ++ rest ∧ r.chunks = q.chunks ∧
      r.recorded.isSome = true := by
  have hlt := q.getOffset.toNat_lt
  have hlength := body.length_octets
  obtain ⟨size, more, hcons⟩ := exists_allEntries head.length body.chunks body.last
  have hnext := nextLine_append body.last (body.ending ++ rest) body.chunks
  have hsplit : head ++ (body.octets ++ rest) = (head ++ (nextLine body.last body.chunks).octets) ++
      behindLine body.last (body.ending ++ rest) body.chunks := by
    rw [List.append_assoc, ← hnext]
    simp [ChunkedBody.octets]
  have hbehind_ne : behindLine body.last (body.ending ++ rest) body.chunks ≠ [] := by
    cases hbody : body.chunks with
    | nil => simp [behindLine, ChunkedBody.ending, lineEnd]
    | cons c chunks => simp [behindLine, lineEnd]
  have hfirst : (entry (head.length + (nextLine body.last body.chunks).octets.length) 0).1.toNat =
      (head ++ (nextLine body.last body.chunks).octets).length := by
    rw [toNat_entry, List.length_append]
    have htotal := congrArg List.length hsplit
    have hpos := List.length_pos_of_ne_nil hbehind_ne
    cases hbody : body.chunks with
    | nil =>
      simp only [nextLine]
      omega
    | cons c chunks =>
      rw [hbody, List.flatMap_cons, List.length_append, HTTP.length_octets] at hlength
      simp only [nextLine]
      omega
  have hne : q.chain ≠ [] := by
    refine Cursor.ne_nil_of_flatten ?_
    rw [hchain, hsplit]
    exact List.append_ne_nil_of_right_ne_nil _ hbehind_ne
  obtain ⟨c, hskip⟩ := Cursor.exists_skip []
    (n := (head ++ (nextLine body.last body.chunks).octets).length) hne
    (by rw [hchain, hsplit]; exact (List.prefix_append _ _).length_le)
  obtain ⟨-, ⟨hbehind, hahead⟩, -⟩ := Cursor.skip_moves hskip
  obtain ⟨hbehind', hahead'⟩ := c.settle_moves
  rw [hchain, hsplit, List.drop_left] at hahead
  have hsettle : c.settle.ahead.flatten = behindLine body.last (body.ending ++ rest) body.chunks :=
    hahead'.trans hahead
  have hcount : q.getOffset.toNat = head.length + (body.chunks.flatMap Chunk.octets).length +
      body.last.octets.length + body.ending.length := by
    rw [hoffset, hlength]
    omega
  obtain ⟨c', hframe, hmoves, hmoves'⟩ := exists_frameChunks hsettle
    (Cursor.ne_nil_of_flatten (hsettle ▸ hbehind_ne)) hcount
  refine ⟨{ q with recorded := some q.record, chain := c'.behind ++ c'.ahead }, ?_, ?_, rfl, rfl⟩
  · rw [frame_of_chunks (hchunks.trans hcons), hchunks]
    refine BitTorrent.fault_bind_ok.mpr ⟨c, by rw [hfirst, hskip]; rfl, ?_⟩
    exact BitTorrent.fault_bind_ok.mpr ⟨c', hframe, rfl⟩
  · rw [List.flatten_append, hmoves, hmoves', hbehind', hbehind]
    rfl

end Frames

section Reassembly
variable {p q r : Parser} {body : ChunkedBody} {head rest rest' : Bytes} {n : ℕ}

structure Parser.AtBody (p : Parser) (place : ℕ) (r : Parser) : Prop where
  condition : r.condition = .chunkedBody
  chunks : r.chunks = []
  chain : r.chain = p.chain
  recorded : r.recorded = p.recorded
  offset : r.getOffset = UInt32.ofNat place

theorem exists_atBody {octets : Bytes} (hp : p.Clean) (h : Announces p head octets) :
    ∃ r, p.AtBody head.length r ∧ Steps step (start p) (head ++ octets) ⟨.body, r⟩ octets := by
  obtain ⟨⟨e, r⟩, hsteps, he, hcondition⟩ := h
  dsimp only at he hcondition
  subst he
  have hstage := stage_of_steps (.inl hp.condition) hp.multiBody hsteps
  refine ⟨r, ⟨hcondition, (hstage.chunks (by simp) (by simp)).trans hp.chunks, hstage.chain,
    hstage.recorded, ofNat_add_cancel (k := octets.length) ?_⟩, hsteps⟩
  rw [← List.length_append]
  exact hstage.offset hcondition

theorem chain_behind : (body.behind r).chain = r.chain := by
  have hchunks (chunks : List Chunk) (r : Parser) :
      (chunks.foldl afterChunk r).chain = r.chain := by
    induction chunks generalizing r with
    | nil => rfl
    | cons c chunks ih => exact (ih _).trans (beginChunk_scans r c.line.digits).chain
  exact (beginChunk_scans _ body.last.digits).chain.trans (hchunks _ _)

/-- A parser that is left open has not passed on a record. -/
theorem scan_recorded {octets : Bytes} {s : State} (hp : p.Clean)
    (h : scan step (start p) 0 octets = .opened s) : s.parser.recorded = p.recorded := by
  obtain ⟨s', rest, hsteps, ⟨rfl, hopened⟩ | ⟨v, k, -, -, hclosed⟩⟩ :=
    exists_steps takes_step (start p) octets
  · rw [h] at hopened
    cases hopened
    exact (stage_of_steps (.inl hp.condition) hp.multiBody hsteps).recorded
  · rw [h] at hclosed
    cases hclosed

theorem parse_recorded {octets : Bytes} {b : Bool} (hp : p.Clean) (hnone : p.recorded = none)
    (h : parse p octets = .ok (b, q)) (hrecorded : q.recorded.isSome = true) :
    scan step (start p) 0 octets = .closed (.ok (b, q)) := by
  rw [parse] at h
  cases hscan : scan step (start p) 0 octets with
  | opened s =>
    rw [hscan] at h
    have hs := scan_recorded hp hscan
    dsimp only [endOfBuffer] at h
    cases h
    rw [hs, hnone] at hrecorded
    cases hrecorded
  | closed v =>
    rw [hscan] at h
    rw [show v = .ok (b, q) from h]

theorem acceptFramed_ok {b : Bool} (h : acceptFramed q = .closed (.ok (b, r))) :
    q.frame = .ok r := by
  rw [acceptFramed] at h
  have hmap := Progress.closed.inj h
  cases hframe : q.frame with
  | error f =>
    rw [hframe] at hmap
    cases hmap
  | ok r' =>
    rw [hframe] at hmap
    cases hmap
    rfl

theorem getOffset_ends {place : ℕ} (hends : Ends (body.behind r) n q)
    (hoffset : (body.behind r).getOffset = UInt32.ofNat (place +
      (body.chunks.flatMap Chunk.octets).length + body.last.octets.length))
    (hn : place + body.octets.length + n < 2 ^ 32 + body.ending.length) :
    q.getOffset.toNat = place + body.octets.length ↔ n = body.ending.length := by
  have hlength := body.length_octets
  have hsize : UInt32.size = 2 ^ 32 := rfl
  rw [hends.offset, hoffset, ← UInt32.ofNat_add, UInt32.toNat_ofNat_of_lt' (by omega)]
  omega

theorem shift_recorded {e : Expecting} {t : Token} {b : Bool} (h : shift e t q = .closed (.ok (b, r)))
    (hrecorded : r.recorded.isSome = true) (hnone : q.recorded = none) (hne : r.chunks ≠ [])
    (hchunks : e ≠ .chunks → e ≠ .trailers → q.chunks = []) :
    t = .delimiter ∧ q.frame = .ok r := by
  have hsame : r ≠ q := by
    rintro rfl
    rw [hnone] at hrecorded
    cases hrecorded
  have haccept (q' : Parser) (hq : q'.chunks = []) (h : acceptFramed q' = .closed (.ok (b, r))) :
      False := hne ((frame_chunks (acceptFramed_ok h)).trans hq)
  have hdelimited (q' : Parser) (hq : q'.chunks = []) (h : delimited q' = .closed (.ok (b, r))) :
      False := by
    rw [delimited] at h
    split_ifs at h
    · exact haccept { q' with finished := true } hq h
    · exact haccept _ hq h
  have hgoOn {e : Expecting} {x : Except Fault Parser} (h : goOn e x = .closed (.ok (b, r))) :
      False := by
    cases x <;> cases h
  have hreject (h : reject q = .closed (.ok (b, r))) : False := by
    cases h
    exact hsame rfl
  cases e <;> cases t <;> try exact (hreject h).elim
  case chunks.delimiter => exact ⟨rfl, acceptFramed_ok h⟩
  case trailers.delimiter => exact ⟨rfl, acceptFramed_ok h⟩
  case body.body =>
    have hq := hchunks (by simp) (by simp)
    dsimp only [shift] at h
    split at h
    · rename_i q' hframe
      split_ifs at h
      cases h
      exact (hne ((frame_chunks hframe).trans hq)).elim
    · cases h
  case requestHeaders.delimiter =>
    dsimp only [shift] at h
    refine (hdelimited _ ?_ h).elim
    exact hchunks (by simp) (by simp)
  case responseHeaders.delimiter version =>
    dsimp only [shift] at h
    split at h
    · refine (hdelimited _ ?_ h).elim
      exact hchunks (by simp) (by simp)
    · exact (hreject h).elim
  case version.version =>
    dsimp only [shift] at h
    split at h
    · cases h
    · exact (hreject h).elim
  all_goals
    first
    | exact (hgoOn h).elim
    | cases h
  all_goals exact absurd rfl hsame

theorem exists_framed {block : Bytes} {b : Bool} (hp : p.Clean) (hnone : p.recorded = none)
    (h : scan step (start p) 0 block = .closed (.ok (b, q))) (hrecorded : q.recorded.isSome = true)
    (hne : q.chunks ≠ []) : ∃ q₀ : Parser, q₀.frame = .ok q ∧ q₀.chain = p.chain ∧
      q₀.getOffset.toNat ≤ block.length ∧ ∀ e ∈ q₀.chunks, e.1.toNat < 2 ^ 32 := by
  obtain ⟨s, left, hsteps, ⟨-, hopened⟩ | ⟨v, k, hleft, hstep, hclosed⟩⟩ :=
    exists_steps takes_step (start p) block
  · rw [h] at hopened
    cases hopened
  · rw [h] at hclosed
    cases hclosed
    have hstage := stage_of_steps (.inl hp.condition) hp.multiBody hsteps
    have hcounting := counting_of_steps hp hsteps
    have hs : s.parser.recorded = none := hstage.recorded.trans hnone
    obtain ⟨a, rest, rfl⟩ := List.exists_cons_of_ne_nil hleft
    rw [step] at hstep
    rcases hlex : lex s.parser (a :: rest) with f | ⟨t, n, q₀⟩ | ⟨n, q₀⟩
    · rw [hlex] at hstep
      cases hstep
    · rw [hlex] at hstep
      obtain ⟨hshift, -⟩ := Prod.mk.inj hstep
      have hscan := lex_scans hlex
      obtain ⟨rfl, hframe⟩ := shift_recorded hshift hrecorded (hscan.recorded.trans hs) hne
        fun hchunks htrailers => (hscan.chunks.trans (hstage.chunks hchunks htrailers)).trans
          hp.chunks
      refine ⟨q₀, hframe, hscan.chain.trans hstage.chain, ?_, fun e he => ?_⟩
      · have hn : n ≤ rest.length + 1 := (lex_taken hlex).2
        have hadd := toNat_addOffset_le s.parser n
        rw [getOffset_addOffset, ← lex_offset hlex (by simp) (by simp) (by simp)] at hadd
        have hcounted := hcounting.counted
        rw [List.length_cons] at hcounted
        show q₀.getOffset.toNat ≤ _
        omega
      · refine hcounting.places e ?_
        rwa [← hscan.chunks]
    · rw [hlex] at hstep
      cases hstep

theorem framed_of_reassembles (hr : p.AtBody head.length r) (hnone : p.recorded = none)
    (htotal : p.chain.flatten.length = head.length + body.octets.length + rest.length)
    (hlength : p.chain.flatten.length < 2 ^ 63)
    (hshort : head.length + body.octets.length + rest'.length < 2 ^ 32)
    (hscan : scan step ⟨.body, r⟩ 0 (body.octets ++ rest') = .closed (.ok (true, q)))
    (hrecorded : q.recorded.isSome = true) (hplaces : ∀ e ∈ q.chunks, e.1.toNat < 2 ^ 32)
    (hdata : body.data.length ≤ q.getContentLength.toNat)
    (hresult : q.chain.flatten.length = body.data.length + rest.length) : body.Framed rest' := by
  have hbody : body.octets.length < 2 ^ 64 := by omega
  obtain ⟨hlines, hlast⟩ := taken_of_recorded rest' hbody hr.condition
    (hr.recorded.trans hnone) fun b q' h => by
      rw [hscan] at h
      cases h
      exact hrecorded
  have hread := steps_body hbody hr.condition hlines hlast
  rw [hread.scan_eq] at hscan
  obtain ⟨n, hends⟩ := exists_endsAt rfl (.inr ⟨rfl, ending_none body rest'⟩) hscan
  obtain ⟨q₀, hclosed, hq₀⟩ := scan_ends hends (p := body.behind r) rfl (.inl rfl)
  have hframe := acceptFramed_ok (hclosed.symm.trans hscan)
  have hsizes : q₀.chunks.map Prod.snd = body.sizes := by
    rw [hq₀.chunks, sizes_behind hr.chunks]
  have hchunks := frame_chunks hframe
  have hlengths := lengths_lt hrecorded (hchunks ▸ hsizes) hdata
  obtain ⟨-, hoffset⟩ := chunks_behind hr.chunks hr.offset hlengths
  have hchain₀ : q₀.chain = p.chain := hq₀.chain.trans (chain_behind.trans hr.chain)
  have hcount := frame_sizes hsizes (hchunks ▸ hplaces) (by rwa [hchain₀]) hframe hdata
  rw [hchain₀, hresult, htotal] at hcount
  have hle := hends.le
  rw [List.length_append] at hle
  have hn : n = body.ending.length :=
    (getOffset_ends hq₀ hoffset (by omega)).mp (by omega)
  exact ⟨hlines, hlast, hn ▸ hends⟩

theorem exists_reassembled (hr : p.AtBody head.length r)
    (hchain : p.chain.flatten = head ++ (body.octets ++ rest))
    (hcounted : head.length + body.octets.length < 2 ^ 32) (h : body.Framed rest') :
    ∃ q, scan step ⟨.body, r⟩ 0 (body.octets ++ rest') = .closed (.ok (true, q)) ∧
      q.recorded.isSome = true ∧ q.chunks.map Prod.snd = body.sizes ∧
        q.getContentLength.toNat = body.data.length ∧ q.chain.flatten = body.data ++ rest := by
  have hle := body.length_data_le
  have hlengths : ∀ c ∈ body.chunks, c.data.length < 2 ^ 32 := fun c hc => by
    have hc := length_chunk_le hc
    omega
  have hbody : body.octets.length < 2 ^ 64 := by omega
  have hread := steps_body hbody hr.condition h.lines h.last
  obtain ⟨q₀, hclosed, hq₀⟩ := scan_ends h.ending (p := body.behind r) rfl (.inl rfl)
  obtain ⟨hentries, hoffset⟩ := chunks_behind hr.chunks hr.offset hlengths
  have hchain₀ : q₀.chain = p.chain := hq₀.chain.trans (chain_behind.trans hr.chain)
  obtain ⟨q, hframe, hflatten, hchunks, hrecorded⟩ := exists_frame (hq₀.chunks.trans hentries)
    ((getOffset_ends hq₀ hoffset (by omega)).mpr rfl) (hchain₀ ▸ hchain)
  have hsizes : q.chunks.map Prod.snd = body.sizes := by
    rw [hchunks, hq₀.chunks, sizes_behind hr.chunks]
  refine ⟨q, ?_, hrecorded, hsizes, toNat_getContentLength hrecorded hsizes (by omega), hflatten⟩
  rw [hread.scan_eq, hclosed, acceptFramed, hframe]
  rfl

theorem scanned_body (hsteps : Steps step (start p) (head ++ (body.octets ++ rest')) ⟨.body, r⟩
    (body.octets ++ rest')) (hr : r.condition = .chunkedBody)
    (hshort : body.octets.length < 2 ^ 64) (h : body.Framed rest') :
    p.scanned (head ++ (body.octets ++ rest')) = head ++ (body.octets ++ rest'.set 0 0) := by
  have hread := steps_body hshort hr h.lines h.last
  obtain ⟨s, left, m, q, hends, hleft, hclosed, hterminator, hlength, -, -⟩ :=
    steps_ends h.ending (p := body.behind r) rfl (.inl rfl)
  have hfront : (head ++ body.octets).length + left.length =
      (head ++ (body.octets ++ rest')).length + m := by
    simp only [List.length_append] at hlength ⊢
    omega
  have hscanned := scanned_of_steps ((hsteps.trans hread).trans hends) hleft hclosed hterminator
    (List.append_assoc _ _ _).symm hfront
  rw [hscanned, List.append_assoc]

theorem Announces.of_prefix {octets octets' : Bytes} (h : Announces p head octets)
    (hfront : octets' <+: octets) : Announces p head octets' := by
  obtain ⟨s, hsteps, he, hcondition⟩ := h
  exact ⟨s, hsteps.of_prefix (fun _ _ _ _ _ => step_front) hfront, he, hcondition⟩

theorem Announces.withChain {octets : Bytes} {chain : List Bytes} (hp : p.Clean)
    (hlength : chain.flatten.length = p.chain.flatten.length) (h : Announces p head octets) :
    Announces (p.withChain chain) head octets := by
  obtain ⟨s, hsteps, he, hcondition⟩ := h
  exact ⟨s.withChain chain, steps_withChain (.inl hp.condition) hp.multiBody hlength hsteps, he,
    hcondition⟩

theorem set_eq_self_iff {octets : Bytes} : octets.set 0 0 = octets ↔ ∀ b ∈ octets.head?, b = 0 := by
  cases octets with
  | nil => simp
  | cons b octets => simp [eq_comm]

/-- A chunked body is reassembled exactly when it lies in the head of the chain, each of its lines
is the longest text that the scanner's rule matches there, and the headers that the scanner finds
behind the last line end with the body; in place, no octet but a NUL follows it there. -/
theorem reassembles_iff_framed {block : Bytes} {blocks : List Bytes} (hp : p.Clean)
    (hnone : p.recorded = none) (hchain : p.chain = block :: blocks)
    (htext : block ++ blocks.flatten = head ++ (body.octets ++ rest))
    (hlength : (block ++ blocks.flatten).length < 2 ^ 63)
    (hhead : Announces p head (body.octets ++ rest)) (useYYScanBuffer : Bool) :
    Reassembles useYYScanBuffer p body rest ↔
      block.length + overhead useYYScanBuffer < 2 ^ 31 ∧
        ∃ rest', block = head ++ (body.octets ++ rest') ∧ body.Framed rest' ∧
          (useYYScanBuffer = true → ∀ b ∈ rest'.head?, b = 0) := by
  have hflatten : p.chain.flatten = block ++ blocks.flatten := by rw [hchain, List.flatten_cons]
  have hscanned := length_scannedChain p useYYScanBuffer
  set p' := p.withChain (p.scannedChain useYYScanBuffer) with hp'
  have hclean : p'.Clean := ⟨hp.condition, hp.chunks, hp.multiBody⟩
  have hchain' : p'.chain.flatten.length = head.length + body.octets.length + rest.length := by
    refine hscanned.trans ?_
    rw [hflatten, htext, List.length_append, List.length_append, Nat.add_assoc]
  have hlength' : p'.chain.flatten.length < 2 ^ 63 :=
    (hscanned.trans (congrArg List.length hflatten)).trans_lt hlength
  have hparseHead : p.parseHead useYYScanBuffer =
      if 2 ^ 31 ≤ block.length + overhead useYYScanBuffer then .error .signedOverflow
      else parse p' block := by
    rw [Parser.parseHead, hchain]
    rfl
  -- a head that is announced in front of the whole text is announced in front of less of it
  have hbody {rest' : Bytes} (hrest : rest = rest' ++ blocks.flatten) :
      Announces p head (body.octets ++ rest') :=
    hhead.of_prefix ⟨blocks.flatten, by rw [hrest, List.append_assoc]⟩
  have hscannedChain {rest' : Bytes} (hblock : block = head ++ (body.octets ++ rest'))
      (hrest : rest = rest' ++ blocks.flatten) (hshort : block.length < 2 ^ 31)
      (hframed : body.Framed rest') : p'.chain.flatten = head ++ (body.octets ++
        ((if useYYScanBuffer then rest'.set 0 0 else rest') ++ blocks.flatten)) := by
    obtain ⟨r, hr, hsteps⟩ := exists_atBody hp (hbody hrest)
    have hoctets : body.octets.length < 2 ^ 64 := by
      rw [hblock, List.length_append, List.length_append] at hshort
      omega
    have hscan := scanned_body hsteps hr.condition hoctets hframed
    show (p.scannedChain useYYScanBuffer).flatten = _
    rw [Parser.scannedChain, hchain]
    cases useYYScanBuffer with
    | true =>
      simp only [if_true, List.modifyHead_cons, List.flatten_cons, hblock, hscan]
      simp only [List.append_assoc]
    | false =>
      simp only [Bool.false_eq_true, if_false, List.flatten_cons, hblock]
      simp only [List.append_assoc]
  constructor
  · rintro ⟨q, hparse, hrecorded, hsizes, htake, hdrop⟩
    rw [hparseHead] at hparse
    split_ifs at hparse with hlong
    have hshort := not_le.mp hlong
    have hdata : body.data.length ≤ q.getContentLength.toNat := by
      rw [← htake]
      exact List.length_take_le _ _
    have hresult : q.chain.flatten.length = body.data.length + rest.length := by
      rw [← List.take_append_drop q.getContentLength.toNat q.chain.flatten, htake, hdrop,
        List.length_append]
    have hscan := parse_recorded hclean hnone hparse hrecorded
    have hne : q.chunks ≠ [] := fun hnil => by simp [hnil, ChunkedBody.sizes] at hsizes
    obtain ⟨q₀, hframe, hchain₀, hle, hplaces⟩ := exists_framed hclean hnone hscan hrecorded hne
    have hcount := frame_sizes (frame_chunks hframe ▸ hsizes) hplaces
      (by rwa [hchain₀]) hframe hdata
    rw [hchain₀, hresult, hchain'] at hcount
    -- the message lies in the head of the chain
    have hfits : (head ++ body.octets).length ≤ block.length := by
      rw [List.length_append]
      omega
    obtain ⟨rest', rfl⟩ : head ++ body.octets <+: block := by
      refine List.prefix_of_prefix_length_le ?_ (List.prefix_append block blocks.flatten) hfits
      rw [htext, ← List.append_assoc]
      exact List.prefix_append _ _
    have hrest : rest = rest' ++ blocks.flatten := by
      rw [List.append_assoc, List.append_assoc] at htext
      exact (List.append_cancel_left (List.append_cancel_left htext)).symm
    have hblock : head ++ body.octets ++ rest' = head ++ (body.octets ++ rest') :=
      List.append_assoc _ _ _
    have hshort' : (head ++ body.octets ++ rest').length < 2 ^ 31 :=
      (Nat.le_add_right _ _).trans_lt hshort
    obtain ⟨r, hr, hsteps⟩ := exists_atBody hclean ((hbody hrest).withChain hp hscanned)
    rw [hblock, hsteps.scan_eq] at hscan
    have hframed : body.Framed rest' := by
      refine framed_of_reassembles hr hnone hchain' hlength' ?_ hscan hrecorded
        (frame_chunks hframe ▸ hplaces) hdata hresult
      rw [List.length_append, List.length_append] at hshort'
      omega
    refine ⟨hshort, rest', hblock, hframed, fun huse => ?_⟩
    have hwhole := hscannedChain hblock hrest hshort' hframed
    obtain ⟨q', hscan', -, -, hcontent, hleft⟩ := exists_reassembled hr hwhole
      (by rw [List.length_append, List.length_append] at hshort'; omega) hframed
    rw [hscan] at hscan'
    cases hscan'
    rw [hcontent, hleft, List.drop_left, hrest, huse, if_pos rfl] at hdrop
    exact set_eq_self_iff.mp (List.append_cancel_right hdrop)
  · rintro ⟨hshort, rest', hblock, hframed, hnul⟩
    have hrest : rest = rest' ++ blocks.flatten := by
      rw [hblock, List.append_assoc, List.append_assoc] at htext
      exact (List.append_cancel_left (List.append_cancel_left htext)).symm
    have hshort' : block.length < 2 ^ 31 := (Nat.le_add_right _ _).trans_lt hshort
    have hwhole := hscannedChain hblock hrest hshort' hframed
    have hsame : (if useYYScanBuffer then rest'.set 0 0 else rest') = rest' := by
      split_ifs with huse
      · exact set_eq_self_iff.mpr (hnul huse)
      · rfl
    rw [hsame, ← hrest] at hwhole
    obtain ⟨r, hr, hsteps⟩ := exists_atBody hclean ((hbody hrest).withChain hp hscanned)
    obtain ⟨q, hscan, hrecorded, hsizes, hcontent, hleft⟩ := exists_reassembled hr hwhole
      (by rw [hblock, List.length_append, List.length_append] at hshort'; omega) hframed
    refine ⟨q, ?_, hrecorded, hsizes, ?_, ?_⟩
    · rw [hparseHead, if_neg (not_le.mpr hshort), parse, hblock, hsteps.scan_eq, hscan]
    · rw [hcontent, hleft, List.take_left]
    · rw [hcontent, hleft, List.drop_left]

/-- The line of a chunk without extensions. -/
def plainLine (digits : Bytes) (h : digits ≠ []) (hhex : ∀ b ∈ digits, Rules.isHex b = true) :
    ChunkLine := ⟨digits, [], h, hhex, .inl rfl, by simp⟩

def abcBody : ChunkedBody where
  chunks := [⟨plainLine (text "03") (by decide +kernel) (by decide +kernel), text "abc",
    by decide +kernel, by decide +kernel⟩]
  last := plainLine (text "0") (by decide +kernel) (by decide +kernel)
  last_size := by decide +kernel
  trailers := [⟨text "Age", text " 1", by decide +kernel, by decide +kernel, by decide +kernel⟩]

def chunkedHead : Bytes := text "HTTP/1.1 200 OK\r\nTransfer-Encoding: chunked\r\n\r\n"

theorem announces_of_advance {octets : Bytes} (k : ℕ)
    (h : (advance step k (start p) (head ++ octets)).map (fun s =>
      (s.1.expecting, s.1.parser.condition, s.2)) = some (.body, .chunkedBody, octets)) :
    Announces p head octets := by
  obtain ⟨⟨s, left⟩, hadvance, heq⟩ := Option.map_eq_some_iff.mp h
  simp only [Prod.mk.injEq] at heq
  obtain ⟨he, hcondition, rfl⟩ := heq
  exact ⟨s, steps_advance hadvance, he, hcondition⟩

def abcChain : List Bytes := [chunkedHead ++ (abcBody.octets ++ []), text "GE", [], text "T /"]

theorem reassembles_abc : Reassembles true { chain := abcChain } abcBody (text "GET /") :=
  have hhead : Announces { chain := abcChain } chunkedHead (abcBody.octets ++ text "GET /") :=
    announces_of_advance 5 (by decide +kernel)
  have hframed : abcBody.Framed [] :=
    ⟨⟨by decide +kernel, trivial⟩, by decide +kernel,
      .header (n := 8) (m := 2) (by decide +kernel) (by decide +kernel)
        (.delimiter (by decide +kernel))⟩
  (reassembles_iff_framed ⟨rfl, rfl, rfl⟩ rfl rfl (by decide +kernel) (by decide +kernel) hhead
    true).mpr ⟨by decide +kernel, [], rfl, hframed, fun _ _ hin => by cases hin⟩

/-- A quoted string takes the line end behind it, and ends in the data of the chunk. -/
def quotedBody : ChunkedBody where
  chunks := [⟨⟨text "3", text ";a=\"b\"", by decide +kernel, by decide +kernel, .inr rfl, by decide +kernel⟩, text "ab\"",
    by decide +kernel, by decide +kernel⟩]
  last := plainLine (text "0") (by decide +kernel) (by decide +kernel)
  last_size := by decide +kernel
  trailers := []

theorem not_reassembles_quoted :
    Announces { chain := [chunkedHead ++ quotedBody.octets] } chunkedHead quotedBody.octets ∧
      ¬ Reassembles false { chain := [chunkedHead ++ quotedBody.octets] } quotedBody [] := by
  refine ⟨announces_of_advance 5 (by decide +kernel), ?_⟩
  rintro ⟨q, hparse, hrecorded, -⟩
  have hresult : (Parser.parseHead { chain := [chunkedHead ++ quotedBody.octets] } false).map
      (fun r => r.2.recorded.isSome) = .ok false := by
    decide +kernel
  rw [hparse] at hresult
  cases hrecorded.symm.trans (Except.ok.inj hresult)

end Reassembly

end ACENetwork.HTTP
