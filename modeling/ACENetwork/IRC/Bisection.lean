import ACENetwork.IRC.Bisector

/-!
# Bisection is exact

Over blocks whose carriage returns and line feeds come in pairs the scanner counts every
octet once, so that every chain that is passed on is one line, and what is retained is the
line that is not complete.
-/
namespace ACENetwork.IRC.Bisector
open BitTorrent (Fault fault_bind_ok)
open Library

section Chunks

variable {body rest : Bytes}

theorem lex_initial_nil : lex ⟨.initial, 0, []⟩ = (.finished, ⟨.initial, 0, []⟩) := rfl

/-- Octets up to the next carriage return are one chunk. -/
theorem lex_plain (hbody : ∀ b ∈ body, isPlain b = true) (hne : body ≠ [])
    (hrest : Stops isPlain rest) :
    lex ⟨.initial, 0, body ++ rest⟩ = (.octets body.length, ⟨.initial, 0, rest⟩) := by
  obtain ⟨c, tail, rfl⟩ := List.exists_cons_of_ne_nil hne
  obtain ⟨hreturn, hfeed⟩ := ne_of_isPlain (hbody c List.mem_cons_self)
  have htake := takeWhile_run hbody hrest
  have hdrop := dropWhile_run hbody hrest
  simp only [List.cons_append] at htake hdrop ⊢
  simp only [lex, if_neg hreturn, if_neg hfeed, htake, hdrop, Nat.zero_add]

theorem lex_return : lex ⟨.initial, 0, [carriageReturn]⟩ = (.finished, ⟨.endOfFrame, 0, []⟩) := rfl

theorem lex_crlf (rest : Bytes) :
    lex ⟨.initial, 0, crlf ++ rest⟩ = (.boundary, ⟨.initial, 0, rest⟩) := by
  simp [lex, crlf, lexEndOfFrame]

theorem lex_lineFeed (rest : Bytes) :
    lex ⟨.endOfFrame, 0, lineFeed :: rest⟩ = (.boundary, ⟨.initial, 0, rest⟩) := by
  simp [lex, lexEndOfFrame]

end Chunks

section Scan

variable {s s' : Scanner} {before : List Bytes} {block : Bytes} {scanned : ℕ}
  {messageLength : UInt32} {passed : List (List Bytes)}

theorem scan_finished (h : lex s = (.finished, s')) :
    scan ⟨s, before, block, scanned, messageLength, passed⟩ =
      .ok ⟨s'.condition, before ++ [block], messageLength + UInt32.ofNat scanned, passed⟩ := by
  rw [scan]
  split
  · next t ht =>
    obtain ⟨-, rfl⟩ := Prod.mk.inj (h.symm.trans ht)
    rfl
  · next n t ht => cases h.symm.trans ht
  · next t ht => cases h.symm.trans ht

theorem scan_octets {n : ℕ} (h : lex s = (.octets n, s')) (hn : scanned + n < 2 ^ 31) :
    scan ⟨s, before, block, scanned, messageLength, passed⟩ =
      scan ⟨s', before, block, scanned + n, messageLength, passed⟩ := by
  rw [scan]
  split
  · next t ht => cases h.symm.trans ht
  · next n' t ht =>
    obtain ⟨hchunk, rfl⟩ := Prod.mk.inj (h.symm.trans ht)
    obtain rfl := Chunk.octets.inj hchunk
    rw [addScanned, if_pos hn]
    rfl
  · next t ht => cases h.symm.trans ht

theorem scan_boundary {n : ℕ} {length : UInt32} (h : lex s = (.boundary, s'))
    (hcount : Scan.boundary ⟨s, before, block, scanned, messageLength, passed⟩ = .ok (n, length))
    (hlength : length.toNat = before.flatten.length + n) (hn : n ≤ block.length) :
    scan ⟨s, before, block, scanned, messageLength, passed⟩ =
      if n = block.length then .ok ⟨s'.condition, [], 0, passed ++ [before ++ [block]]⟩
      else scan ⟨s', [], block.drop n, 0, 0, passed ++ [before ++ [block.take n]]⟩ := by
  rw [scan]
  split
  · next t ht => cases h.symm.trans ht
  · next n t ht => cases h.symm.trans ht
  · next t ht =>
    obtain ⟨-, rfl⟩ := Prod.mk.inj (h.symm.trans ht)
    rw [hcount]
    simp only [bind, Except.bind, hlength, ne_eq, not_true_eq_false, if_false, Nat.add_lt_add_iff_left,
      Nat.add_left_cancel_iff]
    rcases eq_or_lt_of_le hn with rfl | hlt
    · simp
    · rw [if_pos hlt, if_neg hlt.ne]

theorem scan_body {body rest : Bytes} (hbody : ∀ b ∈ body, isPlain b = true)
    (hrest : Stops isPlain rest) (hlength : body.length < 2 ^ 31) :
    scan ⟨⟨.initial, 0, body ++ rest⟩, before, block, 0, messageLength, passed⟩ =
      scan ⟨⟨.initial, 0, rest⟩, before, block, body.length, messageLength, passed⟩ := by
  by_cases hnil : body = []
  · subst hnil
    rfl
  · have hchunk : scan ⟨⟨.initial, 0, body ++ rest⟩, before, block, 0, messageLength, passed⟩ =
        scan ⟨⟨.initial, 0, rest⟩, before, block, 0 + body.length, messageLength, passed⟩ :=
      scan_octets (lex_plain hbody hnil hrest) (by omega)
    simpa using hchunk

theorem scan_open {body : Bytes} (hbody : ∀ b ∈ body, isPlain b = true)
    (hlength : body.length < 2 ^ 31) :
    scan ⟨⟨.initial, 0, body⟩, before, block, 0, messageLength, passed⟩ =
      .ok ⟨.initial, before ++ [block], messageLength + UInt32.ofNat body.length, passed⟩ := by
  have hcounted : scan ⟨⟨.initial, 0, body ++ []⟩, before, block, 0, messageLength, passed⟩ =
      scan ⟨⟨.initial, 0, []⟩, before, block, body.length, messageLength, passed⟩ :=
    scan_body hbody (by simp [Stops]) hlength
  rw [List.append_nil] at hcounted
  rw [hcounted]
  exact scan_finished lex_initial_nil

/-- A block that ends between carriage return and line feed. -/
theorem scan_pending {body : Bytes} (hbody : ∀ b ∈ body, isPlain b = true)
    (hlength : body.length < 2 ^ 31) :
    scan ⟨⟨.initial, 0, body ++ [carriageReturn]⟩, before, block, 0, messageLength, passed⟩ =
      .ok ⟨.endOfFrame, before ++ [block], messageLength + UInt32.ofNat body.length, passed⟩ := by
  rw [scan_body hbody (by simp [Stops, isPlain]) hlength]
  exact scan_finished lex_return

theorem scan_line {body rest : Bytes} (hbody : ∀ b ∈ body, isPlain b = true)
    (hlength : body.length + 2 < 2 ^ 31)
    (hline : before.flatten.length + body.length + 2 < 2 ^ 32) :
    scan ⟨⟨.initial, 0, body ++ crlf ++ rest⟩, before, body ++ crlf ++ rest, 0,
        UInt32.ofNat before.flatten.length, passed⟩ =
      if rest = [] then .ok ⟨.initial, [], 0, passed ++ [before ++ [body ++ crlf]]⟩
      else scan ⟨⟨.initial, 0, rest⟩, [], rest, 0, 0, passed ++ [before ++ [body ++ crlf]]⟩ := by
  have hstops : Stops isPlain (crlf ++ rest) := by simp [Stops, crlf, isPlain]
  have hcount : Scan.boundary ⟨⟨.initial, 0, crlf ++ rest⟩, before, body ++ crlf ++ rest, body.length,
      UInt32.ofNat before.flatten.length, passed⟩ = .ok (body.length + 2,
        UInt32.ofNat before.flatten.length + UInt32.ofNat (body.length + 2)) := by
    have hcorner : ¬ (body.length = 0 ∧ (body ++ crlf ++ rest).head? = some lineFeed) := by
      rintro ⟨hnil, hhead⟩
      rw [List.length_eq_zero_iff.mp hnil] at hhead
      exact absurd hhead (by simp [crlf, carriageReturn, lineFeed])
    rw [Scan.boundary, if_neg hcorner, addScanned, if_pos hlength]
    rfl
  have htotal : (UInt32.ofNat before.flatten.length + UInt32.ofNat (body.length + 2)).toNat =
      before.flatten.length + (body.length + 2) := by
    rw [← UInt32.ofNat_add, BitTorrent.toNat_word (by omega)]
  rw [List.append_assoc, scan_body hbody hstops (by omega), ← List.append_assoc,
    scan_boundary (lex_crlf rest) hcount htotal (by simp [crlf])]
  have hsplit : (body ++ crlf).length = body.length + 2 := by simp [crlf]
  by_cases hrest : rest = []
  · subst hrest
    simp [crlf]
  · have hne : body.length + 2 ≠ (body ++ crlf ++ rest).length := by
      have := List.length_pos_of_ne_nil hrest
      simp only [List.length_append, hsplit]
      omega
    rw [if_neg hne, if_neg hrest, List.drop_left' hsplit, List.take_left' hsplit]

/-- A block that starts with the line feed of a pending carriage return. -/
theorem scan_lineFeed {rest : Bytes} {n : ℕ} (hbefore : before.flatten.length = n + 1)
    (hline : n + 2 < 2 ^ 32) :
    scan ⟨⟨.endOfFrame, 0, lineFeed :: rest⟩, before, lineFeed :: rest, 0, UInt32.ofNat n, passed⟩ =
      if rest = [] then .ok ⟨.initial, [], 0, passed ++ [before ++ [[lineFeed]]]⟩
      else scan ⟨⟨.initial, 0, rest⟩, [], rest, 0, 0, passed ++ [before ++ [[lineFeed]]]⟩ := by
  have hcount : Scan.boundary ⟨⟨.endOfFrame, 0, lineFeed :: rest⟩, before, lineFeed :: rest, 0,
      UInt32.ofNat n, passed⟩ = .ok (1, UInt32.ofNat n + 2) := by
    rw [Scan.boundary, if_pos ⟨rfl, rfl⟩]
  have htotal : (UInt32.ofNat n + 2).toNat = before.flatten.length + 1 := by
    rw [show (2 : UInt32) = UInt32.ofNat 2 from rfl, ← UInt32.ofNat_add,
      BitTorrent.toNat_word (by omega), hbefore]
  rw [scan_boundary (lex_lineFeed rest) hcount htotal (by simp)]
  by_cases hrest : rest = []
  · subst hrest
    simp
  · have hne : 1 ≠ (lineFeed :: rest).length := by
      have := List.length_pos_of_ne_nil hrest
      simp only [List.length_cons]
      omega
    rw [if_neg hne, if_neg hrest]
    rfl

end Scan

/-- What is retained is an open line, counted but for a pending carriage return. -/
def Module.Open (m : Module) (retained : Bytes) : Prop :=
  m.buffer.flatten = retained ∧
    ((∀ b ∈ retained, isPlain b = true) ∧ m.condition = .initial ∧
        m.messageLength = UInt32.ofNat retained.length ∨
      ∃ body, (∀ b ∈ body, isPlain b = true) ∧ retained = body ++ [carriageReturn] ∧
        m.condition = .endOfFrame ∧ m.messageLength = UInt32.ofNat body.length)

/-- The chains that are passed on are lines, and make up the octets that were received together
with those that are retained, which have no line. -/
def Module.Bisected (m : Module) (received : Bytes) : Prop :=
  (∀ chain ∈ m.passed, IsLine chain.flatten) ∧
    m.passed.flatten.flatten ++ m.buffer.flatten = received ∧ ¬ crlf <:+: m.buffer.flatten

def Module.Kept (m : Module) (received : Bytes) : Prop :=
  (∀ chain ∈ m.passed, IsLine chain.flatten) ∧ ∃ retained, m.Open retained ∧
    m.passed.flatten.flatten ++ retained = received

theorem Module.Kept.bisected {m : Module} {received : Bytes} (h : m.Kept received) :
    m.Bisected received := by
  obtain ⟨hlines, retained, ⟨rfl, hopen⟩, hreceived⟩ := h
  refine ⟨hlines, hreceived, ?_⟩
  rcases hopen with ⟨hplain, -⟩ | ⟨body, hplain, hbody, -⟩
  · exact not_crlf_infix_plain hplain
  · exact hbody ▸ not_crlf_infix_pending hplain

theorem append_plain {a b : Bytes} (ha : ∀ c ∈ a, isPlain c = true)
    (hb : ∀ c ∈ b, isPlain c = true) : ∀ c ∈ a ++ b, isPlain c = true := fun c hc =>
  (List.mem_append.mp hc).elim (ha c) (hb c)

theorem idxOf_lineFeed {body : Bytes} (hbody : ∀ b ∈ body, isPlain b = true) (rest : Bytes) :
    (body ++ crlf ++ rest).idxOf lineFeed = body.length + 1 := by
  rw [List.append_assoc, List.idxOf_append_of_notMem (lineFeed_notMem_plain hbody)]
  simp [crlf, carriageReturn, lineFeed]

theorem lineFeed_mem_line (body rest : Bytes) : lineFeed ∈ body ++ crlf ++ rest := by
  simp [crlf]

/-- A block that goes on with an open line is cut into lines; the first of them ends at the
first line feed, and its length is counted in 32 bits. -/
theorem scan_paired {before : List Bytes} {passed : List (List Bytes)} (text : Bytes)
    (hbefore : ∀ b ∈ before.flatten, isPlain b = true) (htext : Paired text)
    (hlength : text.length + 2 < 2 ^ 31)
    (hfirst : lineFeed ∈ text → before.flatten.length + text.idxOf lineFeed + 1 < 2 ^ 32)
    (hlines : ∀ chain ∈ passed, IsLine chain.flatten) :
    ∃ m, scan ⟨⟨.initial, 0, text⟩, before, text, 0, UInt32.ofNat before.flatten.length, passed⟩ =
        .ok m ∧ m.Kept (passed.flatten.flatten ++ (before.flatten ++ text)) := by
  induction hn : text.length using Nat.strong_induction_on generalizing text before passed with
  | _ n ih =>
    rcases htext.cases with hplain | ⟨body, hplain, rfl⟩ | ⟨body, rest, hplain, rfl, hrest⟩
    · refine ⟨_, scan_open hplain (by omega), hlines, before.flatten ++ text,
        ⟨?_, Or.inl ⟨append_plain hbefore hplain, rfl, ?_⟩⟩, rfl⟩
      · simp
      · simp [UInt32.ofNat_add]
    · rw [List.length_append] at hlength
      refine ⟨_, scan_pending hplain (by omega), hlines, before.flatten ++ (body ++ [carriageReturn]),
        ⟨?_, Or.inr ⟨before.flatten ++ body, append_plain hbefore hplain, ?_, rfl, ?_⟩⟩, rfl⟩
      · simp
      · simp
      · simp [UInt32.ofNat_add]
    · have hfirst' := hfirst (lineFeed_mem_line body rest)
      rw [idxOf_lineFeed hplain] at hfirst'
      simp only [List.length_append, show crlf.length = 2 from rfl] at hlength hn
      rw [scan_line hplain (by omega) (by omega)]
      have hline : IsLine (before ++ [body ++ crlf]).flatten := by
        have hall := isLine_of_plain (append_plain hbefore hplain)
        simpa using hall
      have hlines' : ∀ chain ∈ passed ++ [before ++ [body ++ crlf]], IsLine chain.flatten := by
        intro chain hchain
        rcases List.mem_append.mp hchain with hold | hnew
        · exact hlines chain hold
        · exact List.mem_singleton.mp hnew ▸ hline
      by_cases hnil : rest = []
      · subst hnil
        rw [if_pos rfl]
        refine ⟨_, rfl, hlines', [], ⟨rfl, Or.inl ⟨by simp, rfl, rfl⟩⟩, ?_⟩
        simp
      · rw [if_neg hnil]
        have hshort : rest.idxOf lineFeed ≤ rest.length := List.idxOf_le_length
        have hempty : ∀ b ∈ ([] : List Bytes).flatten, isPlain b = true := by simp
        obtain ⟨m, hm, hkept⟩ := ih rest.length (by omega) rest hempty hrest (by omega)
          (fun _ => by simp only [List.flatten_nil, List.length_nil]; omega) hlines' rfl
        refine ⟨m, hm, ?_⟩
        simpa using hkept

/-- The blocks that are counted right: where nothing is retained there are two octets at least,
carriage returns and line feeds come in pairs, and the lengths of the block and of the line that
it completes have 31 and 32 bits. -/
def Module.Regular (m : Module) (block : Bytes) : Prop :=
  (m.buffer.flatten = [] → 2 ≤ block.length) ∧ Paired (m.buffer.flatten ++ block) ∧
    block.length + 2 < 2 ^ 31 ∧
    (lineFeed ∈ m.buffer.flatten ++ block →
      (m.buffer.flatten ++ block).idxOf lineFeed + 1 < 2 ^ 32)

instance Module.Regular.decidable (m : Module) (block : Bytes) : Decidable (m.Regular block) :=
  inferInstanceAs (Decidable (_ ∧ _ ∧ _ ∧ _))

/-- A block of two octets, or one behind octets that are retained, is scanned. -/
theorem handleDataMessage_scan {m : Module} {block : Bytes} (hne : block ≠ [])
    (hregular : m.Regular block) :
    handleDataMessage m block =
      scan ⟨⟨m.condition, 0, block⟩, m.buffer, block, 0, m.messageLength, m.passed⟩ := by
  obtain ⟨hfresh, -, hlength, -⟩ := hregular
  have htotal : ¬ (m.buffer ++ [block]).flatten.length < 2 := by
    have hpos := List.length_pos_of_ne_nil hne
    simp only [List.flatten_append, List.flatten_singleton, List.length_append]
    by_cases hnil : m.buffer.flatten = []
    · have := hfresh hnil
      omega
    · have := List.length_pos_of_ne_nil hnil
      omega
  have hmod : block.length % 2 ^ 32 = block.length := Nat.mod_eq_of_lt (by omega)
  have hint : ¬ 2 ^ 31 ≤ block.length + 2 := by omega
  rw [handleDataMessage, if_neg htotal, hmod, if_neg hint, List.take_length]

theorem Module.Kept.step {m : Module} {received block : Bytes} (h : m.Kept received)
    (hne : block ≠ []) (hregular : m.Regular block) :
    ∃ m', handleDataMessage m block = .ok m' ∧ m'.Kept (received ++ block) := by
  obtain ⟨hlines, retained, ⟨hbuffer, hopen⟩, rfl⟩ := h
  rw [handleDataMessage_scan hne hregular]
  obtain ⟨-, hpaired, hlength, hfirst⟩ := hregular
  rw [hbuffer] at hpaired hfirst
  obtain ⟨condition, buffer, messageLength, passed⟩ := m
  dsimp only at hbuffer hopen hlines ⊢
  rcases hopen with ⟨hplain, rfl, rfl⟩ | ⟨body, hplain, rfl, rfl, rfl⟩
  · obtain rfl := hbuffer
    have hnot := lineFeed_notMem_plain hplain
    have hfirst' (hin : lineFeed ∈ block) :
        buffer.flatten.length + block.idxOf lineFeed + 1 < 2 ^ 32 := by
      have hall := hfirst (List.mem_append_right _ hin)
      rwa [List.idxOf_append_of_notMem hnot] at hall
    obtain ⟨m', hm', hkept⟩ := scan_paired block hplain (hpaired.of_append_plain hplain) hlength
      hfirst' hlines
    exact ⟨m', hm', by simpa using hkept⟩
  · obtain ⟨c, rest, rfl⟩ := List.exists_cons_of_ne_nil hne
    have htail : Paired (carriageReturn :: c :: rest) := by
      refine Paired.of_append_plain ?_ hplain
      simpa using hpaired
    obtain ⟨rfl, hrest⟩ := htail.lineFeed_of_return
    have hindex := hfirst (by simp)
    have hword : body ++ [carriageReturn] ++ lineFeed :: rest = body ++ crlf ++ rest := by
      simp [crlf]
    rw [hword, idxOf_lineFeed hplain] at hindex
    have hcount : buffer.flatten.length = body.length + 1 := by rw [hbuffer, List.length_append]; rfl
    rw [scan_lineFeed hcount (by omega)]
    have hline : IsLine (buffer ++ [[lineFeed]]).flatten := by
      have hall := isLine_of_plain hplain
      simpa [hbuffer, crlf] using hall
    have hlines' : ∀ chain ∈ passed ++ [buffer ++ [[lineFeed]]], IsLine chain.flatten := by
      intro chain hchain
      rcases List.mem_append.mp hchain with hold | hnew
      · exact hlines chain hold
      · exact List.mem_singleton.mp hnew ▸ hline
    by_cases hnil : rest = []
    · subst hnil
      rw [if_pos rfl]
      refine ⟨_, rfl, hlines', [], ⟨rfl, Or.inl ⟨by simp, rfl, rfl⟩⟩, ?_⟩
      simp [hbuffer]
    · rw [if_neg hnil]
      rw [List.length_cons] at hlength
      have hempty : ∀ b ∈ ([] : List Bytes).flatten, isPlain b = true := by simp
      have hshort : rest.idxOf lineFeed ≤ rest.length := List.idxOf_le_length
      obtain ⟨m', hm', hkept⟩ := scan_paired rest hempty hrest (by omega)
        (fun _ => by simp only [List.flatten_nil, List.length_nil]; omega) hlines'
      refine ⟨m', hm', ?_⟩
      simpa [hbuffer] using hkept

theorem kept_run {blocks : List Bytes} (hne : ∀ block ∈ blocks, block ≠ [])
    (halong : Runs.Along handleDataMessage Module.Regular {} blocks) :
    ∃ m, Runs.run handleDataMessage {} blocks = .ok m ∧ m.Kept blocks.flatten := by
  have hstart : Module.Kept {} ([] : List Bytes).flatten :=
    ⟨by simp, [], ⟨rfl, Or.inl ⟨by simp, rfl, rfl⟩⟩, rfl⟩
  have hstep (seen : List Bytes) (m : Module) (block : Bytes) (hkept : m.Kept seen.flatten)
      (hregular : m.Regular block ∧ block ≠ []) :
      ∃ m', handleDataMessage m block = .ok m' ∧ m'.Kept (seen ++ [block]).flatten := by
    rw [List.flatten_append, List.flatten_singleton]
    exact hkept.step hregular.2 hregular.1
  have hall := Runs.run_total (fun seen m => m.Kept seen.flatten) hstep hstart
    (halong.and_forall hne)
  simpa using hall

/-- In a run over regular blocks no assertion fails, and every state reached is bisected. -/
theorem bisected_of_regular (blocks : List Bytes) (hne : ∀ block ∈ blocks, block ≠ [])
    (halong : Runs.Along handleDataMessage Module.Regular {} blocks) :
    ∃ m, Runs.run handleDataMessage {} blocks = .ok m ∧ m.Bisected blocks.flatten := by
  obtain ⟨m, hrun, hkept⟩ := kept_run hne halong
  exact ⟨m, hrun, hkept.bisected⟩

/-- A line that is cut between carriage return and line feed, a line, and an open one. -/
def cutLines : List Bytes := [text "ab\r", text "\nc\r\nd"]

theorem cutLines_bisected : Runs.Along handleDataMessage Module.Regular {} cutLines ∧
    ∃ m, Runs.run handleDataMessage {} cutLines = .ok m ∧ m.Bisected cutLines.flatten :=
  have halong : Runs.Along handleDataMessage Module.Regular {} cutLines := by decide +kernel
  ⟨halong, bisected_of_regular cutLines (by decide +kernel) halong⟩

/-- A first block of one octet is not scanned, so that its line is counted one octet short. -/
theorem single_octet_fails :
    Runs.run handleDataMessage {} [text "a", text "b\r\n"] = .error .assertion := by
  decide +kernel

end ACENetwork.IRC.Bisector
