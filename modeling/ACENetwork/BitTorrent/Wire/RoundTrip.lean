import ACENetwork.BitTorrent.Wire.Frames

/-!
# Decoding what was encoded

The scanner on the stream of a handshake and the messages behind it. Every kind of
message but BITFIELD comes back, as long as the length of a PIECE fits its word; the
length that the encoder announces for a BITFIELD makes the scanner read into the
next message.
-/
namespace ACENetwork.BitTorrent.Wire
open Library

def start (input : List UInt8) : Scanner :=
  ⟨.initial, ⟨[], [], [], []⟩, none, 0, [], input⟩

/-- What a token tells the parser: a handshake, or a message with the length of its
record. The block of a PIECE lies behind the 13 octets of its header. -/
def ScanEvent.decoded : ScanEvent → Option (PeerHandShake ⊕ Message × ℕ)
  | .handshake h _ => some (.inl h)
  | .record r text => (r.message (text.drop 13)).map fun m => .inr (m, r.length.toNat)
  | .wrapped => none

/-- A scan yields exactly the handshake and the messages, each with the number of
octets behind its length word, and leaves no octet of the stream. -/
structure RoundTrip (hs : Option PeerHandShake) (msgs : List Message) (stream : List UInt8)
    (run : List ScanEvent × ScanResult) : Prop where
  decoded : run.1.map ScanEvent.decoded = hs.toList.map (fun h => some (.inl h)) ++
    msgs.map fun m => some (.inr (m, m.body.length))
  consumed : run.1.flatMap ScanEvent.text = stream
  finish : run.2 = .finish

def Faithful : Message → Prop
  | .bitfield _ => False
  | .piece _ _ block => block.length < 2 ^ 32 - 9
  | _ => True

instance (m : Message) : Decidable (Faithful m) := by
  cases m <;> unfold Faithful <;> infer_instance

theorem Faithful.lengthField {m : Message} (h : Faithful m) :
    m.lengthField = m.body.length ∧ m.body.length < 2 ^ 32 := by
  cases m with
  | choke | unchoke | interested | notInterested | «have» | request | cancel =>
    simp [Message.lengthField, Message.body]
  | bitfield bits => exact h.elim
  | piece index begin block =>
    refine ⟨rfl, ?_⟩
    simp only [Faithful] at h
    simp [Message.body]
    omega

theorem faithful_of_lengthField {m : Message}
    (h : m.body.length = m.lengthField % 2 ^ 32) : Faithful m := by
  cases m with
  | choke | unchoke | interested | notInterested | «have» | request | cancel => trivial
  | bitfield bits =>
    simp [Message.lengthField, Message.body] at h
    omega
  | piece index begin block =>
    simp [Message.lengthField, Message.body] at h
    simp only [Faithful]
    omega

section FirstRecord

/-- The states in which the length of the current record is known. -/
structure Lengthed (n : UInt32) (s : Scanner) : Prop where
  record : ∀ r, s.record = some r → r.length = n
  condition : s.condition ∉ [.initial, .reserved, .hash, .peerId, .length]

variable {ndebug : Bool} {o : ByteOrder} {fresh : Payload} {n : UInt32}

def KeepsLength (n : UInt32) : ScanMove → Prop
  | .silent s => Lengthed n s
  | .emit (.record r _) _ => r.length = n
  | .emit _ _ => True
  | .halt _ => True

theorem keepsLength_rule {k : ℕ} {action : List UInt8 → Scanner → ScanMove} {s : Scanner}
    (h : KeepsLength n (action (s.input.take k) (s.advance k))) :
    KeepsLength n (s.rule k action) := by
  unfold Scanner.rule
  split
  · exact h
  · split <;> trivial

theorem keepsLength_withRecord {action : PeerRecord → ScanMove} {s : Scanner}
    (h : ∀ r, s.record = some r → KeepsLength n (action r)) :
    KeepsLength n (s.withRecord action) := by
  unfold Scanner.withRecord
  split
  · trivial
  · exact h _ ‹_›

theorem keepsLength_setBytesToSkip {a b : UInt32} {s : Scanner} (h : Lengthed n s) :
    KeepsLength n (s.setBytesToSkip a b) := by
  unfold Scanner.setBytesToSkip
  split
  · trivial
  · exact ⟨h.record, h.condition⟩

theorem keepsLength_skipOctet {s : Scanner} (h : Lengthed n s) :
    KeepsLength n (s.skipOctet ndebug fun r s => s.accept r) := by
  unfold Scanner.skipOctet
  split
  · split <;> trivial
  · dsimp only
    split
    · exact keepsLength_withRecord fun r hr => h.record r hr
    · exact ⟨h.record, h.condition⟩

theorem keepsLength_scanType {s : Scanner} {r : PeerRecord} {t : MessageType}
    (hr : r.length = n) : KeepsLength n (scanType t s r) := by
  have hs : ∀ c, c ∉ [StartCondition.initial, .reserved, .hash, .peerId, .length] →
      Lengthed n { s with record := some { r with type := some t }, condition := c } :=
    fun c hc => ⟨fun r' hr' => by rw [← Option.some.inj hr']; exact hr, hc⟩
  cases t with
  | choke | unchoke | interested | notInterested => exact hr
  | «have» | request | piece | cancel => exact hs _ (by decide)
  | bitfield => exact keepsLength_setBytesToSkip (hs _ (by decide))

variable (ndebug o fresh) in
theorem keepsLength_scanStep {s : Scanner} (h : Lengthed n s) :
    KeepsLength n (scanStep ndebug o fresh s) := by
  have hcond := h.condition
  cases hc : s.condition with
  | initial | reserved | hash | peerId | length => simp [hc] at hcond
  | type =>
    simp only [scanStep, hc]
    refine keepsLength_rule (keepsLength_withRecord fun r hr => ?_)
    split
    · trivial
    · exact keepsLength_scanType (h.record r hr)
  | havePayload | requestPayload | cancelPayload =>
    simp only [scanStep, hc]
    exact keepsLength_rule (keepsLength_withRecord fun r hr => h.record r hr)
  | bitfieldPayload =>
    simp only [scanStep, hc]
    refine keepsLength_rule (keepsLength_withRecord fun r hr => keepsLength_skipOctet ?_)
    exact ⟨fun r' hr' => by rw [← Option.some.inj hr']; exact h.record r hr, h.condition⟩
  | piecePayload =>
    simp only [scanStep, hc]
    refine keepsLength_rule (keepsLength_withRecord fun r hr => keepsLength_setBytesToSkip ?_)
    exact ⟨fun r' hr' => by rw [← Option.some.inj hr']; exact h.record r hr, by simp⟩
  | piece =>
    simp only [scanStep, hc]
    exact keepsLength_rule (keepsLength_skipOctet ⟨h.record, h.condition⟩)

theorem length_of_first_record {s : Scanner} (h : Lengthed n s) {r : PeerRecord}
    {text : List UInt8} {es : List ScanEvent}
    (hrun : (scan ndebug o fresh s).1 = .record r text :: es) : r.length = n := by
  have key : Lengthed n s → (scan ndebug o fresh s).1.head? = some (.record r text) →
      r.length = n := by
    refine (scanner ndebug o fresh).run_induction
      (C := fun s run => Lengthed n s → run.1.head? = some (.record r text) → r.length = n)
      (fun s s' hstep ih hs => ?_) (fun s s' e hstep _ hs hhead => ?_)
      (fun s _ _ _ hhead => by simp at hhead) s
    · have hkeeps := keepsLength_scanStep ndebug o fresh hs
      change scanStep ndebug o fresh s = _ at hstep
      rw [hstep] at hkeeps
      exact ih hkeeps
    · have hkeeps := keepsLength_scanStep ndebug o fresh hs
      change scanStep ndebug o fresh s = _ at hstep
      obtain rfl : e = .record r text := by simpa using hhead
      rw [hstep] at hkeeps
      exact hkeeps
  exact key h (by rw [hrun]; rfl)

theorem length_of_ready (h : PeerHandShake) (rest : List UInt8) {r : PeerRecord}
    {text : List UInt8} {es : List ScanEvent}
    (hrun : (scan ndebug o fresh (ready h (encodeBE 4 n.toNat ++ rest))).1 =
      .record r text :: es) : r.length = n := by
  by_cases hn : n = 0
  · subst hn
    rw [UInt32.toNat_zero, scan_keepAlive] at hrun
    obtain ⟨rfl, -⟩ := ScanEvent.record.inj (List.cons.inj hrun).1
    rfl
  · rw [scan_length h hn] at hrun
    exact length_of_first_record ⟨fun r' hr' => by rw [← Option.some.inj hr'], by simp⟩ hrun

end FirstRecord

section Stream

variable {ndebug : Bool} {o : ByteOrder} {fresh : Payload}

theorem scan_ready_nil (h : PeerHandShake) :
    scan ndebug o fresh (ready h []) = ([], .finish) :=
  scan_halt (by simp [scanStep, ready, Scanner.rule])

theorem scan_start_nil : scan ndebug o fresh (start []) = ([], .finish) :=
  scan_halt (by simp [scanStep, start, Scanner.rule, handShakePrefix])

theorem scan_handshake {h : PeerHandShake} (hwf : WellFormed h) (rest : List UInt8) :
    scan ndebug o fresh
        (start (handShakePrefix ++ (h.reserved ++ (h.infoHash ++ h.peerId)) ++ rest)) =
      emitting (.handshake h (handShakePrefix ++ (h.reserved ++ (h.infoHash ++ h.peerId))))
        (scan ndebug o fresh (ready h rest)) := by
  obtain ⟨pstr, reserved, infoHash, peerId⟩ := h
  obtain ⟨rfl, hreserved, hhash, hid⟩ := hwf
  have hprefix : scanStep ndebug o fresh
      (start (handShakePrefix ++ (reserved ++ (infoHash ++ peerId)) ++ rest)) =
      .silent ⟨.reserved, ⟨defaultPstr, List.replicate 8 0, [], []⟩, none, 0, handShakePrefix,
        reserved ++ (infoHash ++ (peerId ++ rest))⟩ := by
    simp [scanStep, start, Scanner.advance, handShakePrefix, defaultPstr]
  have hres : scanStep ndebug o fresh ⟨.reserved, ⟨defaultPstr, List.replicate 8 0, [], []⟩,
      none, 0, handShakePrefix, reserved ++ (infoHash ++ (peerId ++ rest))⟩ =
      .silent ⟨.hash, ⟨defaultPstr, reserved, [], []⟩, none, 0, handShakePrefix ++ reserved,
        infoHash ++ (peerId ++ rest)⟩ := by
    simp only [scanStep]
    rw [rule_append rfl hreserved]
  have hinfo : scanStep ndebug o fresh ⟨.hash, ⟨defaultPstr, reserved, [], []⟩, none, 0,
      handShakePrefix ++ reserved, infoHash ++ (peerId ++ rest)⟩ =
      .silent ⟨.peerId, ⟨defaultPstr, reserved, infoHash, []⟩, none, 0,
        handShakePrefix ++ reserved ++ infoHash, peerId ++ rest⟩ := by
    simp only [scanStep]
    rw [rule_append rfl hhash]
  rw [scan_silent hprefix, scan_silent hres, scan_silent hinfo]
  apply scan_emit
  simp only [scanStep]
  rw [rule_append rfl hid]
  simp [ready]

/-- A stream that starts with a record has no handshake in front of it: the fifth
octet is that of a type. -/
theorem scan_start_record {w : List UInt8} (hw : w.length = 4) (t : MessageType)
    (rest : List UInt8) :
    scan ndebug o fresh (start (w ++ t.code :: rest)) =
      scan ndebug o fresh (ready ⟨[], [], [], []⟩ (w ++ t.code :: rest)) := by
  have hprefix : ¬ handShakePrefix <+: w ++ t.code :: rest := by
    rintro ⟨tail, htail⟩
    have hfifth := congrArg (fun l => (l.drop 4).head?) htail
    rw [List.drop_left' hw] at hfifth
    cases t <;> simp [handShakePrefix, defaultPstr, MessageType.code] at hfifth
  apply scan_silent
  have hlen : 4 ≤ (w ++ t.code :: rest).length := by simp [hw]
  exact (if_neg hprefix).trans (if_pos hlen)

theorem exists_body (m : Message) : ∃ (t : MessageType) (tail : List UInt8),
    m.body = t.code :: tail := by
  cases m with
  | choke => exact ⟨.choke, [], rfl⟩
  | unchoke => exact ⟨.unchoke, [], rfl⟩
  | interested => exact ⟨.interested, [], rfl⟩
  | notInterested => exact ⟨.notInterested, [], rfl⟩
  | «have» => exact ⟨.have, _, rfl⟩
  | bitfield => exact ⟨.bitfield, _, rfl⟩
  | request => exact ⟨.request, _, rfl⟩
  | piece => exact ⟨.piece, _, rfl⟩
  | cancel => exact ⟨.cancel, _, rfl⟩

def stream (msgs : List Message) : List UInt8 :=
  msgs.flatMap fun m => encodeBE 4 m.lengthField ++ m.body

theorem scan_start_stream (msgs : List Message) :
    scan ndebug o fresh (start (stream msgs)) =
      scan ndebug o fresh (ready ⟨[], [], [], []⟩ (stream msgs)) := by
  cases msgs with
  | nil => exact scan_start_nil.trans (scan_ready_nil _).symm
  | cons m msgs =>
    obtain ⟨t, tail, hbody⟩ := exists_body m
    have hstream : stream (m :: msgs) =
        encodeBE 4 m.lengthField ++ t.code :: (tail ++ stream msgs) := by
      simp [stream, hbody]
    rw [hstream]
    exact scan_start_record (encodeBE_length 4 _) t _

variable (ndebug o fresh) in
theorem scan_stream_cons (h : PeerHandShake) {m : Message} (hm : Substantial m)
    (hf : Faithful m) (msgs : List Message) :
    ∃ r text, text = encodeBE 4 m.lengthField ++ m.body ∧
      ScanEvent.decoded (.record r text) = some (.inr (m, m.body.length)) ∧
      scan ndebug o fresh (ready h (stream (m :: msgs))) =
        emitting (.record r text) (scan ndebug o fresh (ready h (stream msgs))) := by
  obtain ⟨hfield, hlt⟩ := hf.lengthField
  obtain ⟨r, hlen, hmsg, hscan⟩ := scan_message ndebug o fresh h hm hlt (stream msgs)
  refine ⟨r, _, rfl, ?_, ?_⟩
  · have hdrop : (encodeBE 4 m.lengthField ++ m.body).drop 13 = m.body.drop 9 := by
      simp [List.drop_append]
    simp [ScanEvent.decoded, hdrop, hmsg, hlen]
  · simpa [stream, hfield] using hscan

theorem roundTrip_record {m : Message} {msgs : List Message} {r : PeerRecord}
    {text tail : List UInt8} {run : List ScanEvent × ScanResult}
    (hdec : ScanEvent.decoded (.record r text) = some (.inr (m, m.body.length))) :
    RoundTrip none (m :: msgs) (text ++ tail) (emitting (.record r text) run) ↔
      RoundTrip none msgs tail run := by
  have hd : ScanEvent.decoded (.record r text) :: run.1.map ScanEvent.decoded =
      some (.inr (m, m.body.length)) :: msgs.map (fun m => some (.inr (m, m.body.length))) ↔
      run.1.map ScanEvent.decoded = msgs.map fun m => some (.inr (m, m.body.length)) := by
    rw [hdec, List.cons_inj_right]
  constructor
  · rintro ⟨h1, h2, h3⟩
    exact ⟨hd.mp h1, List.append_cancel_left h2, h3⟩
  · rintro ⟨h1, h2, h3⟩
    exact ⟨hd.mpr h1, congrArg (text ++ ·) h2, h3⟩

theorem roundTrip_handshake {hs : PeerHandShake} {msgs : List Message}
    {text tail : List UInt8} {run : List ScanEvent × ScanResult} :
    RoundTrip (some hs) msgs (text ++ tail) (emitting (.handshake hs text) run) ↔
      RoundTrip none msgs tail run := by
  constructor
  · rintro ⟨h1, h2, h3⟩
    exact ⟨(List.cons.inj h1).2, List.append_cancel_left h2, h3⟩
  · rintro ⟨h1, h2, h3⟩
    exact ⟨congrArg (List.cons (some (Sum.inl hs))) h1, congrArg (text ++ ·) h2, h3⟩

/-- The decoded messages are the encoded ones if and only if these are faithful. -/
theorem scan_stream_iff (h : PeerHandShake) {msgs : List Message}
    (hm : ∀ m ∈ msgs, Substantial m) :
    RoundTrip none msgs (stream msgs) (scan ndebug o fresh (ready h (stream msgs))) ↔
      ∀ m ∈ msgs, Faithful m := by
  induction msgs with
  | nil =>
    simp only [List.not_mem_nil, false_imp_iff, implies_true, iff_true]
    rw [stream, List.flatMap_nil, scan_ready_nil]
    exact ⟨rfl, rfl, rfl⟩
  | cons m msgs ih =>
    obtain ⟨hm0, hms⟩ := List.forall_mem_cons.mp hm
    rw [List.forall_mem_cons]
    by_cases hf : Faithful m
    · obtain ⟨r, text, htext, hdec, hscan⟩ := scan_stream_cons ndebug o fresh h hm0 hf msgs
      have hstream : stream (m :: msgs) = text ++ stream msgs := by
        rw [htext]
        rfl
      rw [hscan, hstream, roundTrip_record hdec, ih hms]
      simp only [hf, true_and]
    · simp only [hf, false_and, iff_false]
      rintro ⟨hd, -, -⟩
      obtain ⟨n, hn⟩ : ∃ n : UInt32, n = UInt32.ofNat m.lengthField := ⟨_, rfl⟩
      have hstream : stream (m :: msgs) = encodeBE 4 n.toNat ++ (m.body ++ stream msgs) := by
        rw [encodeBE_congr (m := n.toNat) (n := m.lengthField) (by simp [hn])]
        simp [stream]
      rw [hstream] at hd
      -- the first event has to be this message, with the announced length
      cases hrun : (scan ndebug o fresh (ready h (encodeBE 4 n.toNat ++
          (m.body ++ stream msgs)))).1 with
      | nil => simp [hrun] at hd
      | cons e es =>
        rw [hrun] at hd
        obtain ⟨he, -⟩ := List.cons.inj hd
        cases e with
        | handshake hs text => simp [ScanEvent.decoded] at he
        | wrapped => simp [ScanEvent.decoded] at he
        | record r text =>
          obtain ⟨m', -, hm'⟩ := Option.map_eq_some_iff.mp he
          obtain ⟨rfl, hlen⟩ := Prod.mk.inj (Sum.inr.inj hm')
          rw [length_of_ready h _ hrun, hn, UInt32.toNat_ofNat'] at hlen
          exact hf (faithful_of_lengthField hlen.symm)

end Stream

/-- What `handleDataMessage` passes downstream for an optional handshake. -/
def EmitsHandShake (ndebug : Bool) (o : ByteOrder) : Option PeerHandShake → List UInt8 → Prop
  | none, out => out = []
  | some h, out => ∃ space, handleDataMessage ndebug o space (.inl h) none = .ok out

theorem flatten_emitted {ndebug : Bool} {o : ByteOrder} {msgs : List Message}
    {outs : List (List UInt8)} (h : List.Forall₂ (Emits ndebug o) msgs outs) :
    outs.flatten = stream msgs := by
  induction h with
  | nil => rfl
  | cons hout _ ih => simp [stream, hout.eq, ih]

/-- Between two hosts, an optional handshake and the messages behind it come back
exactly when no message is a BITFIELD and the length of every PIECE fits its word. -/
theorem scan_emitted_iff (ndebug ndebugOut : Bool) (o oOut : ByteOrder) (fresh : Payload)
    (hs : Option PeerHandShake) (msgs : List Message) (hsOut : List UInt8)
    (outs : List (List UInt8)) (hwf : ∀ h ∈ hs, WellFormed h)
    (hhs : EmitsHandShake ndebugOut oOut hs hsOut) (hm : ∀ m ∈ msgs, Substantial m)
    (houts : List.Forall₂ (Emits ndebugOut oOut) msgs outs) :
    RoundTrip hs msgs (hsOut ++ outs.flatten)
        (scan ndebug o fresh (start (hsOut ++ outs.flatten))) ↔
      ∀ m ∈ msgs, Faithful m := by
  rw [flatten_emitted houts]
  cases hs with
  | none =>
    obtain rfl : hsOut = [] := hhs
    rw [List.nil_append, scan_start_stream]
    exact scan_stream_iff _ hm
  | some h =>
    obtain ⟨space, hhs⟩ := hhs
    have hwfh := hwf h rfl
    rw [handShake_emits hwfh hhs, scan_handshake hwfh, roundTrip_handshake]
    exact scan_stream_iff _ hm

/-- A handshake, a HAVE and a PIECE of two octets come back. -/
theorem scan_handshake_have_piece :
    RoundTrip (some ⟨defaultPstr, List.replicate 8 0, List.replicate 20 1, List.replicate 20 2⟩)
      [.have 7, .piece 1 0 [8, 9]]
      (handShakePrefix ++ (List.replicate 8 0 ++ (List.replicate 20 1 ++ List.replicate 20 2)) ++
        [[0, 0, 0, 5, 4, 0, 0, 0, 7], [0, 0, 0, 11, 7, 0, 0, 0, 1, 0, 0, 0, 0, 8, 9]].flatten)
      (scan true .littleEndian ⟨0, 0, 0⟩ (start
        (handShakePrefix ++ (List.replicate 8 0 ++ (List.replicate 20 1 ++ List.replicate 20 2)) ++
          [[0, 0, 0, 5, 4, 0, 0, 0, 7],
            [0, 0, 0, 11, 7, 0, 0, 0, 1, 0, 0, 0, 0, 8, 9]].flatten))) :=
  (scan_emitted_iff true true .littleEndian .bigEndian ⟨0, 0, 0⟩
    (some ⟨defaultPstr, List.replicate 8 0, List.replicate 20 1, List.replicate 20 2⟩)
    [.have 7, .piece 1 0 [8, 9]] _ _
    (fun h hh => by
      obtain rfl := Option.some.inj hh
      exact ⟨rfl, rfl, rfl, rfl⟩)
    ⟨68, by decide⟩ (by simp [Substantial])
    (.cons ⟨⟨0, some .have, [], ⟨7, 0, 0⟩⟩, none, 9, by decide, rfl, by decide⟩
      (.cons ⟨⟨0, some .piece, [], ⟨1, 0, 0⟩⟩, some ⟨[8], [[9]]⟩, 13, by decide, by decide,
        by decide⟩ .nil))).mpr (by decide)

/-- The BITFIELD of one octet is announced with six octets, four more than follow. -/
theorem bitfield_not_roundTrip :
    ¬ ∀ (msgs : List Message) (outs : List (List UInt8)), (∀ m ∈ msgs, Substantial m) →
      List.Forall₂ (Emits true .littleEndian) msgs outs →
      RoundTrip none msgs outs.flatten
        (scan true .littleEndian ⟨0, 0, 0⟩ (start outs.flatten)) := by
  intro h
  obtain ⟨hd, -, -⟩ := h [.bitfield [255]] [[0, 0, 0, 6, 5, 255]] (by simp [Substantial])
    (.cons ⟨⟨0, some .bitfield, [255], ⟨0, 0, 0⟩⟩, none, 6, by decide, rfl, by decide⟩ .nil)
  have hscan : scan true .littleEndian ⟨0, 0, 0⟩ (start [[0, 0, 0, 6, 5, 255]].flatten) =
      ([], .finish) := by decide
  rw [hscan] at hd
  simp at hd

end ACENetwork.BitTorrent.Wire
