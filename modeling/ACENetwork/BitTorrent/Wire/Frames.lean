import ACENetwork.BitTorrent.Wire.Scanner

/-!
# Scanning one frame

The scanner in front of a length word, and what it makes of the octets of one
message. A message whose announced length is that of its body gives one token that
consumes exactly the frame.
-/
namespace ACENetwork.BitTorrent.Wire
open Library

def ready (h : PeerHandShake) (input : List UInt8) : Scanner :=
  ⟨.length, h, none, 0, [], input⟩

def emitting (e : ScanEvent) (run : List ScanEvent × ScanResult) : List ScanEvent × ScanResult :=
  (e :: run.1, run.2)

@[simp] theorem loadWord_encodeBE (o : ByteOrder) (n : UInt32) :
    loadWord o (encodeBE 4 n.toNat) = n := by
  rw [loadWord_eq, decodeBE_encodeBE_of_lt (by have := n.toNat_lt; norm_num; omega)]
  simp

theorem rule_append {n : ℕ} {action : List UInt8 → Scanner → ScanMove} {s : Scanner}
    {matched rest : List UInt8} (hs : s.input = matched ++ rest) (hn : matched.length = n) :
    s.rule n action = action matched { s with text := s.text ++ matched, input := rest } := by
  subst hn
  simp [Scanner.rule, Scanner.advance, hs]

/-- The number of octets that a state's own rule takes. -/
def StartCondition.octets : StartCondition → ℕ
  | .type | .bitfieldPayload | .piece => 1
  | .initial | .length | .havePayload => 4
  | .reserved | .piecePayload => 8
  | .requestPayload | .cancelPayload => 12
  | .hash | .peerId => 20

/-- A state whose rule lacks octets ends the scan. -/
theorem scanStep_short {ndebug : Bool} {o : ByteOrder} {fresh : Payload} {s : Scanner}
    (hc : s.condition ≠ .initial) (hs : s.input.length < s.condition.octets) :
    scanStep ndebug o fresh s = .halt (if s.input = [] then .finish else .endOfFragment) := by
  have hrule : ∀ n (action : List UInt8 → Scanner → ScanMove), s.input.length < n →
      s.rule n action = .halt (if s.input = [] then .finish else .endOfFragment) := by
    intro n action hn
    simp only [Scanner.rule, if_neg (not_le.mpr hn)]
    split <;> rfl
  unfold scanStep
  cases hcond : s.condition with
  | initial => exact absurd hcond hc
  | reserved | hash | peerId | length | type | bitfieldPayload | cancelPayload | havePayload
  | piece | piecePayload | requestPayload =>
    rw [hcond] at hs
    exact hrule _ _ hs

section Runs

variable {ndebug : Bool} {o : ByteOrder} {fresh : Payload}

variable (ndebug o fresh) in
abbrev scan (s : Scanner) : List ScanEvent × ScanResult := (scanner ndebug o fresh).run s

theorem scan_silent {s s' : Scanner} (h : scanStep ndebug o fresh s = .silent s') :
    scan ndebug o fresh s = scan ndebug o fresh s' :=
  (scanner ndebug o fresh).run_silent h

theorem scan_emit {s s' : Scanner} {e : ScanEvent} (h : scanStep ndebug o fresh s = .emit e s') :
    scan ndebug o fresh s = emitting e (scan ndebug o fresh s') :=
  (scanner ndebug o fresh).run_emit h

theorem scan_halt {s : Scanner} {r : ScanResult} (h : scanStep ndebug o fresh s = .halt r) :
    scan ndebug o fresh s = ([], r) :=
  (scanner ndebug o fresh).run_halt h

theorem scan_length (h : PeerHandShake) {n : UInt32} (hn : n ≠ 0) (rest : List UInt8) :
    scan ndebug o fresh (ready h (encodeBE 4 n.toNat ++ rest)) =
      scan ndebug o fresh
        ⟨.type, h, some ⟨n, none, [], fresh⟩, 0, encodeBE 4 n.toNat, rest⟩ := by
  apply scan_silent
  simp only [scanStep, ready]
  rw [rule_append rfl (encodeBE_length 4 _)]
  simp [hn]

theorem scan_keepAlive (h : PeerHandShake) (rest : List UInt8) :
    scan ndebug o fresh (ready h (encodeBE 4 0 ++ rest)) =
      emitting (.record ⟨0, none, [], fresh⟩ (encodeBE 4 0))
        (scan ndebug o fresh (ready h rest)) := by
  apply scan_emit
  simp only [scanStep, ready]
  rw [rule_append rfl (encodeBE_length 4 _)]
  have hzero : loadWord o (encodeBE 4 0) = 0 := loadWord_encodeBE o 0
  simp [hzero, Scanner.accept]

theorem scanStep_type (h : PeerHandShake) (r : PeerRecord) (t : MessageType)
    (text rest : List UInt8) :
    scanStep ndebug o fresh ⟨.type, h, some r, 0, text, t.code :: rest⟩ =
      scanType t ⟨.type, h, some r, 0, text ++ [t.code], rest⟩ r := by
  simp only [scanStep]
  rw [rule_append (List.singleton_append).symm List.length_singleton]
  simp [Scanner.withRecord]

theorem scan_havePayload (h : PeerHandShake) (r : PeerRecord) (index : UInt32)
    (text rest : List UInt8) :
    scan ndebug o fresh ⟨.havePayload, h, some r, 0, text, encodeBE 4 index.toNat ++ rest⟩ =
      emitting (.record { r with payload := { r.payload with index := index } }
        (text ++ encodeBE 4 index.toNat)) (scan ndebug o fresh (ready h rest)) := by
  apply scan_emit
  simp only [scanStep]
  rw [rule_append rfl (encodeBE_length 4 _)]
  simp [Scanner.withRecord, Scanner.accept, ready]

theorem requestPayload_encode (o : ByteOrder) (index begin length : UInt32) :
    requestPayload o (encodeBE 4 index.toNat ++ encodeBE 4 begin.toNat ++
      encodeBE 4 length.toNat) = ⟨index, begin, length⟩ := by
  have hlast : (encodeBE 4 index.toNat ++ encodeBE 4 begin.toNat ++
      encodeBE 4 length.toNat).drop 8 = encodeBE 4 length.toNat := List.drop_left' (by simp)
  rw [requestPayload, hlast]
  simp [List.append_assoc]

theorem scan_requestPayload (h : PeerHandShake) (r : PeerRecord) {c : StartCondition}
    (hc : c = .requestPayload ∨ c = .cancelPayload) (index begin length : UInt32)
    (text rest : List UInt8) :
    scan ndebug o fresh ⟨c, h, some r, 0, text, encodeBE 4 index.toNat ++ encodeBE 4 begin.toNat ++
        encodeBE 4 length.toNat ++ rest⟩ =
      emitting (.record { r with payload := ⟨index, begin, length⟩ }
        (text ++ (encodeBE 4 index.toNat ++ encodeBE 4 begin.toNat ++ encodeBE 4 length.toNat)))
        (scan ndebug o fresh (ready h rest)) := by
  apply scan_emit
  rcases hc with rfl | rfl
  all_goals
    simp only [scanStep]
    rw [rule_append rfl (by simp)]
    simp only [Scanner.withRecord, Scanner.accept, ready, requestPayload_encode]

theorem toNat_sub_one {k : UInt32} (hk : k ≠ 0) : (k - 1).toNat = k.toNat - 1 := by
  have hpos : 1 ≤ k.toNat := Nat.one_le_iff_ne_zero.mpr fun h => hk (UInt32.toNat_inj.mp h)
  exact toNat_sub_word hpos

theorem skipOctet_eq (h : PeerHandShake) (c : StartCondition) (r : PeerRecord) {k : UInt32}
    (hk : k ≠ 0) (text input : List UInt8) (action : PeerRecord → Scanner → ScanMove) :
    Scanner.skipOctet ndebug ⟨c, h, some r, k, text, input⟩ action =
      if k.toNat = 1 then action r ⟨c, h, some r, 0, text, input⟩
      else .silent ⟨c, h, some r, k - 1, text, input⟩ := by
  have hsub := toNat_sub_one hk
  by_cases hone : k.toNat = 1
  · have hzero : k - 1 = 0 := UInt32.toNat_inj.mp (by rw [hsub, hone]; rfl)
    simp [Scanner.skipOctet, hk, hone, hzero, Scanner.withRecord]
  · have hpos : k.toNat ≠ 0 := fun h => hk (UInt32.toNat_inj.mp h)
    have hnz : k - 1 ≠ 0 := fun h => by
      have := congrArg UInt32.toNat h
      rw [hsub, UInt32.toNat_zero] at this
      omega
    simp [Scanner.skipOctet, hk, hone, hnz]

theorem setBytesToSkip_of_le {a b : UInt32} (h : b ≤ a) (s : Scanner) :
    s.setBytesToSkip a b = .silent { s with bytesToSkip := a - b } :=
  if_neg (UInt32.not_lt.mpr h)

theorem ne_zero_of_toNat_eq {k : UInt32} {n : ℕ} (h : k.toNat = n + 1) : k ≠ 0 := by
  rintro rfl
  simp at h

/-- Octet after octet of a BITFIELD, until `bytes_to_skip` has counted them. -/
theorem scan_bitfieldPayload (h : PeerHandShake) (r : PeerRecord) {k : UInt32}
    {bits : List UInt8} (hne : bits ≠ []) (hk : k.toNat = bits.length) (text rest : List UInt8) :
    scan ndebug o fresh ⟨.bitfieldPayload, h, some r, k, text, bits ++ rest⟩ =
      emitting (.record { r with bitfield := r.bitfield ++ bits } (text ++ bits))
        (scan ndebug o fresh (ready h rest)) := by
  induction bits generalizing r k text with
  | nil => exact absurd rfl hne
  | cons b bits ih =>
    rw [List.length_cons] at hk
    have hstep : scanStep ndebug o fresh
        ⟨.bitfieldPayload, h, some r, k, text, b :: (bits ++ rest)⟩ =
        Scanner.skipOctet ndebug ⟨.bitfieldPayload, h,
          some { r with bitfield := r.bitfield ++ [b] }, k, text ++ [b], bits ++ rest⟩
          fun r s => s.accept r := by
      simp only [scanStep]
      rw [rule_append (List.singleton_append).symm List.length_singleton]
      rfl
    rw [skipOctet_eq _ _ _ (ne_zero_of_toNat_eq hk)] at hstep
    cases bits with
    | nil =>
      rw [if_pos (by simpa using hk)] at hstep
      exact scan_emit hstep
    | cons b' bits =>
      rw [if_neg (by rw [hk, List.length_cons]; omega)] at hstep
      rw [List.cons_append, scan_silent hstep, ih _ (by simp)
        (by rw [toNat_sub_one (ne_zero_of_toNat_eq hk), hk]; rfl)]
      simp

theorem scan_piece (h : PeerHandShake) (r : PeerRecord) {k : UInt32}
    {block : List UInt8} (hne : block ≠ []) (hk : k.toNat = block.length)
    (text rest : List UInt8) :
    scan ndebug o fresh ⟨.piece, h, some r, k, text, block ++ rest⟩ =
      emitting (.record r (text ++ block)) (scan ndebug o fresh (ready h rest)) := by
  induction block generalizing k text with
  | nil => exact absurd rfl hne
  | cons b block ih =>
    rw [List.length_cons] at hk
    have hstep : scanStep ndebug o fresh ⟨.piece, h, some r, k, text, b :: (block ++ rest)⟩ =
        Scanner.skipOctet ndebug ⟨.piece, h, some r, k, text ++ [b], block ++ rest⟩
          fun r s => s.accept r := by
      simp only [scanStep]
      rw [rule_append (List.singleton_append).symm List.length_singleton]
    rw [skipOctet_eq _ _ _ (ne_zero_of_toNat_eq hk)] at hstep
    cases block with
    | nil =>
      rw [if_pos (by simpa using hk)] at hstep
      exact scan_emit hstep
    | cons b' block =>
      rw [if_neg (by rw [hk, List.length_cons]; omega)] at hstep
      rw [List.cons_append, scan_silent hstep, ih (by simp)
        (by rw [toNat_sub_one (ne_zero_of_toNat_eq hk), hk]; rfl)]
      simp

variable (ndebug o fresh) in
/-- The two words in front of a block, with the length that `bytes_to_skip` is set from. -/
theorem scanStep_piecePayload (h : PeerHandShake) (r : PeerRecord) (index begin : UInt32)
    (text rest : List UInt8) :
    scanStep ndebug o fresh ⟨.piecePayload, h, some r, 0, text,
        encodeBE 4 index.toNat ++ encodeBE 4 begin.toNat ++ rest⟩ =
      Scanner.setBytesToSkip r.length 9 ⟨.piece, h,
        some { r with payload := { r.payload with index := index, begin := begin } }, 0,
        text ++ (encodeBE 4 index.toNat ++ encodeBE 4 begin.toNat), rest⟩ := by
  simp only [scanStep]
  rw [rule_append rfl (by simp)]
  simp [Scanner.withRecord]

/-- The scanner behind a length word and a type octet, for the type's switch. -/
def typed (fresh : Payload) (h : PeerHandShake) (n : UInt32) (t : MessageType)
    (rest : List UInt8) : Scanner :=
  ⟨.type, h, some ⟨n, none, [], fresh⟩, 0, encodeBE 4 n.toNat ++ [t.code], rest⟩

theorem scan_header_silent (h : PeerHandShake) {n : UInt32} (hn : n ≠ 0) (t : MessageType)
    {s : Scanner} (rest : List UInt8)
    (hs : scanType t (typed fresh h n t rest) ⟨n, none, [], fresh⟩ = .silent s) :
    scan ndebug o fresh (ready h (encodeBE 4 n.toNat ++ t.code :: rest)) =
      scan ndebug o fresh s := by
  rw [scan_length h hn]
  exact scan_silent ((scanStep_type h _ t _ rest).trans hs)

theorem scan_header_emit (h : PeerHandShake) {n : UInt32} (hn : n ≠ 0) (t : MessageType)
    {s : Scanner} {e : ScanEvent} (rest : List UInt8)
    (hs : scanType t (typed fresh h n t rest) ⟨n, none, [], fresh⟩ = .emit e s) :
    scan ndebug o fresh (ready h (encodeBE 4 n.toNat ++ t.code :: rest)) =
      emitting e (scan ndebug o fresh s) := by
  rw [scan_length h hn]
  exact scan_emit ((scanStep_type h _ t _ rest).trans hs)

end Runs

/-- A BITFIELD or a PIECE carries at least one octet. -/
def Substantial : Message → Prop
  | .bitfield bits => bits ≠ []
  | .piece _ _ block => block ≠ []
  | _ => True

section Messages

variable {ndebug : Bool} {o : ByteOrder} {fresh : Payload}

variable (ndebug o fresh) in
/-- A message behind the length of its body is scanned as that message, and its token
consumes exactly the frame. -/
theorem scan_message (h : PeerHandShake) {m : Message} (hm : Substantial m)
    (hlen : m.body.length < 2 ^ 32) (rest : List UInt8) :
    ∃ r : PeerRecord, r.length.toNat = m.body.length ∧ r.message (m.body.drop 9) = some m ∧
      scan ndebug o fresh (ready h (encodeBE 4 m.body.length ++ (m.body ++ rest))) =
        emitting (.record r (encodeBE 4 m.body.length ++ m.body))
          (scan ndebug o fresh (ready h rest)) := by
  obtain ⟨n, hn⟩ : ∃ n : UInt32, n.toNat = m.body.length := ⟨_, toNat_word hlen⟩
  have hn0 : n ≠ 0 := by
    rintro rfl
    cases m <;> simp [Message.body] at hn
  rw [← hn]
  cases m with
  | choke =>
    refine ⟨⟨n, some .choke, [], fresh⟩, rfl, rfl, ?_⟩
    exact scan_header_emit h hn0 .choke rest rfl
  | unchoke =>
    refine ⟨⟨n, some .unchoke, [], fresh⟩, rfl, rfl, ?_⟩
    exact scan_header_emit h hn0 .unchoke rest rfl
  | interested =>
    refine ⟨⟨n, some .interested, [], fresh⟩, rfl, rfl, ?_⟩
    exact scan_header_emit h hn0 .interested rest rfl
  | notInterested =>
    refine ⟨⟨n, some .notInterested, [], fresh⟩, rfl, rfl, ?_⟩
    exact scan_header_emit h hn0 .notInterested rest rfl
  | «have» index =>
    refine ⟨⟨n, some .have, [], { fresh with index := index }⟩, rfl, rfl, ?_⟩
    refine (scan_header_silent h hn0 .have (encodeBE 4 index.toNat ++ rest) rfl).trans ?_
    refine (scan_havePayload h _ index _ rest).trans ?_
    simp [Message.body, typed, MessageType.code]
  | bitfield bits =>
    have hle : 1 ≤ n := UInt32.le_iff_toNat_le.mpr (by simp [hn, Message.body])
    have hskip : (n - 1).toNat = bits.length := by
      rw [toNat_sub_one hn0, hn]
      rfl
    refine ⟨⟨n, some .bitfield, bits, fresh⟩, rfl, rfl, ?_⟩
    refine (scan_header_silent h hn0 .bitfield (bits ++ rest)
      (setBytesToSkip_of_le hle _)).trans ?_
    refine (scan_bitfieldPayload h _ hm hskip _ rest).trans ?_
    simp [Message.body, typed, MessageType.code]
  | request index begin length =>
    refine ⟨⟨n, some .request, [], ⟨index, begin, length⟩⟩, rfl, rfl, ?_⟩
    refine (scan_header_silent h hn0 .request (encodeBE 4 index.toNat ++ encodeBE 4 begin.toNat ++
      encodeBE 4 length.toNat ++ rest) rfl).trans ?_
    refine (scan_requestPayload h _ (.inl rfl) index begin length _ rest).trans ?_
    simp [Message.body, typed, MessageType.code]
  | piece index begin block =>
    have hle : 9 ≤ n := UInt32.le_iff_toNat_le.mpr (by
      rw [hn]
      simp [Message.body]
      omega)
    have hskip : (n - 9).toNat = block.length := by
      refine (toNat_sub_word (UInt32.le_iff_toNat_le.mp hle)).trans ?_
      rw [hn]
      simp [Message.body]
      omega
    refine ⟨⟨n, some .piece, [], { fresh with index := index, begin := begin }⟩, rfl, ?_, ?_⟩
    · have hblock : (Message.piece index begin block).body.drop 9 = block := by
        simp [Message.body, List.drop_append]
      rw [hblock]
      rfl
    refine (scan_header_silent h hn0 .piece (encodeBE 4 index.toNat ++ encodeBE 4 begin.toNat ++
      (block ++ rest)) rfl).trans ?_
    refine (scan_silent ((scanStep_piecePayload ndebug o fresh h ⟨n, some .piece, [], fresh⟩ index begin _ _).trans
      (setBytesToSkip_of_le hle _))).trans ?_
    refine (scan_piece h _ hm hskip _ rest).trans ?_
    simp [Message.body, typed, MessageType.code]
  | cancel index begin length =>
    refine ⟨⟨n, some .cancel, [], ⟨index, begin, length⟩⟩, rfl, rfl, ?_⟩
    refine (scan_header_silent h hn0 .cancel (encodeBE 4 index.toNat ++ encodeBE 4 begin.toNat ++
      encodeBE 4 length.toNat ++ rest) rfl).trans ?_
    refine (scan_requestPayload h _ (.inr rfl) index begin length _ rest).trans ?_
    simp [Message.body, typed, MessageType.code]

end Messages

end ACENetwork.BitTorrent.Wire
