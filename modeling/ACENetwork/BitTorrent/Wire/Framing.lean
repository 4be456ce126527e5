import ACENetwork.BitTorrent.Wire.Frames

/-!
# Frame synchronisation on arbitrary frames

The scanner takes the length of a CHOKE, HAVE, REQUEST or CANCEL from the message
type, whatever the frame announces, and subtracts the header from the length of a
BITFIELD or PIECE unchecked. It stays at the frame boundaries exactly as long as
every frame has the length of its type, up to a frame at which the octets run out.
-/
namespace ACENetwork.BitTorrent.Wire
open Library

/-- A frame: the length of its body in four octets, and the body, which starts with a
supported type unless it is empty. -/
structure Frame where
  body : List UInt8
  length_lt : body.length < 2 ^ 32
  supported : ∀ b ∈ body.head?, (MessageType.ofCode b).isSome

namespace Frame

def bytes (f : Frame) : List UInt8 := encodeBE 4 f.body.length ++ f.body

/-- The frame has the length of its type; nothing is asked of a keep-alive. -/
def Canonical (f : Frame) : Prop :=
  match f.body with
  | [] => True
  | b :: payload =>
    match MessageType.ofCode b with
    | none => False
    | some .choke | some .unchoke | some .interested | some .notInterested => payload = []
    | some .have => payload.length = 4
    | some .bitfield => payload ≠ []
    | some .request | some .cancel => payload.length = 12
    | some .piece => 8 < payload.length

/-- The octets of the frame and of what follows it do not reach the frame's token. -/
def Starved (f : Frame) (rest : List UInt8) : Prop :=
  match f.body with
  | [] => False
  | b :: payload =>
    match MessageType.ofCode b with
    | some .have => (payload ++ rest).length < 4
    | some .request | some .cancel => (payload ++ rest).length < 12
    | some .bitfield => payload ++ rest = []
    | some .piece => (payload ++ rest).length < 8 ∨ payload.length = 8 ∧ rest = []
    | _ => False

end Frame

/-- Frames of the length of their type, up to one at which the octets run out. -/
def InSync : List Frame → Prop
  | [] => True
  | f :: fs => f.Canonical ∧ InSync fs ∨ f.Starved (fs.flatMap Frame.bytes)

/-- Each token consumes exactly the next frame, until the scan ends; `bytes_to_skip`
never wraps and no assertion fails. -/
structure FrameSync (fs : List Frame) (run : List ScanEvent × ScanResult) : Prop where
  tokens : run.1.map ScanEvent.text <+: fs.map Frame.bytes
  unwrapped : .wrapped ∉ run.1
  unfaulted : ∀ f, run.2 ≠ .fault f

theorem frameSync_emitting {f : Frame} {fs : List Frame} {r : PeerRecord} {text : List UInt8}
    {run : List ScanEvent × ScanResult} :
    FrameSync (f :: fs) (emitting (.record r text) run) ↔ text = f.bytes ∧ FrameSync fs run := by
  constructor
  · rintro ⟨h1, h2, h3⟩
    obtain ⟨htext, htail⟩ := List.cons_prefix_cons.mp h1
    exact ⟨htext, htail, fun h => h2 (List.mem_cons_of_mem _ h), h3⟩
  · rintro ⟨rfl, h1, h2, h3⟩
    exact ⟨List.cons_prefix_cons.mpr ⟨rfl, h1⟩, by simpa [emitting] using h2, h3⟩

theorem frameSync_halted {fs : List Frame} {r : ScanResult} :
    FrameSync fs ([], r) ↔ ∀ f, r ≠ .fault f :=
  ⟨fun h => h.unfaulted, fun h => ⟨List.nil_prefix, by simp, h⟩⟩

theorem not_frameSync_wrapped {fs : List Frame} {run : List ScanEvent × ScanResult} :
    ¬ FrameSync fs (emitting .wrapped run) :=
  fun h => h.unwrapped List.mem_cons_self

theorem exists_word {w : List UInt8} (hw : w.length = 4) :
    ∃ n : UInt32, w = encodeBE 4 n.toNat := by
  have hlt : decodeBE w < 2 ^ 32 := by
    have := decodeBE_lt w
    rw [hw] at this
    omega
  refine ⟨UInt32.ofNat (decodeBE w), ?_⟩
  rw [toNat_word hlt, ← hw, encodeBE_decodeBE]

theorem exists_split {n : ℕ} {l : List UInt8} (h : n ≤ l.length) :
    ∃ a b, l = a ++ b ∧ a.length = n :=
  ⟨l.take n, l.drop n, (List.take_append_drop n l).symm, by simpa using h⟩

theorem exists_words {w : List UInt8} (hw : w.length = 8) :
    ∃ m n : UInt32, w = encodeBE 4 m.toNat ++ encodeBE 4 n.toNat := by
  obtain ⟨a, b, rfl, ha⟩ := exists_split (n := 4) (l := w) (by omega)
  obtain ⟨m, rfl⟩ := exists_word ha
  obtain ⟨n, rfl⟩ := exists_word (w := b) (by simp at hw; omega)
  exact ⟨m, n, rfl⟩

theorem exists_request {w : List UInt8} (hw : w.length = 12) :
    ∃ l m n : UInt32, w = encodeBE 4 l.toNat ++ encodeBE 4 m.toNat ++ encodeBE 4 n.toNat := by
  obtain ⟨a, b, rfl, ha⟩ := exists_split (n := 8) (l := w) (by omega)
  obtain ⟨l, m, rfl⟩ := exists_words ha
  obtain ⟨n, rfl⟩ := exists_word (w := b) (by simp at hw; omega)
  exact ⟨l, m, n, rfl⟩

theorem Frame.Canonical.exists_message {f : Frame} (h : f.Canonical) (hne : f.body ≠ []) :
    ∃ m, Substantial m ∧ f.body = m.body := by
  cases hb : f.body with
  | nil => exact absurd hb hne
  | cons b payload =>
    simp only [Canonical, hb] at h
    cases ht : MessageType.ofCode b with
    | none => simp [ht] at h
    | some t =>
      obtain rfl := MessageType.code_ofCode ht
      rw [ht] at h
      cases t with
      | choke => exact ⟨.choke, trivial, by simpa [MessageType.code, Message.body] using h⟩
      | unchoke => exact ⟨.unchoke, trivial, by simpa [MessageType.code, Message.body] using h⟩
      | interested =>
        exact ⟨.interested, trivial, by simpa [MessageType.code, Message.body] using h⟩
      | notInterested =>
        exact ⟨.notInterested, trivial, by simpa [MessageType.code, Message.body] using h⟩
      | «have» =>
        obtain ⟨n, rfl⟩ := exists_word h
        exact ⟨.have n, trivial, rfl⟩
      | bitfield => exact ⟨.bitfield payload, h, rfl⟩
      | request =>
        obtain ⟨l, m, n, rfl⟩ := exists_request h
        exact ⟨.request l m n, trivial, rfl⟩
      | cancel =>
        obtain ⟨l, m, n, rfl⟩ := exists_request h
        exact ⟨.cancel l m n, trivial, rfl⟩
      | piece =>
        obtain ⟨a, block, rfl, ha⟩ := exists_split (Nat.le_of_lt h)
        obtain ⟨m, n, rfl⟩ := exists_words ha
        refine ⟨.piece m n block, ?_, rfl⟩
        rintro rfl
        simp at h

section Runs

variable {ndebug : Bool} {o : ByteOrder} {fresh : Payload}

theorem frameSync_short {fs : List Frame} {s : Scanner} (hc : s.condition ≠ .initial)
    (hs : s.input.length < s.condition.octets) : FrameSync fs (scan ndebug o fresh s) := by
  rw [scan_halt (scanStep_short hc hs), frameSync_halted]
  intro f
  split <;> simp

/-- An octet in the states that count `bytes_to_skip`, when it is already zero. -/
theorem not_frameSync_zero {fs : List Frame} {c : StartCondition}
    (hc : c = .bitfieldPayload ∨ c = .piece) (h : PeerHandShake) (r : PeerRecord)
    (text : List UInt8) (b : UInt8) (rest : List UInt8) :
    ¬ FrameSync fs (scan ndebug o fresh ⟨c, h, some r, 0, text, b :: rest⟩) := by
  have hskip : ∀ s : Scanner, s.bytesToSkip = 0 →
      scanStep ndebug o fresh ⟨c, h, some r, 0, text, b :: rest⟩ =
        s.skipOctet ndebug (fun r s => s.accept r) →
      ¬ FrameSync fs (scan ndebug o fresh ⟨c, h, some r, 0, text, b :: rest⟩) := by
    intro s hs hstep
    simp only [Scanner.skipOctet, hs, if_true] at hstep
    split at hstep
    · rw [scan_emit hstep]
      exact not_frameSync_wrapped
    · rw [scan_halt hstep, frameSync_halted]
      simp
  rcases hc with rfl | rfl
  · refine hskip ⟨.bitfieldPayload, h, some { r with bitfield := r.bitfield ++ [b] }, 0,
      text ++ [b], rest⟩ rfl ?_
    simp only [scanStep]
    rw [rule_append (List.singleton_append).symm List.length_singleton]
    rfl
  · refine hskip ⟨.piece, h, some r, 0, text ++ [b], rest⟩ rfl ?_
    simp only [scanStep]
    rw [rule_append (List.singleton_append).symm List.length_singleton]

theorem frameSync_zero {fs : List Frame} {c : StartCondition}
    (hc : c = .bitfieldPayload ∨ c = .piece) (h : PeerHandShake) (r : PeerRecord)
    (text rest : List UInt8) :
    FrameSync fs (scan ndebug o fresh ⟨c, h, some r, 0, text, rest⟩) ↔ rest = [] := by
  cases rest with
  | nil =>
    refine iff_of_true ?_ rfl
    rcases hc with rfl | rfl
    · exact frameSync_short (by simp) Nat.one_pos
    · exact frameSync_short (by simp) Nat.one_pos
  | cons b rest => exact iff_of_false (not_frameSync_zero hc h r text b rest) (by simp)

/-- A payload that the scanner takes to be `k` octets long, of a frame that says
otherwise. -/
theorem frameSync_fixed {f : Frame} {fs : List Frame} {b : UInt8} {payload rest : List UInt8}
    {k : ℕ} {s : Scanner} (hbody : f.body = b :: payload) (hk : payload.length ≠ k)
    (hs : s.input = payload ++ rest) (hc : s.condition ≠ .initial) (hoctets : s.condition.octets = k)
    (haction : ∀ matched behind, payload ++ rest = matched ++ behind → matched.length = k →
      ∃ r text run, scan ndebug o fresh s = emitting (.record r text) run ∧
        text.length = 5 + k) :
    FrameSync (f :: fs) (scan ndebug o fresh s) ↔ (payload ++ rest).length < k := by
  constructor
  · intro hsync
    by_contra hlong
    obtain ⟨matched, behind, hsplit, hmatched⟩ := exists_split (not_lt.mp hlong)
    obtain ⟨r, text, run, hscan, htext⟩ := haction matched behind hsplit hmatched
    rw [hscan, frameSync_emitting] at hsync
    have hlen := congrArg List.length hsync.1
    simp [Frame.bytes, hbody] at hlen
    omega
  · intro hshort
    exact frameSync_short hc (by rwa [hs, hoctets])

theorem bytes_eq {f : Frame} {t : MessageType} {payload : List UInt8}
    (hbody : f.body = t.code :: payload) (rest : List UInt8) :
    ∃ n : UInt32, n.toNat = 1 + payload.length ∧ n ≠ 0 ∧
      f.bytes ++ rest = encodeBE 4 n.toNat ++ t.code :: (payload ++ rest) := by
  have hlt := f.length_lt
  have hlen : f.body.length = 1 + payload.length := by simp [hbody]; omega
  have hn : (UInt32.ofNat (1 + payload.length)).toNat = 1 + payload.length :=
    toNat_word (by omega)
  refine ⟨_, hn, ?_, ?_⟩
  · intro hzero
    rw [hzero, UInt32.toNat_zero] at hn
    omega
  · rw [hn, Frame.bytes, hlen, hbody]
    simp

/-- A frame that has not the length of its type is never consumed as announced: the
scan either starves at it or leaves the frame boundaries. -/
theorem frameSync_of_not_canonical (h : PeerHandShake) {f : Frame} (hf : ¬ f.Canonical)
    (fs : List Frame) (rest : List UInt8) :
    FrameSync (f :: fs) (scan ndebug o fresh (ready h (f.bytes ++ rest))) ↔ f.Starved rest := by
  cases hb : f.body with
  | nil => simp [Frame.Canonical, hb] at hf
  | cons b payload =>
    obtain ⟨t, ht⟩ := Option.isSome_iff_exists.mp (f.supported b (by simp [hb]))
    obtain rfl := MessageType.code_ofCode ht
    obtain ⟨n, hn, hn0, hbytes⟩ := bytes_eq hb rest
    simp only [Frame.Canonical, hb, MessageType.ofCode_code] at hf
    simp only [Frame.Starved, hb, MessageType.ofCode_code, hbytes]
    have hshort : ∀ r run, payload ≠ [] →
        ¬ FrameSync (f :: fs) (emitting (.record r (encodeBE 4 n.toNat ++ [t.code])) run) := by
      intro r run hne hsync
      have hlen := congrArg List.length (frameSync_emitting.1 hsync).1
      have hpos := List.length_pos_iff.mpr hne
      simp [Frame.bytes, hb] at hlen
      omega
    cases t with
    | choke | unchoke | interested | notInterested =>
      rw [scan_header_emit h hn0 _ _ rfl]
      exact iff_of_false (hshort _ _ hf) not_false
    | «have» =>
      rw [scan_header_silent h hn0 _ _ rfl]
      refine frameSync_fixed hb hf rfl (by simp) rfl fun matched behind hsplit hmatched => ?_
      obtain ⟨index, rfl⟩ := exists_word hmatched
      rw [hsplit]
      exact ⟨_, _, _, scan_havePayload h _ index _ behind, by simp [typed]⟩
    | request =>
      rw [scan_header_silent h hn0 _ _ rfl]
      refine frameSync_fixed hb hf rfl (by simp) rfl fun matched behind hsplit hmatched => ?_
      obtain ⟨index, begin, length, rfl⟩ := exists_request hmatched
      rw [hsplit]
      exact ⟨_, _, _, scan_requestPayload h _ (.inl rfl) index begin length _ behind,
        by simp [typed]⟩
    | cancel =>
      rw [scan_header_silent h hn0 _ _ rfl]
      refine frameSync_fixed hb hf rfl (by simp) rfl fun matched behind hsplit hmatched => ?_
      obtain ⟨index, begin, length, rfl⟩ := exists_request hmatched
      rw [hsplit]
      exact ⟨_, _, _, scan_requestPayload h _ (.inr rfl) index begin length _ behind,
        by simp [typed]⟩
    | bitfield =>
      obtain rfl : payload = [] := by simpa using hf
      obtain rfl : n = 1 := UInt32.toNat_inj.mp hn
      rw [scan_header_silent h hn0 .bitfield _ (setBytesToSkip_of_le (UInt32.le_refl 1) _)]
      exact frameSync_zero (.inl rfl) h _ _ rest
    | piece =>
      have hhead : scan ndebug o fresh (ready h (encodeBE 4 n.toNat ++
          MessageType.piece.code :: (payload ++ rest))) =
          scan ndebug o fresh ⟨.piecePayload, h, some ⟨n, some .piece, [], fresh⟩, 0,
            encodeBE 4 n.toNat ++ [MessageType.piece.code], payload ++ rest⟩ :=
        scan_header_silent h hn0 .piece _ rfl
      rw [hhead]
      by_cases hlong : (payload ++ rest).length < 8
      · exact iff_of_true (frameSync_short (by simp) hlong) (.inl hlong)
      obtain ⟨matched, behind, hsplit, hmatched⟩ := exists_split (not_lt.mp hlong)
      obtain ⟨index, begin, rfl⟩ := exists_words hmatched
      have hstep := scanStep_piecePayload ndebug o fresh h ⟨n, some .piece, [], fresh⟩ index begin
        (encodeBE 4 n.toNat ++ [MessageType.piece.code]) behind
      rw [← hsplit] at hstep
      simp only [hlong, false_or]
      rcases Nat.lt_or_eq_of_le (not_lt.mp hf) with hlt | heq
      · have hwrap : n < 9 := UInt32.lt_iff_toNat_lt.mpr (by
          rw [hn]
          simp
          omega)
        rw [scan_emit (hstep.trans (if_pos hwrap))]
        exact iff_of_false not_frameSync_wrapped (by omega)
      · obtain rfl : n = 9 := UInt32.toNat_inj.mp (by rw [hn, heq]; rfl)
        obtain ⟨-, rfl⟩ := List.append_inj hsplit (by rw [heq, hmatched])
        rw [scan_silent (hstep.trans (setBytesToSkip_of_le (UInt32.le_refl 9) _))]
        simp only [heq, true_and]
        exact frameSync_zero (.inr rfl) h _ _ rest

theorem not_starved_of_canonical {f : Frame} (hf : f.Canonical) (rest : List UInt8) :
    ¬ f.Starved rest := by
  cases hb : f.body with
  | nil => simp [Frame.Starved, hb]
  | cons b payload =>
    simp only [Frame.Canonical, hb] at hf
    simp only [Frame.Starved, hb]
    cases ht : MessageType.ofCode b with
    | none => simp [ht] at hf
    | some t =>
      rw [ht] at hf
      cases t with
      | choke | unchoke | interested | notInterested => exact not_false
      | bitfield =>
        rw [List.append_eq_nil_iff]
        exact fun h => hf h.1
      | «have» | request | cancel | piece =>
        simp only [List.length_append] at hf ⊢
        omega

variable (ndebug o fresh) in
/-- A frame of the length of its type gives one token that consumes exactly the frame. -/
theorem scan_canonical (h : PeerHandShake) {f : Frame} (hf : f.Canonical) (rest : List UInt8) :
    ∃ r, scan ndebug o fresh (ready h (f.bytes ++ rest)) =
      emitting (.record r f.bytes) (scan ndebug o fresh (ready h rest)) := by
  by_cases hne : f.body = []
  · refine ⟨⟨0, none, [], fresh⟩, ?_⟩
    simpa [Frame.bytes, hne] using scan_keepAlive h rest
  · obtain ⟨m, hm, hbody⟩ := hf.exists_message hne
    obtain ⟨r, -, -, hscan⟩ := scan_message ndebug o fresh h hm (hbody ▸ f.length_lt) rest
    refine ⟨r, ?_⟩
    simpa [Frame.bytes, hbody] using hscan

end Runs

/-- The scanner keeps to the frame boundaries exactly on the streams of frames that
have the length of their type, up to one at which the octets run out. -/
theorem frameSync_iff (ndebug : Bool) (o : ByteOrder) (fresh : Payload) (h : PeerHandShake)
    (fs : List Frame) :
    FrameSync fs (scan ndebug o fresh (ready h (fs.flatMap Frame.bytes))) ↔ InSync fs := by
  induction fs with
  | nil =>
    refine iff_of_true ?_ trivial
    exact frameSync_short (by simp [ready]) (by simp [ready, StartCondition.octets])
  | cons f fs ih =>
    rw [List.flatMap_cons, InSync]
    by_cases hf : f.Canonical
    · obtain ⟨r, hscan⟩ := scan_canonical ndebug o fresh h hf (fs.flatMap Frame.bytes)
      rw [hscan, frameSync_emitting, ih]
      simp [hf, not_starved_of_canonical hf]
    · rw [frameSync_of_not_canonical h hf]
      simp [hf]

/-- A PIECE of two octets in front of two keep-alives: `bytes_to_skip` wraps. -/
theorem piece_not_frameSync :
    ¬ ∀ fs : List Frame, FrameSync fs (scan true .littleEndian ⟨0, 0, 0⟩
      (ready ⟨[], [], [], []⟩ (fs.flatMap Frame.bytes))) := by
  intro h
  have hsync := h [⟨[7, 0], by decide, by rintro _ ⟨⟩; rfl⟩, ⟨[], by decide, nofun⟩,
    ⟨[], by decide, nofun⟩]
  exact absurd hsync.unwrapped (by decide)

/-- `message_bytes` of `BitTorrent_Module_PeerParser_T::record`, which cuts the record
off the received octets. -/
def messageBytes (r : PeerRecord) : Option UInt32 :=
  if r.length = 0 then some 4
  else r.type.map fun
    | .choke | .unchoke | .interested | .notInterested => 4 + 1
    | .have => 4 + 1 + 4
    | .bitfield => 4 + 1 + (r.length - 1)
    | .request | .cancel => 4 + 1 + 4 + 4 + 4
    | .piece => 4 + 1 + 4 + 4 + (r.length - 9)

/-- The parser module cuts a record where the scanner ends its token, modulo the word
size. -/
theorem messageBytes_message {r : PeerRecord} {block : List UInt8} {m : Message}
    (hm : r.message block = some m) (hlen : r.length.toNat = m.body.length) :
    messageBytes r = some (UInt32.ofNat (4 + m.body.length)) := by
  have hr : UInt32.ofNat (4 + m.body.length) = 4 + r.length := by
    rw [← hlen, UInt32.ofNat_add, UInt32.ofNat_toNat]
    rfl
  rw [hr]
  obtain ⟨t, ht, rfl⟩ := Option.map_eq_some_iff.mp hm
  have hconst : ∀ n : UInt32, r.length.toNat = n.toNat → r.length = n := fun n h =>
    UInt32.toNat_inj.mp h
  have hne : r.length ≠ 0 := by
    intro hzero
    rw [hzero] at hlen
    cases t <;> simp [Message.body] at hlen
  simp only [messageBytes, hne, if_false, ht, Option.map_some]
  cases t with
  | choke | unchoke | interested | notInterested =>
    rw [hconst 1 hlen]
  | «have» =>
    rw [hconst 5 (hlen.trans (by simp [Message.body]))]
    rfl
  | request | cancel =>
    rw [hconst 13 (hlen.trans (by simp [Message.body]))]
    rfl
  | bitfield =>
    congr 1
    grind
  | piece =>
    congr 1
    grind

end ACENetwork.BitTorrent.Wire
