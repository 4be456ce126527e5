import ACENetwork.BitTorrent.Wire.Streamer
import ACENetwork.Library.Transducer

/-!
# The peer scanner

The rules of the scanner as transitions between its start conditions. A rule
consumes the octets it matches; where a rule's pattern does not fit into the rest
of the stream, the catch-all rule for a single octet ends the fragment. Tokens carry
the octets consumed since the previous token.
-/
namespace ACENetwork.BitTorrent.Wire
open Library

inductive StartCondition where
  | initial
  | reserved
  | hash
  | peerId
  | length
  | type
  | bitfieldPayload
  | cancelPayload
  | havePayload
  | piece
  | piecePayload
  | requestPayload
  deriving DecidableEq, Repr

/-- The scanner: its start condition, the two members of `yylval`, the local
variable `bytes_to_skip`, the octets consumed for the current token and those ahead. -/
structure Scanner where
  condition : StartCondition
  handshake : PeerHandShake
  record : Option PeerRecord
  bytesToSkip : UInt32
  text : List UInt8
  input : List UInt8
  deriving DecidableEq, Repr

/-- A token, or the note that `bytes_to_skip` has just wrapped below zero. -/
inductive ScanEvent where
  | handshake (handshake : PeerHandShake) (text : List UInt8)
  | record (record : PeerRecord) (text : List UInt8)
  | wrapped
  deriving DecidableEq, Repr

def ScanEvent.text : ScanEvent → List UInt8
  | .handshake _ text => text
  | .record _ text => text
  | .wrapped => []

/-- The end of a scan: token `END`, token `END_OF_FRAGMENT`, or a fault. -/
inductive ScanResult where
  | finish
  | endOfFragment
  | fault (f : Fault)
  deriving DecidableEq, Repr

abbrev ScanMove := Move Scanner ScanEvent ScanResult

namespace Scanner

def advance (n : ℕ) (s : Scanner) : Scanner :=
  { s with text := s.text ++ s.input.take n, input := s.input.drop n }

/-- `BEGIN (state_length)` and `return` of the record's token. -/
def accept (r : PeerRecord) (s : Scanner) : ScanMove :=
  .emit (.record r s.text)
    { s with condition := .length, record := none, bytesToSkip := 0, text := [] }

/-- A rule for exactly `n` octets, with the `<<EOF>>` and `<*>` rules behind it. -/
def rule (n : ℕ) (action : List UInt8 → Scanner → ScanMove) (s : Scanner) : ScanMove :=
  if n ≤ s.input.length then action (s.input.take n) (s.advance n)
  else if s.input = [] then .halt .finish
  else .halt .endOfFragment

/-- `ACE_ASSERT (yylval->record)` and the use of the record after it. -/
def withRecord (s : Scanner) (action : PeerRecord → ScanMove) : ScanMove :=
  match s.record with
  | none => .halt (.fault .nullPointer)
  | some r => action r

/-- `bytes_to_skip = a - b`, on the way to the start condition of the given state. -/
def setBytesToSkip (a b : UInt32) (s : Scanner) : ScanMove :=
  let next := { s with bytesToSkip := a - b }
  if a < b then .emit .wrapped next else .silent next

/-- `ACE_ASSERT (bytes_to_skip)` and the decrement, and whether it reached zero. -/
def skipOctet (ndebug : Bool) (s : Scanner) (action : PeerRecord → Scanner → ScanMove) : ScanMove :=
  if s.bytesToSkip = 0 then
    if ndebug then .emit .wrapped { s with bytesToSkip := s.bytesToSkip - 1 }
    else .halt (.fault .assertion)
  else
    let next := { s with bytesToSkip := s.bytesToSkip - 1 }
    if next.bytesToSkip = 0 then next.withRecord fun r => action r next else .silent next

end Scanner

/-- A word of `yytext`, swapped on little-endian hosts. -/
def loadWord (o : ByteOrder) (bytes : List UInt8) : UInt32 := UInt32.ofNat (o.loadSwapped bytes)

theorem loadWord_eq (o : ByteOrder) (bytes : List UInt8) :
    loadWord o bytes = UInt32.ofNat (decodeBE bytes) := by
  simp [loadWord]

def requestPayload (o : ByteOrder) (text : List UInt8) : Payload :=
  ⟨loadWord o (text.take 4), loadWord o ((text.drop 4).take 4), loadWord o (text.drop 8)⟩

def scanType (t : MessageType) (s : Scanner) (r : PeerRecord) : ScanMove :=
  let r := { r with type := some t }
  let s := { s with record := some r }
  match t with
  | .choke | .unchoke | .interested | .notInterested => s.accept r
  | .have => .silent { s with condition := .havePayload }
  | .bitfield => { s with condition := .bitfieldPayload }.setBytesToSkip r.length 1
  | .request => .silent { s with condition := .requestPayload }
  | .piece => .silent { s with condition := .piecePayload }
  | .cancel => .silent { s with condition := .cancelPayload }

section Rules

variable (ndebug : Bool) (o : ByteOrder) (fresh : Payload)

/-- The rules of the scanner; `fresh` is what the payload union of a newly allocated
record holds. -/
def scanStep (s : Scanner) : ScanMove :=
  match s.condition with
  | .initial =>
    if handShakePrefix <+: s.input then
      let h : PeerHandShake := ⟨(s.input.drop 1).take 19, List.replicate 8 0, [], []⟩
      .silent { s.advance 20 with handshake := h, condition := .reserved }
    -- the rule for `LENGTH` gives all its octets back
    else s.rule 4 fun _ _ => .silent { s with condition := .length }
  | .reserved => s.rule 8 fun text s =>
    .silent { s with handshake := { s.handshake with reserved := text }, condition := .hash }
  | .hash => s.rule 20 fun text s =>
    .silent { s with handshake := { s.handshake with infoHash := text }, condition := .peerId }
  | .peerId => s.rule 20 fun text s =>
    let h := { s.handshake with peerId := text }
    .emit (.handshake h s.text) { s with handshake := h, condition := .length, text := [] }
  | .length => s.rule 4 fun text s =>
    let r : PeerRecord := ⟨loadWord o text, none, [], fresh⟩
    let s := { s with record := some r }
    if r.length = 0 then s.accept r else .silent { s with condition := .type }
  | .type => s.rule 1 fun text s => s.withRecord fun r =>
    match text.head?.bind MessageType.ofCode with
    | none => .halt .finish
    | some t => scanType t s r
  | .havePayload => s.rule 4 fun text s => s.withRecord fun r =>
    s.accept { r with payload := { r.payload with index := loadWord o text } }
  | .bitfieldPayload => s.rule 1 fun text s => s.withRecord fun r =>
    { s with record := some { r with bitfield := r.bitfield ++ text } }.skipOctet ndebug
      fun r s => s.accept r
  | .requestPayload | .cancelPayload => s.rule 12 fun text s => s.withRecord fun r =>
    s.accept { r with payload := requestPayload o text }
  | .piecePayload => s.rule 8 fun text s => s.withRecord fun r =>
    let r := { r with payload := { r.payload with
      index := loadWord o (text.take 4), begin := loadWord o (text.drop 4) } }
    { s with record := some r, condition := .piece }.setBytesToSkip r.length 9
  | .piece => s.rule 1 fun _ s => s.skipOctet ndebug fun r s => s.accept r

/-- The octets ahead; the first rule for `LENGTH` consumes none, but happens once. -/
def scanRank (s : Scanner) : ℕ :=
  2 * s.input.length + if s.condition = .initial then 1 else 0

theorem rule_next {n : ℕ} {action : List UInt8 → Scanner → ScanMove} {s s' : Scanner}
    (h : (s.rule n action).next? = some s') :
    n ≤ s.input.length ∧ (action (s.input.take n) (s.advance n)).next? = some s' := by
  unfold Scanner.rule at h
  split at h
  · exact ⟨‹_›, h⟩
  · split at h <;> simp [Move.next?] at h

theorem withRecord_next {s s' : Scanner} {action : PeerRecord → ScanMove}
    (h : (s.withRecord action).next? = some s') : ∃ r, (action r).next? = some s' := by
  unfold Scanner.withRecord at h
  split at h
  · simp [Move.next?] at h
  · exact ⟨_, h⟩

/-- A transition that consumes nothing and does not lead back to the start. -/
def Keeps (s s' : Scanner) : Prop :=
  s'.input = s.input ∧ (s.condition ≠ .initial → s'.condition ≠ .initial)

theorem setBytesToSkip_next {a b : UInt32} {s s' : Scanner}
    (h : (s.setBytesToSkip a b).next? = some s') : Keeps s s' := by
  unfold Scanner.setBytesToSkip at h
  split at h <;> (obtain rfl := Option.some.inj h; exact ⟨rfl, id⟩)

theorem accept_next {r : PeerRecord} {s s' : Scanner}
    (h : (s.accept r).next? = some s') : Keeps s s' := by
  obtain rfl := Option.some.inj h
  exact ⟨rfl, fun _ => by simp⟩

theorem skipOctet_next {s s' : Scanner}
    (h : (s.skipOctet ndebug fun r s => s.accept r).next? = some s') : Keeps s s' := by
  unfold Scanner.skipOctet at h
  split at h
  · split at h
    · obtain rfl := Option.some.inj h
      exact ⟨rfl, id⟩
    · simp [Move.next?] at h
  · dsimp only at h
    split at h
    · obtain ⟨r, h⟩ := withRecord_next h
      exact accept_next h
    · obtain rfl := Option.some.inj h
      exact ⟨rfl, id⟩

theorem scanType_next {t : MessageType} {s s' : Scanner} {r : PeerRecord}
    (h : (scanType t s r).next? = some s') : s'.input = s.input ∧ s'.condition ≠ .initial := by
  cases t with
  | choke | unchoke | interested | notInterested | «have» | request | piece | cancel =>
    obtain rfl := Option.some.inj h
    exact ⟨rfl, by simp⟩
  | bitfield =>
    obtain ⟨hin, hcond⟩ := setBytesToSkip_next h
    exact ⟨hin, hcond (by simp)⟩

theorem scanStep_next {s s' : Scanner} (h : (scanStep ndebug o fresh s).next? = some s') :
    s'.condition ≠ .initial ∧
      (s'.input.length < s.input.length ∨ s.condition = .initial ∧ s'.input = s.input) := by
  -- behind a rule for `n` octets the action keeps the input
  have hrule : ∀ n, 0 < n → ∀ action : List UInt8 → Scanner → ScanMove,
      (∀ text u, u.condition = s.condition → (action text u).next? = some s' →
        s'.input = u.input ∧ s'.condition ≠ .initial) →
      (s.rule n action).next? = some s' →
        s'.condition ≠ .initial ∧ s'.input.length < s.input.length := by
    intro n hn action haction hr
    obtain ⟨hlen, hr⟩ := rule_next hr
    obtain ⟨hin, hcond⟩ := haction _ (s.advance n) rfl hr
    refine ⟨hcond, ?_⟩
    rw [hin]
    simp only [Scanner.advance, List.length_drop]
    omega
  cases hc : s.condition with
  | initial =>
    simp only [scanStep, hc] at h
    split at h
    · obtain rfl := Option.some.inj h
      refine ⟨by simp, .inl ?_⟩
      rename_i hpre
      have := hpre.length_le
      simp only [Scanner.advance, List.length_drop]
      simp only [handShakePrefix, defaultPstr, List.length_cons] at this
      omega
    · obtain ⟨-, h⟩ := rule_next h
      obtain rfl := Option.some.inj h
      exact ⟨by simp, .inr ⟨rfl, rfl⟩⟩
  | reserved | hash | peerId =>
    simp only [scanStep, hc] at h
    refine (hrule _ (by decide) _ (fun text u hu h => ?_) h).imp_right .inl
    obtain rfl := Option.some.inj h
    exact ⟨rfl, by simp⟩
  | length =>
    simp only [scanStep, hc] at h
    refine (hrule _ (by decide) _ (fun text u hu h => ?_) h).imp_right .inl
    split at h <;> (obtain rfl := Option.some.inj h; exact ⟨rfl, by simp⟩)
  | type =>
    simp only [scanStep, hc] at h
    refine (hrule _ (by decide) _ (fun text u hu h => ?_) h).imp_right .inl
    obtain ⟨r, h⟩ := withRecord_next h
    split at h
    · simp [Move.next?] at h
    · exact scanType_next h
  | havePayload | requestPayload | cancelPayload =>
    simp only [scanStep, hc] at h
    refine (hrule _ (by decide) _ (fun text u hu h => ?_) h).imp_right .inl
    obtain ⟨r, h⟩ := withRecord_next h
    obtain ⟨hin, hcond⟩ := accept_next h
    exact ⟨hin, hcond (by simp [hu, hc])⟩
  | bitfieldPayload =>
    simp only [scanStep, hc] at h
    refine (hrule _ (by decide) _ (fun text u hu h => ?_) h).imp_right .inl
    obtain ⟨r, h⟩ := withRecord_next h
    obtain ⟨hin, hcond⟩ := skipOctet_next ndebug h
    exact ⟨hin, hcond (by simp [hu, hc])⟩
  | piecePayload =>
    simp only [scanStep, hc] at h
    refine (hrule _ (by decide) _ (fun text u hu h => ?_) h).imp_right .inl
    obtain ⟨r, h⟩ := withRecord_next h
    obtain ⟨hin, hcond⟩ := setBytesToSkip_next h
    exact ⟨hin, hcond (by simp)⟩
  | piece =>
    simp only [scanStep, hc] at h
    refine (hrule _ (by decide) _ (fun text u hu h => ?_) h).imp_right .inl
    obtain ⟨hin, hcond⟩ := skipOctet_next ndebug h
    exact ⟨hin, hcond (by simp [hu, hc])⟩

def scanner : Transducer Scanner ScanEvent ScanResult where
  step := scanStep ndebug o fresh
  rank := scanRank
  rank_lt s s' h := by
    obtain ⟨hcond, hlt | ⟨hinit, hin⟩⟩ := scanStep_next ndebug o fresh h
    · simp only [scanRank, hcond, if_false]
      omega
    · simp only [scanRank, hcond, hinit, hin, if_false, if_true]
      omega

end Rules
end ACENetwork.BitTorrent.Wire
