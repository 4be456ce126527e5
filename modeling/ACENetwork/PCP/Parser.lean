import ACENetwork.Library.Transducer
import ACENetwork.PCP.Record
import ACENetwork.PCP.Scanner

/-!
# The PCP grammar

A response is a header, the data of its opcode and its options. Every option stays on the
stack of the parser until the end; its data may be missing, and then its union is not
assigned.
-/
namespace ACENetwork.PCP
open Library Library.Glr BitTorrent

/-- What the grammar stores of a response. Each option comes with the bytes from its code
to the next one or to the end. -/
structure Response where
  version : UInt8
  opcode : UInt8
  reserved : UInt8
  resultCode : UInt8
  lifetime : UInt32
  epochTime : UInt32
  reserved2 : UInt32
  specific : Option Specific := none
  options : List (PCPOption × ℕ) := []
  deriving DecidableEq

section Parse

variable (o : ByteOrder)

/-- Shift of the one terminal that a state of the grammar expects. -/
def shift (f : Field) (s : Scanner) : Except (Abort Fault) (Token × Scanner) := do
  let (t, s) ← yylex o s
  if t.terminal = .field f then .ok (t, s) else .error .syntaxError

def header (s : Scanner) : Except (Abort Fault) (Response × Scanner) := do
  let (version, s) ← shift o .version s
  let (opcode, s) ← shift o .opcode s
  let s := { s with opcode := opcode.ival.toUInt8 }
  let (reserved, s) ← shift o .reserved s
  let (resultCode, s) ← shift o .resultCode s
  let (lifetime, s) ← shift o .lifetime s
  let (epochTime, s) ← shift o .epochTime s
  let (reserved2, s) ← shift o .reserved2 s
  .ok ({ version := version.ival.toUInt8, opcode := opcode.ival.toUInt8
         reserved := reserved.ival.toUInt8, resultCode := resultCode.ival.toUInt8
         lifetime := lifetime.ival.toUInt32, epochTime := epochTime.ival.toUInt32
         reserved2 := reserved2.ival.toUInt32 }, s)

def opcodeSpecificMap (nonce : Token) (s : Scanner) :
    Except (Abort Fault) (MapData × Scanner) := do
  let (protocol, s) ← shift o .mapProtocol s
  let (reserved, s) ← shift o .mapReserved s
  let (internalPort, s) ← shift o .mapInternalPort s
  let (externalPort, s) ← shift o .mapExternalPort s
  let (externalAddress, s) ← shift o .mapExternalAddress s
  .ok ({ nonce := nonce.ival, protocol := protocol.ival.toUInt8
         reserved := reserved.ival.toUInt32, internalPort := internalPort.ival.toUInt16
         externalPort := externalPort.ival.toUInt16
         externalAddress := .v4 externalAddress.ival.toUInt32 }, s)

def opcodeSpecificPeer (nonce : Token) (s : Scanner) :
    Except (Abort Fault) (PeerData × Scanner) := do
  let (protocol, s) ← shift o .peerProtocol s
  let (reserved, s) ← shift o .peerReserved s
  let (internalPort, s) ← shift o .peerInternalPort s
  let (externalPort, s) ← shift o .peerExternalPort s
  let (externalAddress, s) ← shift o .peerExternalAddress s
  let (remotePeerPort, s) ← shift o .peerRemotePort s
  let (reserved2, s) ← shift o .peerReserved2 s
  let (remotePeerAddress, s) ← shift o .peerRemoteAddress s
  .ok ({ nonce := nonce.ival, protocol := protocol.ival.toUInt8
         reserved := reserved.ival.toUInt32, internalPort := internalPort.ival.toUInt16
         externalPort := externalPort.ival.toUInt16
         externalAddress := .v4 externalAddress.ival.toUInt32
         remotePeerPort := remotePeerPort.ival.toUInt16, reserved2 := reserved2.ival.toUInt16
         remotePeerAddress := .v4 remotePeerAddress.ival.toUInt32 }, s)

def opcodeSpecific (s : Scanner) :
    Except (Abort Fault) (Option Specific × Token × Scanner) := do
  let (t, s) ← yylex o s
  match t.terminal with
  | .field .mapNonce => do
    let (d, s) ← opcodeSpecificMap o t s
    let (ahead, s) ← yylex o s
    .ok (some (.map d), ahead, s)
  | .field .peerNonce => do
    let (d, s) ← opcodeSpecificPeer o t s
    let (ahead, s) ← yylex o s
    .ok (some (.peer d), ahead, s)
  | .field .authenticationSessionId => do
    let (sequenceNumber, s) ← shift o .authenticationSequenceNumber s
    let (ahead, s) ← yylex o s
    .ok (some (.authentication ⟨t.ival.toUInt32, sequenceNumber.ival.toUInt32⟩), ahead, s)
  | _ => .ok (none, t, s)

/-- The last terminal of the data of an option is on the stack, and the option is reduced. -/
def dataEnd (items : ℕ) (data : OptionData) (s : Scanner) :
    Except (Abort Fault) (Option OptionData × Token × Scanner) := do
  reserve (items + 1)
  let (ahead, s) ← yylex o s
  .ok (some data, ahead, s)

/-- The rules of `option_data`, with the token behind it. Each terminal but the last is
followed by an action, which takes a place on the stack as well. -/
def optionData (items : ℕ) (t : Token) (s : Scanner) :
    Except (Abort Fault) (Option OptionData × Token × Scanner) :=
  match t.terminal with
  | .field .thirdPartyAddress => dataEnd o items (.thirdParty (.v4 t.ival.toUInt32)) s
  | .field .filterReserved => do
    reserve (items + 2)
    let (prefixLength, s) ← shift o .filterPrefixLength s
    reserve (items + 4)
    let (port, s) ← shift o .filterRemotePeerPort s
    reserve (items + 6)
    let (address, s) ← shift o .filterRemotePeerAddress s
    dataEnd o (items + 6) (.filter t.ival.toUInt8 prefixLength.ival.toUInt8 port.ival.toUInt16
      (.v4 address.ival.toUInt32)) s
  | .field .nonceNonce => dataEnd o items (.nonce t.ival.toUInt32) s
  | .field .authenticationTagSessionId => do
    reserve (items + 2)
    let (sequenceNumber, s) ← shift o .authenticationTagSequenceNumber s
    reserve (items + 4)
    let (keyId, s) ← shift o .authenticationTagKeyId s
    reserve (items + 6)
    let (data, s) ← shift o .authenticationTagData s
    dataEnd o (items + 6) (.authenticationTag t.ival.toUInt32 sequenceNumber.ival.toUInt32
      keyId.ival.toUInt32 data.data) s
  | .field .paAuthenticationTagKeyId => do
    reserve (items + 2)
    let (data, s) ← shift o .paAuthenticationTagData s
    dataEnd o (items + 2) (.paAuthenticationTag t.ival.toUInt32 data.data) s
  | .field .eapPayloadData => dataEnd o items (.eapPayload t.data) s
  | .field .pseudoRandomFunctionId => dataEnd o items (.pseudoRandomFunction t.ival.toUInt32) s
  | .field .macAlgorithmId => dataEnd o items (.macAlgorithm t.ival.toUInt32) s
  | .field .sessionLifetimeLifetime => dataEnd o items (.sessionLifetime t.ival.toUInt32) s
  | .field .receivedPakSequenceNumber => dataEnd o items (.receivedPak t.ival.toUInt32) s
  | .field .idIndicatorData => dataEnd o items (.idIndicator t.data) s
  | _ => do
    reserve (items + 1)
    .ok (none, t, s)

def option (items : ℕ) (code : UInt8) (s : Scanner) :
    Except (Abort Fault) (PCPOption × Token × Scanner) := do
  reserve (items + 2)
  let (reserved, s) ← shift o .optionReserved { s with code }
  reserve (items + 4)
  let (length, s) ← shift o .optionLength s
  reserve (items + 6)
  let (t, s) ← yylex o { s with length := length.ival.toUInt16 }
  let (data, ahead, s) ← optionData o (items + 6) t s
  .ok (⟨code, reserved.ival.toUInt8, length.ival.toUInt16, data⟩, ahead, s)

/-- The parser between two options. -/
structure Frame where
  items : ℕ
  ahead : Token
  scanner : Scanner
  options : List (PCPOption × ℕ)
  deriving DecidableEq

def Frame.left (f : Frame) : ℕ :=
  f.scanner.rest.length + if f.ahead.terminal = .end then 0 else 1

def optionsRule (f : Frame) : Except (Abort Fault) (Frame ⊕ List (PCPOption × ℕ)) :=
  match f.ahead.terminal with
  | .field .optionCode => do
    let (option, ahead, s) ← option o f.items f.ahead.ival.toUInt8 f.scanner
    let f' : Frame := ⟨f.items + 1, ahead, s, f.options⟩
    .ok (.inl { f' with options := f.options ++ [(option, f.left - f'.left)] })
  | .end => do
    reserve (f.items + 1)
    .ok (.inr f.options)
  | _ => .error .syntaxError

variable {o}

theorem shift_ok {f : Field} {s s' : Scanner} {t : Token} (h : shift o f s = .ok (t, s')) :
    yylex o s = .ok (t, s') ∧ t.terminal = .field f := by
  obtain ⟨⟨t', s''⟩, hlex, h⟩ := bind_eq_ok.mp h
  dsimp only at h
  split_ifs at h with hterminal
  cases h
  exact ⟨hlex, hterminal⟩

theorem shift_length {f : Field} {s s' : Scanner} {t : Token} (h : shift o f s = .ok (t, s')) :
    s'.rest.length < s.rest.length := by
  obtain ⟨hlex, hterminal⟩ := shift_ok h
  simpa [hterminal] using yylex_length hlex

theorem dataEnd_length {items : ℕ} {data : OptionData} {d : Option OptionData} {s s' : Scanner}
    {t : Token} (h : dataEnd o items data s = .ok (d, t, s')) :
    s'.rest.length + (if t.terminal = .end then 0 else 1) ≤ s.rest.length := by
  obtain ⟨-, -, h⟩ := bind_eq_ok.mp h
  obtain ⟨⟨t', s''⟩, hlex, h⟩ := bind_eq_ok.mp h
  cases h
  exact yylex_length hlex

theorem optionData_length {items : ℕ} {d : Option OptionData} {s s' : Scanner} {t t' : Token}
    (h : optionData o items t s = .ok (d, t', s')) :
    s'.rest.length + (if t'.terminal = .end then 0 else 1) ≤
      s.rest.length + (if t.terminal = .end then 0 else 1) := by
  unfold optionData at h
  split at h
  case h_2 =>
    obtain ⟨-, -, h⟩ := bind_eq_ok.mp h
    obtain ⟨⟨t₁, s₁⟩, h₁, h⟩ := bind_eq_ok.mp h
    obtain ⟨-, -, h⟩ := bind_eq_ok.mp h
    obtain ⟨⟨t₂, s₂⟩, h₂, h⟩ := bind_eq_ok.mp h
    obtain ⟨-, -, h⟩ := bind_eq_ok.mp h
    obtain ⟨⟨t₃, s₃⟩, h₃, h⟩ := bind_eq_ok.mp h
    have := shift_length h₁
    have := shift_length h₂
    have := shift_length h₃
    have := dataEnd_length h
    omega
  case h_4 =>
    obtain ⟨-, -, h⟩ := bind_eq_ok.mp h
    obtain ⟨⟨t₁, s₁⟩, h₁, h⟩ := bind_eq_ok.mp h
    obtain ⟨-, -, h⟩ := bind_eq_ok.mp h
    obtain ⟨⟨t₂, s₂⟩, h₂, h⟩ := bind_eq_ok.mp h
    obtain ⟨-, -, h⟩ := bind_eq_ok.mp h
    obtain ⟨⟨t₃, s₃⟩, h₃, h⟩ := bind_eq_ok.mp h
    have := shift_length h₁
    have := shift_length h₂
    have := shift_length h₃
    have := dataEnd_length h
    omega
  case h_5 =>
    obtain ⟨-, -, h⟩ := bind_eq_ok.mp h
    obtain ⟨⟨t₁, s₁⟩, h₁, h⟩ := bind_eq_ok.mp h
    have := shift_length h₁
    have := dataEnd_length h
    omega
  case h_12 =>
    obtain ⟨-, -, h⟩ := bind_eq_ok.mp h
    cases h
    exact le_rfl
  all_goals exact (dataEnd_length h).trans (Nat.le_add_right _ _)

theorem option_length {items : ℕ} {code : UInt8} {s s' : Scanner} {t : Token} {p : PCPOption}
    (h : option o items code s = .ok (p, t, s')) :
    s'.rest.length + (if t.terminal = .end then 0 else 1) < s.rest.length := by
  obtain ⟨-, -, h⟩ := bind_eq_ok.mp h
  obtain ⟨⟨reserved, s₁⟩, hreserved, h⟩ := bind_eq_ok.mp h
  obtain ⟨-, -, h⟩ := bind_eq_ok.mp h
  obtain ⟨⟨length, s₂⟩, hlength, h⟩ := bind_eq_ok.mp h
  obtain ⟨-, -, h⟩ := bind_eq_ok.mp h
  obtain ⟨⟨t₃, s₃⟩, hlex, h⟩ := bind_eq_ok.mp h
  obtain ⟨⟨d, t₄, s₄⟩, hdata, h⟩ := bind_eq_ok.mp h
  cases h
  have h₁ := shift_length hreserved
  have h₂ := shift_length hlength
  have h₃ := yylex_length hlex
  have h₄ := optionData_length hdata
  dsimp only at h₁ h₂ h₃ h₄
  omega

theorem optionsRule_left {f f' : Frame} (h : optionsRule o f = .ok (.inl f')) :
    f'.left < f.left := by
  unfold optionsRule at h
  split at h
  · obtain ⟨⟨p, t, s⟩, hoption, h⟩ := bind_eq_ok.mp h
    cases h
    have hlength := option_length hoption
    simp only [Frame.left]
    omega
  · obtain ⟨-, -, h⟩ := bind_eq_ok.mp h
    cases h
  · cases h

variable (o)

def options : Transducer Frame Unit (Except (Abort Fault) (List (PCPOption × ℕ))) where
  step f :=
    match optionsRule o f with
    | .ok (.inl f') => .silent f'
    | .ok (.inr l) => .halt (.ok l)
    | .error e => .halt (.error e)
  rank := Frame.left
  rank_lt f f' h := by
    split at h
    · cases h
      exact optionsRule_left (by assumption)
    · cases h
    · cases h

def parse (datagram : List UInt8) : Except (Abort Fault) Response := do
  let (r, s) ← header o ⟨.initial, datagram, 0, 0, 0, 0, 0⟩
  let (specific, ahead, s) ← opcodeSpecific o s
  let options ← ((options o).run ⟨3, ahead, s, []⟩).2
  .ok { r with specific, options }

end Parse

end ACENetwork.PCP
