import ACENetwork.BitTorrent.Common
import ACENetwork.Library.ByteOrder
import ACENetwork.Library.Glr

/-!
# The PCP scanner

One rule for each field of a response. Which field comes behind the header and behind the
length of an option depends on the opcode and on the code that the actions of the grammar
have stored; the value of the last token stays where the scanner puts the next one.
-/
namespace ACENetwork.PCP
open Library Library.Glr BitTorrent

inductive Field where
  | version
  | opcode
  | reserved
  | resultCode
  | lifetime
  | epochTime
  | reserved2
  | mapNonce
  | mapProtocol
  | mapReserved
  | mapInternalPort
  | mapExternalPort
  | mapExternalAddress
  | peerNonce
  | peerProtocol
  | peerReserved
  | peerInternalPort
  | peerExternalPort
  | peerExternalAddress
  | peerRemotePort
  | peerReserved2
  | peerRemoteAddress
  | authenticationSessionId
  | authenticationSequenceNumber
  | optionCode
  | optionReserved
  | optionLength
  | thirdPartyAddress
  | filterReserved
  | filterPrefixLength
  | filterRemotePeerPort
  | filterRemotePeerAddress
  | nonceNonce
  | authenticationTagSessionId
  | authenticationTagSequenceNumber
  | authenticationTagKeyId
  | authenticationTagData
  | paAuthenticationTagKeyId
  | paAuthenticationTagData
  | eapPayloadData
  | pseudoRandomFunctionId
  | macAlgorithmId
  | sessionLifetimeLifetime
  | receivedPakSequenceNumber
  | idIndicatorData
  deriving DecidableEq, Repr

/-- How a field is read; data of variable size stands behind `fixed` bytes of its option. -/
inductive Kind where
  | octet
  | response
  | bits
  | short
  | long
  | nonce
  | address
  | data (fixed : UInt32)
  deriving DecidableEq, Repr

/-- The width of a match; data is matched by its first byte. -/
def Kind.width : Kind → ℕ
  | octet => 1
  | response => 1
  | bits => 3
  | short => 2
  | long => 4
  | nonce => 12
  | address => 16
  | data _ => 1

namespace Field

def kind : Field → Kind
  | version | reserved | resultCode | mapProtocol | peerProtocol | optionCode | optionReserved
  | filterReserved | filterPrefixLength => .octet
  | opcode => .response
  | mapReserved | peerReserved => .bits
  | mapInternalPort | mapExternalPort | peerInternalPort | peerExternalPort | peerRemotePort
  | peerReserved2 | optionLength | filterRemotePeerPort => .short
  | lifetime | epochTime | authenticationSessionId | authenticationSequenceNumber | nonceNonce
  | authenticationTagSessionId | authenticationTagSequenceNumber | authenticationTagKeyId
  | paAuthenticationTagKeyId | pseudoRandomFunctionId | macAlgorithmId | sessionLifetimeLifetime
  | receivedPakSequenceNumber => .long
  | reserved2 | mapNonce | peerNonce => .nonce
  | mapExternalAddress | peerExternalAddress | peerRemoteAddress | thirdPartyAddress
  | filterRemotePeerAddress => .address
  | authenticationTagData => .data 12
  | paAuthenticationTagData => .data 4
  | eapPayloadData | idIndicatorData => .data 0

def ofOpcode (opcode : UInt8) : Option Field :=
  if opcode = 1 then some mapNonce
  else if opcode = 2 then some peerNonce
  else if opcode = 0 then some optionCode
  else if opcode = 3 then some authenticationSessionId
  else none

def ofCode (code : UInt8) : Option Field :=
  if code = 1 then some thirdPartyAddress
  else if code = 2 then some optionCode
  else if code = 3 then some filterReserved
  else if code = 4 then some nonceNonce
  else if code = 5 then some authenticationTagSessionId
  else if code = 6 then some paAuthenticationTagKeyId
  else if code = 7 then some eapPayloadData
  else if code = 8 then some pseudoRandomFunctionId
  else if code = 9 then some macAlgorithmId
  else if code = 10 then some sessionLifetimeLifetime
  else if code = 11 then some receivedPakSequenceNumber
  else if code = 12 then some idIndicatorData
  else none

/-- The field that is expected behind another one; there is none for an opcode or a code
that is not known. -/
def next (recordOpcode code : UInt8) : Field → Option Field
  | version => some opcode
  | opcode => some reserved
  | reserved => some resultCode
  | resultCode => some lifetime
  | lifetime => some epochTime
  | epochTime => some reserved2
  | reserved2 => ofOpcode recordOpcode
  | mapNonce => some mapProtocol
  | mapProtocol => some mapReserved
  | mapReserved => some mapInternalPort
  | mapInternalPort => some mapExternalPort
  | mapExternalPort => some mapExternalAddress
  | peerNonce => some peerProtocol
  | peerProtocol => some peerReserved
  | peerReserved => some peerInternalPort
  | peerInternalPort => some peerExternalPort
  | peerExternalPort => some peerExternalAddress
  | peerExternalAddress => some peerRemotePort
  | peerRemotePort => some peerReserved2
  | peerReserved2 => some peerRemoteAddress
  | authenticationSessionId => some authenticationSequenceNumber
  | optionCode => some optionReserved
  | optionReserved => some optionLength
  | optionLength => ofCode code
  | filterReserved => some filterPrefixLength
  | filterPrefixLength => some filterRemotePeerPort
  | filterRemotePeerPort => some filterRemotePeerAddress
  | authenticationTagSessionId => some authenticationTagSequenceNumber
  | authenticationTagSequenceNumber => some authenticationTagKeyId
  | authenticationTagKeyId => some authenticationTagData
  | paAuthenticationTagKeyId => some paAuthenticationTagData
  | _ => some optionCode

end Field

inductive Terminal where
  | «end»
  | field (f : Field)
  deriving DecidableEq, Repr

/-- A terminal and its value: the number `ival`, or the bytes of `aval`. -/
structure Token where
  terminal : Terminal
  ival : UInt64 := 0
  data : List UInt8 := []
  deriving DecidableEq, Repr

/-- The start conditions; INITIAL matches a byte without consuming it. -/
inductive Condition where
  | initial
  | field (f : Field)
  | padding
  deriving DecidableEq, Repr

/-- The scanner: its start condition, the bytes that are not matched, the value of the last
token, and what it reads of the record and of the driver. -/
structure Scanner where
  condition : Condition
  rest : List UInt8
  ival : UInt64
  opcode : UInt8
  code : UInt8
  length : UInt16
  padding : ℕ
  deriving DecidableEq

section Rules

variable (o : ByteOrder)

/-- The value of a field. The reserved bytes are added to the value that is there. -/
def Kind.value (ival : UInt64) (text : List UInt8) : Kind → UInt64
  | octet => UInt64.ofNat (o.load text)
  | response => UInt64.ofNat (o.load text) &&& 0x7F
  | bits => ival ||| UInt64.ofNat (decodeBE text)
  | short => UInt64.ofNat (o.loadSwapped text)
  | long => UInt64.ofNat (o.loadSwapped text)
  | nonce => UInt64.ofNat (o.loadSwapped (text.drop 4))
  | address => UInt64.ofNat (o.loadSwapped (text.drop 12))
  | data _ => ival

def fixedRule (f : Field) (s : Scanner) : Except (Abort Fault) (Token × Scanner) :=
  let text := s.rest.take f.kind.width
  if f.kind = .response ∧ o.load text &&& 0x80 = 0 then .error (.fault .assertion)
  else
    let s' := { s with rest := s.rest.drop f.kind.width, ival := f.kind.value o s.ival text }
    match f.next s.opcode s.code with
    | some f' => .ok ({ terminal := .field f, ival := s'.ival }, { s' with condition := .field f' })
    | none => .ok ({ terminal := .end }, s')

/-- The rules of data of variable size: an array for the bytes behind the first one is
allocated, and then the first byte is stored as well. -/
def dataRule (f : Field) (fixed : UInt32) (s : Scanner) :
    Except (Abort Fault) (Token × Scanner) :=
  let bytesToRead := (s.length.toUInt32 - fixed - 1).toNat
  if 1 + bytesToRead ≤ bytesToRead then
    let paddingBytes := s.length.toNat % 4
    let s' := { s with rest := s.rest.drop (1 + bytesToRead) }
    .ok ({ terminal := .field f, data := s.rest.take (1 + bytesToRead) },
      if paddingBytes ≠ 0 then { s' with condition := .padding, padding := 4 - paddingBytes }
      else { s' with condition := .field .optionCode })
  else .error (.fault .bufferOverflow)

/-- The rule of a field. Where fewer bytes are left than it matches, only the last rule of
the scanner matches, whose assertion fails. -/
def fieldRule (f : Field) (s : Scanner) : Except (Abort Fault) (Token × Scanner) :=
  if s.rest = [] then .ok ({ terminal := .end }, s)
  else if f.kind.width ≤ s.rest.length then
    match f.kind with
    | .data fixed => dataRule f fixed s
    | _ => fixedRule o f s
  else .error (.fault .assertion)

/-- `PCP_Scanner_lex`. Padding is skipped in front of the code of an option. -/
def yylex (s : Scanner) : Except (Abort Fault) (Token × Scanner) :=
  match s.condition with
  | .initial => fieldRule o .version s
  | .field f => fieldRule o f s
  | .padding => fieldRule o .optionCode
    { s with rest := s.rest.drop s.padding, padding := 0, condition := .field .optionCode }

end Rules

theorem Kind.width_pos (k : Kind) : 0 < k.width := by
  cases k <;> simp [Kind.width]

/-- The array is always one byte too small. -/
theorem dataRule_overflow {f : Field} {fixed : UInt32} {s : Scanner} :
    dataRule f fixed s = .error (.fault .bufferOverflow) :=
  if_neg (by omega)

variable {o : ByteOrder}

/-- A token other than the end takes bytes away, and the end does not give any back. -/
theorem fieldRule_length {f : Field} {s s' : Scanner} {t : Token}
    (h : fieldRule o f s = .ok (t, s')) :
    s'.rest.length + (if t.terminal = .end then 0 else 1) ≤ s.rest.length := by
  have hpos := f.kind.width_pos
  have hfixed (hwidth : f.kind.width ≤ s.rest.length) (h : fixedRule o f s = .ok (t, s')) :
      s'.rest.length + (if t.terminal = .end then 0 else 1) ≤ s.rest.length := by
    unfold fixedRule at h
    dsimp only at h
    split_ifs at h
    split at h <;> cases h <;> simp
    omega
  unfold fieldRule at h
  split_ifs at h with hnil hwidth
  · cases h
    simp
  · split at h
    · rw [dataRule_overflow] at h
      cases h
    · exact hfixed hwidth h

theorem yylex_length {s s' : Scanner} {t : Token} (h : yylex o s = .ok (t, s')) :
    s'.rest.length + (if t.terminal = .end then 0 else 1) ≤ s.rest.length := by
  unfold yylex at h
  split at h
  · exact fieldRule_length h
  · exact fieldRule_length h
  · exact (fieldRule_length h).trans (by simp)

end ACENetwork.PCP
