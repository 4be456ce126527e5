import ACENetwork.Library.ByteOrder

/-!
# PCP records

`PCP_Record`: the header of a message, the data of its opcode and its options. The
unions of the source are sums; an option whose data has not been assigned has none.
-/
namespace ACENetwork.PCP

/-- `ACE_INET_Addr`, less the port: an IPv4 address in the byte order of the host, or the
bytes of an IPv6 address. -/
inductive Address where
  | v4 (ip : UInt32)
  | v6 (bytes : Vector UInt8 16)
  deriving DecidableEq

structure MapData where
  nonce : UInt64
  protocol : UInt8
  reserved : UInt32
  internalPort : UInt16
  externalPort : UInt16
  externalAddress : Address
  deriving DecidableEq

structure PeerData extends MapData where
  remotePeerPort : UInt16
  reserved2 : UInt16
  remotePeerAddress : Address
  deriving DecidableEq

structure AuthenticationData where
  sessionId : UInt32
  sequenceNumber : UInt32
  deriving DecidableEq

inductive Specific where
  | announce
  | map (data : MapData)
  | peer (data : PeerData)
  | authentication (data : AuthenticationData)
  deriving DecidableEq

def Specific.opcode : Specific → UInt8
  | .announce => 0
  | .map _ => 1
  | .peer _ => 2
  | .authentication _ => 3

inductive OptionData where
  | thirdParty (address : Address)
  | filter (reserved prefixLength : UInt8) (remotePeerPort : UInt16) (remotePeerAddress : Address)
  | nonce (nonce : UInt32)
  | authenticationTag (sessionId sequenceNumber keyId : UInt32) (data : List UInt8)
  | paAuthenticationTag (keyId : UInt32) (data : List UInt8)
  | eapPayload (data : List UInt8)
  | pseudoRandomFunction (id : UInt32)
  | macAlgorithm (id : UInt32)
  | sessionLifetime (lifetime : UInt32)
  | receivedPak (sequenceNumber : UInt32)
  | idIndicator (data : List UInt8)
  deriving DecidableEq

/-- `PCPOption`; the codes are those of `PCP_Codes::OptionType`. -/
structure PCPOption where
  code : UInt8
  reserved : UInt8
  length : UInt16
  data : Option OptionData
  deriving DecidableEq

def OptionData.code : OptionData → UInt8
  | .thirdParty _ => 1
  | .filter .. => 3
  | .nonce _ => 4
  | .authenticationTag .. => 5
  | .paAuthenticationTag .. => 6
  | .eapPayload _ => 7
  | .pseudoRandomFunction _ => 8
  | .macAlgorithm _ => 9
  | .sessionLifetime _ => 10
  | .receivedPak _ => 11
  | .idIndicator _ => 12

def OptionData.size : OptionData → ℕ
  | .thirdParty _ => 16
  | .filter .. => 20
  | .authenticationTag _ _ _ data => 12 + data.length
  | .paAuthenticationTag _ data => 4 + data.length
  | .eapPayload data => data.length
  | .idIndicator data => data.length
  | _ => 4

/-- A supported option: PREFER_FAILURE has no data, and the length of any option is that
of its data. -/
def PCPOption.Supported (option : PCPOption) : Prop :=
  match option.data with
  | none => option.code = 2 ∧ option.length = 0
  | some data => option.code = data.code ∧ option.length.toNat = data.size

/-- `PCP_Record`, as far as it is sent: the version and the result code are the words of
their enumerations. -/
structure Record where
  version : UInt32
  resultCode : UInt32
  lifetime : UInt32
  clientAddress : Address
  specific : Specific
  options : List PCPOption
  deriving DecidableEq

end ACENetwork.PCP
