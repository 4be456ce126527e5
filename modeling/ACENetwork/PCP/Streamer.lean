import ACENetwork.PCP.Record

/-!
# The PCP encoder

`PCP_Module_Streamer_T::handleDataMessage`: the fields of a record are copied into the
free space of a message, one after the other. Where the space does not suffice, what has
been copied stays in the message.
-/
namespace ACENetwork.PCP
open Library

section Fields

variable (ipv6 : Vector UInt8 16 → UInt32) (o : ByteOrder)

/-- `ACE_INET_Addr::get_ip_address`; `ipv6` is what it makes of an IPv6 address. -/
def Address.ip : Address → UInt32
  | .v4 ip => ip
  | .v6 bytes => ipv6 bytes

def mapAddress (a : Address) : List UInt8 :=
  List.replicate 10 0 ++ [0xFF, 0xFF] ++ o.storeSwapped 4 (a.ip ipv6).toNat

def firstByte (n : UInt32) : List UInt8 := (o.store 4 n.toNat).take 1

def headerFields (r : Record) : List (List UInt8) :=
  [firstByte o r.version, [r.specific.opcode]] ++
  (match r.specific with
    | .announce | .map _ | .peer _ => [o.store 2 0]
    | .authentication _ => [(o.store 2 0).take 1, firstByte o r.resultCode]) ++
  [o.storeSwapped 4 r.lifetime.toNat, mapAddress ipv6 o r.clientAddress]

/-- The fields that MAP and PEER share. The address of the word behind `reserved` is taken
for that of the last three of its bytes, so they are those of the ports. -/
def mapFields (d : MapData) : List (List UInt8) :=
  [List.replicate 4 0 ++ o.storeSwapped 8 d.nonce.toNat, [d.protocol],
    (o.store 2 d.internalPort.toNat ++ o.store 2 d.externalPort.toNat).take 3,
    o.storeSwapped 2 d.internalPort.toNat, o.storeSwapped 2 d.externalPort.toNat,
    mapAddress ipv6 o d.externalAddress]

def specificFields : Specific → List (List UInt8)
  | .announce => []
  | .map d => mapFields ipv6 o d
  | .peer d => mapFields ipv6 o d.toMapData ++
      [o.storeSwapped 2 d.remotePeerPort.toNat, o.store 2 d.reserved2.toNat,
        mapAddress ipv6 o d.remotePeerAddress]
  | .authentication d =>
      [o.storeSwapped 4 d.sessionId.toNat, o.storeSwapped 4 d.sequenceNumber.toNat]

/-- The switch over the code of an option; `length` counts the bytes of the whole data. -/
def dataFields (length : UInt16) : OptionData → List (List UInt8)
  | .thirdParty address => [mapAddress ipv6 o address]
  | .filter reserved prefixLength port address =>
    [[reserved], [prefixLength], o.storeSwapped 2 port.toNat, mapAddress ipv6 o address]
  | .nonce nonce => [o.storeSwapped 4 nonce.toNat]
  | .authenticationTag sessionId sequenceNumber keyId data =>
    [o.storeSwapped 4 sessionId.toNat, o.storeSwapped 4 sequenceNumber.toNat,
      o.storeSwapped 4 keyId.toNat, data.take (length.toNat - 12)]
  | .paAuthenticationTag keyId data =>
    [o.storeSwapped 4 keyId.toNat, data.take (length.toNat - 4)]
  | .eapPayload data => [data.take length.toNat]
  | .pseudoRandomFunction id => [o.storeSwapped 4 id.toNat]
  | .macAlgorithm id => [o.storeSwapped 4 id.toNat]
  | .sessionLifetime lifetime => [o.storeSwapped 4 lifetime.toNat]
  | .receivedPak sequenceNumber => [o.storeSwapped 4 sequenceNumber.toNat]
  | .idIndicator data => [data.take length.toNat]

def optionFields (option : PCPOption) : List (List UInt8) :=
  [firstByte o option.code.toUInt32, [option.reserved], o.storeSwapped 2 option.length.toNat] ++
    (option.data.map (dataFields ipv6 o option.length)).getD []

def messageSize : ℕ := 1100

/-- How the encoder fails: the message is too small to begin with, or it stays incomplete. -/
inductive StreamError where
  | assertion
  | incomplete (written : List UInt8)
  deriving DecidableEq

/-- Successive copies into the space of a message; the first that fails leaves what has
been written. -/
def copyAll (written : List UInt8) (space : ℕ) :
    List (List UInt8) → Except StreamError (List UInt8)
  | [] => .ok written
  | field :: fields =>
    if field.length ≤ space then copyAll (written ++ field) (space - field.length) fields
    else .error (.incomplete written)

def handleDataMessage (capacity : ℕ) (r : Record) : Except StreamError (List UInt8) :=
  if messageSize ≤ capacity then
    copyAll [] capacity (headerFields ipv6 o r ++ specificFields ipv6 o r.specific ++
      r.options.flatMap (optionFields ipv6 o))
  else .error .assertion

end Fields

theorem copyAll_ok_iff {written bytes : List UInt8} {space : ℕ} {fields : List (List UInt8)} :
    copyAll written space fields = .ok bytes ↔
      fields.flatten.length ≤ space ∧ bytes = written ++ fields.flatten := by
  induction fields generalizing written space with
  | nil => simp [copyAll, eq_comm]
  | cons field fields ih =>
    rw [copyAll]
    split_ifs with h
    · rw [ih]
      simp only [List.flatten_cons, List.length_append, List.append_assoc]
      exact and_congr_left fun _ => by omega
    · simp only [false_iff, List.flatten_cons, List.length_append]
      rintro ⟨hle, -⟩
      omega

end ACENetwork.PCP
