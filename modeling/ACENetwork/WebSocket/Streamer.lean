import ACENetwork.HTTP.Streamer
import ACENetwork.Library.Runs
import ACENetwork.WebSocket.Framing

/-!
# The WebSocket streamer

`WebSocket_Module_Streamer_T::handleDataMessage` leaves the first message, which is the handshake,
to the HTTP streamer. It writes every other one as a final frame with a masked payload, and what
the protocol calls for on the other side reads the record back.
-/
namespace ACENetwork.WebSocket.Streamer
open BitTorrent (Fault)
open HTTP (ciKey)
open HTTP.Streamer (Traversal Field Outgoing)
open Library Library.HashTable

/-- What a record holds of a message to be sent; the payload are the octets that its pointer and
its size designate. -/
structure Record extends Outgoing where
  opcode : UInt8 := opcodeInvalid
  payload : Bytes := []
  fits : payload.length < 2 ^ 63 := by decide

def Record.payloadSize (r : Record) : UInt64 := UInt64.ofNat r.payload.length

def octet (n mask shift : ℕ) : UInt8 := UInt8.ofNat ((n &&& mask) >>> shift)

/-- The octet with the mask bit and the length, and what extends the length. -/
def lengthBytes (payloadSize : UInt64) : Bytes :=
  if payloadSize ≤ 125 then [0x80 ||| octet payloadSize.toNat 0x7F 0]
  else if payloadSize ≤ 65535 then
    [0x80 ||| 0x7E, octet payloadSize.toUInt16.toNat 0xFF00 8,
      octet payloadSize.toUInt16.toNat 0x00FF 0]
  else
    [0x80 ||| 0x7F, octet payloadSize.toNat 0xFF00000000000000 56,
      octet payloadSize.toNat 0x00FF000000000000 48, octet payloadSize.toNat 0x0000FF0000000000 40,
      octet payloadSize.toNat 0x000000FF00000000 32, octet payloadSize.toNat 0x00000000FF000000 24,
      octet payloadSize.toNat 0x0000000000FF0000 16, octet payloadSize.toNat 0x000000000000FF00 8,
      octet payloadSize.toNat 0x00000000000000FF 0]

def maskingKey (key : UInt32) : Bytes :=
  [octet key.toNat 0xFF000000 24, octet key.toNat 0x00FF0000 16, octet key.toNat 0x0000FF00 8,
    octet key.toNat 0x000000FF 0]

def headerBytes (r : Record) (key : UInt32) : Bytes :=
  [0x80 ||| r.opcode &&& 0x0F] ++ lengthBytes r.payloadSize ++ maskingKey key

def maskFrom (key : Bytes) : ℕ → Bytes → Bytes
  | _, [] => []
  | i, b :: rest => (b ^^^ key.getD (i % 4) 0) :: maskFrom key (i + 1) rest

structure State where
  handshakeComplete : Bool := false

/-- A record, the masking key that is drawn for it, and the length and the space of the block. -/
structure Message where
  record : Record
  key : UInt32
  length : ℕ := 0
  space : ℕ

section Streamer
variable {hash : Bytes → UInt64} (t : Traversal Field) (c : Comparison ciKey hash)

def handleDataMessage (s : State) (m : Message) : Except Fault (State × Option Bytes) :=
  if s.handshakeComplete = false then
    (HTTP.Streamer.handleDataMessage t c m.record.toOutgoing m.length m.space).map
      fun appended => ({ handshakeComplete := true }, appended)
  else if m.length ≠ 0 then .error .assertion
  else
    let header := headerBytes m.record m.key
    if m.space < header.length then .ok (s, none)
    else if m.record.payloadSize = 0 then .ok (s, some header)
    else
      let payload := maskFrom (maskingKey m.key) 0 m.record.payload
      if m.space - header.length < payload.length then .ok (s, none)
      else .ok (s, some (header ++ payload))

def step (s : State) (m : Message) : Except Fault State := (handleDataMessage t c s m).map Prod.fst

end Streamer

section Decoder

structure Decoded where
  final : Bool
  opcode : UInt8
  form : Form
  payload : Bytes
  deriving DecidableEq

def readLength (second : UInt8) (rest : Bytes) : Option (Form × ℕ × Bytes) :=
  let n := (second &&& 0x7F).toNat
  if n < 126 then some (.short, n, rest)
  else if n = 126 then
    if rest.length < 2 then none else some (.medium, decodeBE (rest.take 2), rest.drop 2)
  else if rest.length < 8 ∨ 2 ^ 63 ≤ decodeBE (rest.take 8) then none
  else some (.long, decodeBE (rest.take 8), rest.drop 8)

def unmask (key payload : Bytes) : Bytes := payload.mapIdx fun i b => b ^^^ key.getD (i % 4) 0

/-- A server takes a masked frame without extensions off its input. -/
def decode : Bytes → Option (Decoded × Bytes)
  | first :: second :: rest =>
    if first &&& 0x70 ≠ 0 ∨ second &&& 0x80 = 0 then none
    else
      (readLength second rest).bind fun (form, length, rest) =>
        if rest.length < 4 + length then none
        else
          let payload := unmask (rest.take 4) ((rest.drop 4).take length)
          some (⟨first &&& 0x80 != 0, first &&& 0x0F, form, payload⟩, rest.drop (4 + length))
  | _ => none

def shortest (length : ℕ) : Form :=
  if length < Form.short.bound then .short
  else if length < Form.medium.bound then .medium
  else .long

end Decoder

section Octets

theorem octet_eq {n mask shift : ℕ} (h : mask = 255 <<< shift) :
    octet n mask shift = UInt8.ofNat (n / 2 ^ shift) := by
  have hlow : 255 = 2 ^ 8 - 1 := rfl
  rw [octet, h, Nat.shiftRight_and_distrib, Nat.shiftLeft_shiftRight, hlow,
    Nat.and_two_pow_sub_one_eq_mod, Nat.shiftRight_eq_div_pow]
  apply UInt8.toNat_inj.mp
  simp

theorem maskingKey_length (key : UInt32) : (maskingKey key).length = 4 := rfl

theorem Record.payloadSize_toNat (r : Record) : r.payloadSize.toNat = r.payload.length := by
  have hfits := r.fits
  have hsize : UInt64.size = 2 ^ 64 := rfl
  rw [Record.payloadSize, UInt64.toNat_ofNat_of_lt']
  omega

theorem encodeBE_two (n : ℕ) : [octet n 0xFF00 8, octet n 0x00FF 0] = encodeBE 2 n := by
  have hhigh : octet n 0xFF00 8 = UInt8.ofNat (n / 2 ^ 8) := octet_eq (by decide)
  have hlow : octet n 0x00FF 0 = UInt8.ofNat (n / 2 ^ 0) := octet_eq (by decide)
  rw [hhigh, hlow]
  simp [encodeBE]

theorem encodeBE_eight (n : ℕ) :
    [octet n 0xFF00000000000000 56, octet n 0x00FF000000000000 48,
      octet n 0x0000FF0000000000 40, octet n 0x000000FF00000000 32,
      octet n 0x00000000FF000000 24, octet n 0x0000000000FF0000 16,
      octet n 0x000000000000FF00 8, octet n 0x00000000000000FF 0] = encodeBE 8 n := by
  have hseven : octet n 0xFF00000000000000 56 = UInt8.ofNat (n / 2 ^ 56) := octet_eq (by decide)
  have hsix : octet n 0x00FF000000000000 48 = UInt8.ofNat (n / 2 ^ 48) := octet_eq (by decide)
  have hfive : octet n 0x0000FF0000000000 40 = UInt8.ofNat (n / 2 ^ 40) := octet_eq (by decide)
  have hfour : octet n 0x000000FF00000000 32 = UInt8.ofNat (n / 2 ^ 32) := octet_eq (by decide)
  have hthree : octet n 0x00000000FF000000 24 = UInt8.ofNat (n / 2 ^ 24) := octet_eq (by decide)
  have htwo : octet n 0x0000000000FF0000 16 = UInt8.ofNat (n / 2 ^ 16) := octet_eq (by decide)
  have hone : octet n 0x000000000000FF00 8 = UInt8.ofNat (n / 2 ^ 8) := octet_eq (by decide)
  have hzero : octet n 0x00000000000000FF 0 = UInt8.ofNat (n / 2 ^ 0) := octet_eq (by decide)
  rw [hseven, hsix, hfive, hfour, hthree, htwo, hone, hzero]
  simp [encodeBE]

theorem shortest_short {length : ℕ} (h : length ≤ 125) : shortest length = .short :=
  if_pos (Nat.lt_succ_of_le h)

theorem shortest_medium {length : ℕ} (h : 125 < length) (h' : length ≤ 65535) :
    shortest length = .medium := by
  have hshort : ¬ length < Form.short.bound := Nat.not_lt.mpr h
  have hmedium : length < Form.medium.bound := Nat.lt_succ_of_le h'
  rw [shortest, if_neg hshort, if_pos hmedium]

theorem shortest_long {length : ℕ} (h : 65535 < length) : shortest length = .long := by
  have hshort : ¬ length < Form.short.bound := Nat.not_lt.mpr ((by decide : 126 ≤ 65536).trans h)
  have hmedium : ¬ length < Form.medium.bound := Nat.not_lt.mpr h
  rw [shortest, if_neg hshort, if_neg hmedium]

theorem readLength_lengthBytes (r : Record) (rest : Bytes) :
    ∃ second extension, lengthBytes r.payloadSize = second :: extension ∧ second &&& 0x80 ≠ 0 ∧
      readLength second (extension ++ rest) =
        some (shortest r.payload.length, r.payload.length, rest) := by
  have hsize := r.payloadSize_toNat
  have hfits := r.fits
  rw [lengthBytes]
  by_cases hshort : r.payloadSize ≤ 125
  · have hle : r.payload.length ≤ 125 := by
      rw [← hsize]
      exact UInt64.le_iff_toNat_le.mp hshort
    have hoctet : octet r.payloadSize.toNat 0x7F 0 = UInt8.ofNat r.payload.length := by
      have hmask : 0x7F = 2 ^ 7 - 1 := rfl
      rw [octet, hsize, hmask, Nat.and_two_pow_sub_one_eq_mod, Nat.shiftRight_zero,
        Nat.mod_eq_of_lt (by omega)]
    have hbits : ∀ n < 126, (0x80 ||| UInt8.ofNat n) &&& 0x80 ≠ 0 ∧
        ((0x80 ||| UInt8.ofNat n) &&& 0x7F).toNat = n := by decide +kernel
    obtain ⟨hmasked, hlength⟩ := hbits r.payload.length (by omega)
    refine ⟨_, [], if_pos hshort, ?_⟩
    rw [hoctet]
    refine ⟨hmasked, ?_⟩
    rw [readLength, hlength, if_pos (by omega), shortest_short hle]
    rfl
  have hnot : 125 < r.payload.length := by
    rw [← hsize]
    exact UInt64.lt_iff_toNat_lt.mp (UInt64.not_le.mp hshort)
  rw [if_neg hshort]
  by_cases hmedium : r.payloadSize ≤ 65535
  · have hle : r.payload.length ≤ 65535 := by
      rw [← hsize]
      exact UInt64.le_iff_toNat_le.mp hmedium
    have hword : r.payloadSize.toUInt16.toNat = r.payload.length := by
      rw [UInt64.toNat_toUInt16, hsize, Nat.mod_eq_of_lt (by omega)]
    refine ⟨0x80 ||| 0x7E, encodeBE 2 r.payload.length, ?_, by decide, ?_⟩
    · rw [if_pos hmedium, hword, ← encodeBE_two]
    · have hseven : ((0x80 ||| 0x7E : UInt8) &&& 0x7F).toNat = 126 := by decide
      have htake : (encodeBE 2 r.payload.length ++ rest).take 2 = encodeBE 2 r.payload.length :=
        List.take_left' (encodeBE_length 2 _)
      have hdrop : (encodeBE 2 r.payload.length ++ rest).drop 2 = rest :=
        List.drop_left' (encodeBE_length 2 _)
      have hroom : ¬ (encodeBE 2 r.payload.length ++ rest).length < 2 := by
        rw [List.length_append, encodeBE_length]
        omega
      rw [readLength, hseven, if_neg (by decide), if_pos rfl, if_neg hroom, htake, hdrop,
        decodeBE_encodeBE_of_lt (by omega), shortest_medium hnot hle]
  · have hlong : 65535 < r.payload.length := by
      rw [← hsize]
      exact UInt64.lt_iff_toNat_lt.mp (UInt64.not_le.mp hmedium)
    refine ⟨0x80 ||| 0x7F, encodeBE 8 r.payload.length, ?_, by decide, ?_⟩
    · rw [if_neg hmedium, hsize, ← encodeBE_eight]
    · have hseven : ((0x80 ||| 0x7F : UInt8) &&& 0x7F).toNat = 127 := by decide
      have htake : (encodeBE 8 r.payload.length ++ rest).take 8 = encodeBE 8 r.payload.length :=
        List.take_left' (encodeBE_length 8 _)
      have hdrop : (encodeBE 8 r.payload.length ++ rest).drop 8 = rest :=
        List.drop_left' (encodeBE_length 8 _)
      have hvalue : decodeBE (encodeBE 8 r.payload.length) = r.payload.length :=
        decodeBE_encodeBE_of_lt (by omega)
      have hroom : ¬ ((encodeBE 8 r.payload.length ++ rest).length < 8 ∨
          2 ^ 63 ≤ r.payload.length) := by
        rw [List.length_append, encodeBE_length]
        omega
      rw [readLength, hseven, if_neg (by decide), if_neg (by decide), htake, hvalue,
        if_neg hroom, hdrop, shortest_long hlong]

end Octets

section Masking

theorem maskFrom_length (key : Bytes) (i : ℕ) (payload : Bytes) :
    (maskFrom key i payload).length = payload.length := by
  induction payload generalizing i with
  | nil => rfl
  | cons b rest ih => rw [maskFrom, List.length_cons, List.length_cons, ih]

theorem maskFrom_eq (key : Bytes) (i : ℕ) (payload : Bytes) :
    maskFrom key i payload = payload.mapIdx fun j b => b ^^^ key.getD ((i + j) % 4) 0 := by
  induction payload generalizing i with
  | nil => rfl
  | cons b rest ih =>
    rw [maskFrom, ih, List.mapIdx_cons]
    simp only [Nat.add_zero, Nat.add_assoc, Nat.add_comm 1]

theorem unmask_maskFrom (key payload : Bytes) : unmask key (maskFrom key 0 payload) = payload := by
  rw [maskFrom_eq]
  apply List.ext_getElem
  · simp [unmask]
  · intro i _ _
    simp [unmask]

end Masking

section Frame

def frameBytes (r : Record) (key : UInt32) : Bytes :=
  headerBytes r key ++ maskFrom (maskingKey key) 0 r.payload

/-- A server reads the record back from its frame, in front of anything else. -/
theorem decode_frameBytes (r : Record) (key : UInt32) (rest : Bytes) (hopcode : r.opcode < 16) :
    decode (frameBytes r key ++ rest) =
      some (⟨true, r.opcode, shortest r.payload.length, r.payload⟩, rest) := by
  have hfirst : ∀ b : UInt8, b < 16 → (0x80 ||| b &&& 0x0F) &&& 0x70 = 0 ∧
      ((0x80 ||| b &&& 0x0F) &&& 0x80 != 0) = true ∧ (0x80 ||| b &&& 0x0F) &&& 0x0F = b := by
    decide +kernel
  obtain ⟨hreserved, hfinal, hcode⟩ := hfirst r.opcode hopcode
  have hmask : (maskFrom (maskingKey key) 0 r.payload).length = r.payload.length :=
    maskFrom_length _ _ _
  obtain ⟨second, extension, hlength, hmasked, hread⟩ :=
    readLength_lengthBytes r (maskingKey key ++ (maskFrom (maskingKey key) 0 r.payload ++ rest))
  have hframe : frameBytes r key ++ rest = (0x80 ||| r.opcode &&& 0x0F) :: second ::
      (extension ++ (maskingKey key ++ (maskFrom (maskingKey key) 0 r.payload ++ rest))) := by
    rw [frameBytes, headerBytes, hlength]
    simp only [List.append_assoc, List.cons_append, List.nil_append]
  have htake : (maskingKey key ++ (maskFrom (maskingKey key) 0 r.payload ++ rest)).take 4 =
      maskingKey key := List.take_left' (maskingKey_length key)
  have hdrop : (maskingKey key ++ (maskFrom (maskingKey key) 0 r.payload ++ rest)).drop 4 =
      maskFrom (maskingKey key) 0 r.payload ++ rest := List.drop_left' (maskingKey_length key)
  have hroom : ¬ (maskingKey key ++ (maskFrom (maskingKey key) 0 r.payload ++ rest)).length <
      4 + r.payload.length := by
    rw [List.length_append, List.length_append, maskingKey_length, hmask]
    omega
  rw [hframe, decode, if_neg (by simp [hreserved, hmasked]), hread, Option.bind_some]
  dsimp only
  rw [if_neg hroom, htake, hdrop, ← List.drop_drop, hdrop, List.take_left' hmask,
    List.drop_left' hmask, unmask_maskFrom, hfinal, hcode]

end Frame

section Results
variable {hash : Bytes → UInt64} {t : Traversal Field} {c : Comparison ciKey hash} {s s' : State}

theorem maskFrom_eq_nil {r : Record} {key : Bytes} (h : r.payloadSize = 0) :
    maskFrom key 0 r.payload = [] := by
  have hsize := r.payloadSize_toNat
  rw [h] at hsize
  have hnil : r.payload = [] := List.eq_nil_of_length_eq_zero hsize.symm
  rw [hnil, maskFrom]

/-- Once the handshake is complete, a frame is appended if there is room for it. -/
theorem handleDataMessage_complete (hcomplete : s.handshakeComplete = true) {m : Message}
    (hlength : m.length = 0) :
    handleDataMessage t c s m =
      .ok (s, if m.space < (frameBytes m.record m.key).length then none
        else some (frameBytes m.record m.key)) := by
  rw [handleDataMessage, if_neg (by simp [hcomplete]), if_neg (by simp [hlength])]
  dsimp only
  have hframe : (frameBytes m.record m.key).length = (headerBytes m.record m.key).length +
      (maskFrom (maskingKey m.key) 0 m.record.payload).length := List.length_append
  by_cases hheader : m.space < (headerBytes m.record m.key).length
  · rw [if_pos hheader, if_pos (by omega)]
  rw [if_neg hheader]
  by_cases hzero : m.record.payloadSize = 0
  · rw [maskFrom_eq_nil hzero, List.length_nil] at hframe
    rw [if_pos hzero, if_neg (by omega), frameBytes, maskFrom_eq_nil hzero, List.append_nil]
  rw [if_neg hzero]
  by_cases hpayload : m.space - (headerBytes m.record m.key).length <
      (maskFrom (maskingKey m.key) 0 m.record.payload).length
  · rw [if_pos hpayload, if_pos (by omega)]
  · rw [if_neg hpayload, if_neg (by omega)]
    rfl

theorem step_complete {m : Message} (h : step t c s m = .ok s') : s'.handshakeComplete = true := by
  unfold step handleDataMessage at h
  by_cases hcomplete : s.handshakeComplete = false
  · rw [if_pos hcomplete] at h
    cases hsent : HTTP.Streamer.handleDataMessage t c m.record.toOutgoing m.length m.space with
    | error fault =>
      rw [hsent] at h
      cases h
    | ok appended =>
      rw [hsent] at h
      cases h
      rfl
  · rw [if_neg hcomplete] at h
    have hkept : s' = s := by
      dsimp only at h
      split_ifs at h <;> cases h <;> rfl
    rw [hkept]
    exact Bool.eq_true_of_not_eq_false hcomplete

theorem run_complete {history : List Message} (hhistory : history ≠ [])
    (h : Runs.run (step t c) s history = .ok s') : s'.handshakeComplete = true := by
  induction history generalizing s with
  | nil => exact absurd rfl hhistory
  | cons m rest ih =>
    obtain ⟨next, hnext, hrest⟩ := Runs.run_cons_ok.mp h
    cases rest with
    | nil =>
      obtain rfl : next = s' := by simpa using hrest
      exact step_complete hnext
    | cons m' rest => exact ih (List.cons_ne_nil _ _) hrest

/-- Behind the first message, a record is either too long for its block and not passed on, or read
back from the frame that is appended. -/
theorem decode_handleDataMessage (t : Traversal Field) (c : Comparison ciKey hash)
    (history : List Message) (s : State) (hhistory : history ≠ [])
    (hrun : Runs.run (step t c) {} history = .ok s) (m : Message) (hlength : m.length = 0)
    (hopcode : m.record.opcode < 16) :
    (m.space < (frameBytes m.record m.key).length ∧ handleDataMessage t c s m = .ok (s, none)) ∨
      ∃ bytes, handleDataMessage t c s m = .ok (s, some bytes) ∧
        decode bytes = some (⟨true, m.record.opcode, shortest m.record.payload.length,
          m.record.payload⟩, []) := by
  rw [handleDataMessage_complete (run_complete hhistory hrun) hlength]
  by_cases hspace : m.space < (frameBytes m.record m.key).length
  · exact .inl ⟨hspace, by rw [if_pos hspace]⟩
  · refine .inr ⟨frameBytes m.record m.key, by rw [if_neg hspace], ?_⟩
    have hdecode := decode_frameBytes m.record m.key [] hopcode
    rwa [List.append_nil] at hdecode

def sampleHandshake : Message where
  record := { method := .get, uri := text "/", version := .v1_1 }
  key := 0
  space := 64

def sampleText : Message where
  record := { opcode := 1, payload := [0x48, 0x69] }
  key := 0x01020304
  space := 64

theorem decode_sampleText :
    ∃ bytes, handleDataMessage (.insertion Field) HTTP.Streamer.uniform ⟨true⟩ sampleText =
        .ok (⟨true⟩, some bytes) ∧
      decode bytes = some (⟨true, 1, .short, [0x48, 0x69]⟩, []) := by
  have hrun : Runs.run (step (.insertion Field) HTTP.Streamer.uniform) {} [sampleHandshake] =
      .ok ⟨true⟩ := rfl
  rcases decode_handleDataMessage (.insertion Field) HTTP.Streamer.uniform [sampleHandshake] ⟨true⟩
    (List.cons_ne_nil _ _) hrun sampleText rfl (by decide) with ⟨hspace, -⟩ | hbytes
  · exact absurd hspace (by decide)
  · exact hbytes

/-- The first message is written as a head of HTTP, which is no frame. -/
theorem not_decode_first :
    ∃ bytes, handleDataMessage (.insertion Field) HTTP.Streamer.uniform {}
        { sampleText with record := { sampleHandshake.record with opcode := 1 } } =
        .ok (⟨true⟩, some bytes) ∧ decode bytes = none := by
  refine ⟨text "GET / HTTP/1.1" ++ HTTP.Streamer.crlf ++ HTTP.Streamer.crlf, ?_, ?_⟩
  · rfl
  · decide +kernel

end Results

end ACENetwork.WebSocket.Streamer
