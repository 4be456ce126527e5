import ACENetwork.BitTorrent.Wire.Streamer
import ACENetwork.DHCP.Record

/-!
# The DHCP encoder

`DHCP_Module_Streamer_T::handleDataMessage`: the fields of a record are copied into
the free space of a message, the words of several bytes in network byte order. The
two names and the options go through arrays of fixed size.
-/
namespace ACENetwork.DHCP
open Library BitTorrent BitTorrent.Wire

def padded (size : ℕ) (bytes : List UInt8) : List UInt8 :=
  bytes ++ List.replicate (size - bytes.length) 0

def fill (size : ℕ) (bytes : List UInt8) : Except StreamError (List UInt8) :=
  if bytes.length ≤ size then .ok (padded size bytes) else .error (.fault .bufferOverflow)

/-- What the loop over the options puts into `buffer_3`, between the cookie and the end. -/
def optionsField (o : ByteOrder) (options : Options) : Except StreamError (List UInt8) :=
  if options.entries.all fun e => e.2.length ≤ 255 then
    fill optionsSize (o.storeSwapped 4 magicCookie.toNat ++
      options.entries.flatMap optionBytes ++ [optionTagEnd])
  else .error (.fault .assertion)

def handleDataMessage (o : ByteOrder) (capacity : ℕ) (r : Record) :
    Except StreamError (List UInt8) := do
  streamAssert false (messageSize ≤ capacity)
  let b ← Buffer.copyAll ⟨[], capacity⟩
    [(o.store 4 r.op.toNat).take 1, [r.htype], [r.hlen], [r.hops],
      o.storeSwapped 4 r.xid.toNat, o.storeSwapped 2 r.secs.toNat, o.storeSwapped 2 r.flags.toNat,
      o.storeSwapped 4 r.ciaddr.toNat, o.storeSwapped 4 r.yiaddr.toNat,
      o.storeSwapped 4 r.siaddr.toNat, o.storeSwapped 4 r.giaddr.toNat, r.chaddr]
  let b ← b.copy (← fill snameSize r.sname)
  let b ← b.copy (← fill fileSize r.file)
  let b ← b.copy (← optionsField o r.options)
  .ok b.written

/-- A record of the encoder's domain: the operation is request or reply, the fields
fit, and no option is empty or carries a tag without a value. -/
structure Encodable (r : Record) : Prop where
  op : r.op = 1 ∨ r.op = 2
  htype : r.htype ≠ 0
  hlen : r.hlen ≠ 0
  xid : r.xid ≠ 0
  chaddr : r.chaddr.length = chaddrSize
  sname : r.sname.length ≤ snameSize
  file : r.file.length ≤ fileSize
  tags : ∀ e ∈ r.options.entries, e.1 ≠ 0 ∧ e.1 ≠ optionTagEnd
  values : ∀ e ∈ r.options.entries, 1 ≤ e.2.length ∧ e.2.length ≤ 255
  options : 4 + (r.options.entries.flatMap optionBytes).length + 1 ≤ optionsSize

def fieldBytes (r : Record) : Field → List UInt8
  | .op => [UInt8.ofNat r.op.toNat]
  | .htype => [r.htype]
  | .hlen => [r.hlen]
  | .hops => [r.hops]
  | .xid => encodeBE 4 r.xid.toNat
  | .secs => encodeBE 2 r.secs.toNat
  | .flags => encodeBE 2 r.flags.toNat
  | .ciaddr => encodeBE 4 r.ciaddr.toNat
  | .yiaddr => encodeBE 4 r.yiaddr.toNat
  | .siaddr => encodeBE 4 r.siaddr.toNat
  | .giaddr => encodeBE 4 r.giaddr.toNat
  | .chaddr => r.chaddr
  | .sname => padded snameSize r.sname
  | .file => padded fileSize r.file
  | .cookie => encodeBE 4 magicCookie.toNat

def optionsBytes (r : Record) : List UInt8 :=
  r.options.entries.flatMap optionBytes ++ optionTagEnd ::
    List.replicate (optionsSize - (4 + (r.options.entries.flatMap optionBytes).length + 1)) 0

def messageBytes (r : Record) : List UInt8 :=
  fieldBytes r .op ++ (fieldBytes r .htype ++ (fieldBytes r .hlen ++ (fieldBytes r .hops ++
    (fieldBytes r .xid ++ (fieldBytes r .secs ++ (fieldBytes r .flags ++ (fieldBytes r .ciaddr ++
    (fieldBytes r .yiaddr ++ (fieldBytes r .siaddr ++ (fieldBytes r .giaddr ++
    (fieldBytes r .chaddr ++ (fieldBytes r .sname ++ (fieldBytes r .file ++
    (fieldBytes r .cookie ++ optionsBytes r))))))))))))))

theorem padded_length {size : ℕ} {bytes : List UInt8} (h : bytes.length ≤ size) :
    (padded size bytes).length = size := by
  simp [padded, h]

theorem fill_ok {size : ℕ} {bytes : List UInt8} (h : bytes.length ≤ size) :
    fill size bytes = .ok (padded size bytes) := if_pos h

theorem copy_of_le {b : Buffer} {bytes : List UInt8} (h : bytes.length ≤ b.space) :
    b.copy bytes = .ok ⟨b.written ++ bytes, b.space - bytes.length⟩ := if_pos h

theorem copyAll_of_le {b : Buffer} {fields : List (List UInt8)}
    (h : fields.flatten.length ≤ b.space) :
    b.copyAll fields = .ok ⟨b.written ++ fields.flatten, b.space - fields.flatten.length⟩ := by
  induction fields generalizing b with
  | nil => simp [Buffer.copyAll, pure, Except.pure]
  | cons field fields ih =>
    have hlength : field.length + fields.flatten.length ≤ b.space := by simpa using h
    have hcopy : b.copy field = .ok ⟨b.written ++ field, b.space - field.length⟩ :=
      copy_of_le (by omega)
    calc b.copyAll (field :: fields) = (b.copy field >>= fun c => c.copyAll fields) :=
          List.foldlM_cons ..
      _ = Buffer.copyAll ⟨b.written ++ field, b.space - field.length⟩ fields := by rw [hcopy]; rfl
      _ = _ := by
          rw [ih (by simp only; omega)]
          simp [Nat.sub_sub]

theorem fieldBytes_length {r : Record} (h : Encodable r) (f : Field) :
    (fieldBytes r f).length = f.width := by
  cases f with
  | chaddr => exact h.chaddr
  | sname => exact padded_length h.sname
  | file => exact padded_length h.file
  | _ => simp [fieldBytes, Field.width]

/-- The options field is the cookie, the options, the end tag and zeros. -/
theorem optionsField_ok {r : Record} (h : Encodable r) (o : ByteOrder) :
    optionsField o r.options = .ok (fieldBytes r .cookie ++ optionsBytes r) := by
  have hlength : 4 + (r.options.entries.flatMap optionBytes).length + 1 ≤ optionsSize := h.options
  rw [optionsField, if_pos (by simpa using fun a b he => (h.values (a, b) he).2), fill_ok]
  · simp [padded, fieldBytes, optionsBytes]
    omega
  · simp only [ByteOrder.storeSwapped_eq, List.length_append, encodeBE_length, List.length_singleton]
    exact hlength

theorem optionsBytes_length {r : Record} (h : Encodable r) : (optionsBytes r).length = 308 := by
  have hlength : 4 + (r.options.entries.flatMap optionBytes).length + 1 ≤ 312 := h.options
  simp only [optionsBytes, List.length_append, List.length_cons, List.length_replicate, optionsSize]
  omega

/-- What the encoder emits for a record of its domain, on little-endian hosts. -/
theorem handleDataMessage_ok {r : Record} (h : Encodable r) {capacity : ℕ}
    (hcapacity : messageSize ≤ capacity) :
    handleDataMessage .littleEndian capacity r = .ok (messageBytes r) := by
  have hop : (ByteOrder.store .littleEndian 4 r.op.toNat).take 1 = [UInt8.ofNat r.op.toNat] := by
    simp [ByteOrder.store, encodeBE]
  have hspace : 548 ≤ capacity := hcapacity.trans' (by decide)
  have hchaddr : r.chaddr.length = 16 := h.chaddr
  have hsname : (padded snameSize r.sname).length = 64 := padded_length h.sname
  have hfile : (padded fileSize r.file).length = 128 := padded_length h.file
  have hoptions : (fieldBytes r .cookie ++ optionsBytes r).length = 312 := by
    simp [fieldBytes_length h, optionsBytes_length h, Field.width]
  obtain ⟨b, hb, hwritten, hrest⟩ : ∃ b, Buffer.copyAll ⟨[], capacity⟩
      [[UInt8.ofNat r.op.toNat], [r.htype], [r.hlen], [r.hops], encodeBE 4 r.xid.toNat,
        encodeBE 2 r.secs.toNat, encodeBE 2 r.flags.toNat, encodeBE 4 r.ciaddr.toNat,
        encodeBE 4 r.yiaddr.toNat, encodeBE 4 r.siaddr.toNat, encodeBE 4 r.giaddr.toNat,
        r.chaddr] = .ok b ∧
      messageBytes r = b.written ++ (fieldBytes r .sname ++ (fieldBytes r .file ++
        (fieldBytes r .cookie ++ optionsBytes r))) ∧
      b.space = capacity - 44 :=
    ⟨_, copyAll_of_le (by simp [hchaddr]; omega), by simp [messageBytes, fieldBytes], by simp [hchaddr]⟩
  simp only [handleDataMessage, streamAssert, hcapacity, decide_true, aceAssert_true, hop,
    fill_ok h.sname, fill_ok h.file, optionsField_ok h, bind, Except.bind, Except.mapError,
    ByteOrder.storeSwapped_eq, hb]
  rw [copy_of_le (by omega)]
  simp only
  rw [copy_of_le (by simp only; omega)]
  simp only
  rw [copy_of_le (by simp only; omega)]
  simp [hwritten, fieldBytes]

end ACENetwork.DHCP
