import ACENetwork.DHCP.Streamer

/-!
# The arrays of the DHCP encoder

The server name, the file and the options go through arrays of 64, 128 and 312 bytes.
Nothing compares a length with the size of its array before the bytes are copied, so
an encoding stays within the arrays exactly when the three parts fit.
-/
namespace ACENetwork.DHCP
open Library BitTorrent BitTorrent.Wire

/-- What goes into the array of the options: the cookie, every option and the end. -/
def areaLength (options : Options) : ℕ := 4 + (options.entries.flatMap optionBytes).length + 1

/-- The three parts fit into their arrays. -/
structure Fits (r : Record) : Prop where
  sname : r.sname.length ≤ snameSize
  file : r.file.length ≤ fileSize
  options : areaLength r.options ≤ optionsSize

/-- The layout that the decoder expects: both names with their zeros, the cookie, the
options, the end and zeros, each at its place. -/
structure FixedLayout (r : Record) (bytes : List UInt8) : Prop where
  length : bytes.length = 548
  sname : (bytes.drop 44).take snameSize = padded snameSize r.sname
  file : (bytes.drop 108).take fileSize = padded fileSize r.file
  options : bytes.drop 236 = encodeBE 4 magicCookie.toNat ++ optionsBytes r

/-- An encoding that copies nothing past an array: it stops with an error, or the message
has its layout. -/
def StaysWithin (o : ByteOrder) (capacity : ℕ) (r : Record) : Prop :=
  match handleDataMessage o capacity r with
  | .ok bytes => FixedLayout r bytes
  | .error e => e ≠ .fault .bufferOverflow

section Encoder

variable {o : ByteOrder} {capacity : ℕ} {r : Record}

theorem fill_overflow {size : ℕ} {bytes : List UInt8} (h : ¬ bytes.length ≤ size) :
    fill size bytes = .error (.fault .bufferOverflow) := if_neg h

theorem optionsField_eq {options : Options} (hvalues : ∀ e ∈ options.entries, e.2.length ≤ 255) :
    optionsField o options = fill optionsSize (encodeBE 4 magicCookie.toNat ++
      options.entries.flatMap optionBytes ++ [optionTagEnd]) := by
  rw [optionsField, if_pos (by simpa using fun a b he => hvalues (a, b) he), ByteOrder.storeSwapped_eq]

def headBytes (o : ByteOrder) (r : Record) : List UInt8 :=
  [(o.store 4 r.op.toNat).take 1, [r.htype], [r.hlen], [r.hops],
    o.storeSwapped 4 r.xid.toNat, o.storeSwapped 2 r.secs.toNat, o.storeSwapped 2 r.flags.toNat,
    o.storeSwapped 4 r.ciaddr.toNat, o.storeSwapped 4 r.yiaddr.toNat,
    o.storeSwapped 4 r.siaddr.toNat, o.storeSwapped 4 r.giaddr.toNat, r.chaddr].flatten

theorem headBytes_length (hchaddr : r.chaddr.length = chaddrSize) : (headBytes o r).length = 44 := by
  simp [headBytes, hchaddr, chaddrSize]

/-- With the space for a message, the encoder is the three arrays behind the head. -/
theorem handleDataMessage_eq (hchaddr : r.chaddr.length = chaddrSize)
    (hcapacity : messageSize ≤ capacity) :
    handleDataMessage o capacity r = (do
      let sname ← fill snameSize r.sname
      let b ← Buffer.copy ⟨headBytes o r, capacity - 44⟩ sname
      let b ← b.copy (← fill fileSize r.file)
      let b ← b.copy (← optionsField o r.options)
      .ok b.written) := by
  have hspace : 576 ≤ capacity := hcapacity
  have hlength : (headBytes o r).length = 44 := headBytes_length hchaddr
  have hcopies := @copyAll_of_le ⟨[], capacity⟩ _ (by
    change (headBytes o r).length ≤ capacity
    omega)
  change _ = Except.ok (Buffer.mk (headBytes o r) (capacity - (headBytes o r).length)) at hcopies
  rw [hlength] at hcopies
  simp only [handleDataMessage, streamAssert, hcapacity, decide_true, aceAssert_true, hcopies,
    bind, Except.bind, Except.mapError]

theorem handleDataMessage_fits (hchaddr : r.chaddr.length = chaddrSize)
    (hvalues : ∀ e ∈ r.options.entries, e.2.length ≤ 255) (hcapacity : messageSize ≤ capacity)
    (h : Fits r) :
    handleDataMessage o capacity r = .ok (headBytes o r ++ padded snameSize r.sname ++
      padded fileSize r.file ++ (encodeBE 4 magicCookie.toNat ++ optionsBytes r)) := by
  have hspace : 576 ≤ capacity := hcapacity
  have hsname : (padded snameSize r.sname).length = 64 := padded_length h.sname
  have hfile : (padded fileSize r.file).length = 128 := padded_length h.file
  have harea : 4 + (r.options.entries.flatMap optionBytes).length + 1 ≤ 312 := h.options
  have hoptions : optionsField o r.options =
      .ok (encodeBE 4 magicCookie.toNat ++ optionsBytes r) := by
    rw [optionsField_eq hvalues, fill_ok]
    · simp [padded, optionsBytes]
      omega
    · simp only [List.length_append, encodeBE_length, List.length_singleton]
      exact h.options
  have hlength : (encodeBE 4 magicCookie.toNat ++ optionsBytes r).length = 312 := by
    simp only [optionsBytes, List.length_append, List.length_cons, List.length_replicate,
      encodeBE_length, optionsSize]
    omega
  simp only [handleDataMessage_eq hchaddr hcapacity, fill_ok h.sname, fill_ok h.file, hoptions,
    bind, Except.bind]
  rw [copy_of_le (by simp only; omega)]
  simp only
  rw [copy_of_le (by simp only; omega)]
  simp only
  rw [copy_of_le (by simp only; omega)]

theorem fixedLayout (hchaddr : r.chaddr.length = chaddrSize) (h : Fits r) :
    FixedLayout r (headBytes o r ++ padded snameSize r.sname ++
      padded fileSize r.file ++ (encodeBE 4 magicCookie.toNat ++ optionsBytes r)) := by
  have hhead : (headBytes o r).length = 44 := headBytes_length hchaddr
  have hsname : (padded snameSize r.sname).length = snameSize := padded_length h.sname
  have hfile : (padded fileSize r.file).length = fileSize := padded_length h.file
  have harea : 4 + (r.options.entries.flatMap optionBytes).length + 1 ≤ 312 := h.options
  constructor
  · simp only [List.length_append, hhead, hsname, hfile, encodeBE_length, optionsBytes,
      List.length_cons, List.length_replicate]
    simp only [snameSize, fileSize, optionsSize]
    omega
  · rw [List.append_assoc, List.append_assoc, List.drop_left' hhead, List.take_left' hsname]
  · rw [List.append_assoc, List.drop_left' (by rw [List.length_append, hhead, hsname]; rfl), List.take_left' hfile]
  · rw [List.drop_left' (by simp only [List.length_append, hhead, hsname, hfile]; rfl)]

/-- A part that does not fit overflows its array before anything is reported. -/
theorem handleDataMessage_overflow (hchaddr : r.chaddr.length = chaddrSize)
    (hvalues : ∀ e ∈ r.options.entries, e.2.length ≤ 255) (hcapacity : messageSize ≤ capacity)
    (h : ¬ Fits r) : handleDataMessage o capacity r = .error (.fault .bufferOverflow) := by
  have hspace : 576 ≤ capacity := hcapacity
  rw [handleDataMessage_eq hchaddr hcapacity]
  by_cases hsname : r.sname.length ≤ snameSize
  · have hsnameLength : (padded snameSize r.sname).length = 64 := padded_length hsname
    simp only [fill_ok hsname, bind, Except.bind]
    rw [copy_of_le (by simp only; omega)]
    by_cases hfile : r.file.length ≤ fileSize
    · have hfileLength : (padded fileSize r.file).length = 128 := padded_length hfile
      have harea : ¬ areaLength r.options ≤ optionsSize := fun harea => h ⟨hsname, hfile, harea⟩
      have hoptions : optionsField o r.options = .error (.fault .bufferOverflow) := by
        rw [optionsField_eq hvalues, fill_overflow]
        simp only [List.length_append, encodeBE_length, List.length_singleton]
        exact harea
      simp only [fill_ok hfile]
      rw [copy_of_le (by simp only; omega)]
      simp only [hoptions]
    · simp only [fill_overflow hfile]
  · simp only [fill_overflow hsname, bind, Except.bind]

/-- For every record whose values have at most 255 bytes, the encoder stays within its
arrays exactly when the parts fit, or its first assertion fails. -/
theorem staysWithin_iff (hchaddr : r.chaddr.length = chaddrSize)
    (hvalues : ∀ e ∈ r.options.entries, e.2.length ≤ 255) :
    StaysWithin o capacity r ↔ capacity < messageSize ∨ Fits r := by
  by_cases hcapacity : messageSize ≤ capacity
  · by_cases h : Fits r
    · simp only [StaysWithin, handleDataMessage_fits hchaddr hvalues hcapacity h]
      exact ⟨fun _ => .inr h, fun _ => fixedLayout hchaddr h⟩
    · simp only [StaysWithin, handleDataMessage_overflow hchaddr hvalues hcapacity h]
      constructor
      · intro hne
        exact absurd rfl hne
      · rintro (hlt | hfits)
        · omega
        · exact absurd hfits h
  · have hfail : handleDataMessage o capacity r = .error (.fault .assertion) := by
      simp [handleDataMessage, streamAssert, hcapacity, aceAssert, bind, Except.bind, Except.mapError]
    simp only [StaysWithin, hfail]
    exact ⟨fun _ => .inl (by omega), fun _ => by simp⟩

end Encoder

def longName : Record := { sname := List.replicate 65 0x61 }

def longOptions : Record :=
  { options := ⟨[(12, List.replicate 200 0x61), (15, List.replicate 200 0x62)], by simp⟩ }

theorem longOptions_values : ∀ e ∈ longOptions.options.entries, e.2.length ≤ 255 := by
  simp only [longOptions, List.forall_mem_cons, List.length_replicate]
  simp

theorem staysWithin_longOptions :
    StaysWithin .littleEndian 576 longOptions ↔ 576 < messageSize ∨ Fits longOptions :=
  staysWithin_iff (by decide) longOptions_values

/-- The long name is copied past its array, and so are the long options past theirs. -/
theorem not_staysWithin :
    ¬ StaysWithin .littleEndian 576 longName ∧ ¬ StaysWithin .littleEndian 576 longOptions := by
  have hname : handleDataMessage .littleEndian 576 longName = .error (.fault .bufferOverflow) :=
    handleDataMessage_overflow (by decide) (fun _ he => by cases he) (by decide)
      fun h => absurd h.sname (by decide)
  have hoptions : handleDataMessage .littleEndian 576 longOptions =
      .error (.fault .bufferOverflow) :=
    handleDataMessage_overflow (by decide) longOptions_values (by decide)
      fun h => absurd h.options (by
        simp only [longOptions, areaLength, optionBytes, List.flatMap_cons, List.flatMap_nil,
          List.length_append, List.length_cons, List.length_replicate]
        decide)
  simp [StaysWithin, hname, hoptions]

end ACENetwork.DHCP
