import ACENetwork.DHCP.Parser
import ACENetwork.DHCP.Streamer

/-!
# Decoding encoded DHCP records

On a little-endian host the parser accepts what the encoder emits, with the option
map and the plain fields of the record. The fields it does not swap come back with
their bytes reversed, and the accept at the end of the options leaves the cookie
unassigned.
-/
namespace ACENetwork.DHCP
open Library Library.Glr BitTorrent BitTorrent.Wire

def misread (r : Record) : Record :=
  { r with
    secs := swapWord r.secs, flags := swapWord r.flags
    ciaddr := swapLong r.ciaddr, yiaddr := swapLong r.yiaddr
    siaddr := swapLong r.siaddr, giaddr := swapLong r.giaddr
    sname := cString r.sname, file := cString r.file, cookie := 0 }

section Shift

variable {o : ByteOrder} {f : Field} {text rest : List UInt8}

theorem yylex_field (hwidth : text.length = f.width)
    (hcheck : f.checked = true → (f.token o text).ival ≠ 0) :
    yylex o ⟨.field f, text ++ rest⟩ = .ok (f.token o text, ⟨f.next, rest⟩) := by
  have hpos := f.width_pos
  have hrule : fieldRule o f (text ++ rest) = .ok (f.token o text, ⟨f.next, rest⟩) := by
    rw [fieldRule, if_pos (by simp [hwidth]), ← hwidth, List.take_left, List.drop_left]
    simpa using hcheck
  obtain ⟨b, text, rfl⟩ := List.exists_cons_of_length_pos (hwidth ▸ hpos)
  exact hrule

theorem shift_field (hwidth : text.length = f.width)
    (hcheck : f.checked = true → (f.token o text).ival ≠ 0) :
    shift o f ⟨.field f, text ++ rest⟩ = .ok (f.token o text, ⟨f.next, rest⟩) := by
  simp [shift, yylex_field hwidth hcheck, bind, Except.bind]

/-- The first two start conditions are passed with the first byte. -/
theorem shift_initial {b : UInt8} :
    shift o f ⟨.initial, b :: rest⟩ = shift o f ⟨.field .op, b :: rest⟩ := rfl

end Shift

section Options

variable {o : ByteOrder} {cookie : UInt32}

theorem optionsRule_entry {e : UInt8 × List UInt8} (htag : e.1 ≠ 0 ∧ e.1 ≠ optionTagEnd)
    (hvalue : e.2.length ≤ 255) {items : ℕ} (hitems : items + 2 ≤ maxItems)
    {rest : List UInt8} {r : Record} :
    optionsRule o cookie ⟨items, none, ⟨.optionTag, optionBytes e ++ rest⟩, r⟩ =
      .ok (.inl ⟨items + 1, none, ⟨.optionTag, rest⟩,
        { r with options := r.options.insert e.1 e.2 }⟩) := by
  have hsize : (UInt8.ofNat e.2.length).toNat = e.2.length := by
    rw [UInt8.toNat_ofNat']
    omega
  rw [optionBytes, List.cons_append, optionsRule_tag (by omega), if_neg (by simpa using htag),
    List.cons_append, optionRule_value hitems (by simp [hsize])]
  simp only [hsize, List.take_left, List.drop_left]

theorem run_options {entries : List (UInt8 × List UInt8)}
    (htags : ∀ e ∈ entries, e.1 ≠ 0 ∧ e.1 ≠ optionTagEnd)
    (hvalues : ∀ e ∈ entries, e.2.length ≤ 255) {items : ℕ}
    (hitems : items + entries.length + 1 ≤ maxItems) {tail : List UInt8} {r : Record} :
    ((options o cookie).run
      ⟨items, none, ⟨.optionTag, entries.flatMap optionBytes ++ optionTagEnd :: tail⟩, r⟩).2 =
      .ok { r with options := entries.foldl (fun m e => m.insert e.1 e.2) r.options } := by
  induction entries generalizing items r with
  | nil =>
    have hstep : optionsRule o cookie ⟨items, none, ⟨.optionTag, optionTagEnd :: tail⟩, r⟩ =
        .ok (.inr r) := by
      rw [optionsRule_tag (by simpa using hitems), if_pos (Or.inr rfl), optionRule_end]
    exact run_accept hstep
  | cons e entries ih =>
    have hlength : items + (entries.length + 1) + 1 ≤ maxItems := hitems
    have hstep := @optionsRule_entry o cookie e (htags e List.mem_cons_self)
      (hvalues e List.mem_cons_self) items (by omega)
      (entries.flatMap optionBytes ++ optionTagEnd :: tail) r
    rw [List.flatMap_cons, List.append_assoc, run_next hstep,
      ih (fun e' he' => htags e' (List.mem_cons_of_mem e he'))
        (fun e' he' => hvalues e' (List.mem_cons_of_mem e he')) (by omega)]
    rfl

end Options

theorem load_encodeBE (w n : ℕ) :
    ByteOrder.load .littleEndian (encodeBE w n) = ByteOrder.swap w n := rfl

theorem swap_lt (w n : ℕ) : ByteOrder.swap w n < 256 ^ w := by
  simpa [ByteOrder.swap] using decodeBE_lt (encodeBE w n).reverse

theorem swap_swap {w n : ℕ} (h : n < 256 ^ w) : ByteOrder.swap w (ByteOrder.swap w n) = n := by
  calc ByteOrder.swap w (ByteOrder.swap w n)
      = ByteOrder.loadSwapped .littleEndian (encodeBE w n) := by
        simp only [ByteOrder.loadSwapped, if_true, encodeBE_length, load_encodeBE]
    _ = n := by rw [ByteOrder.loadSwapped_eq, decodeBE_encodeBE_of_lt h]

theorem swapLong_toNat (n : UInt32) : (swapLong n).toNat = ByteOrder.swap 4 n.toNat :=
  UInt32.toNat_ofNat_of_lt' (swap_lt 4 n.toNat)

theorem swapLong_swapLong (n : UInt32) : swapLong (swapLong n) = n := by
  rw [swapLong, swapLong_toNat, swap_swap n.toNat_lt]
  simp

theorem toUInt16_swap (n : UInt16) :
    (UInt32.ofNat (ByteOrder.swap 2 n.toNat)).toUInt16 = swapWord n := by
  simp [swapWord]

theorem swapLong_ne_zero {n : UInt32} (h : n ≠ 0) : swapLong n ≠ 0 := fun h0 =>
  h (by rw [← swapLong_swapLong n, h0]; decide)

theorem load_byte (o : ByteOrder) (b : UInt8) : o.load [b] = b.toNat := by
  cases o <;> simp [ByteOrder.load, decodeBE]

theorem cString_padded (size : ℕ) (bytes : List UInt8) :
    cString (padded size bytes) = cString bytes := by
  have hzeros : (List.replicate (size - bytes.length) (0 : UInt8)).takeWhile (· ≠ 0) = [] := by
    cases size - bytes.length <;> simp [List.replicate_succ]
  rw [cString, padded, List.takeWhile_append]
  split_ifs with hall
  · rw [hzeros, List.append_nil]
    exact ((List.takeWhile_prefix _).eq_of_length hall).symm
  · rfl

section Header

variable {r : Record} {f : Field} {rest : List UInt8}

theorem fieldBytes_checked (h : Encodable r) (hf : f.checked = true) :
    (f.token .littleEndian (fieldBytes r f)).ival ≠ 0 := by
  have hbyte : ∀ b : UInt8, b ≠ 0 → UInt32.ofNat (ByteOrder.load .littleEndian [b]) ≠ 0 := by
    intro b hb h0
    have hword : UInt32.ofNat b.toNat = 0 := by rwa [load_byte] at h0
    have hnat : (UInt32.ofNat b.toNat).toNat = b.toNat :=
      UInt32.toNat_ofNat_of_lt' (b.toNat_lt.trans (by decide))
    exact hb (UInt8.toNat_inj.mp (by rw [← hnat, hword]; rfl))
  cases f with
  | op =>
    apply hbyte
    rcases h.op with hop | hop <;> rw [hop] <;> decide
  | htype => exact hbyte _ h.htype
  | hlen => exact hbyte _ h.hlen
  | xid => exact swapLong_ne_zero h.xid
  | cookie => exact swapLong_ne_zero (by decide)
  | _ => cases hf

theorem bind_shift (h : Encodable r) {α : Type} (k : Token × Scanner → Except (Abort Fault) α) :
    (shift .littleEndian f ⟨.field f, fieldBytes r f ++ rest⟩ >>= k) =
      k (f.token .littleEndian (fieldBytes r f), ⟨f.next, rest⟩) := by
  rw [shift_field (fieldBytes_length h f) (fieldBytes_checked h)]
  rfl

theorem header_messageBytes (h : Encodable r) :
    header .littleEndian ⟨.initial, messageBytes r⟩ =
      .ok ({ misread r with options := .empty },
        ⟨.field .cookie, fieldBytes r .cookie ++ optionsBytes r⟩) := by
  have hstart : shift .littleEndian .op ⟨.initial, messageBytes r⟩ =
      shift .littleEndian .op ⟨.field .op, messageBytes r⟩ := by
    obtain ⟨b, rest, hcons⟩ : ∃ b rest, messageBytes r = b :: rest := ⟨_, _, List.singleton_append⟩
    rw [hcons, shift_initial]
  have hop : UInt32.ofNat (UInt8.ofNat r.op.toNat).toNat = r.op := by
    rcases h.op with hop | hop <;> rw [hop] <;> decide
  have hbyte (b : UInt8) : (UInt32.ofNat b.toNat).toUInt8 = b := by simp
  have hxid : swapXid .littleEndian (UInt32.ofNat (ByteOrder.swap 4 r.xid.toNat)) = r.xid := by
    rw [swapXid, if_pos rfl]
    exact swapLong_swapLong r.xid
  rw [header, hstart, messageBytes]
  simp only [bind_shift h, Field.next]
  generalize fieldBytes r .cookie ++ optionsBytes r = rest
  simp only [Field.token, fieldBytes, load_byte, load_encodeBE, hop, hbyte, hxid, toUInt16_swap,
    cString_padded, misread, swapLong]

end Header

theorem parse_messageBytes {r : Record} (h : Encodable r) :
    parse .littleEndian (messageBytes r) = .ok (misread r) := by
  have hcount : r.options.entries.length ≤ (r.options.entries.flatMap optionBytes).length := by
    rw [List.length_flatMap]
    calc r.options.entries.length = (r.options.entries.map fun _ => 1).sum := by simp
      _ ≤ _ := List.sum_le_sum fun e _ => by simp [optionBytes]
  have hitems : 3 + r.options.entries.length + 1 ≤ maxItems := by
    have hfits : 4 + (r.options.entries.flatMap optionBytes).length + 1 ≤ 312 := h.options
    unfold maxItems
    omega
  have hheader := header_messageBytes h
  rw [parse, hheader]
  calc _ = (shift .littleEndian .cookie ⟨.field .cookie, fieldBytes r .cookie ++ optionsBytes r⟩ >>=
          fun p => ((options .littleEndian p.1.ival).run
            ⟨3, none, p.2, { misread r with options := .empty }⟩).2) := rfl
    _ = _ := by
      rw [bind_shift h, Field.next, optionsBytes,
        run_options h.tags (fun e he => (h.values e he).2) hitems]
      simp only [OrderedMap.foldl_insert_entries]
      rfl

/-- The parser makes the record of the emitted bytes again, with the magic cookie. -/
def RoundTrips (capacity : ℕ) (r : Record) : Prop :=
  ∃ bytes, handleDataMessage .littleEndian capacity r = .ok bytes ∧
    parse .littleEndian bytes = .ok { r with cookie := magicCookie }

section Emitted

variable {r : Record} (h : Encodable r) {capacity : ℕ} (hcapacity : messageSize ≤ capacity)
include h hcapacity

/-- Every record of the encoder's domain is accepted, and misread. -/
theorem parse_emitted : ∃ bytes, handleDataMessage .littleEndian capacity r = .ok bytes ∧
    parse .littleEndian bytes = .ok (misread r) :=
  ⟨_, handleDataMessage_ok h hcapacity, parse_messageBytes h⟩

theorem roundTrips_iff : RoundTrips capacity r ↔ misread r = { r with cookie := magicCookie } := by
  obtain ⟨bytes, hemit, hparse⟩ := parse_emitted h hcapacity
  constructor
  · rintro ⟨bytes', hemit', hparse'⟩
    obtain rfl : bytes = bytes' := Except.ok.inj (hemit.symm.trans hemit')
    exact Except.ok.inj (hparse.symm.trans hparse')
  · intro hmisread
    exact ⟨bytes, hemit, hparse.trans (congrArg Except.ok hmisread)⟩

/-- The cookie is never assigned, so no record of the domain comes back. -/
theorem not_roundTrips : ¬ RoundTrips capacity r := by
  rw [roundTrips_iff h hcapacity]
  intro hmisread
  have hcookie : (0 : UInt32) = magicCookie := congrArg Record.cookie hmisread
  exact absurd hcookie (by decide)

end Emitted

def discover : Record :=
  { op := 1, htype := 1, hlen := 6, xid := 0x12345678, secs := 1, ciaddr := 0x0A000001
    options := ⟨[(53, [1])], List.pairwise_singleton _ _⟩ }

theorem encodable_discover : Encodable discover where
  op := Or.inl rfl
  htype := by decide
  hlen := by decide
  xid := by decide
  chaddr := by decide
  sname := by decide
  file := by decide
  tags := by decide
  values := by decide
  options := by decide

theorem not_roundTrips_discover : Encodable discover ∧ ¬ RoundTrips 576 discover :=
  ⟨encodable_discover, not_roundTrips encodable_discover (by decide)⟩

/-- The DISCOVER comes back with its seconds and its address reversed, and without a cookie. -/
theorem discover_misread : ∃ bytes,
    handleDataMessage .littleEndian messageSize discover = .ok bytes ∧
    parse .littleEndian bytes = .ok (misread discover) ∧ ¬ RoundTrips messageSize discover ∧
    (misread discover).secs = 256 ∧ (misread discover).ciaddr = 0x0100000A ∧
    (misread discover).cookie = 0 := by
  obtain ⟨bytes, hemit, hparse⟩ := parse_emitted encodable_discover le_rfl
  refine ⟨bytes, hemit, hparse, ?_, by decide +kernel, by decide +kernel, rfl⟩
  rw [roundTrips_iff encodable_discover le_rfl]
  intro hmisread
  have hsecs : (misread discover).secs = discover.secs := by rw [hmisread]
  exact absurd hsecs (by decide +kernel)

end ACENetwork.DHCP
