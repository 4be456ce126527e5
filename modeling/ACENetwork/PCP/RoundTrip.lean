import ACENetwork.PCP.Safety
import ACENetwork.PCP.Streamer

/-!
# Decoding encoded PCP records

What follows the header of a request is placed behind the header of a response. The data of
the opcode always comes back with some reserved bytes and with IPv4 addresses; an option
comes back when its data has a fixed size.
-/
namespace ACENetwork.PCP
open Library Library.Glr BitTorrent

def Address.IsV4 : Address → Prop
  | .v4 _ => True
  | .v6 _ => False

def MapData.portBytes (o : ByteOrder) (d : MapData) : List UInt8 :=
  (o.store 2 d.internalPort.toNat ++ o.store 2 d.externalPort.toNat).take 3

def MapData.misread (ipv6 : Vector UInt8 16 → UInt32) (o : ByteOrder) (d : MapData) : MapData :=
  { d with
    reserved :=
      (UInt64.ofNat d.protocol.toNat ||| UInt64.ofNat (decodeBE (d.portBytes o))).toUInt32
    externalAddress := .v4 (d.externalAddress.ip ipv6) }

def PeerData.misread (ipv6 : Vector UInt8 16 → UInt32) (o : ByteOrder) (d : PeerData) : PeerData :=
  { d with
    toMapData := d.toMapData.misread ipv6 o
    reserved2 := UInt16.ofNat (decodeBE (o.store 2 d.reserved2.toNat))
    remotePeerAddress := .v4 (d.remotePeerAddress.ip ipv6) }

def Specific.misread (ipv6 : Vector UInt8 16 → UInt32) (o : ByteOrder) : Specific → Specific
  | .announce => .announce
  | .map d => .map (d.misread ipv6 o)
  | .peer d => .peer (d.misread ipv6 o)
  | .authentication d => .authentication d

def Specific.cleared : Specific → Specific
  | .map d => .map { d with reserved := 0 }
  | .peer d => .peer { d with reserved := 0, reserved2 := 0 }
  | d => d

/-- MAP data that comes back: nothing is written for the reserved bytes, not even the
protocol, and the address is an IPv4 address. -/
structure MapData.Readable (o : ByteOrder) (d : MapData) : Prop where
  protocol : d.protocol = 0
  internalPort : d.internalPort = 0
  externalPort : ∀ b ∈ (o.store 2 d.externalPort.toNat).take 1, b = 0
  externalAddress : d.externalAddress.IsV4

def Specific.Readable (o : ByteOrder) : Specific → Prop
  | .map d => d.Readable o
  | .peer d => d.toMapData.Readable o ∧ d.reserved2 = 0 ∧ d.remotePeerAddress.IsV4
  | _ => True

/-- The data of an option that can come back: its size is fixed, and an address in it is an
IPv4 address. -/
def OptionData.Readable : OptionData → Prop
  | .thirdParty address => address.IsV4
  | .filter _ _ _ address => address.IsV4
  | data => data.variableSize = false

def PCPOption.Readable (option : PCPOption) : Prop := ∀ data ∈ option.data, data.Readable

/-- The places that an option needs on the stack of the parser. -/
def PCPOption.depth (option : PCPOption) : ℕ :=
  match option.data with
  | some (.filter ..) => 13
  | _ => 7

def StackFits : ℕ → List PCPOption → Prop
  | items, [] => items + 1 ≤ maxItems
  | items, option :: options => items + option.depth ≤ maxItems ∧ StackFits (items + 1) options

section Values

variable {ipv6 : Vector UInt8 16 → UInt32} {o : ByteOrder} {i : UInt64}

theorem octet_value (b : UInt8) : (Kind.octet.value o i [b]) = UInt64.ofNat b.toNat := by
  rw [Kind.value, load_singleton]

theorem octet_toUInt8 (b : UInt8) : (UInt64.ofNat b.toNat).toUInt8 = b := by
  apply UInt8.toNat_inj.mp
  simp

theorem nonce_value (n : UInt64) :
    Kind.nonce.value o i (List.replicate 4 0 ++ o.storeSwapped 8 n.toNat) = n := by
  have h : decodeBE (encodeBE 8 n.toNat) = n.toNat := decodeBE_encodeBE_of_lt n.toNat_lt
  simp [Kind.value, h]

theorem short_value (n : UInt16) :
    (Kind.short.value o i (o.storeSwapped 2 n.toNat)).toUInt16 = n := by
  have h : decodeBE (encodeBE 2 n.toNat) = n.toNat := decodeBE_encodeBE_of_lt n.toNat_lt
  apply UInt16.toNat_inj.mp
  simp [Kind.value, h]

theorem long_value (n : UInt32) :
    (Kind.long.value o i (o.storeSwapped 4 n.toNat)).toUInt32 = n := by
  have h : decodeBE (encodeBE 4 n.toNat) = n.toNat := decodeBE_encodeBE_of_lt n.toNat_lt
  apply UInt32.toNat_inj.mp
  simp [Kind.value, h]

theorem address_value (a : Address) :
    (Kind.address.value o i (mapAddress ipv6 o a)).toUInt32 = a.ip ipv6 := by
  have h : decodeBE (encodeBE 4 (a.ip ipv6).toNat) = (a.ip ipv6).toNat :=
    decodeBE_encodeBE_of_lt (a.ip ipv6).toNat_lt
  apply UInt32.toNat_inj.mp
  simp [Kind.value, mapAddress, h]

@[simp] theorem store_length (w n : ℕ) : (o.store w n).length = w := by
  cases o <;> simp [ByteOrder.store]

@[simp] theorem mapAddress_length (a : Address) : (mapAddress ipv6 o a).length = 16 := by
  simp [mapAddress]

theorem load_store {w n : ℕ} (h : n < 256 ^ w) : o.load (o.store w n) = n := by
  cases o <;> simp [ByteOrder.load, ByteOrder.store, decodeBE_encodeBE_of_lt h]

theorem store_eq_zero (n : UInt16) : (∀ b ∈ o.store 2 n.toNat, b = 0) ↔ n = 0 := by
  rw [← ByteOrder.load_eq_zero (o := o), load_store n.toNat_lt, ← UInt16.toNat_inj]
  rfl

theorem v4_ip (a : Address) : .v4 (a.ip ipv6) = a ↔ a.IsV4 := by
  cases a <;> simp [Address.ip, Address.IsV4]

/-- Nothing is read for the reserved bytes but the protocol and what has been written. -/
theorem reserved_eq_zero (d : MapData) : (d.misread ipv6 o).reserved = 0 ↔
    d.protocol = 0 ∧ d.internalPort = 0 ∧
      ∀ b ∈ (o.store 2 d.externalPort.toNat).take 1, b = 0 := by
  have hports : d.portBytes o =
      o.store 2 d.internalPort.toNat ++ (o.store 2 d.externalPort.toNat).take 1 := by
    rw [MapData.portBytes, List.take_append, store_length,
      List.take_of_length_le (by rw [store_length]; omega)]
  have hlt : decodeBE (d.portBytes o) < 2 ^ 24 := by
    have h := decodeBE_lt (d.portBytes o)
    rwa [hports, List.length_append, List.length_take, store_length, store_length, ← hports] at h
  have hsmall := d.protocol.toNat_lt
  have hor : (d.misread ipv6 o).reserved.toNat = d.protocol.toNat ||| decodeBE (d.portBytes o) := by
    have hle : d.protocol.toNat ||| decodeBE (d.portBytes o) < 2 ^ 24 :=
      Nat.or_lt_two_pow (by omega) hlt
    have hports64 : decodeBE (d.portBytes o) < 2 ^ 64 := hlt.trans (by norm_num)
    simp only [MapData.misread, UInt64.toNat_toUInt32, UInt64.toNat_or]
    rw [UInt64.toNat_ofNat_of_lt' (hsmall.trans (by norm_num)), UInt64.toNat_ofNat_of_lt' hports64]
    exact Nat.mod_eq_of_lt (hle.trans (by norm_num))
  have hbytes : decodeBE (d.portBytes o) = 0 ↔
      d.internalPort = 0 ∧ ∀ b ∈ (o.store 2 d.externalPort.toNat).take 1, b = 0 := by
    rw [decodeBE_eq_zero, hports, List.forall_mem_append, store_eq_zero]
  have hprotocol : d.protocol.toNat = 0 ↔ d.protocol = 0 := UInt8.toNat_inj (b := 0)
  rw [← UInt32.toNat_inj, hor, ← hbytes, ← hprotocol]
  exact Nat.or_eq_zero_iff

theorem misread_map (d : MapData) :
    d.misread ipv6 o = { d with reserved := 0 } ↔ d.Readable o := by
  have hcongr : d.misread ipv6 o = { d with reserved := 0 } ↔
      (d.misread ipv6 o).reserved = 0 ∧ .v4 (d.externalAddress.ip ipv6) = d.externalAddress := by
    cases d
    simp [MapData.misread]
  rw [hcongr, reserved_eq_zero, v4_ip]
  exact ⟨fun ⟨⟨h₁, h₂, h₃⟩, h₄⟩ => ⟨h₁, h₂, h₃, h₄⟩, fun h =>
    ⟨⟨h.protocol, h.internalPort, h.externalPort⟩, h.externalAddress⟩⟩

theorem misread_peer (d : PeerData) :
    d.misread ipv6 o = { d with reserved := 0, reserved2 := 0 } ↔
      d.toMapData.Readable o ∧ d.reserved2 = 0 ∧ d.remotePeerAddress.IsV4 := by
  have hreserved2 : UInt16.ofNat (decodeBE (o.store 2 d.reserved2.toNat)) = 0 ↔ d.reserved2 = 0 := by
    have hlt := decodeBE_lt (o.store 2 d.reserved2.toNat)
    rw [store_length] at hlt
    rw [← @store_eq_zero o d.reserved2, ← decodeBE_eq_zero, ← UInt16.toNat_inj,
      UInt16.toNat_ofNat_of_lt' hlt]
    rfl
  rw [← @misread_map ipv6, ← @v4_ip ipv6, ← hreserved2]
  cases d
  simp [PeerData.misread]

/-- The data of an opcode comes back, with its reserved bytes cleared, when it is readable. -/
theorem misread_cleared (d : Specific) : d.misread ipv6 o = d.cleared ↔ d.Readable o := by
  cases d with
  | announce => simp [Specific.misread, Specific.cleared, Specific.Readable]
  | map d => simp [Specific.misread, Specific.cleared, Specific.Readable, misread_map]
  | peer d => simp [Specific.misread, Specific.cleared, Specific.Readable, misread_peer]
  | authentication d => simp [Specific.misread, Specific.cleared, Specific.Readable]

end Values

section Text

variable {o : ByteOrder} {f f' : Field} {s : Scanner} {text more : List UInt8}

theorem yylex_text (hcondition : s.condition = .field f) (hplain : f.kind.plain = true)
    (hnext : f.next s.opcode s.code = some f') (hrest : s.rest = text ++ more)
    (hlength : text.length = f.kind.width) :
    ∃ s', yylex o s = .ok ({ terminal := .field f, ival := f.kind.value o s.ival text }, s') ∧
      s'.condition = .field f' ∧ s'.rest = more ∧ s'.ival = f.kind.value o s.ival text ∧
      s'.code = s.code := by
  have htake : s.rest.take f.kind.width = text := by rw [hrest, ← hlength, List.take_left]
  have hpos := f.kind.width_pos
  have hlex := @yylex_plain o f f' s hcondition hplain
    (by rintro h; simp_all) (by rw [hrest, List.length_append]; omega) hnext
  refine ⟨s.behind o f f', ?_, rfl, ?_, ?_, rfl⟩
  · rw [hlex, Scanner.token, htake]
  · rw [behind_rest, hrest, ← hlength, List.drop_left]
  · rw [Scanner.behind, htake]

theorem shift_text (hcondition : s.condition = .field f) (hplain : f.kind.plain = true)
    (hnext : f.next s.opcode s.code = some f') (hrest : s.rest = text ++ more)
    (hlength : text.length = f.kind.width) :
    ∃ s', shift o f s = .ok ({ terminal := .field f, ival := f.kind.value o s.ival text }, s') ∧
      s'.condition = .field f' ∧ s'.rest = more ∧ s'.ival = f.kind.value o s.ival text ∧
      s'.code = s.code := by
  obtain ⟨s', hlex, h⟩ := yylex_text (o := o) hcondition hplain hnext hrest hlength
  exact ⟨s', shift_field hlex rfl, h⟩

end Text

section Opcode

variable {ipv6 : Vector UInt8 16 → UInt32} {o : ByteOrder} {s : Scanner} {more : List UInt8}
  {β : Type} {K : Option Specific × Token × Scanner → Except (Abort Fault) β}

/-- The data of MAP comes back with what has been written for its reserved bytes. -/
theorem opcodeSpecific_map {d : MapData} (hcondition : s.condition = .field .mapNonce)
    (hrest : s.rest = (mapFields ipv6 o d).flatten ++ more) :
    ∃ s' : Scanner, s'.condition = .field .optionCode ∧ s'.rest = more ∧
      (opcodeSpecific o s >>= K) =
        (yylex o s' >>= fun x => K (some (.map (d.misread ipv6 o)), x.1, x.2)) := by
  simp only [mapFields, List.flatten_cons, List.flatten_nil, List.append_assoc,
    List.nil_append] at hrest
  rw [← List.append_assoc] at hrest
  obtain ⟨s₀, h₀, hc, hr, -, -⟩ := yylex_text (o := o) hcondition rfl rfl hrest (by simp; rfl)
  obtain ⟨s₁, h₁, hc, hr, hi, -⟩ := shift_text (o := o) hc rfl rfl hr rfl
  obtain ⟨s₂, h₂, hc, hr, -, -⟩ := shift_text (o := o) hc rfl rfl hr (by simp; rfl)
  obtain ⟨s₃, h₃, hc, hr, -, -⟩ := shift_text (o := o) hc rfl rfl hr (by simp; rfl)
  obtain ⟨s₄, h₄, hc, hr, -, -⟩ := shift_text (o := o) hc rfl rfl hr (by simp; rfl)
  obtain ⟨s₅, h₅, hc, hr, -, -⟩ := shift_text (o := o) hc rfl rfl hr (by simp; rfl)
  refine ⟨s₅, hc, hr, ?_⟩
  simp only [opcodeSpecific, opcodeSpecificMap, bind_assoc, h₀, h₁, h₂, h₃, h₄, h₅, ok_bind]
  simp only [Field.kind, nonce_value, octet_value, octet_toUInt8, short_value, address_value, hi]
  rfl

/-- The data of PEER comes back with what has been written for its reserved bytes. -/
theorem opcodeSpecific_peer {d : PeerData} (hcondition : s.condition = .field .peerNonce)
    (hrest : s.rest = (specificFields ipv6 o (.peer d)).flatten ++ more) :
    ∃ s' : Scanner, s'.condition = .field .optionCode ∧ s'.rest = more ∧
      (opcodeSpecific o s >>= K) =
        (yylex o s' >>= fun x => K (some (.peer (d.misread ipv6 o)), x.1, x.2)) := by
  simp only [specificFields, mapFields, List.flatten_cons, List.flatten_nil, List.flatten_append,
    List.append_assoc, List.nil_append] at hrest
  rw [← List.append_assoc] at hrest
  obtain ⟨s₀, h₀, hc, hr, -, -⟩ := yylex_text (o := o) hcondition rfl rfl hrest (by simp; rfl)
  obtain ⟨s₁, h₁, hc, hr, hi, -⟩ := shift_text (o := o) hc rfl rfl hr rfl
  obtain ⟨s₂, h₂, hc, hr, -, -⟩ := shift_text (o := o) hc rfl rfl hr (by simp; rfl)
  obtain ⟨s₃, h₃, hc, hr, -, -⟩ := shift_text (o := o) hc rfl rfl hr (by simp; rfl)
  obtain ⟨s₄, h₄, hc, hr, -, -⟩ := shift_text (o := o) hc rfl rfl hr (by simp; rfl)
  obtain ⟨s₅, h₅, hc, hr, -, -⟩ := shift_text (o := o) hc rfl rfl hr (by simp; rfl)
  obtain ⟨s₆, h₆, hc, hr, -, -⟩ := shift_text (o := o) hc rfl rfl hr (by simp; rfl)
  obtain ⟨s₇, h₇, hc, hr, -, -⟩ := shift_text (o := o) hc rfl rfl hr (by simp; rfl)
  obtain ⟨s₈, h₈, hc, hr, -, -⟩ := shift_text (o := o) hc rfl rfl hr (by simp; rfl)
  refine ⟨s₈, hc, hr, ?_⟩
  have hreserved2 : (Kind.short.value o s₆.ival (o.store 2 d.reserved2.toNat)).toUInt16 =
      UInt16.ofNat (decodeBE (o.store 2 d.reserved2.toNat)) := by
    apply UInt16.toNat_inj.mp
    simp [Kind.value]
  simp only [opcodeSpecific, opcodeSpecificPeer, bind_assoc, h₀, h₁, h₂, h₃, h₄, h₅, h₆, h₇, h₈,
    ok_bind]
  simp only [Field.kind, nonce_value, octet_value, octet_toUInt8, short_value, address_value, hi,
    hreserved2]
  rfl

theorem opcodeSpecific_authentication {d : AuthenticationData}
    (hcondition : s.condition = .field .authenticationSessionId)
    (hrest : s.rest = (specificFields ipv6 o (.authentication d)).flatten ++ more) :
    ∃ s' : Scanner, s'.condition = .field .optionCode ∧ s'.rest = more ∧
      (opcodeSpecific o s >>= K) =
        (yylex o s' >>= fun x => K (some (.authentication d), x.1, x.2)) := by
  simp only [specificFields, List.flatten_cons, List.flatten_nil, List.append_assoc,
    List.nil_append] at hrest
  obtain ⟨s₀, h₀, hc, hr, -, -⟩ := yylex_text (o := o) hcondition rfl rfl hrest (by simp; rfl)
  obtain ⟨s₁, h₁, hc, hr, -, -⟩ := shift_text (o := o) hc rfl rfl hr (by simp; rfl)
  refine ⟨s₁, hc, hr, ?_⟩
  simp only [opcodeSpecific, bind_assoc, h₀, h₁, ok_bind]
  simp only [Field.kind, long_value]

end Opcode

section Accepted

variable {o : ByteOrder} {s s' : Scanner} {t t' : Token} {items : ℕ} {acc : List (PCPOption × ℕ)}

theorem yylex_fixed (h : yylex o s = .ok (t, s')) (n : UInt32) :
    ∀ f, t.terminal = .field f → f.kind ≠ .data n := by
  have hrule {f : Field} {s : Scanner} (h : fieldRule o f s = .ok (t, s')) :
      ∀ f, t.terminal = .field f → f.kind ≠ .data n := by
    intro g hg hn
    unfold fieldRule at h
    split_ifs at h with hnil hwidth
    · cases h
      cases hg
    · split at h
      · rw [dataRule_overflow] at h
        cases h
      case h_2 hplain =>
        unfold fixedRule at h
        dsimp only at h
        split_ifs at h
        split at h <;> cases h <;> cases hg
        exact hplain n hn
  unfold yylex at h
  split at h
  · exact hrule h
  · exact hrule h
  · exact hrule h

theorem shift_data_error {f : Field} {n : UInt32} (hdata : f.kind = .data n) :
    ¬ shift o f s = .ok (t, s') := by
  intro h
  obtain ⟨hlex, hterminal⟩ := shift_ok h
  exact yylex_fixed hlex n f hterminal hdata

theorem dataEnd_data {data : OptionData} {d : Option OptionData}
    (h : dataEnd o items data s = .ok (d, t, s')) : d = some data := by
  obtain ⟨-, -, h⟩ := bind_eq_ok.mp h
  obtain ⟨x, -, h⟩ := bind_eq_ok.mp h
  cases h
  rfl

theorem optionData_readable {d : Option OptionData} (hlex : yylex o s = .ok (t, s'))
    {s'' : Scanner} (h : optionData o items t s' = .ok (d, t', s'')) : ∀ x ∈ d, x.Readable := by
  have hdata := yylex_fixed hlex
  unfold optionData at h
  split at h
  case h_2 =>
    obtain ⟨-, -, h⟩ := bind_eq_ok.mp h
    obtain ⟨x₁, -, h⟩ := bind_eq_ok.mp h
    obtain ⟨-, -, h⟩ := bind_eq_ok.mp h
    obtain ⟨x₂, -, h⟩ := bind_eq_ok.mp h
    obtain ⟨-, -, h⟩ := bind_eq_ok.mp h
    obtain ⟨x₃, -, h⟩ := bind_eq_ok.mp h
    cases dataEnd_data h
    rintro x ⟨⟩
    trivial
  case h_4 =>
    obtain ⟨-, -, h⟩ := bind_eq_ok.mp h
    obtain ⟨x₁, -, h⟩ := bind_eq_ok.mp h
    obtain ⟨-, -, h⟩ := bind_eq_ok.mp h
    obtain ⟨x₂, -, h⟩ := bind_eq_ok.mp h
    obtain ⟨-, -, h⟩ := bind_eq_ok.mp h
    obtain ⟨x₃, hshift, h⟩ := bind_eq_ok.mp h
    exact absurd hshift (shift_data_error rfl)
  case h_5 =>
    obtain ⟨-, -, h⟩ := bind_eq_ok.mp h
    obtain ⟨x₁, hshift, h⟩ := bind_eq_ok.mp h
    exact absurd hshift (shift_data_error rfl)
  case h_6 hterminal => exact absurd rfl (hdata 0 _ hterminal)
  case h_11 hterminal => exact absurd rfl (hdata 0 _ hterminal)
  case h_12 =>
    obtain ⟨-, -, h⟩ := bind_eq_ok.mp h
    cases h
    rintro x ⟨⟩
  all_goals
    cases dataEnd_data h
    rintro x ⟨⟩
    trivial

theorem optionsRule_readable {f f' : Frame} (h : optionsRule o f = .ok (.inl f'))
    (hf : ∀ e ∈ f.options, e.1.Readable) : ∀ e ∈ f'.options, e.1.Readable := by
  unfold optionsRule at h
  split at h
  · obtain ⟨⟨p, t, s⟩, hoption, h⟩ := bind_eq_ok.mp h
    cases h
    obtain ⟨-, -, hoption⟩ := bind_eq_ok.mp hoption
    obtain ⟨x₁, -, hoption⟩ := bind_eq_ok.mp hoption
    obtain ⟨-, -, hoption⟩ := bind_eq_ok.mp hoption
    obtain ⟨x₂, -, hoption⟩ := bind_eq_ok.mp hoption
    obtain ⟨-, -, hoption⟩ := bind_eq_ok.mp hoption
    obtain ⟨x₃, hlex, hoption⟩ := bind_eq_ok.mp hoption
    obtain ⟨x₄, hdata, hoption⟩ := bind_eq_ok.mp hoption
    cases hoption
    intro e he
    rcases List.mem_append.mp he with hold | hnew
    · exact hf e hold
    · cases List.mem_singleton.mp hnew
      exact optionData_readable hlex hdata
  · obtain ⟨-, -, h⟩ := bind_eq_ok.mp h
    cases h
  · cases h

/-- Whatever the bytes, the options that are accepted can come back. -/
theorem run_readable {f : Frame} (hf : ∀ e ∈ f.options, e.1.Readable)
    {l : List (PCPOption × ℕ)} (h : ((options o).run f).2 = .ok l) : ∀ e ∈ l, e.1.Readable := by
  induction hn : f.left using Nat.strong_induction_on generalizing f with
  | _ n ih =>
    rw [run_eq] at h
    obtain ⟨x, hrule, h⟩ := bind_eq_ok.mp h
    cases x with
    | inl f' => exact ih f'.left (hn ▸ optionsRule_left hrule) (optionsRule_readable hrule hf) h rfl
    | inr l' =>
      cases h
      unfold optionsRule at hrule
      split at hrule
      · obtain ⟨_, -, hrule⟩ := bind_eq_ok.mp hrule
        cases hrule
      · obtain ⟨-, -, hrule⟩ := bind_eq_ok.mp hrule
        cases hrule
        exact hf
      · cases hrule

end Accepted

section Options

variable {ipv6 : Vector UInt8 16 → UInt32} {o : ByteOrder} {s : Scanner} {items : ℕ}
  {more : List UInt8} {β : Type} {P : β → Prop}
  {K : Option OptionData × Token × Scanner → Except (Abort Fault) β}

theorem accepts_dataEnd {d : OptionData} : Accepts P (dataEnd o items d s >>= K) ↔
    items + 1 ≤ maxItems ∧ Accepts P (yylex o s >>= fun x => K (some d, x.1, x.2)) := by
  have hend : (dataEnd o items d s >>= K) =
      (reserve (items + 1) >>= fun _ => yylex o s >>= fun x => K (some d, x.1, x.2)) := by
    simp only [dataEnd, bind_assoc]
    rfl
  rw [hend, accepts_reserve]

theorem accepts_single {f : Field} {text : List UInt8} {data : OptionData}
    (hcondition : s.condition = .field f) (hplain : f.kind.plain = true)
    (hnext : f.next s.opcode s.code = some .optionCode) (hrest : s.rest = text ++ more)
    (hlength : text.length = f.kind.width)
    (hdata : ∀ s', optionData o items
      { terminal := .field f, ival := f.kind.value o s.ival text } s' = dataEnd o items data s') :
    ∃ s' : Scanner, s'.condition = .field .optionCode ∧ s'.rest = more ∧
      (Accepts P (yylex o s >>= fun x => optionData o items x.1 x.2 >>= K) ↔
        items + 1 ≤ maxItems ∧ Accepts P (yylex o s' >>= fun x => K (some data, x.1, x.2))) := by
  obtain ⟨s', hlex, hc, hr, -, -⟩ := yylex_text (o := o) hcondition hplain hnext hrest hlength
  exact ⟨s', hc, hr, by rw [hlex, ok_bind, hdata, accepts_dataEnd]⟩

theorem accepts_data {data : OptionData} (hreadable : data.Readable) {length : UInt16} {f : Field}
    (hf : Field.ofCode data.code = some f) (hcondition : s.condition = .field f)
    (hrest : s.rest = (dataFields ipv6 o length data).flatten ++ more) :
    ∃ s' : Scanner, s'.condition = .field .optionCode ∧ s'.rest = more ∧
      (Accepts P (yylex o s >>= fun x => optionData o items x.1 x.2 >>= K) ↔
        items + (match data with | .filter .. => 7 | _ => 1) ≤ maxItems ∧
          Accepts P (yylex o s' >>= fun x => K (some data, x.1, x.2))) := by
  cases data with
  | thirdParty address =>
    cases hf
    simp only [dataFields, List.flatten_cons, List.flatten_nil, List.append_nil] at hrest
    exact accepts_single hcondition rfl rfl hrest (by simp; rfl) fun s' => by
      simp only [optionData, Field.kind, address_value, (v4_ip address).mpr hreadable]
  | filter reserved prefixLength port address =>
    cases hf
    simp only [dataFields, List.flatten_cons, List.flatten_nil, List.append_nil,
      List.append_assoc] at hrest
    obtain ⟨s₀, h₀, hc, hr, -, -⟩ := yylex_text (o := o) hcondition rfl rfl hrest rfl
    obtain ⟨s₁, h₁, hc, hr, -, -⟩ := shift_text (o := o) hc rfl rfl hr rfl
    obtain ⟨s₂, h₂, hc, hr, -, -⟩ := shift_text (o := o) hc rfl rfl hr (by simp; rfl)
    obtain ⟨s₃, h₃, hc, hr, -, -⟩ := shift_text (o := o) hc rfl rfl hr (by simp; rfl)
    refine ⟨s₃, hc, hr, ?_⟩
    simp only [h₀, ok_bind, optionData, bind_assoc, h₁, h₂, h₃, accepts_reserve, accepts_dataEnd,
      Field.kind, octet_value, octet_toUInt8, short_value, address_value,
      (v4_ip address).mpr hreadable]
    constructor
    · rintro ⟨-, -, -, hitems, h⟩
      exact ⟨hitems, h⟩
    · rintro ⟨hitems, h⟩
      exact ⟨by omega, by omega, by omega, hitems, h⟩
  | nonce nonce =>
    cases hf
    simp only [dataFields, List.flatten_cons, List.flatten_nil, List.append_nil] at hrest
    exact accepts_single hcondition rfl rfl hrest (by simp; rfl) fun s' => by
      simp only [optionData, Field.kind, long_value]
  | authenticationTag => cases hreadable
  | paAuthenticationTag => cases hreadable
  | eapPayload => cases hreadable
  | pseudoRandomFunction id =>
    cases hf
    simp only [dataFields, List.flatten_cons, List.flatten_nil, List.append_nil] at hrest
    exact accepts_single hcondition rfl rfl hrest (by simp; rfl) fun s' => by
      simp only [optionData, Field.kind, long_value]
  | macAlgorithm id =>
    cases hf
    simp only [dataFields, List.flatten_cons, List.flatten_nil, List.append_nil] at hrest
    exact accepts_single hcondition rfl rfl hrest (by simp; rfl) fun s' => by
      simp only [optionData, Field.kind, long_value]
  | sessionLifetime lifetime =>
    cases hf
    simp only [dataFields, List.flatten_cons, List.flatten_nil, List.append_nil] at hrest
    exact accepts_single hcondition rfl rfl hrest (by simp; rfl) fun s' => by
      simp only [optionData, Field.kind, long_value]
  | receivedPak sequenceNumber =>
    cases hf
    simp only [dataFields, List.flatten_cons, List.flatten_nil, List.append_nil] at hrest
    exact accepts_single hcondition rfl rfl hrest (by simp; rfl) fun s' => by
      simp only [optionData, Field.kind, long_value]
  | idIndicator => cases hreadable

theorem accepts_absent (hcondition : s.condition = .field .optionCode) :
    Accepts P (yylex o s >>= fun x => optionData o items x.1 x.2 >>= K) ↔
      items + 1 ≤ maxItems ∧ Accepts P (yylex o s >>= fun x => K (none, x.1, x.2)) := by
  obtain ⟨x, hlex, hdata⟩ : ∃ x, yylex o s = .ok x ∧
      optionData o items x.1 x.2 = reserve (items + 1) >>= fun _ => .ok (none, x.1, x.2) := by
    by_cases hnil : s.rest = []
    · exact ⟨_, yylex_nil hcondition hnil, rfl⟩
    · exact ⟨_, yylex_plain hcondition rfl hnil (List.length_pos_iff.mpr hnil) rfl, rfl⟩
  simp only [hlex, ok_bind, hdata, bind_assoc, accepts_reserve]

theorem optionData_ofCode (data : OptionData) : ∃ f, Field.ofCode data.code = some f := by
  cases data <;> exact ⟨_, rfl⟩

theorem firstByte_toUInt32 (b : UInt8) : firstByte .littleEndian b.toUInt32 = [b] := by
  simp [firstByte, ByteOrder.store, encodeBE]

theorem accepts_head {p : PCPOption} {f : Field} (hcode : Field.ofCode p.code = some f)
    {acc : List (PCPOption × ℕ)} {P : List (PCPOption × ℕ) → Prop}
    (hcondition : s.condition = .field .optionCode)
    (hrest : s.rest = (optionFields ipv6 .littleEndian p).flatten ++ more) :
    ∃ s' : Scanner, s'.condition = .field f ∧
      s'.rest = ((p.data.map (dataFields ipv6 .littleEndian p.length)).getD []).flatten ++ more ∧
      (Accepts P (resume .littleEndian items s acc) ↔ items + 6 ≤ maxItems ∧
        Accepts P (yylex .littleEndian s' >>= fun x =>
          optionData .littleEndian (items + 6) x.1 x.2 >>= fun y =>
            ((options .littleEndian).run ⟨items + 1, y.2.1, y.2.2, acc ++
              [(⟨p.code, p.reserved, p.length, y.1⟩, s.rest.length -
                (⟨items + 1, y.2.1, y.2.2, acc⟩ : Frame).left)]⟩).2)) := by
  simp only [optionFields, firstByte_toUInt32, List.flatten_cons, List.append_assoc,
    List.nil_append, List.cons_append] at hrest
  have hbehind : ({ s.behind .littleEndian .optionCode .optionReserved with code := p.code } :
      Scanner).rest = [p.reserved] ++ (ByteOrder.littleEndian.storeSwapped 2 p.length.toNat ++
        (((p.data.map (dataFields ipv6 .littleEndian p.length)).getD []).flatten ++ more)) := by
    show s.rest.drop 1 = _
    rw [hrest]
    rfl
  obtain ⟨s₁, h₁, hc, hr, -, hs₁⟩ := shift_text (o := .littleEndian) rfl rfl rfl hbehind rfl
  have hnext : Field.optionLength.next s₁.opcode s₁.code = some f := by
    rw [hs₁]
    exact hcode
  obtain ⟨s₂, h₂, hc, hr, -, -⟩ := shift_text (o := .littleEndian) hc rfl hnext hr (by simp; rfl)
  refine ⟨{ s₂ with length := p.length }, hc, hr, ?_⟩
  rw [resume_cons hcondition hrest]
  simp only [option, bind_assoc, ok_bind, accepts_reserve, h₁, h₂, Field.kind, octet_value,
    octet_toUInt8, short_value]
  constructor
  · rintro ⟨-, -, h⟩
    exact h
  · rintro ⟨hitems, h⟩
    exact ⟨by omega, by omega, hitems, h⟩

theorem accepts_option {p : PCPOption} (hsupported : p.Supported) (hreadable : p.Readable)
    {acc : List (PCPOption × ℕ)} {P : List (PCPOption × ℕ) → Prop}
    (hcondition : s.condition = .field .optionCode)
    (hrest : s.rest = (optionFields ipv6 .littleEndian p).flatten ++ more) :
    ∃ (s' : Scanner) (n : ℕ), s'.condition = .field .optionCode ∧ s'.rest = more ∧
      (Accepts P (resume .littleEndian items s acc) ↔ items + p.depth ≤ maxItems ∧
        Accepts P (resume .littleEndian (items + 1) s' (acc ++ [(p, n)]))) := by
  obtain ⟨code, reserved, length, data⟩ := p
  cases data with
  | none =>
    obtain ⟨rfl, rfl⟩ := hsupported
    obtain ⟨s', hc, hr, h⟩ := @accepts_head ipv6 s items more _ _ rfl acc P hcondition hrest
    refine ⟨s', s.rest.length - s'.rest.length, hc, hr, ?_⟩
    rw [h, accepts_absent hc]
    dsimp only [PCPOption.depth]
    rw [resume_behind hc]
    exact ⟨fun ⟨_, hitems, h⟩ => ⟨hitems, h⟩, fun ⟨hitems, h⟩ => ⟨by omega, hitems, h⟩⟩
  | some data =>
    obtain ⟨rfl, hlength⟩ := hsupported
    obtain ⟨f, hf⟩ := optionData_ofCode data
    obtain ⟨s₁, hc, hr, h⟩ := @accepts_head ipv6 s items more _ _ hf acc P hcondition hrest
    obtain ⟨s', hc, hr, hdata⟩ := accepts_data (hreadable data rfl) hf hc hr
    refine ⟨s', s.rest.length - s'.rest.length, hc, hr, ?_⟩
    rw [h, hdata]
    dsimp only [PCPOption.depth]
    rw [resume_behind hc, ← and_assoc]
    refine and_congr_left fun _ => ?_
    cases data <;> simp only <;> omega

/-- On a little-endian host options that can come back do, as long as the stack lasts. -/
theorem accepts_options {l : List PCPOption} (hl : ∀ p ∈ l, p.Supported ∧ p.Readable)
    {acc : List (PCPOption × ℕ)} {result : List PCPOption}
    (hcondition : s.condition = .field .optionCode)
    (hrest : s.rest = (l.flatMap (optionFields ipv6 .littleEndian)).flatten) :
    Accepts (fun a => a.map Prod.fst = result) (resume .littleEndian items s acc) ↔
      StackFits items l ∧ acc.map Prod.fst ++ l = result := by
  induction l generalizing items s acc with
  | nil =>
    rw [resume_nil hcondition hrest, accepts_reserve, accepts_ok, List.append_nil]
    rfl
  | cons p l ih =>
    obtain ⟨hsupported, hreadable⟩ := hl p List.mem_cons_self
    rw [List.flatMap_cons, List.flatten_append] at hrest
    obtain ⟨s', n, hc, hr, h⟩ := @accepts_option ipv6 s items _ p hsupported hreadable acc
      (fun a => a.map Prod.fst = result) hcondition hrest
    rw [h, ih (fun q hq => hl q (List.mem_cons_of_mem p hq)) hc hr, StackFits, and_assoc]
    simp

/-- On a big-endian host the code of an option is written as zero, which is no code. -/
theorem not_accepts_options {p : PCPOption} {l : List PCPOption} {acc : List (PCPOption × ℕ)}
    {P : List (PCPOption × ℕ) → Prop} (hcondition : s.condition = .field .optionCode)
    (hrest : s.rest = ((p :: l).flatMap (optionFields ipv6 .bigEndian)).flatten) :
    ¬ Accepts P (resume .bigEndian items s acc) := by
  have hcode : firstByte .bigEndian p.code.toUInt32 = [0] := by
    have hdiv : p.code.toNat / 16777216 = 0 :=
      Nat.div_eq_of_lt (p.code.toNat_lt.trans (by norm_num))
    simp [firstByte, ByteOrder.store, encodeBE, hdiv]
  obtain ⟨rest, hrest'⟩ : ∃ rest, s.rest = 0 :: ([p.reserved] ++
      (ByteOrder.bigEndian.storeSwapped 2 p.length.toNat ++ rest)) := by
    simp only [List.flatMap_cons, List.flatten_append, optionFields, hcode, List.flatten_cons,
      List.cons_append, List.nil_append] at hrest
    exact ⟨_, hrest⟩
  have hbehind : ({ s.behind .bigEndian .optionCode .optionReserved with code := 0 } :
      Scanner).rest = [p.reserved] ++ (ByteOrder.bigEndian.storeSwapped 2 p.length.toNat ++ rest) := by
    show s.rest.drop 1 = _
    rw [hrest']
    rfl
  obtain ⟨s₁, h₁, hc, hr, -, hs₁⟩ := shift_text (o := .bigEndian) rfl rfl rfl hbehind rfl
  have hlength : Field.optionLength.kind.width ≤ s₁.rest.length := by
    simp [hr, Field.kind, Kind.width]
  obtain ⟨s₂, hlex⟩ := yylex_unknown (o := .bigEndian) hc rfl
    (List.length_pos_iff.mp ((Kind.width_pos _).trans_le hlength)) hlength (by rw [hs₁]; rfl)
  have hshift : shift .bigEndian .optionLength s₁ = .error .syntaxError := by
    simp [shift, hlex, ok_bind]
  rw [resume_cons hcondition hrest']
  simp only [option, bind_assoc, ok_bind, accepts_reserve, h₁, hshift, error_bind]
  rintro ⟨-, -, h⟩
  exact h

end Options

section Encode

variable {ipv6 : Vector UInt8 16 → UInt32} {o : ByteOrder}

def Specific.size : Specific → ℕ
  | .announce => 0
  | .map _ => 36
  | .peer _ => 56
  | .authentication _ => 8

def Record.size (r : Record) : ℕ :=
  24 + r.specific.size + (r.options.map fun p => 4 + p.length.toNat).sum

@[simp] theorem firstByte_length (n : UInt32) : (firstByte o n).length = 1 := by
  simp [firstByte]

theorem headerFields_length (r : Record) : (headerFields ipv6 o r).flatten.length = 24 := by
  unfold headerFields
  split <;> simp

theorem specificFields_length (d : Specific) :
    (specificFields ipv6 o d).flatten.length = d.size := by
  cases d <;> simp [specificFields, mapFields, Specific.size]

theorem optionFields_length {p : PCPOption} (h : p.Supported) :
    (optionFields ipv6 o p).flatten.length = 4 + p.length.toNat := by
  obtain ⟨code, reserved, length, data⟩ := p
  cases data with
  | none =>
    obtain ⟨-, rfl⟩ := h
    simp [optionFields]
  | some data =>
    obtain ⟨-, hlength⟩ := h
    cases data <;> simp [optionFields, dataFields, OptionData.size, hlength] <;> omega

theorem handleDataMessage_ok_iff {capacity : ℕ} {r : Record} (h : ∀ p ∈ r.options, p.Supported)
    {bytes : List UInt8} : handleDataMessage ipv6 o capacity r = .ok bytes ↔
      (messageSize ≤ capacity ∧ r.size ≤ capacity) ∧
        bytes = (headerFields ipv6 o r ++ specificFields ipv6 o r.specific ++
          r.options.flatMap (optionFields ipv6 o)).flatten := by
  have hoptions (l : List PCPOption) (hl : ∀ p ∈ l, p.Supported) :
      ((l.flatMap (optionFields ipv6 o)).flatten).length =
        (l.map fun p => 4 + p.length.toNat).sum := by
    induction l with
    | nil => rfl
    | cons p l ih =>
      rw [List.flatMap_cons, List.flatten_append, List.length_append,
        optionFields_length (hl p List.mem_cons_self),
        ih fun q hq => hl q (List.mem_cons_of_mem p hq), List.map_cons, List.sum_cons]
  have hsize : (headerFields ipv6 o r ++ specificFields ipv6 o r.specific ++
      r.options.flatMap (optionFields ipv6 o)).flatten.length = r.size := by
    rw [List.flatten_append, List.flatten_append, List.length_append, List.length_append,
      headerFields_length, specificFields_length, hoptions _ h, Record.size]
  rw [handleDataMessage]
  split_ifs with hcapacity
  · rw [copyAll_ok_iff, hsize, List.nil_append]
    simp [hcapacity]
  · simp [hcapacity]

end Encode

/-- What is behind the header of the encoded record, behind the header of any response to its
opcode, is accepted with the data of the opcode, the reserved bytes cleared, and the options
in order. -/
def RoundTrips (ipv6 : Vector UInt8 16 → UInt32) (o : ByteOrder) (capacity : ℕ) (r : Record) :
    Prop :=
  ∃ bytes, handleDataMessage ipv6 o capacity r = .ok bytes ∧
    ∀ h, ResponseHeader r.specific.opcode h →
      Accepts (fun r' => r'.specific = some r.specific.cleared ∧
        r'.options.map Prod.fst = r.options) (parse o (h ++ bytes.drop 24))

structure Readable (o : ByteOrder) (capacity : ℕ) (r : Record) : Prop where
  space : messageSize ≤ capacity ∧ r.size ≤ capacity
  specific : r.specific.Readable o
  options : ∀ p ∈ r.options, p.Readable
  host : r.options = [] ∨ o = .littleEndian
  stack : StackFits 3 r.options

section RoundTrip

variable {ipv6 : Vector UInt8 16 → UInt32} {o : ByteOrder} {capacity : ℕ}

/-- The data of an opcode that has some comes back as it is decoded. -/
theorem opcodeSpecific_misread {d : Specific} (hdata : d ≠ .announce) {f : Field}
    (hf : Field.ofOpcode d.opcode = some f) {s : Scanner} {more : List UInt8} {β : Type}
    {K : Option Specific × Token × Scanner → Except (Abort Fault) β}
    (hcondition : s.condition = .field f)
    (hrest : s.rest = (specificFields ipv6 o d).flatten ++ more) :
    ∃ s' : Scanner, s'.condition = .field .optionCode ∧ s'.rest = more ∧
      (opcodeSpecific o s >>= K) =
        (yylex o s' >>= fun x => K (some (d.misread ipv6 o), x.1, x.2)) := by
  cases d with
  | announce => exact absurd rfl hdata
  | map d =>
    cases hf
    exact opcodeSpecific_map hcondition hrest
  | peer d =>
    cases hf
    exact opcodeSpecific_peer hcondition hrest
  | authentication d =>
    cases hf
    exact opcodeSpecific_authentication hcondition hrest

theorem accepts_parse {d : Specific} (hdata : d ≠ .announce) {h more : List UInt8}
    (hwf : ResponseHeader d.opcode h) {P : Option Specific → List (PCPOption × ℕ) → Prop} :
    ∃ s : Scanner, s.condition = .field .optionCode ∧ s.rest = more ∧
      (Accepts (fun r' => P r'.specific r'.options)
        (parse o (h ++ ((specificFields ipv6 o d).flatten ++ more))) ↔
        Accepts (P (some (d.misread ipv6 o))) (resume o 3 s [])) := by
  obtain ⟨f, hf⟩ := ofOpcode_known hwf.known
  obtain ⟨r, s, hheader, hc, hr, -⟩ :=
    @header_ok o d.opcode h hwf f hf ((specificFields ipv6 o d).flatten ++ more)
  obtain ⟨s', hc, hr, hspecific⟩ := opcodeSpecific_misread hdata hf (K := fun x =>
    ((options o).run ⟨3, x.2.1, x.2.2, []⟩).2 >>= fun l =>
      .ok { r with specific := x.1, options := l }) hc hr
  refine ⟨s', hc, hr, ?_⟩
  have hparse : parse o (h ++ ((specificFields ipv6 o d).flatten ++ more)) =
      resume o 3 s' [] >>= fun l => .ok { r with
        specific := some (d.misread ipv6 o), options := l } := by
    rw [parse, hheader, ok_bind, resume, bind_assoc]
    exact hspecific
  rw [hparse, accepts_bind]
  rfl

def responseHeader (opcode : UInt8) : List UInt8 := [2, opcode ||| 0x80] ++ List.replicate 22 0

theorem responseHeader_wf (d : Specific) : ResponseHeader d.opcode (responseHeader d.opcode) where
  length := rfl
  response := rfl
  known := by cases d <;> simp only [Specific.opcode] <;> decide

theorem accepts_readable {s : Scanner} {items : ℕ} {l : List PCPOption}
    (h : Accepts (fun a => a.map Prod.fst = l) (resume o items s [])) : ∀ p ∈ l, p.Readable := by
  obtain ⟨a, hresume, rfl⟩ := accepts_iff.mp h
  obtain ⟨x, -, hrun⟩ := bind_eq_ok.mp hresume
  intro p hp
  obtain ⟨e, he, rfl⟩ := List.mem_map.mp hp
  exact run_readable (by simp) hrun e he

/-- Options come back exactly when they can, the host is little-endian, and the stack lasts. -/
theorem accepts_options_iff {l : List PCPOption} (hl : ∀ p ∈ l, p.Supported) {s : Scanner}
    {items : ℕ} (hcondition : s.condition = .field .optionCode)
    (hrest : s.rest = (l.flatMap (optionFields ipv6 o)).flatten) :
    Accepts (fun a => a.map Prod.fst = l) (resume o items s []) ↔
      (∀ p ∈ l, p.Readable) ∧ (l = [] ∨ o = .littleEndian) ∧ StackFits items l := by
  cases l with
  | nil =>
    rw [resume_nil hcondition hrest, accepts_reserve]
    simp [StackFits]
  | cons p l =>
    cases o with
    | bigEndian =>
      refine iff_of_false (not_accepts_options hcondition hrest) ?_
      rintro ⟨-, h, -⟩
      simp at h
    | littleEndian =>
      constructor
      · intro h
        have hreadable := accepts_readable h
        rw [accepts_options (fun q hq => ⟨hl q hq, hreadable q hq⟩) hcondition hrest] at h
        exact ⟨hreadable, .inr rfl, h.1⟩
      · rintro ⟨hreadable, -, hstack⟩
        rw [accepts_options (fun q hq => ⟨hl q hq, hreadable q hq⟩) hcondition hrest]
        exact ⟨hstack, rfl⟩

/-- A record comes back exactly when it is readable. -/
theorem roundTrips_iff_readable (r : Record) (hdata : r.specific ≠ .announce)
    (hsupported : ∀ p ∈ r.options, p.Supported) :
    RoundTrips ipv6 o capacity r ↔ Readable o capacity r := by
  have hbody : ((headerFields ipv6 o r ++ specificFields ipv6 o r.specific ++
      r.options.flatMap (optionFields ipv6 o)).flatten).drop 24 =
      (specificFields ipv6 o r.specific).flatten ++
        (r.options.flatMap (optionFields ipv6 o)).flatten := by
    rw [List.flatten_append, List.flatten_append, List.append_assoc,
      ← @headerFields_length ipv6 o r, List.drop_left]
  have hparse {h : List UInt8} (hwf : ResponseHeader r.specific.opcode h) :
      Accepts (fun r' => r'.specific = some r.specific.cleared ∧
        r'.options.map Prod.fst = r.options)
        (parse o (h ++ ((specificFields ipv6 o r.specific).flatten ++
          (r.options.flatMap (optionFields ipv6 o)).flatten))) ↔
      r.specific.Readable o ∧ (∀ p ∈ r.options, p.Readable) ∧
        (r.options = [] ∨ o = .littleEndian) ∧ StackFits 3 r.options := by
    obtain ⟨s, hc, hr, h⟩ := @accepts_parse ipv6 o r.specific hdata h
      (r.options.flatMap (optionFields ipv6 o)).flatten hwf
      (fun d l => d = some r.specific.cleared ∧ l.map Prod.fst = r.options)
    rw [h, ← accepts_options_iff hsupported hc hr, ← @misread_cleared ipv6]
    cases resume o 3 s [] with
    | error e => simp
    | ok l => simp
  constructor
  · rintro ⟨bytes, hbytes, h⟩
    obtain ⟨hspace, rfl⟩ := (handleDataMessage_ok_iff hsupported).mp hbytes
    have haccepts := h _ (responseHeader_wf r.specific)
    rw [hbody, hparse (responseHeader_wf r.specific)] at haccepts
    obtain ⟨hspecific, hoptions, hhost, hstack⟩ := haccepts
    exact ⟨hspace, hspecific, hoptions, hhost, hstack⟩
  · intro hr
    refine ⟨_, (handleDataMessage_ok_iff hsupported).mpr ⟨hr.space, rfl⟩, fun h hwf => ?_⟩
    rw [hbody, hparse hwf]
    exact ⟨hr.specific, hr.options, hr.host, hr.stack⟩

/-- A session of authentication with a session lifetime comes back. -/
theorem roundTrips_authentication :
    RoundTrips (fun _ => 0) .littleEndian 1100
      { version := 2, resultCode := 0, lifetime := 0, clientAddress := .v4 0xC0A80001
        specific := .authentication ⟨7, 1⟩
        options := [⟨10, 0, 4, some (.sessionLifetime 3600)⟩] } := by
  refine (roundTrips_iff_readable _ (by simp) (by simp [PCPOption.Supported]; decide)).mpr ?_
  exact
    { space := by decide
      specific := trivial
      options := by simp [PCPOption.Readable, OptionData.Readable]; decide
      host := .inr rfl
      stack := by simp [StackFits, PCPOption.depth, maxItems] }

/-- A mapping of a TCP port: the protocol stands in the reserved bytes as well. -/
def tcpMapping : Record :=
  { version := 2, resultCode := 0, lifetime := 7200, clientAddress := .v4 0xC0A80001
    specific := .map ⟨1, 6, 0, 80, 8080, .v4 0⟩
    options := [] }

/-- The mapping of a TCP port does not come back. -/
theorem not_roundTrips_tcpMapping : ¬ RoundTrips (fun _ => 0) .littleEndian 1100 tcpMapping := by
  rintro ⟨bytes, hbytes, h⟩
  have hencode : handleDataMessage (fun _ => 0) .littleEndian 1100 tcpMapping =
      .ok ([2, 1, 0, 0, 0, 0, 0x1C, 0x20] ++ List.replicate 10 0 ++ [0xFF, 0xFF, 0xC0, 0xA8, 0, 1] ++
        (List.replicate 11 0 ++ [1, 6, 0x50, 0, 0x90, 0, 0x50, 0x1F, 0x90] ++
          List.replicate 10 0 ++ [0xFF, 0xFF, 0, 0, 0, 0])) := by
    decide +kernel
  cases hencode.symm.trans hbytes
  have hdecode := h _ (responseHeader_wf tcpMapping.specific)
  have hparse : parse .littleEndian (responseHeader 1 ++
      (List.replicate 11 0 ++ [1, 6, 0x50, 0, 0x90, 0, 0x50, 0x1F, 0x90] ++
        List.replicate 10 0 ++ [0xFF, 0xFF, 0, 0, 0, 0])) =
      .ok { version := 2, opcode := 1, reserved := 0, resultCode := 0, lifetime := 0
            epochTime := 0, reserved2 := 0
            specific := some (.map ⟨1, 6, 0x500096, 80, 8080, .v4 0⟩) } := by
    decide +kernel
  obtain ⟨r', hr', hspecific, -⟩ := accepts_iff.mp hdecode
  cases hparse.symm.trans hr'
  exact absurd hspecific (by decide)

end RoundTrip

end ACENetwork.PCP
