import ACENetwork.PCP.Options

/-!
# Which responses the PCP parser survives

Behind a well-formed header a response is parsed without a fault, and accepted with options
that have their lengths, if and only if the data of its opcode ends between two fields and
its options are safe.
-/
namespace ACENetwork.PCP
open Library Library.Glr BitTorrent

/-- The header of a response: 24 bytes, the second of which is the opcode with the bit of a
response. -/
structure ResponseHeader (opcode : UInt8) (header : List UInt8) : Prop where
  length : header.length = 24
  response : header[1]? = some (opcode ||| 0x80)
  known : opcode < 4

def FieldsSafe (after : Prop) : List ℕ → List UInt8 → Prop
  | [], _ => after
  | width :: widths, rest =>
    rest = [] ∨ width ≤ rest.length ∧ FieldsSafe after widths (rest.drop width)

section Header

variable {o : ByteOrder} {f f' : Field} {s s' : Scanner} {t : Token}

theorem shift_field (hlex : yylex o s = .ok (t, s')) (hterminal : t.terminal = .field f) :
    shift o f s = .ok (t, s') := by
  simp [shift, hlex, ok_bind, hterminal]

theorem shift_plain (hcondition : s.condition = .field f) (hplain : f.kind.plain = true)
    (hnext : f.next s.opcode s.code = some f') (hwidth : f.kind.width ≤ s.rest.length) :
    shift o f s = .ok (s.token o f, s.behind o f f') :=
  shift_field (yylex_plain hcondition hplain
    (List.length_pos_iff.mp (f.kind.width_pos.trans_le hwidth)) hwidth hnext) rfl

theorem load_singleton (b : UInt8) : o.load [b] = b.toNat := by
  cases o <;> simp [ByteOrder.load, decodeBE]

theorem shift_opcode (hcondition : s.condition = .field .opcode) {b : UInt8} {rest : List UInt8}
    (hrest : s.rest = b :: rest) (hbit : b.toNat &&& 0x80 ≠ 0) :
    shift o .opcode s = .ok (s.token o .opcode, s.behind o .opcode .reserved) := by
  have hload : o.load (s.rest.take Field.opcode.kind.width) = b.toNat := by
    rw [hrest]
    exact load_singleton b
  have hresponse : ¬ (Field.opcode.kind = .response ∧
      o.load (s.rest.take Field.opcode.kind.width) &&& 0x80 = 0) := by
    rw [hload]
    exact fun h => hbit h.2
  have hlex : yylex o s = .ok (s.token o .opcode, s.behind o .opcode .reserved) := by
    have hwidth : Field.opcode.kind.width ≤ s.rest.length := by
      simp [hrest, Field.kind, Kind.width]
    have hrule : fieldRule o .opcode s = fixedRule o .opcode s := by
      simp only [fieldRule, hwidth, if_true, if_neg (show s.rest ≠ [] by simp [hrest])]
      rfl
    simp only [yylex, hcondition, hrule, fixedRule, if_neg hresponse]
    rfl
  exact shift_field hlex rfl

theorem yylex_initial (hcondition : s.condition = .initial) (hnil : s.rest ≠ []) :
    yylex o s = yylex o { s with condition := .field .version } := by
  simp only [yylex, hcondition, fieldRule, hnil, if_false]
  rfl

end Header

section Parse

variable {o : ByteOrder} {opcode : UInt8} {h : List UInt8}

theorem opcode_cases (h : opcode < 4) : opcode = 0 ∨ opcode = 1 ∨ opcode = 2 ∨ opcode = 3 := by
  have hlt : opcode.toNat < 4 := h
  simp only [← UInt8.toNat_inj]
  simp
  omega

theorem opcode_value (hknown : opcode < 4) : (opcode ||| 0x80).toNat &&& 0x80 ≠ 0 ∧
    (UInt64.ofNat (opcode ||| 0x80).toNat &&& 0x7F).toUInt8 = opcode := by
  rcases opcode_cases hknown with rfl | rfl | rfl | rfl <;> decide

/-- A well-formed header is read, and the data of its opcode is next. -/
theorem header_ok (hwf : ResponseHeader opcode h) {f : Field} (hf : Field.ofOpcode opcode = some f)
    (bytes : List UInt8) :
    ∃ r s, header o ⟨.initial, h ++ bytes, 0, 0, 0, 0, 0⟩ = .ok (r, s) ∧
      s.condition = .field f ∧ s.rest = bytes ∧ r.opcode = opcode := by
  obtain ⟨hlength, hresponse, hknown⟩ := hwf
  obtain ⟨hbit, hvalue⟩ := opcode_value hknown
  obtain ⟨version, b, tail, rfl⟩ : ∃ version b tail, h = version :: b :: tail := by
    obtain ⟨version, tail, rfl⟩ := List.exists_cons_of_length_pos (by omega : 0 < h.length)
    obtain ⟨b, tail, rfl⟩ := List.exists_cons_of_length_pos (by simp at hlength; omega :
      0 < tail.length)
    exact ⟨version, b, tail, rfl⟩
  cases hresponse
  replace hlength : tail.length = 22 := by simpa using hlength
  let s₀ : Scanner := ⟨.field .version, version :: (opcode ||| 0x80) :: (tail ++ bytes), 0, 0, 0, 0, 0⟩
  let s₁ := s₀.behind o .version .opcode
  let s₂ : Scanner := { s₁.behind o .opcode .reserved with
    opcode := (s₁.token o .opcode).ival.toUInt8 }
  let s₃ := s₂.behind o .reserved .resultCode
  let s₄ := s₃.behind o .resultCode .lifetime
  let s₅ := s₄.behind o .lifetime .epochTime
  let s₆ := s₅.behind o .epochTime .reserved2
  have hopcode : (s₁.token o .opcode).ival.toUInt8 = opcode := by
    have hload : o.load [opcode ||| 0x80] = (opcode ||| 0x80).toNat := load_singleton _
    rw [← hvalue, ← hload]
    rfl
  have hlex := @yylex_initial o ⟨.initial, s₀.rest, 0, 0, 0, 0, 0⟩ rfl (by simp [s₀])
  have h₀ : shift o .version ⟨.initial, s₀.rest, 0, 0, 0, 0, 0⟩ = .ok (s₀.token o .version, s₁) :=
    shift_field (hlex.trans (yylex_plain rfl rfl (by simp [s₀])
      (by simp [s₀, Field.kind, Kind.width]) rfl)) rfl
  have h₁ : shift o .opcode s₁ = .ok (s₁.token o .opcode, s₁.behind o .opcode .reserved) :=
    shift_opcode rfl rfl hbit
  have hrest : s₂.rest = tail ++ bytes := rfl
  have h₂ := @shift_plain o .reserved .resultCode s₂ rfl rfl rfl (by
    simp [hrest, Field.kind, Kind.width]; omega)
  have h₃ := @shift_plain o .resultCode .lifetime s₃ rfl rfl rfl (by
    simp [s₃, hrest, Field.kind, Kind.width]; omega)
  have h₄ := @shift_plain o .lifetime .epochTime s₄ rfl rfl rfl (by
    simp [s₄, s₃, hrest, Field.kind, Kind.width]; omega)
  have h₅ := @shift_plain o .epochTime .reserved2 s₅ rfl rfl rfl (by
    simp [s₅, s₄, s₃, hrest, Field.kind, Kind.width]; omega)
  have h₆ := @shift_plain o .reserved2 f s₆ rfl rfl (by
    rw [← hf, ← hopcode]
    rfl) (by
    simp [s₆, s₅, s₄, s₃, hrest, Field.kind, Kind.width]; omega)
  refine ⟨_, s₆.behind o .reserved2 f, bind_eq_ok.mpr ⟨_, h₀, bind_eq_ok.mpr ⟨_, h₁,
    bind_eq_ok.mpr ⟨_, h₂, bind_eq_ok.mpr ⟨_, h₃, bind_eq_ok.mpr ⟨_, h₄, bind_eq_ok.mpr ⟨_, h₅,
      bind_eq_ok.mpr ⟨_, h₆, rfl⟩⟩⟩⟩⟩⟩⟩, rfl, ?_, hopcode⟩
  simp [s₆, s₅, s₄, s₃, hrest, Field.kind, Kind.width, hlength]

end Parse

theorem ofOpcode_known {opcode : UInt8} (h : opcode < 4) : ∃ f, Field.ofOpcode opcode = some f := by
  rcases opcode_cases h with rfl | rfl | rfl | rfl <;> exact ⟨_, rfl⟩

section Body

variable {o : ByteOrder} {β : Type} {P : β → Prop} {s : Scanner} {after : List UInt8 → Prop}
  {K : Option Specific × Token × Scanner → Except (Abort Fault) β}

/-- What follows the data of an opcode: the end, or what is behind it. -/
structure Ends (o : ByteOrder) (P : β → Prop)
    (K : Option Specific × Token × Scanner → Except (Abort Fault) β)
    (after : List UInt8 → Prop) : Prop where
  stop (s : Scanner) : Safely P (K (none, { terminal := .end }, s))
  given (s : Scanner) (d : Option Specific) : s.condition = .field .optionCode →
    (Safely P (yylex o s >>= fun x => K (d, x.1, x.2)) ↔ after s.rest)

end Body

end ACENetwork.PCP
