import ACENetwork.PCP.Parser

/-!
# Which options the PCP parser survives

Data of variable size overflows its array as soon as there is a byte of it, and data of a
fixed size is read whatever the length says. So an accepted response accounts for its
lengths only where every option has data of a fixed size, or none, and a length to match.
-/
namespace ACENetwork.PCP
open Library Library.Glr BitTorrent

def padded (length : UInt16) : ℕ := length.toNat + (4 - length.toNat % 4) % 4

def OptionData.variableSize : OptionData → Bool
  | .authenticationTag .. | .paAuthenticationTag .. | .eapPayload _ | .idIndicator _ => true
  | _ => false

/-- An option and the bytes it has consumed agree with its length. -/
def Accounted (e : PCPOption × ℕ) : Prop :=
  e.2 = 4 + padded e.1.length ∧
    ∀ d ∈ e.1.data, d.variableSize = true → d.size = e.1.length.toNat

/-- The widths of the data of an option, from its first field on, and whether there is data
of variable size behind them. -/
def Field.layout : Field → Option (List ℕ × Bool)
  | thirdPartyAddress => some ([16], false)
  | optionCode => some ([], false)
  | filterReserved => some ([1, 1, 2, 16], false)
  | nonceNonce | pseudoRandomFunctionId | macAlgorithmId | sessionLifetimeLifetime
  | receivedPakSequenceNumber => some ([4], false)
  | authenticationTagSessionId => some ([4, 4, 4], true)
  | paAuthenticationTagKeyId => some ([4], true)
  | eapPayloadData | idIndicatorData => some ([], true)
  | _ => none

/-- The data of an option: it ends between two fields, or all its fields are there and none
of variable size. Where the stack of the parser is exhausted nothing more is read. -/
def DataSafe (after : Prop) : ℕ → List ℕ → Bool → List UInt8 → Prop
  | _, [], false, _ => after
  | _, [], true, rest => rest = []
  | items, [width], false, rest =>
    rest = [] ∨ width ≤ rest.length ∧ (items + 1 ≤ maxItems → after)
  | items, width :: widths, tail, rest =>
    rest = [] ∨ width ≤ rest.length ∧
      (items + 2 ≤ maxItems → DataSafe after (items + 2) widths tail (rest.drop width))

/-- The options from one on; `exact` says that the lengths before it have been right. -/
def OptionsSafe (exact : Prop) (items : ℕ) : List UInt8 → Prop
  | [] => items + 1 ≤ maxItems → exact
  | [_] => True
  | [_, _] => True
  | [_, _, _] => ¬ items + 4 ≤ maxItems
  | code :: _ :: high :: low :: rest =>
    let length := UInt16.ofNat (decodeBE [high, low])
    match (Field.ofCode code).bind Field.layout with
    | none => True
    | some (widths, tail) =>
      items + 6 ≤ maxItems →
        if rest = [] ∨ widths = [] ∧ tail = false then
          items + 7 ≤ maxItems → OptionsSafe (exact ∧ padded length = 0) (items + 1) rest
        else DataSafe (OptionsSafe (exact ∧ padded length = widths.sum) (items + 1)
          (rest.drop widths.sum)) (items + 6) widths tail rest
  termination_by bytes => bytes.length

/-- The kinds of a fixed width, of which nothing is asserted. -/
def Kind.plain : Kind → Bool
  | .response | .data _ => false
  | _ => true

section Lex

variable {o : ByteOrder} {f f' : Field} {s : Scanner}

def Scanner.token (o : ByteOrder) (f : Field) (s : Scanner) : Token :=
  { terminal := .field f, ival := f.kind.value o s.ival (s.rest.take f.kind.width) }

def Scanner.behind (o : ByteOrder) (f f' : Field) (s : Scanner) : Scanner :=
  { s with
    condition := .field f', rest := s.rest.drop f.kind.width
    ival := f.kind.value o s.ival (s.rest.take f.kind.width) }

theorem yylex_nil (hcondition : s.condition = .field f) (hnil : s.rest = []) :
    yylex o s = .ok ({ terminal := .end }, s) := by
  simp [yylex, hcondition, fieldRule, hnil]

theorem yylex_plain (hcondition : s.condition = .field f) (hplain : f.kind.plain = true)
    (hnil : s.rest ≠ []) (hwidth : f.kind.width ≤ s.rest.length)
    (hnext : f.next s.opcode s.code = some f') :
    yylex o s = .ok (s.token o f, s.behind o f f') := by
  have hresponse : ¬ (f.kind = .response ∧ o.load (s.rest.take f.kind.width) &&& 0x80 = 0) := by
    rintro ⟨h, -⟩
    rw [h] at hplain
    cases hplain
  simp only [yylex, hcondition, fieldRule, hnil, hwidth, if_false, if_true]
  split
  case h_1 fixed hdata =>
    rw [hdata] at hplain
    cases hplain
  case h_2 =>
    simp only [fixedRule, if_neg hresponse, hnext]
    rfl

theorem yylex_unknown (hcondition : s.condition = .field f) (hplain : f.kind.plain = true)
    (hnil : s.rest ≠ []) (hwidth : f.kind.width ≤ s.rest.length)
    (hnext : f.next s.opcode s.code = none) :
    ∃ s', yylex o s = .ok ({ terminal := .end }, s') := by
  have hresponse : ¬ (f.kind = .response ∧ o.load (s.rest.take f.kind.width) &&& 0x80 = 0) := by
    rintro ⟨h, -⟩
    rw [h] at hplain
    cases hplain
  simp only [yylex, hcondition, fieldRule, hnil, hwidth, if_false, if_true]
  split
  case h_1 fixed hdata =>
    rw [hdata] at hplain
    cases hplain
  case h_2 =>
    simp only [fixedRule, if_neg hresponse, hnext]
    exact ⟨_, rfl⟩

@[simp] theorem token_terminal : (s.token o f).terminal = .field f := rfl

@[simp] theorem behind_rest : (s.behind o f f').rest = s.rest.drop f.kind.width := rfl

end Lex

section Data

variable {o : ByteOrder} {β : Type} {P : β → Prop} {s : Scanner} {items : ℕ}
  {K : Option OptionData × Token × Scanner → Except (Abort Fault) β}
  {limit : ℕ} {missing present : List UInt8 → Prop}

/-- What follows the data of an option, within the limit on the bytes that are left:
`missing` when there is no data, and `present`. -/
structure Follows (o : ByteOrder) (P : β → Prop)
    (K : Option OptionData × Token × Scanner → Except (Abort Fault) β)
    (limit : ℕ) (missing present : List UInt8 → Prop) : Prop where
  absent (s : Scanner) : s.condition = .field .optionCode → s.rest.length ≤ limit →
    (Safely P (yylex o s >>= fun x => K (none, x.1, x.2)) ↔ missing s.rest)
  stop (s : Scanner) : s.rest = [] → (Safely P (K (none, { terminal := .end }, s)) ↔ missing [])
  given (s : Scanner) (d : OptionData) : d.variableSize = false →
    s.condition = .field .optionCode → s.rest.length ≤ limit →
    (Safely P (yylex o s >>= fun x => K (some d, x.1, x.2)) ↔ present s.rest)

end Data

section Run

variable {o : ByteOrder} {items : ℕ} {s s' : Scanner} {acc : List (PCPOption × ℕ)}
  {t : Token} {exact : Prop}

def resume (o : ByteOrder) (items : ℕ) (s : Scanner) (acc : List (PCPOption × ℕ)) :
    Except (Abort Fault) (List (PCPOption × ℕ)) :=
  yylex o s >>= fun x => ((options o).run ⟨items, x.1, x.2, acc⟩).2

theorem run_eq (f : Frame) : ((options o).run f).2 =
    optionsRule o f >>= Sum.elim (fun f' => ((options o).run f').2) Except.ok := by
  cases h : optionsRule o f with
  | error e =>
    have hstep : (options o).step f = .halt (.error e) := by simp only [options, h]
    rw [(options o).run_halt hstep]
    rfl
  | ok x =>
    cases x with
    | inl f' =>
      have hstep : (options o).step f = .silent f' := by simp only [options, h]
      rw [(options o).run_silent hstep]
      rfl
    | inr l =>
      have hstep : (options o).step f = .halt (.ok l) := by simp only [options, h]
      rw [(options o).run_halt hstep]
      rfl

theorem left_yylex (hcondition : s.condition = .field .optionCode) (h : yylex o s = .ok (t, s')) :
    (⟨items, t, s', acc⟩ : Frame).left = s.rest.length := by
  by_cases hnil : s.rest = []
  · rw [yylex_nil hcondition hnil] at h
    cases h
    simp [Frame.left]
  · have hlength := List.length_pos_iff.mpr hnil
    rw [yylex_plain hcondition rfl hnil hlength rfl] at h
    cases h
    simp only [Frame.left, Scanner.token, behind_rest, List.length_drop]
    simp [Field.kind, Kind.width]
    omega

theorem resume_nil (hcondition : s.condition = .field .optionCode) (hnil : s.rest = []) :
    resume o items s acc = reserve (items + 1) >>= fun _ => Except.ok acc := by
  rw [resume, yylex_nil hcondition hnil, ok_bind, run_eq]
  simp only [optionsRule, bind_assoc, ok_bind, Sum.elim_inr]

theorem resume_cons (hcondition : s.condition = .field .optionCode) {code : UInt8}
    {rest : List UInt8} (hrest : s.rest = code :: rest) :
    resume o items s acc = option o items code (s.behind o .optionCode .optionReserved) >>= fun x =>
      ((options o).run ⟨items + 1, x.2.1, x.2.2,
        acc ++ [(x.1, s.rest.length - (⟨items + 1, x.2.1, x.2.2, acc⟩ : Frame).left)]⟩).2 := by
  have hlex := @yylex_plain o .optionCode .optionReserved s hcondition rfl (by simp [hrest])
    (by simp [hrest, Field.kind, Kind.width]) rfl
  have hvalue : (s.token o .optionCode).ival.toUInt8 = code := by
    have hload : o.load [code] = code.toNat := by
      cases o <;> simp [ByteOrder.load, decodeBE]
    apply UInt8.toNat_inj.mp
    simp [Scanner.token, hrest, Field.kind, Kind.width, Kind.value, hload]
  have hleft := @left_yylex o items s _ acc _ hcondition hlex
  rw [resume, hlex, ok_bind, run_eq, ← hleft]
  simp only [optionsRule, token_terminal, bind_assoc, ok_bind, Sum.elim_inl, hvalue]

section Option

variable {β : Type} {P : β → Prop} {code : UInt8}
  {K : PCPOption × Token × Scanner → Except (Abort Fault) β}

end Option

theorem resume_behind (hcondition : s.condition = .field .optionCode) (p : PCPOption)
    (total : ℕ) :
    (yylex o s >>= fun x => ((options o).run ⟨items, x.1, x.2,
      acc ++ [(p, total - (⟨items, x.1, x.2, acc⟩ : Frame).left)]⟩).2) =
      resume o items s (acc ++ [(p, total - s.rest.length)]) := by
  rw [resume]
  cases hlex : yylex o s with
  | error e => rfl
  | ok x => rw [ok_bind, ok_bind, left_yylex hcondition hlex]

end Run

end ACENetwork.PCP
