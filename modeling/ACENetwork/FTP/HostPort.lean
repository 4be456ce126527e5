import ACENetwork.BitTorrent.Common
import ACENetwork.Library.Formatting
import ACENetwork.Net.IPAddresses

/-!
# Hosts and ports in FTP commands and replies

`FTP_Tools::generatePORTArgument` and `FTP_Tools::parsePASVResponse`. The reply's port is written
into the stream that still holds the text of its lower half, so that digits of it may stay behind
the port.
-/
namespace ACENetwork.FTP
open BitTorrent (Fault)
open Library Net.Addresses

section Source

/-- Groups of up to three digits, each with an octet behind it, and what comes behind them. -/
def separated (last : Pattern UInt8) : ℕ → Bytes → Pattern UInt8
  | _, [] => last
  | n, sep :: seps =>
    .seq (.group n (.chars isDigit 1 (some 3))) (.seq (.word [sep]) (separated last (n + 1) seps))

def portPattern : Pattern UInt8 :=
  separated (.group 5 (.chars isDigit 1 (some 5))) 1 (text "...:")

def isDotOctet (b : UInt8) : Bool := b != 0x0A && b != 0x0D

def pasvPattern : Pattern UInt8 :=
  .seq (.chars (· != '('.toUInt8) 0 none) (.seq (.word (text "("))
    (separated (.chars isDotOctet 0 none) 1 (text ",,,,,)")))

def generatePORTArgument (hostAddr : Option Bytes) (port : UInt16) : Except Fault Bytes :=
  match hostAddr with
  | none => .error .assertion
  | some address =>
    match portPattern.fullMatch (address ++ ':'.toUInt8 :: decimal port.toNat) with
    | none => .ok []
    | some groups =>
      match groups 1, groups 2, groups 3, groups 4, groups 5 with
      | some a, some b, some c, some d, some _ =>
        .ok (joined ','.toUInt8 [a, b, c, d, decimal (port >>> 8).toNat,
          decimal (port &&& 0xFF).toNat])
      | _, _, _, _, _ => .error .assertion

/-- An insertion into a stream at its beginning; what it held stays behind it. -/
def overwrite (held inserted : Bytes) : Bytes := inserted ++ held.drop inserted.length

def portNumber (high low : Bytes) : UInt16 :=
  (UInt16.ofNat (decimalValue high) <<< 8) ||| UInt16.ofNat (decimalValue low)

def parsePASVResponse {ι : Type} (stringToAddr : Bytes → Bool → Option (ι × UInt16))
    (unset : ι × UInt16) (s : Bytes) : Except Fault (ι × UInt16) :=
  match pasvPattern.fullMatch s with
  | none => .ok unset
  | some groups =>
    match groups 1, groups 2, groups 3, groups 4, groups 5, groups 6 with
    | some a, some b, some c, some d, some high, some low =>
      .ok (stringToIPAddress stringToAddr unset (joined '.'.toUInt8 [a, b, c, d] ++ ':'.toUInt8 ::
        overwrite low (decimal (portNumber high low).toNat)) 0)
    | _, _, _, _, _, _ => .error .assertion

end Source

structure IsNumber (t : Bytes) : Prop where
  pos : 1 ≤ t.length
  short : t.length ≤ 3
  digits : ∀ b ∈ t, isDigit b = true

section Patterns
variable {last : Pattern UInt8} {n : ℕ} {seps s : Bytes} {g groups : Groups UInt8}
  {numbers : List Bytes} {k : Bytes → Groups UInt8 → Option (Groups UInt8)}

def fields : List Bytes → Bytes → Bytes
  | number :: numbers, sep :: seps => number ++ sep :: fields numbers seps
  | _, _ => []

def setGroups : ℕ → List Bytes → Groups UInt8 → Groups UInt8
  | _, [], g => g
  | n, number :: numbers, g => setGroups (n + 1) numbers (Function.update g n (some number))

theorem run_separated (hseps : ∀ b ∈ seps, isDigit b = false) :
    (separated last n seps).run k s g = some groups ↔
      ∃ numbers rest, numbers.length = seps.length ∧ (∀ t ∈ numbers, IsNumber t) ∧
        s = fields numbers seps ++ rest ∧ last.run k rest (setGroups n numbers g) = some groups := by
  induction seps generalizing n s g with
  | nil =>
    constructor
    · intro h
      exact ⟨[], s, rfl, by simp, rfl, h⟩
    · rintro ⟨numbers, rest, hlength, -, rfl, h⟩
      obtain rfl := List.length_eq_zero_iff.mp hlength
      exact h
  | cons sep seps ih =>
    obtain ⟨hsep, hseps⟩ := List.forall_mem_cons.mp hseps
    rw [separated, Pattern.run, Pattern.run_capture]
    constructor
    · intro h
      obtain ⟨t, rest, rfl, hdigits, hpos, hshort, h⟩ := Pattern.run_chars_some h
      rw [Pattern.take_group, Pattern.run, Pattern.run] at h
      split_ifs at h with hprefix
      obtain ⟨behind, rfl⟩ := List.isPrefixOf_iff_prefix.mp hprefix
      rw [List.drop_left] at h
      obtain ⟨numbers, rest, hlength, hnumbers, rfl, hlast⟩ := (ih hseps).mp h
      refine ⟨t :: numbers, rest, congrArg (· + 1) hlength,
        List.forall_mem_cons.mpr ⟨⟨hpos, hshort 3 rfl, hdigits⟩, hnumbers⟩, ?_, hlast⟩
      simp [fields]
    · rintro ⟨numbers, rest, hlength, hnumbers, rfl, h⟩
      obtain ⟨t, numbers, rfl⟩ := List.exists_cons_of_length_eq_add_one hlength
      obtain ⟨ht, hnumbers⟩ := List.forall_mem_cons.mp hnumbers
      have hstops : Stops isDigit (sep :: (fields numbers seps ++ rest)) := by
        rintro b ⟨⟩
        exact hsep
      have hsplit : fields (t :: numbers) (sep :: seps) ++ rest =
          t ++ sep :: (fields numbers seps ++ rest) := by simp [fields]
      rw [hsplit]
      refine Pattern.run_chars_atMost ht.digits hstops ht.pos ht.short ?_
      have hprefix : [sep].isPrefixOf (sep :: (fields numbers seps ++ rest)) = true :=
        List.isPrefixOf_iff_prefix.mpr ⟨_, rfl⟩
      rw [Pattern.take_group, Pattern.run, Pattern.run, if_pos hprefix]
      exact (ih hseps).mpr ⟨numbers, rest, Nat.succ.inj hlength, hnumbers, rfl, h⟩

/-- The texts that the expression of `parsePASVResponse` matches, and its groups. -/
theorem pasv_match_iff : pasvPattern.fullMatch s = some groups ↔
    ∃ front numbers behind, '('.toUInt8 ∉ front ∧ numbers.length = 6 ∧ (∀ t ∈ numbers, IsNumber t) ∧
      (∀ b ∈ behind, isDotOctet b = true) ∧
        s = front ++ '('.toUInt8 :: (fields numbers (text ",,,,,)") ++ behind) ∧
          groups = setGroups 1 numbers fun _ => none := by
  have hseps : ∀ b ∈ text ",,,,,)", isDigit b = false := by decide +kernel
  have hopen : text "(" = ['('.toUInt8] := rfl
  have hlength : (text ",,,,,)").length = 6 := rfl
  rw [Pattern.fullMatch, pasvPattern, Pattern.run]
  constructor
  · intro h
    obtain ⟨front, rest, rfl, hfront, -, -, h⟩ := Pattern.run_chars_some h
    rw [Pattern.run, Pattern.run, hopen] at h
    split_ifs at h with hprefix
    obtain ⟨rest, rfl⟩ := List.isPrefixOf_iff_prefix.mp hprefix
    rw [List.drop_left] at h
    obtain ⟨numbers, rest, hnumber, hnumbers, rfl, hlast⟩ := (run_separated hseps).mp h
    obtain ⟨behind, rest, rfl, hbehind, -, -, hend⟩ := Pattern.run_chars_some hlast
    obtain ⟨rfl, rfl⟩ := atEnd_some hend
    refine ⟨front, numbers, behind, fun hmem => ?_, hnumber.trans hlength, hnumbers, hbehind, ?_, rfl⟩
    · simpa using hfront _ hmem
    · simp
  · rintro ⟨front, numbers, behind, hfront, hnumber, hnumbers, hbehind, rfl, rfl⟩
    have hrun : ∀ b ∈ front, (b != '('.toUInt8) = true := fun b hb => by
      refine bne_iff_ne.mpr ?_
      rintro rfl
      exact hfront hb
    have hstops : Stops (· != '('.toUInt8)
        ('('.toUInt8 :: (fields numbers (text ",,,,,)") ++ behind)) := by
      rintro b ⟨⟩
      decide
    have hprefix : ['('.toUInt8].isPrefixOf
        ('('.toUInt8 :: (fields numbers (text ",,,,,)") ++ behind)) = true :=
      List.isPrefixOf_iff_prefix.mpr ⟨_, rfl⟩
    refine Pattern.run_chars_first hrun hstops (Nat.zero_le _) ?_
    rw [Pattern.run, Pattern.run, hopen, if_pos hprefix]
    refine (run_separated hseps).mpr ⟨numbers, behind, hnumber.trans hlength.symm, hnumbers, rfl, ?_⟩
    have hlast : (Pattern.chars isDotOctet 0 none).run Pattern.atEnd (behind ++ [])
        (setGroups 1 numbers fun _ => none) = some (setGroups 1 numbers fun _ => none) :=
      Pattern.run_chars_first hbehind (by simp [Stops]) (Nat.zero_le _) (if_pos rfl)
    rw [List.append_nil] at hlast
    exact hlast

/-- The text of an address with its port, and the groups of the expression of
`generatePORTArgument`. -/
theorem port_match {port : Bytes} (hlength : numbers.length = 4)
    (hnumbers : ∀ t ∈ numbers, IsNumber t) (hpos : 1 ≤ port.length) (hshort : port.length ≤ 5)
    (hport : ∀ b ∈ port, isDigit b = true) :
    portPattern.fullMatch (fields numbers (text "...:") ++ port) =
      some (Function.update (setGroups 1 numbers fun _ => none) 5 (some port)) := by
  have hseps : ∀ b ∈ text "...:", isDigit b = false := by decide +kernel
  have hseps_length : (text "...:").length = 4 := rfl
  rw [Pattern.fullMatch, portPattern]
  refine (run_separated hseps).mpr ⟨numbers, port, hlength.trans hseps_length.symm, hnumbers, rfl, ?_⟩
  have hlast : (Pattern.group 5 (.chars isDigit 1 (some 5))).run Pattern.atEnd (port ++ [])
      (setGroups 1 numbers fun _ => none) =
        some (Function.update (setGroups 1 numbers fun _ => none) 5 (some port)) := by
    have hend : Stops isDigit ([] : Bytes) := by simp [Stops]
    rw [Pattern.run_capture]
    refine Pattern.run_chars_atMost hport hend hpos hshort ?_
    rw [Pattern.take_group]
    exact if_pos rfl
  rw [List.append_nil] at hlast
  exact hlast

end Patterns

section Numbers
variable {t : Bytes}

/-- A part of an address in the numbers-and-dots notation: it is octal behind a zero. -/
def inetOctet (t : Bytes) : Option ℕ :=
  if t.head? = some '0'.toUInt8 ∧ 1 < t.length then
    if t.all (fun b => digitValue b < 8) ∧ Nat.ofDigits 8 (t.reverse.map digitValue) ≤ 255 then
      some (Nat.ofDigits 8 (t.reverse.map digitValue))
    else none
  else if decimalValue t ≤ 255 then some (decimalValue t) else none

theorem IsNumber.cases (h : IsNumber t) : (∃ a < 10, t = [digit a]) ∨
    (∃ a < 10, ∃ b < 10, t = [digit a, digit b]) ∨
      ∃ a < 10, ∃ b < 10, ∃ c < 10, t = [digit a, digit b, digit c] := by
  have hdigit {b : UInt8} (hb : b ∈ t) : digitValue b < 10 ∧ b = digit (digitValue b) :=
    ⟨digitValue_lt (h.digits b hb), (digit_digitValue (h.digits b hb)).symm⟩
  rcases t with _ | ⟨a, _ | ⟨b, _ | ⟨c, _ | ⟨d, t⟩⟩⟩⟩
  · exact absurd h.pos (by simp)
  · obtain ⟨ha, ha'⟩ := hdigit (b := a) (by simp)
    exact .inl ⟨_, ha, congrArg (fun x => [x]) ha'⟩
  · obtain ⟨ha, ha'⟩ := hdigit (b := a) (by simp)
    obtain ⟨hb, hb'⟩ := hdigit (b := b) (by simp)
    exact .inr (.inl ⟨_, ha, _, hb, congrArg₂ (fun x y => [x, y]) ha' hb'⟩)
  · obtain ⟨ha, ha'⟩ := hdigit (b := a) (by simp)
    obtain ⟨hb, hb'⟩ := hdigit (b := b) (by simp)
    obtain ⟨hc, hc'⟩ := hdigit (b := c) (by simp)
    refine .inr (.inr ⟨_, ha, _, hb, _, hc, ?_⟩)
    rw [← ha', ← hb', ← hc']
  · exact absurd h.short (by simp)

theorem IsNumber.induction {P : Bytes → Prop} (h : IsNumber t) (h₁ : ∀ a < 10, P [digit a])
    (h₂ : ∀ a < 10, ∀ b < 10, P [digit a, digit b])
    (h₃ : ∀ a < 10, ∀ b < 10, ∀ c < 10, P [digit a, digit b, digit c]) : P t := by
  rcases h.cases with ⟨a, ha, rfl⟩ | ⟨a, ha, b, hb, rfl⟩ | ⟨a, ha, b, hb, c, hc, rfl⟩
  · exact h₁ a ha
  · exact h₂ a ha b hb
  · exact h₃ a ha b hb c hc

/-- How a number is read: above 255 not at all, and below as it is exactly without a zero in front
or below eight. What is read as nothing is nothing, and what is not read is not. -/
def OctetFacts (t : Bytes) : Prop :=
  decimalValue t < 1000 ∧ (255 < decimalValue t → inetOctet t = none) ∧
    (inetOctet t = none → decimalValue t ≠ 0) ∧ (inetOctet t = some 0 ↔ decimalValue t = 0) ∧
      (decimalValue t ≤ 255 → (inetOctet t = some (decimalValue t) ↔
        t = decimal (decimalValue t) ∨ decimalValue t < 8))

instance (t : Bytes) : Decidable (OctetFacts t) := inferInstanceAs (Decidable (_ ∧ _))

theorem IsNumber.octetFacts (h : IsNumber t) : OctetFacts t :=
  h.induction (P := OctetFacts) (by decide +kernel) (by decide +kernel) (by decide +kernel)

theorem isNumber_decimal {n : ℕ} (h : n < 1000) : IsNumber (decimal n) := by
  exact ⟨List.length_pos_of_ne_nil (decimal_ne_nil n), (decimal_length_le (by decide)).mpr h,
    fun b hb => isDigit_of_mem_decimal hb⟩

/-- What follows the opening bracket of a reply: the numbers of an address, and of a port. -/
structure HostPort where
  quad : List Bytes
  high : Bytes
  low : Bytes
  length : quad.length = 4
  quad_numbers : ∀ t ∈ quad, IsNumber t
  high_number : IsNumber high
  low_number : IsNumber low

namespace HostPort

variable (hp : HostPort)

def text : Bytes := joined ','.toUInt8 (hp.quad ++ [hp.high, hp.low])

/-- A text with the numbers in brackets; there is no line end behind them. -/
def In (s : Bytes) : Prop := ∃ front behind, '('.toUInt8 ∉ front ∧
  (∀ b ∈ behind, isDotOctet b = true) ∧ s = front ++ '('.toUInt8 :: (hp.text ++ ')'.toUInt8 :: behind)

def Valid : Prop := (∀ t ∈ hp.quad, decimalValue t ≤ 255) ∧ decimalValue hp.high ≤ 255 ∧
  decimalValue hp.low ≤ 255

def port : UInt16 := UInt16.ofNat (256 * decimalValue hp.high + decimalValue hp.low)

/-- The numbers for which the code answers as it should: they stand for an address and a port, and
are read as they are; they do not, and one of the address is not read; or they do not, and
what is read is the address that is not set. -/
inductive Answered : Prop
  | read (hquad : ∀ t ∈ hp.quad, decimalValue t ≤ 255 ∧
      (t = decimal (decimalValue t) ∨ decimalValue t < 8))
    (hhigh : decimalValue hp.high ≤ 255) (hlow : decimalValue hp.low ≤ 255)
    (hport : decimalValue hp.high ≠ 0 ∨ decimalValue hp.low = 0 ∨
      hp.low = decimal (decimalValue hp.low))
  | refused (hquad : ∃ t ∈ hp.quad, inetOctet t = none) (hvalid : ¬ hp.Valid)
  | unset (hquad : ∀ t ∈ hp.quad, decimalValue t = 0) (hhigh : 255 < decimalValue hp.high)
    (hmod : decimalValue hp.high % 256 = 0) (hlow : decimalValue hp.low = 0)

end HostPort

end Numbers

section Ports
variable {high low t : Bytes}

theorem decimalValue_append (front behind : Bytes) : decimalValue (front ++ behind) =
    decimalValue front * 10 ^ behind.length + decimalValue behind := by
  simp only [decimalValue, List.reverse_append, List.map_append, Nat.ofDigits_append,
    List.length_map, List.length_reverse]
  ring

/-- The text of a port below 256 is written over its own digits. -/
def PortFacts (low : Bytes) : Prop :=
  (decimalValue (overwrite low (decimal (decimalValue low))) = decimalValue low ↔
    decimalValue low = 0 ∨ low = decimal (decimalValue low)) ∧
      (decimalValue low = 0 → decimalValue (low.drop 1) = 0)

instance (low : Bytes) : Decidable (PortFacts low) := inferInstanceAs (Decidable (_ ∧ _))

theorem IsNumber.portFacts (h : IsNumber low) : PortFacts low :=
  h.induction (P := PortFacts) (by decide +kernel) (by decide +kernel) (by decide +kernel)

theorem decimal_length {n : ℕ} (h : 100 ≤ n) : 3 ≤ (decimal n).length := by
  by_contra hlt
  have hpow := (decimal_length_le (by decide : 0 < 2)).mp (by omega : (decimal n).length ≤ 2)
  omega

/-- A port of three digits covers what the stream held. -/
theorem overwrite_of_le {n : ℕ} (h : IsNumber low) (hn : 100 ≤ n) :
    overwrite low (decimal n) = decimal n := by
  have hlength := decimal_length hn
  have hshort := h.short
  rw [overwrite, List.drop_eq_nil_of_le (by omega), List.append_nil]

theorem overwrite_digits {n : ℕ} (h : IsNumber low) :
    ∀ b ∈ overwrite low (decimal n), isDigit b = true := fun b hb => by
  rcases List.mem_append.mp hb with hb | hb
  · exact isDigit_of_mem_decimal hb
  · exact h.digits b (List.mem_of_mem_drop hb)

theorem overwrite_ne_nil (n : ℕ) : overwrite low (decimal n) ≠ [] :=
  List.append_ne_nil_of_left_ne_nil (decimal_ne_nil n) _

theorem decimalValue_lt (hdigits : ∀ b ∈ t, isDigit b = true) : decimalValue t < 10 ^ t.length := by
  have hlt : ∀ d ∈ t.reverse.map digitValue, d < 10 := by
    intro d hd
    obtain ⟨b, hb, rfl⟩ := List.mem_map.mp hd
    exact digitValue_lt (hdigits b (List.mem_reverse.mp hb))
  have hpow := Nat.ofDigits_lt_base_pow_length (by decide : 1 < 10) hlt
  simpa [decimalValue] using hpow

theorem overwrite_lt {n : ℕ} (h : IsNumber low) (hn : n < 2 ^ 16) :
    decimalValue (overwrite low (decimal n)) < 2 ^ 16 := by
  by_cases hlarge : 100 ≤ n
  · rw [overwrite_of_le h hlarge, decimalValue_decimal]
    exact hn
  · have hlength : (overwrite low (decimal n)).length ≤ 3 := by
      have hshort := h.short
      have hn := (decimal_length_le (by decide : 0 < 2)).mpr (by omega : n < 10 ^ 2)
      rw [overwrite, List.length_append, List.length_drop]
      omega
    calc decimalValue (overwrite low (decimal n))
        < 10 ^ (overwrite low (decimal n)).length := decimalValue_lt (overwrite_digits h)
      _ ≤ 10 ^ 3 := Nat.pow_le_pow_right (by decide) hlength
      _ < 2 ^ 16 := by decide

theorem toNat_portNumber (hhigh : decimalValue high < 1000) (hlow : decimalValue low < 1000) :
    (portNumber high low).toNat = decimalValue high * 256 % 2 ^ 16 ||| decimalValue low := by
  have hhigh : (UInt16.ofNat (decimalValue high)).toNat = decimalValue high :=
    UInt16.toNat_ofNat_of_lt' (by omega : decimalValue high < 2 ^ 16)
  have hlow : (UInt16.ofNat (decimalValue low)).toNat = decimalValue low :=
    UInt16.toNat_ofNat_of_lt' (by omega : decimalValue low < 2 ^ 16)
  have height : (8 : UInt16).toNat % 16 = 8 := rfl
  rw [portNumber, UInt16.toNat_or, UInt16.toNat_shiftLeft, hhigh, hlow, height, Nat.shiftLeft_eq]

theorem toNat_portNumber_valid (hhigh : decimalValue high ≤ 255) (hlow : decimalValue low ≤ 255) :
    (portNumber high low).toNat = 256 * decimalValue high + decimalValue low := by
  rw [toNat_portNumber (by omega) (by omega), Nat.mod_eq_of_lt (by omega)]
  have hshift := Nat.shiftLeft_add_eq_or_of_lt (i := 8) (b := decimalValue low) (by omega)
    (decimalValue high)
  rw [Nat.shiftLeft_eq] at hshift
  have height : (2 : ℕ) ^ 8 = 256 := rfl
  rw [height] at hshift
  rw [← hshift]
  omega

/-- The port that is read is the one that the numbers stand for, unless digits stay behind it. -/
theorem overwrite_valid_iff (hlow_number : IsNumber low) (hhigh : decimalValue high ≤ 255)
    (hlow : decimalValue low ≤ 255) :
    decimalValue (overwrite low (decimal (portNumber high low).toNat)) =
        256 * decimalValue high + decimalValue low ↔
      decimalValue high ≠ 0 ∨ decimalValue low = 0 ∨ low = decimal (decimalValue low) := by
  rw [toNat_portNumber_valid hhigh hlow]
  by_cases hzero : decimalValue high = 0
  · rw [hzero, Nat.mul_zero, Nat.zero_add, hlow_number.portFacts.1]
    simp
  · rw [overwrite_of_le hlow_number (by omega), decimalValue_decimal]
    exact iff_of_true rfl (.inl hzero)

/-- The port that is read is zero exactly if no bit of the numbers is left. -/
theorem overwrite_zero_iff (hhigh : IsNumber high) (hlow : IsNumber low) :
    decimalValue (overwrite low (decimal (portNumber high low).toNat)) = 0 ↔
      decimalValue high % 256 = 0 ∧ decimalValue low = 0 := by
  have hnumber := toNat_portNumber hhigh.octetFacts.1 hlow.octetFacts.1
  have hzero : (portNumber high low).toNat = 0 ↔
      decimalValue high % 256 = 0 ∧ decimalValue low = 0 := by
    rw [hnumber, Nat.or_eq_zero_iff]
    exact and_congr_left fun _ => by omega
  rw [overwrite, decimalValue_append, decimalValue_decimal, Nat.add_eq_zero_iff, Nat.mul_eq_zero]
  constructor
  · rintro ⟨hport | hpow, -⟩
    · exact hzero.mp hport
    · exact absurd hpow (pow_ne_zero _ (by decide))
  · intro h
    have hport := hzero.mpr h
    have hone : (decimal 0).length = 1 := rfl
    rw [hport, hone]
    exact ⟨.inl rfl, hlow.portFacts.2 h.2⟩

end Ports

section Replies
variable {ι : Type} {stringToAddr : Bytes → Bool → Option (ι × UInt16)} {ip : List ℕ → ι}
  {unset : ι × UInt16} {s : Bytes} {hp : HostPort}

/-- What is known of `string_to_addr`: the address of four octets is read in the numbers-and-dots
notation, and the port is decimal; an address is told by its octets, and the one that is not set
is zero. -/
structure ReadsQuads (stringToAddr : Bytes → Bool → Option (ι × UInt16)) (ip : List ℕ → ι)
    (unset : ι × UInt16) : Prop where
  read : ∀ (quad : List Bytes) (port : Bytes), quad.length = 4 → (∀ t ∈ quad, IsNumber t) →
    port ≠ [] → (∀ b ∈ port, isDigit b = true) → decimalValue port < 2 ^ 16 →
      stringToAddr (joined '.'.toUInt8 quad ++ ':'.toUInt8 :: port) true =
        (quad.mapM inetOctet).map fun octets => (ip octets, UInt16.ofNat (decimalValue port))
  injective : ∀ octets octets' : List ℕ, octets.length = 4 → octets'.length = 4 →
    ip octets = ip octets' → octets = octets'
  unset : unset = (ip [0, 0, 0, 0], 0)

/-- The code answers a text as it should: with the address and the port that the numbers in it
stand for, and where there are none, or they stand for none, with the address that is not set. -/
structure Right (stringToAddr : Bytes → Bool → Option (ι × UInt16)) (ip : List ℕ → ι)
    (unset : ι × UInt16) (s : Bytes) : Prop where
  valid : ∀ hp : HostPort, hp.In s → hp.Valid →
    parsePASVResponse stringToAddr unset s = .ok (ip (hp.quad.map decimalValue), hp.port)
  invalid : ∀ hp : HostPort, hp.In s → ¬ hp.Valid →
    parsePASVResponse stringToAddr unset s = .ok unset
  none : (∀ hp : HostPort, ¬ hp.In s) → parsePASVResponse stringToAddr unset s = .ok unset

theorem fields_eq {quad : List Bytes} {high low : Bytes} (h : quad.length = 4) :
    fields (quad ++ [high, low]) (text ",,,,,)") =
      joined ','.toUInt8 (quad ++ [high, low]) ++ [')'.toUInt8] := by
  have hseps : text ",,,,,)" = [','.toUInt8, ','.toUInt8, ','.toUInt8, ','.toUInt8, ','.toUInt8,
    ')'.toUInt8] := rfl
  obtain ⟨a, b, c, d, rfl⟩ := List.length_eq_four.mp h
  rw [hseps]
  simp [fields, joined]

theorem match_of_in (h : hp.In s) : pasvPattern.fullMatch s =
    some (setGroups 1 (hp.quad ++ [hp.high, hp.low]) fun _ => none) := by
  obtain ⟨front, behind, hfront, hbehind, rfl⟩ := h
  have hnumbers : ∀ t ∈ hp.quad ++ [hp.high, hp.low], IsNumber t := by
    simp only [List.mem_append, List.mem_cons, List.not_mem_nil, or_false]
    rintro t (ht | rfl | rfl)
    · exact hp.quad_numbers t ht
    · exact hp.high_number
    · exact hp.low_number
  refine pasv_match_iff.2 ⟨front, hp.quad ++ [hp.high, hp.low], behind, hfront, ?_, hnumbers,
    hbehind, ?_, rfl⟩
  · rw [List.length_append, hp.length]
    rfl
  · rw [fields_eq hp.length, HostPort.text, List.append_assoc]
    rfl

theorem exists_in {groups : Groups UInt8} (h : pasvPattern.fullMatch s = some groups) :
    ∃ hp : HostPort, hp.In s := by
  obtain ⟨front, numbers, behind, hfront, hlength, hnumbers, hbehind, rfl, -⟩ := pasv_match_iff.1 h
  obtain ⟨quad, ends, rfl, hquad⟩ : ∃ quad ends, numbers = quad ++ ends ∧ quad.length = 4 :=
    ⟨numbers.take 4, numbers.drop 4, (List.take_append_drop 4 numbers).symm, by
      rw [List.length_take, hlength]; rfl⟩
  rw [List.length_append, hquad] at hlength
  obtain ⟨high, low, rfl⟩ := List.length_eq_two.mp (by omega : ends.length = 2)
  simp only [List.mem_append, List.mem_cons, List.not_mem_nil, or_false] at hnumbers
  refine ⟨⟨quad, high, low, hquad, fun t ht => hnumbers t (.inl ht), hnumbers high (by simp),
    hnumbers low (by simp)⟩, front, behind, hfront, hbehind, ?_⟩
  rw [fields_eq hquad, HostPort.text, List.append_assoc]
  rfl

theorem parse_of_in (h : ReadsQuads stringToAddr ip unset) (hin : hp.In s) :
    parsePASVResponse stringToAddr unset s = .ok (((hp.quad.mapM inetOctet).map fun octets =>
      (ip octets, UInt16.ofNat (decimalValue (overwrite hp.low
        (decimal (portNumber hp.high hp.low).toNat))))).getD unset) := by
  have hlow := hp.low_number
  have hport_lt : (portNumber hp.high hp.low).toNat < 2 ^ 16 := UInt16.toNat_lt _
  have hdigits := overwrite_digits (n := (portNumber hp.high hp.low).toNat) hlow
  have hread := h.read hp.quad _ hp.length hp.quad_numbers (overwrite_ne_nil _) hdigits
    (overwrite_lt hlow hport_lt)
  have hquad : IsPart (joined '.'.toUInt8 hp.quad) :=
    ⟨List.ne_nil_of_mem (mem_quad hp.length),
      notMem_joined (by decide) fun t ht => notMem_of_class (hp.quad_numbers t ht).digits (by decide),
      notMem_joined (by decide) fun t ht => notMem_of_class (hp.quad_numbers t ht).digits (by decide)⟩
  have hmatch := not_match_pair hquad (isPart_digits (overwrite_ne_nil _) hdigits)
  have hresolved : stringToIPAddress stringToAddr unset (joined '.'.toUInt8 hp.quad ++
      ':'.toUInt8 :: overwrite hp.low (decimal (portNumber hp.high hp.low).toNat)) 0 =
        ((hp.quad.mapM inetOctet).map fun octets => (ip octets, UInt16.ofNat (decimalValue
          (overwrite hp.low (decimal (portNumber hp.high hp.low).toNat))))).getD unset := by
    have hcolon : ':'.toUInt8 ∈ joined '.'.toUInt8 hp.quad ++ ':'.toUInt8 ::
        overwrite hp.low (decimal (portNumber hp.high hp.low).toNat) := by simp
    simp only [stringToIPAddress, hmatch, Bool.false_eq_true, if_false, hcolon, if_true,
      Bool.not_false, hread]
  rw [← hresolved, parsePASVResponse, match_of_in hin]
  obtain ⟨a, b, c, d, hfour⟩ := List.length_eq_four.mp hp.length
  rw [hfour]
  rfl

theorem parse_of_not_in (h : ∀ hp : HostPort, ¬ hp.In s) :
    parsePASVResponse stringToAddr unset s = .ok unset := by
  rw [parsePASVResponse]
  cases hmatch : pasvPattern.fullMatch s with
  | none => rfl
  | some groups =>
    obtain ⟨hp, hin⟩ := exists_in hmatch
    exact absurd hin (h hp)

theorem mapM_eq_some {quad : List Bytes} {octets : List ℕ} :
    quad.mapM inetOctet = some octets ↔ quad.map inetOctet = octets.map some := by
  induction quad generalizing octets with
  | nil => cases octets <;> simp
  | cons t quad ih =>
    rw [List.mapM_cons]
    cases hquad : quad.mapM inetOctet with
    | none =>
      have hnot (octets : List ℕ) : quad.map inetOctet ≠ octets.map some := fun heq => by
        rw [ih.mpr heq] at hquad
        cases hquad
      cases octets <;> simp [hnot]
    | some read =>
      rw [ih] at hquad
      have hinjective : Function.Injective (List.map (some : ℕ → Option ℕ)) :=
        List.map_injective_iff.mpr (Option.some_injective ℕ)
      cases ht : inetOctet t <;> cases octets <;> simp [ht, hquad, hinjective.eq_iff]

theorem mapM_inetOctet {quad : List Bytes} {f : Bytes → ℕ} :
    quad.mapM inetOctet = some (quad.map f) ↔ ∀ t ∈ quad, inetOctet t = some (f t) := by
  rw [mapM_eq_some, List.map_map]
  exact List.map_inj_left

theorem exists_unread {quad : List Bytes} (h : quad.mapM inetOctet = none) :
    ∃ t ∈ quad, inetOctet t = none := by
  by_contra hnone
  have hall : quad.mapM inetOctet = some (quad.map fun t => (inetOctet t).getD 0) := by
    refine mapM_inetOctet.2 fun t ht => ?_
    cases hread : inetOctet t with
    | none => exact absurd ⟨t, ht, hread⟩ hnone
    | some n => rfl
  rw [h] at hall
  cases hall

theorem ofNat_inj {m n : ℕ} (hm : m < 2 ^ 16) (hn : n < 2 ^ 16) :
    UInt16.ofNat m = UInt16.ofNat n ↔ m = n := by
  refine ⟨fun h => ?_, congrArg _⟩
  have hmod := congrArg UInt16.toNat h
  rwa [UInt16.toNat_ofNat_of_lt' hm, UInt16.toNat_ofNat_of_lt' hn] at hmod

theorem map_zero {quad : List Bytes} (h : quad.length = 4) {f : Bytes → ℕ} :
    quad.map f = [0, 0, 0, 0] ↔ ∀ t ∈ quad, f t = 0 := by
  obtain ⟨a, b, c, d, rfl⟩ := List.length_eq_four.mp h
  simp

def HostPort.readPort (hp : HostPort) : ℕ :=
  decimalValue (overwrite hp.low (decimal (portNumber hp.high hp.low).toNat))

theorem HostPort.readPort_lt (hp : HostPort) : hp.readPort < 2 ^ 16 :=
  overwrite_lt hp.low_number (UInt16.toNat_lt _)

/-- Where the numbers stand for an address and a port, the answer is right exactly if they are read
as they are. -/
theorem parse_valid_iff (h : ReadsQuads stringToAddr ip unset) (hin : hp.In s) (hvalid : hp.Valid) :
    parsePASVResponse stringToAddr unset s = .ok (ip (hp.quad.map decimalValue), hp.port) ↔
      hp.Answered := by
  obtain ⟨hquad, hhigh, hlow⟩ := hvalid
  have hport : UInt16.ofNat hp.readPort = hp.port ↔ decimalValue hp.high ≠ 0 ∨
      decimalValue hp.low = 0 ∨ hp.low = decimal (decimalValue hp.low) := by
    rw [HostPort.port, ofNat_inj hp.readPort_lt (by omega)]
    exact overwrite_valid_iff hp.low_number hhigh hlow
  have hoctets (t : Bytes) (ht : t ∈ hp.quad) : inetOctet t = some (decimalValue t) ↔
      t = decimal (decimalValue t) ∨ decimalValue t < 8 :=
    (hp.quad_numbers t ht).octetFacts.2.2.2.2 (hquad t ht)
  rw [parse_of_in h hin, Except.ok.injEq]
  constructor
  · intro heq
    cases hread : hp.quad.mapM inetOctet with
    | none =>
      obtain ⟨t, ht, hnone⟩ := exists_unread hread
      rw [hread, h.unset] at heq
      have hzero := h.injective [0, 0, 0, 0] _ rfl (by simp [hp.length]) (congrArg Prod.fst heq)
      have hvalue := (map_zero hp.length).mp hzero.symm t ht
      exact absurd hvalue ((hp.quad_numbers t ht).octetFacts.2.2.1 hnone)
    | some octets =>
      rw [hread] at heq
      have hlength : octets.length = 4 := by
        have hmap := congrArg List.length (mapM_eq_some.1 hread)
        rw [List.length_map, List.length_map, hp.length] at hmap
        exact hmap.symm
      have hsame := h.injective _ _ hlength (by simp [hp.length]) (congrArg Prod.fst heq)
      rw [hsame] at hread
      have hall := mapM_inetOctet.1 hread
      exact .read (fun t ht => ⟨hquad t ht, (hoctets t ht).mp (hall t ht)⟩) hhigh hlow
        (hport.mp (congrArg Prod.snd heq))
  · intro hanswered
    cases hanswered with
    | read hcanonical _ _ hlower =>
      have hread : hp.quad.mapM inetOctet = some (hp.quad.map decimalValue) :=
        mapM_inetOctet.2 fun t ht => (hoctets t ht).mpr (hcanonical t ht).2
      rw [hread]
      exact congrArg (Prod.mk _) (hport.mpr hlower)
    | refused _ hinvalid => exact absurd ⟨hquad, hhigh, hlow⟩ hinvalid
    | unset _ hlarge _ _ => omega

/-- Where they do not, it is right exactly if one of them is not read, or they are read as the address
that is not set. -/
theorem parse_invalid_iff (h : ReadsQuads stringToAddr ip unset) (hin : hp.In s)
    (hvalid : ¬ hp.Valid) :
    parsePASVResponse stringToAddr unset s = .ok unset ↔ hp.Answered := by
  have hzero : UInt16.ofNat hp.readPort = 0 ↔
      decimalValue hp.high % 256 = 0 ∧ decimalValue hp.low = 0 := by
    rw [← overwrite_zero_iff hp.high_number hp.low_number]
    exact ofNat_inj (n := 0) hp.readPort_lt (by decide)
  have hoctets (t : Bytes) (ht : t ∈ hp.quad) : inetOctet t = some 0 ↔ decimalValue t = 0 :=
    (hp.quad_numbers t ht).octetFacts.2.2.2.1
  have hzeros : (hp.quad.map fun _ => 0) = [0, 0, 0, 0] := (map_zero hp.length).mpr fun _ _ => rfl
  rw [parse_of_in h hin, Except.ok.injEq]
  constructor
  · intro heq
    cases hread : hp.quad.mapM inetOctet with
    | none => exact .refused (exists_unread hread) hvalid
    | some octets =>
      rw [hread, h.unset] at heq
      have hlength : octets.length = 4 := by
        have hmap := congrArg List.length (mapM_eq_some.1 hread)
        rw [List.length_map, List.length_map, hp.length] at hmap
        exact hmap.symm
      have hsame := h.injective _ _ hlength rfl (congrArg Prod.fst heq)
      rw [hsame, ← hzeros] at hread
      have hvalues : ∀ t ∈ hp.quad, decimalValue t = 0 := fun t ht =>
        (hoctets t ht).mp (mapM_inetOctet.1 hread t ht)
      obtain ⟨hmod, hlow⟩ := hzero.mp (congrArg Prod.snd heq)
      have hhigh : 255 < decimalValue hp.high := by
        by_contra hle
        exact hvalid ⟨fun t ht => by rw [hvalues t ht]; omega, by omega, by omega⟩
      exact .unset hvalues hhigh hmod hlow
  · intro hanswered
    cases hanswered with
    | read hcanonical hhigh hlow _ =>
      exact absurd ⟨fun t ht => (hcanonical t ht).1, hhigh, hlow⟩ hvalid
    | refused hnone _ =>
      cases hread : hp.quad.mapM inetOctet with
      | none => rfl
      | some octets =>
        obtain ⟨t, ht, hnone⟩ := hnone
        have hmem : inetOctet t ∈ octets.map some := by
          rw [← mapM_eq_some.1 hread]
          exact List.mem_map_of_mem ht
        rw [hnone] at hmem
        obtain ⟨n, -, hn⟩ := List.mem_map.mp hmem
        cases hn
    | unset hvalues _ hmod hlow =>
      have hread : hp.quad.mapM inetOctet = some (hp.quad.map fun _ => 0) :=
        mapM_inetOctet.2 fun t ht => (hoctets t ht).mpr (hvalues t ht)
      rw [hread, h.unset, hzeros]
      exact congrArg (Prod.mk _) (hzero.mpr ⟨hmod, hlow⟩)

theorem generatePORTArgument_eq {octets : List ℕ} (hlength : octets.length = 4)
    (hoctets : ∀ n ∈ octets, n ≤ 255) (port : UInt16) :
    generatePORTArgument (some (joined '.'.toUInt8 (octets.map decimal))) port =
      .ok (joined ','.toUInt8 (octets.map decimal ++ [decimal (port >>> 8).toNat,
        decimal (port &&& 0xFF).toNat])) := by
  have hnumbers : ∀ t ∈ octets.map decimal, IsNumber t := by
    intro t ht
    obtain ⟨n, hn, rfl⟩ := List.mem_map.mp ht
    have hle := hoctets n hn
    exact isNumber_decimal (by omega)
  have hlt := port.toNat_lt
  have hshort : (decimal port.toNat).length ≤ 5 := (decimal_length_le (by decide)).mpr (by omega)
  have hmatch := port_match (by simpa using hlength) hnumbers
    (List.length_pos_of_ne_nil (decimal_ne_nil port.toNat)) hshort
    fun b hb => isDigit_of_mem_decimal hb
  obtain ⟨a, b, c, d, rfl⟩ := List.length_eq_four.mp hlength
  have htext : joined '.'.toUInt8 ([a, b, c, d].map decimal) ++ ':'.toUInt8 :: decimal port.toNat =
      fields ([a, b, c, d].map decimal) (text "...:") ++ decimal port.toNat := by
    have hseps : text "...:" = ['.'.toUInt8, '.'.toUInt8, '.'.toUInt8, ':'.toUInt8] := rfl
    rw [hseps]
    simp [fields, joined]
  rw [generatePORTArgument, htext, hmatch]
  rfl

theorem toNat_high (port : UInt16) : (port >>> 8).toNat = port.toNat / 256 := by
  rw [UInt16.toNat_shiftRight, Nat.shiftRight_eq_div_pow]
  rfl

theorem toNat_low (port : UInt16) : (port &&& 0xFF).toNat = port.toNat % 256 := by
  rw [UInt16.toNat_and]
  exact Nat.and_two_pow_sub_one_eq_mod port.toNat 8

def HostPort.ofAddress (octets : List ℕ) (hlength : octets.length = 4)
    (hoctets : ∀ n ∈ octets, n ≤ 255) (port : UInt16) : HostPort where
  quad := octets.map decimal
  high := decimal (port >>> 8).toNat
  low := decimal (port &&& 0xFF).toNat
  length := by rw [List.length_map, hlength]
  quad_numbers t ht := by
    obtain ⟨n, hn, rfl⟩ := List.mem_map.mp ht
    have hle := hoctets n hn
    exact isNumber_decimal (by omega)
  high_number := isNumber_decimal (by
    have hlt := port.toNat_lt
    rw [toNat_high]
    omega)
  low_number := isNumber_decimal (by
    rw [toNat_low]
    omega)

theorem parse_generated (h : ReadsQuads stringToAddr ip unset) {octets : List ℕ}
    (hlength : octets.length = 4) (hoctets : ∀ n ∈ octets, n ≤ 255) (port : UInt16)
    {front behind : Bytes} (hfront : '('.toUInt8 ∉ front)
    (hbehind : ∀ b ∈ behind, isDotOctet b = true) :
    ∃ argument, generatePORTArgument (some (joined '.'.toUInt8 (octets.map decimal))) port =
      .ok argument ∧ parsePASVResponse stringToAddr unset
        (front ++ '('.toUInt8 :: (argument ++ ')'.toUInt8 :: behind)) = .ok (ip octets, port) := by
  refine ⟨_, generatePORTArgument_eq hlength hoctets port, ?_⟩
  have hlt := port.toNat_lt
  have hhigh : decimalValue (decimal (port >>> 8).toNat) = port.toNat / 256 := by
    rw [decimalValue_decimal, toNat_high]
  have hlow : decimalValue (decimal (port &&& 0xFF).toNat) = port.toNat % 256 := by
    rw [decimalValue_decimal, toNat_low]
  have hvalues : (octets.map decimal).map decimalValue = octets := by
    rw [List.map_map]
    exact (List.map_congr_left fun n _ => decimalValue_decimal n).trans (List.map_id octets)
  have hquad : ∀ t ∈ octets.map decimal, decimalValue t ≤ 255 ∧ t = decimal (decimalValue t) := by
    intro t ht
    obtain ⟨n, hn, rfl⟩ := List.mem_map.mp ht
    rw [decimalValue_decimal]
    exact ⟨hoctets n hn, rfl⟩
  have hin : (HostPort.ofAddress octets hlength hoctets port).In
      (front ++ '('.toUInt8 :: (joined ','.toUInt8 (octets.map decimal ++
        [decimal (port >>> 8).toNat, decimal (port &&& 0xFF).toNat]) ++ ')'.toUInt8 :: behind)) :=
    ⟨front, behind, hfront, hbehind, rfl⟩
  have hvalid : (HostPort.ofAddress octets hlength hoctets port).Valid := by
    refine ⟨fun t ht => (hquad t ht).1, ?_, ?_⟩
    · exact hhigh.trans_le (by omega)
    · exact hlow.trans_le (by omega)
  have hanswered : (HostPort.ofAddress octets hlength hoctets port).Answered :=
    .read (fun t ht => ⟨(hquad t ht).1, .inl (hquad t ht).2⟩) hvalid.2.1 hvalid.2.2
      (.inr (.inr (congrArg decimal (decimalValue_decimal _)).symm))
  rw [(parse_valid_iff h hin hvalid).mpr hanswered]
  have hport : (HostPort.ofAddress octets hlength hoctets port).port = port := by
    have hsum : 256 * (port.toNat / 256) + port.toNat % 256 = port.toNat := Nat.div_add_mod _ _
    rw [HostPort.port, HostPort.ofAddress, hhigh, hlow, hsum, UInt16.ofNat_toNat]
  rw [hport]
  exact congrArg (fun octets => Except.ok (ip octets, port)) hvalues

/-- What is written of an address is read as the address; and a text is answered as it should be
exactly if the numbers in it, where there are some, are. -/
theorem parsePASVResponse_right_iff (h : ReadsQuads stringToAddr ip unset) :
    (∀ octets : List ℕ, octets.length = 4 → (∀ n ∈ octets, n ≤ 255) → ∀ (port : UInt16)
      (front behind : Bytes), '('.toUInt8 ∉ front → (∀ b ∈ behind, isDotOctet b = true) →
        ∃ argument, generatePORTArgument (some (joined '.'.toUInt8 (octets.map decimal))) port =
          .ok argument ∧ parsePASVResponse stringToAddr unset
            (front ++ '('.toUInt8 :: (argument ++ ')'.toUInt8 :: behind)) = .ok (ip octets, port)) ∧
      ∀ s, Right stringToAddr ip unset s ↔ ∀ hp : HostPort, hp.In s → hp.Answered := by
  refine ⟨fun octets hlength hoctets port front behind hfront hbehind =>
    parse_generated h hlength hoctets port hfront hbehind, fun s => ⟨fun hright hp hin => ?_,
      fun hanswered => ⟨fun hp hin hvalid => ?_, fun hp hin hvalid => ?_, parse_of_not_in⟩⟩⟩
  · by_cases hvalid : hp.Valid
    · exact (parse_valid_iff h hin hvalid).mp (hright.valid hp hin hvalid)
    · exact (parse_invalid_iff h hin hvalid).mp (hright.invalid hp hin hvalid)
  · exact (parse_valid_iff h hin hvalid).mpr (hanswered hp hin)
  · exact (parse_invalid_iff h hin hvalid).mpr (hanswered hp hin)

/-- A resolver that reads a port, and four octets in front of it. -/
def resolveQuad (s : Bytes) (_ : Bool) : Option (List ℕ × UInt16) :=
  match splitPort s with
  | (digits, _ :: rest) =>
    ((rest.reverse.splitOn '.'.toUInt8).mapM inetOctet).map fun octets =>
      (octets, UInt16.ofNat (decimalValue digits))
  | _ => none

theorem resolveQuad_reads : ReadsQuads resolveQuad id ([0, 0, 0, 0], 0) := by
  refine ⟨fun quad port hlength hquad _ hport _ => ?_, fun _ _ _ _ heq => heq, rfl⟩
  have hne : quad ≠ [] := by
    rintro rfl
    cases hlength
  have hparts : ∀ t ∈ quad, '.'.toUInt8 ∉ t := fun t ht =>
    notMem_of_class (hquad t ht).digits (by decide)
  have hsplit : (joined '.'.toUInt8 quad).splitOn '.'.toUInt8 = quad :=
    List.splitOn_intercalate _ hparts hne
  rw [resolveQuad, splitPort_digits _ hport]
  dsimp only
  rw [List.reverse_reverse, hsplit]
  rfl

theorem loopback_right_iff : (∃ argument,
    generatePORTArgument (some (joined '.'.toUInt8 ([127, 0, 0, 1].map decimal))) 1234 =
      .ok argument ∧ parsePASVResponse resolveQuad ([0, 0, 0, 0], 0)
        (text "227 Entering Passive Mode " ++ '('.toUInt8 :: (argument ++ ')'.toUInt8 :: text ".")) =
          .ok (id [127, 0, 0, 1], 1234)) ∧
    (Right resolveQuad id ([0, 0, 0, 0], 0) (text "(127,0,0,1,0,5)") ↔
      ∀ hp : HostPort, hp.In (text "(127,0,0,1,0,5)") → hp.Answered) :=
  have hright := parsePASVResponse_right_iff resolveQuad_reads
  ⟨hright.1 [127, 0, 0, 1] rfl (by decide) 1234 (text "227 Entering Passive Mode ") (text ".")
    (by decide +kernel) (by decide +kernel), hright.2 _⟩

theorem isNumber_of_all {t : Bytes} (hpos : 1 ≤ t.length) (hshort : t.length ≤ 3)
    (hdigits : t.all isDigit = true) : IsNumber t := ⟨hpos, hshort, List.all_eq_true.mp hdigits⟩

def staleNumbers : HostPort where
  quad := [text "127", text "0", text "0", text "1"]
  high := text "0"
  low := text "05"
  length := rfl
  quad_numbers t ht := by
    have hall : ∀ t ∈ [text "127", text "0", text "0", text "1"],
        1 ≤ t.length ∧ t.length ≤ 3 ∧ t.all isDigit = true := by decide +kernel
    obtain ⟨hpos, hshort, hdigits⟩ := hall t ht
    exact isNumber_of_all hpos hshort hdigits
  high_number := isNumber_of_all (by decide) (by decide) rfl
  low_number := isNumber_of_all (by decide) (by decide) rfl

/-- The port is read as 55. -/
theorem stale_digit : ¬ Right resolveQuad id ([0, 0, 0, 0], 0)
    (text "227 Entering Passive Mode (127,0,0,1,0,05).") := by
  intro h
  have hport := h.valid staleNumbers
    ⟨text "227 Entering Passive Mode ", text ".", by decide +kernel, by decide +kernel, rfl⟩
    ⟨by decide +kernel, by decide +kernel, by decide +kernel⟩
  have hread : parsePASVResponse resolveQuad ([0, 0, 0, 0], 0)
      (text "227 Entering Passive Mode (127,0,0,1,0,05).") = .ok ([127, 0, 0, 1], 55) := by
    decide +kernel
  rw [hread] at hport
  exact absurd (congrArg (fun r => r.map Prod.snd) hport) (by decide +kernel)

end Replies

end ACENetwork.FTP
