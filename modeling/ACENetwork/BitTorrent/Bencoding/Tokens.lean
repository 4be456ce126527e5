import ACENetwork.BitTorrent.Bencoding.Scanner

/-!
# The tokens of the bencoding scanner

What a call of `yylex` returns in front of each form of text, and that it returns
nothing but `END` in front of any other.
-/
namespace ACENetwork.BitTorrent.Bencoding
open Library

@[simp] theorem Scanner.continueAt_start (s : Scanner) (input : List UInt8) :
    (s.continueAt input).start = s.start := rfl

@[simp] theorem Scanner.continueAt_stack (s : Scanner) (input : List UInt8) :
    (s.continueAt input).stack = s.stack := rfl

@[simp] theorem Scanner.continueAt_input (s : Scanner) (input : List UInt8) :
    (s.continueAt input).input = input := rfl

def StartCondition.Element (c : StartCondition) : Prop :=
  c = .initial ∨ c = .list ∨ c = .dictionaryValue

/-- The scanner behind an element: the value of a dictionary leaves its marker. -/
def Scanner.resume (s : Scanner) : Scanner :=
  if s.start = .dictionaryValue then s.pushState .dictionaryValue2 else s

def Starved (r : Except Fault (Token × Scanner)) : Prop := ∀ t s, r = .ok (t, s) → t = .done

theorem starved_octet {ndebug : Bool} {f : Frame} (h : rule ndebug f = octet f) :
    Starved (lex ndebug f) := by
  intro t s ht
  rw [lex_token h] at ht
  exact (Prod.mk.inj (Except.ok.inj ht)).1.symm

theorem starved_endOfFile {ndebug : Bool} {f : Frame} (h : f.scanner.input = []) :
    Starved (lex ndebug f) := by
  have hrule : rule ndebug f = endOfFile ndebug f := by simp [rule, h]
  intro t s ht
  cases ndebug with
  | false => rw [lex_error (hrule.trans rfl)] at ht; cases ht
  | true =>
    rw [lex_token (hrule.trans rfl)] at ht
    exact (Prod.mk.inj (Except.ok.inj ht)).1.symm

theorem ne_of_isDIGIT {b c : UInt8} (hb : isDIGIT b = true) (hc : isDIGIT c = false) : b ≠ c := by
  rintro rfl
  rw [hb] at hc
  cases hc

section Enter

variable {ndebug : Bool} {s : Scanner} {text rest : List UInt8}

theorem rule_integer (hs : s.start.Element) {n : UInt32} {i : Int64} {sv : List UInt8} :
    rule ndebug ⟨s.continueAt ('i'.toUInt8 :: rest), n, i, sv⟩ =
      .ok (.next ⟨(s.resume.pushState .integer).continueAt rest, n, 0, sv⟩) := by
  obtain ⟨start, stack, input⟩ := s
  obtain rfl | rfl | rfl := hs <;> rfl

theorem rule_string (hs : s.start.Element) {b : UInt8} (hb : isDIGIT b = true) {n : UInt32}
    {i : Int64} {sv : List UInt8} :
    rule ndebug ⟨s.continueAt (b :: rest), n, i, sv⟩ =
      .ok (.next ⟨(s.resume.pushState .string).continueAt (b :: rest), n, i, sv⟩) := by
  have he : b ≠ 'e'.toUInt8 := ne_of_isDIGIT hb (by decide)
  have hi : b ≠ 'i'.toUInt8 := ne_of_isDIGIT hb (by decide)
  obtain ⟨start, stack, input⟩ := s
  obtain rfl | rfl | rfl := hs <;>
    simp [rule, Scanner.continueAt, Scanner.resume, Scanner.pushState, he, hi, hb]

theorem yylex_list (hs : s.start.Element) :
    yylex ndebug (s.continueAt ('l'.toUInt8 :: rest)) =
      .ok (.list, (s.resume.pushState .list).continueAt rest) := by
  obtain ⟨start, stack, input⟩ := s
  obtain rfl | rfl | rfl := hs <;> exact lex_token rfl

theorem yylex_dictionary (hs : s.start.Element) :
    yylex ndebug (s.continueAt ('d'.toUInt8 :: rest)) =
      .ok (.dictionary, (s.resume.pushState .dictionaryKey).continueAt rest) := by
  obtain ⟨start, stack, input⟩ := s
  obtain rfl | rfl | rfl := hs <;> exact lex_token rfl

/-- Nothing but an element, or the end of a list, is scanned where an element may stand. -/
theorem starved_element (hs : s.start.Element) {b : UInt8} (hi : b ≠ 'i'.toUInt8)
    (hl : b ≠ 'l'.toUInt8) (hd : b ≠ 'd'.toUInt8) (hb : isDIGIT b = false)
    (he : s.start = .list → b ≠ 'e'.toUInt8) :
    Starved (yylex ndebug (s.continueAt (b :: rest))) := by
  refine starved_octet ?_
  obtain ⟨start, stack, input⟩ := s
  obtain rfl | rfl | rfl := hs <;> simp_all [rule, Scanner.continueAt]

end Enter

section Number

variable {ndebug : Bool} {f : Frame} {text rest : List UInt8} {b : UInt8}

theorem takeWhile_digits (htext : ∀ b ∈ text, isDIGIT b = true) (hrest : Stops isDIGIT rest)
    (hne : text ≠ []) :
    ∃ b t, text ++ rest = b :: t ∧ isDIGIT b = true ∧ (b :: t).takeWhile isDIGIT = text ∧
      (b :: t).dropWhile isDIGIT = rest := by
  cases text with
  | nil => exact absurd rfl hne
  | cons b text =>
    refine ⟨b, text ++ rest, rfl, htext b (by simp), ?_, ?_⟩
    · exact takeWhile_run htext hrest
    · exact dropWhile_run htext hrest

theorem stops_cons : Stops isDIGIT (b :: rest) ↔ isDIGIT b = false := by
  simp [Stops]

/-- The digits of an integer are converted; an absent number leaves zero. -/
theorem lex_integerDigits {stack : List StartCondition} {n : UInt32} {sv : List UInt8}
    (htext : ∀ b ∈ text, isDIGIT b = true) (hrest : Stops isDIGIT rest) :
    lex ndebug ⟨⟨.integer, stack, text ++ rest⟩, n, 0, sv⟩ =
      lex ndebug ⟨⟨.integer, stack, rest⟩, n, extractInteger text, sv⟩ := by
  by_cases hne : text = []
  · subst hne
    rfl
  · obtain ⟨b, t, htext', hb, htake, hdrop⟩ := takeWhile_digits htext hrest hne
    have he : b ≠ 'e'.toUInt8 := ne_of_isDIGIT hb (by decide)
    rw [htext']
    exact lex_next (by simp [rule, he, hb, htake, hdrop, Scanner.continueAt])

theorem lex_stringDigits {stack : List StartCondition} {n : UInt32} {i : Int64} {sv : List UInt8}
    (htext : ∀ b ∈ text, isDIGIT b = true) (hrest : Stops isDIGIT rest) (hne : text ≠ []) :
    lex ndebug ⟨⟨.string, stack, text ++ rest⟩, n, i, sv⟩ =
      lex ndebug ⟨⟨.string, stack, rest⟩, extractLength text, i, sv⟩ := by
  obtain ⟨b, t, htext', hb, htake, hdrop⟩ := takeWhile_digits htext hrest hne
  rw [htext']
  exact lex_next (by simp [rule, hb, htake, hdrop, Scanner.continueAt])

theorem lex_keyDigits {stack : List StartCondition} {i : Int64} {sv : List UInt8}
    (htext : ∀ b ∈ text, isDIGIT b = true) (hrest : Stops isDIGIT rest) :
    lex ndebug ⟨⟨.dictionaryKey, stack, text ++ rest⟩, 0, i, sv⟩ =
      lex ndebug ⟨⟨.dictionaryKey, stack, rest⟩, extractLength text, i, sv⟩ := by
  by_cases hne : text = []
  · subst hne
    rfl
  · obtain ⟨b, t, htext', hb, htake, hdrop⟩ := takeWhile_digits htext hrest hne
    have he : b ≠ 'e'.toUInt8 := ne_of_isDIGIT hb (by decide)
    rw [htext']
    exact lex_next (by simp [rule, he, hb, htake, hdrop, Scanner.continueAt])

end Number

section Octets

variable {ndebug : Bool} {start : StartCondition} {last : Scanner → Except Fault Scanner}

def ScansOctets (ndebug : Bool) (start : StartCondition)
    (last : Scanner → Except Fault Scanner) : Prop :=
  ∀ f b rest, f.scanner.start = start → f.scanner.input = b :: rest →
    rule ndebug f = stringOctet ndebug f b (f.scanner.continueAt rest) last

theorem scansOctets_string2 : ScansOctets ndebug .string2 Scanner.popState := by
  rintro ⟨⟨start, stack, input⟩, n, i, sv⟩ b rest rfl rfl
  rfl

theorem scansOctets_dictionaryKey2 :
    ScansOctets ndebug .dictionaryKey2 (fun s => .ok (s.pushState .dictionaryValue)) := by
  rintro ⟨⟨start, stack, input⟩, n, i, sv⟩ b rest rfl rfl
  rfl

theorem toNat_pred {n : UInt32} (h : n ≠ 0) : (n - 1).toNat = n.toNat - 1 := by
  have hpos : 1 ≤ n.toNat := by
    rw [Nat.one_le_iff_ne_zero]
    exact fun h0 => h (UInt32.toNat_inj.mp (by simpa using h0))
  exact UInt32.toNat_sub_of_le _ _ (UInt32.le_iff_toNat_le.mpr hpos)

theorem stringOctet_last {f : Frame} {b : UInt8} {s t : Scanner} (hn : f.stringLength ≠ 0)
    (hone : f.stringLength - 1 = 0) (hlast : last s = .ok t) :
    stringOctet ndebug f b s last = .ok (.token (.string (f.sval ++ [b])) t) := by
  have hassert : (f.stringLength != 0) = true := by simpa using hn
  rw [stringOctet, hassert, aceAssert_true]
  simp only [hone, if_true, hlast]
  rfl

theorem stringOctet_more {f : Frame} {b : UInt8} {s : Scanner} (hn : f.stringLength ≠ 0)
    (hmore : f.stringLength - 1 ≠ 0) :
    stringOctet ndebug f b s last =
      .ok (.next ⟨s, f.stringLength - 1, f.ival, f.sval ++ [b]⟩) := by
  have hassert : (f.stringLength != 0) = true := by simpa using hn
  rw [stringOctet, hassert, aceAssert_true]
  simp only [hmore, if_false]
  rfl

/-- Induction on the octets: `string_length` counts those that are missing. -/
theorem lex_octets (h : ScansOctets ndebug start last) {stack : List StartCondition}
    {rest : List UInt8} {s : Scanner} (hlast : last ⟨start, stack, rest⟩ = .ok s) {i : Int64}
    (octets : List UInt8) : ∀ (n : UInt32) (sv : List UInt8), octets ≠ [] →
      octets.length = n.toNat →
      lex ndebug ⟨⟨start, stack, octets ++ rest⟩, n, i, sv⟩ = .ok (.string (sv ++ octets), s) := by
  induction octets with
  | nil => exact fun _ _ hne => absurd rfl hne
  | cons b octets ih =>
    intro n sv _ hlength
    have hn : n ≠ 0 := by rintro rfl; simp at hlength
    have hpred : octets.length = (n - 1).toNat := by
      rw [toNat_pred hn, ← hlength, List.length_cons, Nat.add_sub_cancel]
    have hrule : rule ndebug ⟨⟨start, stack, b :: (octets ++ rest)⟩, n, i, sv⟩ = _ :=
      h _ _ _ rfl rfl
    cases octets with
    | nil =>
      have hlast' : n - 1 = 0 := UInt32.toNat_inj.mp hpred.symm
      exact lex_token (hrule.trans (stringOctet_last hn hlast' hlast))
    | cons c octets =>
      have hmore : n - 1 ≠ 0 := fun h0 => by simp [h0] at hpred
      have hnext := ih (n - 1) (sv ++ [b]) (by simp) hpred
      rw [List.append_assoc] at hnext
      exact (lex_next (hrule.trans (stringOctet_more hn hmore))).trans hnext

/-- Octets that run out before the length is reached starve the scanner. -/
theorem starved_octets (h : ScansOctets ndebug start last) {stack : List StartCondition}
    {i : Int64} (octets : List UInt8) : ∀ (n : UInt32) (sv : List UInt8),
      octets.length < n.toNat → Starved (lex ndebug ⟨⟨start, stack, octets⟩, n, i, sv⟩) := by
  induction octets with
  | nil => exact fun _ _ _ => starved_endOfFile rfl
  | cons b octets ih =>
    intro n sv hlength
    have hn : n ≠ 0 := by rintro rfl; simp at hlength
    have hpred := toNat_pred hn
    have hmore : n - 1 ≠ 0 := fun h0 => by
      rw [h0, UInt32.toNat_zero] at hpred
      rw [List.length_cons] at hlength
      omega
    have hrule : rule ndebug ⟨⟨start, stack, b :: octets⟩, n, i, sv⟩ = _ := h _ _ _ rfl rfl
    rw [lex_next (hrule.trans (stringOctet_more hn hmore))]
    exact ih _ _ (by rw [hpred]; rw [List.length_cons] at hlength; omega)

end Octets

section Token

variable {ndebug : Bool} {s : Scanner} {text octets rest : List UInt8}

theorem yylex_integer (hs : s.start.Element) (htext : ∀ b ∈ text, isDIGIT b = true) :
    yylex ndebug (s.continueAt ('i'.toUInt8 :: (text ++ 'e'.toUInt8 :: rest))) =
      .ok (.integer (extractInteger text), s.resume.continueAt rest) := by
  refine (lex_next (rule_integer hs)).trans ?_
  refine (lex_integerDigits htext (stops_cons.2 (by decide))).trans ?_
  exact lex_token rfl

theorem starved_integer (hs : s.start.Element) (htext : ∀ b ∈ text, isDIGIT b = true)
    (hrest : Stops isDIGIT rest) (he : ∀ b ∈ rest.head?, b ≠ 'e'.toUInt8) :
    Starved (yylex ndebug (s.continueAt ('i'.toUInt8 :: (text ++ rest)))) := by
  have heq : yylex ndebug (s.continueAt ('i'.toUInt8 :: (text ++ rest))) = _ :=
    (lex_next (rule_integer hs)).trans (lex_integerDigits htext hrest)
  rw [heq]
  cases rest with
  | nil => exact starved_endOfFile rfl
  | cons b rest =>
    have hb : isDIGIT b = false := stops_cons.1 hrest
    exact starved_octet (by simp [rule, he b rfl, hb])

theorem rule_stringColon {stack : List StartCondition} {n : UInt32} {i : Int64} {sv : List UInt8}
    (hn : n ≠ 0) : rule ndebug ⟨⟨.string, stack, ':'.toUInt8 :: rest⟩, n, i, sv⟩ =
      .ok (.next ⟨⟨.string2, stack, rest⟩, n, i, []⟩) := by
  change (if n = 0 then _ else _) = _
  rw [if_neg hn]
  rfl

theorem yylex_length (hs : s.start.Element) (htext : ∀ b ∈ text, isDIGIT b = true)
    (hrest : Stops isDIGIT rest) (hne : text ≠ []) :
    yylex ndebug (s.continueAt (text ++ rest)) =
      lex ndebug ⟨(s.resume.pushState .string).continueAt rest, extractLength text, 0, []⟩ := by
  obtain ⟨b, t, htext', hb, -, -⟩ := takeWhile_digits htext hrest hne
  have hrule : rule ndebug ⟨s.continueAt (b :: t), 0, 0, []⟩ = _ := rule_string hs hb
  have hdigits : lex ndebug ⟨(s.resume.pushState .string).continueAt (text ++ rest), 0, 0, []⟩ = _ :=
    lex_stringDigits htext hrest hne
  refine Eq.trans ?_ hdigits
  rw [htext']
  exact lex_next hrule

theorem yylex_string (hs : s.start.Element) (htext : ∀ b ∈ text, isDIGIT b = true)
    (hne : text ≠ []) (hlength : octets.length = (extractLength text).toNat) :
    yylex ndebug (s.continueAt (text ++ ':'.toUInt8 :: (octets ++ rest))) =
      .ok (.string octets, s.resume.continueAt rest) := by
  refine (yylex_length hs htext (stops_cons.2 (by decide)) hne).trans ?_
  by_cases hoctets : octets = []
  · subst hoctets
    have hzero : extractLength text = 0 := UInt32.toNat_inj.mp hlength.symm
    rw [hzero]
    exact lex_token rfl
  · have hn : extractLength text ≠ 0 := fun h0 => by
      rw [h0] at hlength
      exact hoctets (List.length_eq_zero_iff.mp hlength)
    exact (lex_next (rule_stringColon hn)).trans
      (lex_octets scansOctets_string2 rfl octets _ _ hoctets hlength)

theorem starved_string (hs : s.start.Element) (htext : ∀ b ∈ text, isDIGIT b = true)
    (hne : text ≠ []) (hrest : Stops isDIGIT rest) (hcolon : ∀ b ∈ rest.head?, b = ':'.toUInt8 →
      rest.tail.length < (extractLength text).toNat) :
    Starved (yylex ndebug (s.continueAt (text ++ rest))) := by
  rw [yylex_length hs htext hrest hne]
  cases rest with
  | nil => exact starved_endOfFile rfl
  | cons b rest =>
    have hb : isDIGIT b = false := stops_cons.1 hrest
    by_cases hb' : b = ':'.toUInt8
    · subst hb'
      have hlength := hcolon _ rfl rfl
      have hn : extractLength text ≠ 0 := fun h0 => by simp [h0] at hlength
      have hcolon : lex ndebug ⟨(s.resume.pushState .string).continueAt (':'.toUInt8 :: rest),
        extractLength text, 0, []⟩ = _ := lex_next (rule_stringColon hn)
      rw [hcolon]
      exact starved_octets scansOctets_string2 rest _ _ hlength
    · exact starved_octet (by simp [rule, hb, hb', Scanner.pushState])

end Token

section Dictionary

variable {ndebug : Bool} {stack : List StartCondition} {c : StartCondition}
  {text octets rest : List UInt8}

theorem yylex_endOfList :
    yylex ndebug ⟨.list, c :: stack, 'e'.toUInt8 :: rest⟩ = .ok (.endOfList, ⟨c, stack, rest⟩) :=
  lex_token rfl

theorem yylex_endOfDictionary (htext : ∀ b ∈ text, isDIGIT b = true) :
    yylex ndebug ⟨.dictionaryKey, c :: stack, text ++ 'e'.toUInt8 :: rest⟩ =
      .ok (.endOfDictionary, ⟨c, stack, rest⟩) :=
  (lex_keyDigits htext (stops_cons.2 (by decide))).trans (lex_token rfl)

def keyCondition (octets : List UInt8) : StartCondition :=
  if octets = [] then .dictionaryKey else .dictionaryKey2

theorem rule_keyColon {n : UInt32} {i : Int64} {sv : List UInt8} (hn : n ≠ 0) :
    rule ndebug ⟨⟨.dictionaryKey, stack, ':'.toUInt8 :: rest⟩, n, i, sv⟩ =
      .ok (.next ⟨⟨.dictionaryKey2, stack, rest⟩, n, i, []⟩) := by
  change (if n = 0 then _ else _) = _
  rw [if_neg hn]
  rfl

theorem yylex_key (htext : ∀ b ∈ text, isDIGIT b = true)
    (hlength : octets.length = (extractLength text).toNat) :
    yylex ndebug ⟨.dictionaryKey, stack, text ++ ':'.toUInt8 :: (octets ++ rest)⟩ =
      .ok (.string octets, ⟨.dictionaryValue, keyCondition octets :: stack, rest⟩) := by
  refine (lex_keyDigits htext (stops_cons.2 (by decide))).trans ?_
  by_cases hoctets : octets = []
  · subst hoctets
    have hzero : extractLength text = 0 := UInt32.toNat_inj.mp hlength.symm
    rw [hzero]
    exact lex_token rfl
  · have hn : extractLength text ≠ 0 := fun h0 => by
      rw [h0] at hlength
      exact hoctets (List.length_eq_zero_iff.mp hlength)
    refine (lex_next (rule_keyColon hn)).trans
      ((lex_octets scansOctets_dictionaryKey2 rfl octets _ [] hoctets hlength).trans ?_)
    simp [keyCondition, hoctets, Scanner.pushState]

theorem starved_key (htext : ∀ b ∈ text, isDIGIT b = true) (hrest : Stops isDIGIT rest)
    (he : ∀ b ∈ rest.head?, b ≠ 'e'.toUInt8) (hcolon : ∀ b ∈ rest.head?, b = ':'.toUInt8 →
      rest.tail.length < (extractLength text).toNat) :
    Starved (yylex ndebug ⟨.dictionaryKey, stack, text ++ rest⟩) := by
  have heq : yylex ndebug ⟨.dictionaryKey, stack, text ++ rest⟩ = _ := lex_keyDigits htext hrest
  rw [heq]
  cases rest with
  | nil => exact starved_endOfFile rfl
  | cons b rest =>
    have hb : isDIGIT b = false := stops_cons.1 hrest
    by_cases hb' : b = ':'.toUInt8
    · subst hb'
      have hlength := hcolon _ rfl rfl
      have hn : extractLength text ≠ 0 := fun h0 => by simp [h0] at hlength
      rw [lex_next (rule_keyColon hn)]
      exact starved_octets scansOctets_dictionaryKey2 rest _ _ hlength
    · exact starved_octet (by simp [rule, hb, hb', he b rfl])

theorem yylex_dictionaryValue2 {v k : StartCondition} {b : UInt8} :
    yylex ndebug ⟨.dictionaryValue2, v :: k :: stack, b :: rest⟩ =
      yylex ndebug ⟨.dictionaryKey, stack, b :: rest⟩ :=
  lex_next rfl

end Dictionary
end ACENetwork.BitTorrent.Bencoding
