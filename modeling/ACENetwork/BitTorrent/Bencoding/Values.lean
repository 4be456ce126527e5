import ACENetwork.BitTorrent.Bencoding.Scanner

/-!
# Values and their bencodings

A syntax tree keeps the texts of the numbers as they stand in the input. The scanner
reads a tree when it can convert its texts; a tree is a bencoding of a value when the
texts are numerals of it. The canonical encoding is a tree of the second kind.
-/
namespace ACENetwork.BitTorrent.Bencoding
open Library

/-- A value of the bencoding. The keys of a dictionary may stand in any order. -/
inductive Value where
  | integer (n : Int64)
  | string (octets : List UInt8)
  | list (items : List Value)
  | dictionary (entries : List (List UInt8 × Value))

mutual

inductive Source where
  | integer (text : List UInt8)
  | string (length octets : List UInt8)
  | list (items : Items)
  | dictionary (entries : Entries)

inductive Items where
  | done
  | item (head : Source) (tail : Items)

/-- The entries of a dictionary up to its end; digits may stand in front of the end. -/
inductive Entries where
  | done (stray : List UInt8)
  | entry (length key : List UInt8) (value : Source) (tail : Entries)

end

mutual

def Source.bytes : Source → List UInt8
  | .integer text => 'i'.toUInt8 :: (text ++ ['e'.toUInt8])
  | .string length octets => length ++ ':'.toUInt8 :: octets
  | .list items => 'l'.toUInt8 :: items.bytes
  | .dictionary entries => 'd'.toUInt8 :: entries.bytes

def Items.bytes : Items → List UInt8
  | .done => ['e'.toUInt8]
  | .item head tail => head.bytes ++ tail.bytes

def Entries.bytes : Entries → List UInt8
  | .done stray => stray ++ ['e'.toUInt8]
  | .entry length key value tail => length ++ ':'.toUInt8 :: (key ++ (value.bytes ++ tail.bytes))

end

mutual

def Source.value : Source → Value
  | .integer text => .integer (extractInteger text)
  | .string _ octets => .string octets
  | .list items => .list items.values
  | .dictionary entries => .dictionary entries.values

def Items.values : Items → List Value
  | .done => []
  | .item head tail => head.value :: tail.values

def Entries.values : Entries → List (List UInt8 × Value)
  | .done _ => []
  | .entry _ key value tail => (key, value.value) :: tail.values

end

/-- A text of the class `DIGIT` whose conversion counts the octets. -/
def Counts (length octets : List UInt8) : Prop :=
  (∀ b ∈ length, isDIGIT b = true) ∧ octets.length = (extractLength length).toNat

mutual

def Source.Scanned : Source → Prop
  | .integer text => ∀ b ∈ text, isDIGIT b = true
  | .string length octets => length ≠ [] ∧ Counts length octets
  | .list items => items.Scanned
  | .dictionary entries => entries.Scanned

def Items.Scanned : Items → Prop
  | .done => True
  | .item head tail => head.Scanned ∧ tail.Scanned

def Entries.Scanned : Entries → Prop
  | .done stray => ∀ b ∈ stray, isDIGIT b = true
  | .entry length key value tail => Counts length key ∧ value.Scanned ∧ tail.Scanned

end

/-- A text matches `-?[0-9]+` and stands for the integer. -/
def IntegerText (text : List UInt8) (n : ℤ) : Prop :=
  ∃ digits, digits ≠ [] ∧ (∀ b ∈ digits, isDigit b = true) ∧
    (text = digits ∧ n = decimalValue digits ∨
      text = '-'.toUInt8 :: digits ∧ n = -decimalValue digits)

/-- A text matches `[0-9]+` and stands for the number, which the scanner can represent. -/
def LengthText (text : List UInt8) (n : ℕ) : Prop :=
  text ≠ [] ∧ (∀ b ∈ text, isDigit b = true) ∧ decimalValue text = n ∧ n < 2 ^ 32

mutual

def Source.Denotes : Source → Value → Prop
  | .integer text, .integer n => IntegerText text n.toInt
  | .string length octets, .string s => s = octets ∧ LengthText length s.length
  | .list items, .list vs => items.Denotes vs
  | .dictionary entries, .dictionary vs => entries.Denotes vs
  | _, _ => False

def Items.Denotes : Items → List Value → Prop
  | .done, [] => True
  | .item head tail, v :: vs => head.Denotes v ∧ tail.Denotes vs
  | _, _ => False

def Entries.Denotes : Entries → List (List UInt8 × Value) → Prop
  | .done stray, [] => stray = []
  | .entry length key value tail, (k, v) :: vs =>
    k = key ∧ LengthText length k.length ∧ value.Denotes v ∧ tail.Denotes vs
  | _, _ => False

end

def WellFormed (v : Value) (octets : List UInt8) : Prop :=
  ∃ source : Source, source.bytes = octets ∧ source.Denotes v

/-- A text that stands in a tree for a number, or for nothing. -/
inductive Field where
  | integer (text : List UInt8)
  | length (text : List UInt8)
  | stray (text : List UInt8)

def Field.WellFormed : Field → Prop
  | .integer text => ∃ n : Int64, IntegerText text n.toInt
  | .length text => ∃ n, LengthText text n
  | .stray text => text = []

mutual

def Source.fields : Source → List Field
  | .integer text => [.integer text]
  | .string length _ => [.length length]
  | .list items => items.fields
  | .dictionary entries => entries.fields

def Items.fields : Items → List Field
  | .done => []
  | .item head tail => head.fields ++ tail.fields

def Entries.fields : Entries → List Field
  | .done stray => [.stray stray]
  | .entry length _ value tail => .length length :: (value.fields ++ tail.fields)

end

def numeral (n : ℤ) : List UInt8 :=
  if n < 0 then '-'.toUInt8 :: decimal n.natAbs else decimal n.natAbs

mutual

def Value.source : Value → Source
  | .integer n => .integer (numeral n.toInt)
  | .string octets => .string (decimal octets.length) octets
  | .list items => .list (itemSources items)
  | .dictionary entries => .dictionary (entrySources entries)

def itemSources : List Value → Items
  | [] => .done
  | v :: vs => .item v.source (itemSources vs)

def entrySources : List (List UInt8 × Value) → Entries
  | [] => .done []
  | (key, v) :: vs => .entry (decimal key.length) key v.source (entrySources vs)

end

def Value.encode (v : Value) : List UInt8 := v.source.bytes

mutual

/-- Every string and key is shorter than the lengths of the scanner reach. -/
def Value.Fits : Value → Prop
  | .integer _ => True
  | .string octets => octets.length < 2 ^ 32
  | .list items => ItemsFit items
  | .dictionary entries => EntriesFit entries

def ItemsFit : List Value → Prop
  | [] => True
  | v :: vs => v.Fits ∧ ItemsFit vs

def EntriesFit : List (List UInt8 × Value) → Prop
  | [] => True
  | (key, v) :: vs => key.length < 2 ^ 32 ∧ v.Fits ∧ EntriesFit vs

end

section Text

variable {text : List UInt8} {n : ℕ}

theorem isDIGIT_of_isDigit {b : UInt8} (h : isDigit b = true) : isDIGIT b = true := by
  simp [isDIGIT, h]

theorem numberField_digits (h : ∀ b ∈ text, isDigit b = true) :
    numberField text = (false, text) := by
  have hhead : text.head? ≠ some '-'.toUInt8 := fun hh =>
    absurd (h _ (List.mem_of_mem_head? hh)) (by decide)
  rw [numberField, if_neg hhead, List.takeWhile_eq_self_iff.mpr h]

theorem numberField_negative (h : ∀ b ∈ text, isDigit b = true) :
    numberField ('-'.toUInt8 :: text) = (true, text) := by
  rw [numberField, if_pos (by rfl), List.tail_cons, List.takeWhile_eq_self_iff.mpr h]

theorem extractLength_of_lengthText (h : LengthText text n) : (extractLength text).toNat = n := by
  obtain ⟨-, hdigits, rfl, hlt⟩ := h
  simp only [extractLength, numberField_digits hdigits]
  rw [if_neg (by omega), if_neg (by simp), toNat_word hlt]

theorem extractInteger_of_integerText {n : Int64} (h : IntegerText text n.toInt) :
    extractInteger text = n := by
  have hlower := n.le_toInt
  have hupper := n.toInt_lt
  obtain ⟨digits, -, hdigits, ⟨rfl, hn⟩ | ⟨rfl, hn⟩⟩ := h
  · simp only [extractInteger, numberField_digits hdigits]
    rw [if_neg (by simp), ← hn, min_eq_left (by omega), max_eq_right (by omega), Int64.ofInt_toInt]
  · simp only [extractInteger, numberField_negative hdigits]
    rw [if_pos trivial, ← hn, min_eq_left (by omega), max_eq_right (by omega),
      Int64.ofInt_toInt]

theorem lengthText_decimal (h : n < 2 ^ 32) : LengthText (decimal n) n :=
  ⟨decimal_ne_nil n, fun _ hb => isDigit_of_mem_decimal hb, decimalValue_decimal n, h⟩

theorem integerText_numeral (n : ℤ) : IntegerText (numeral n) n := by
  refine ⟨decimal n.natAbs, decimal_ne_nil _, fun _ hb => isDigit_of_mem_decimal hb, ?_⟩
  rw [decimalValue_decimal, numeral]
  split
  · exact .inr ⟨rfl, by omega⟩
  · exact .inl ⟨rfl, by omega⟩

theorem isDIGIT_of_integerText {n : ℤ} (h : IntegerText text n) : ∀ b ∈ text, isDIGIT b = true := by
  obtain ⟨digits, -, hdigits, ⟨rfl, -⟩ | ⟨rfl, -⟩⟩ := h
  · exact fun b hb => isDIGIT_of_isDigit (hdigits b hb)
  · rintro b (_ | ⟨_, hb⟩)
    · rfl
    · exact isDIGIT_of_isDigit (hdigits b hb)

theorem LengthText.counts {octets : List UInt8} (h : LengthText text octets.length) :
    Counts text octets :=
  ⟨fun b hb => isDIGIT_of_isDigit (h.2.1 b hb), (extractLength_of_lengthText h).symm⟩

theorem Counts.lengthText {octets : List UInt8} (h : Counts text octets)
    (hfield : (Field.length text).WellFormed) : LengthText text octets.length := by
  obtain ⟨n, hn⟩ := hfield
  rwa [h.2, extractLength_of_lengthText hn]

theorem Counts.length_lt {octets : List UInt8} (h : Counts text octets) :
    octets.length < 2 ^ 32 :=
  h.2 ▸ (extractLength text).toNat_lt

end Text

mutual

/-- A tree whose fields are well-formed is a bencoding of its value. -/
theorem Source.denotes_value : ∀ (source : Source), source.Scanned →
    (∀ f ∈ source.fields, f.WellFormed) → source.Denotes source.value
  | .integer text, _, hfields => by
    obtain ⟨n, hn⟩ : ∃ n : Int64, IntegerText text n.toInt := hfields _ (List.mem_singleton_self _)
    rw [Source.value, Source.Denotes, extractInteger_of_integerText hn]
    exact hn
  | .string length octets, h, hfields => ⟨rfl, h.2.lengthText (hfields _ (List.mem_singleton_self _))⟩
  | .list items, h, hfields => items.denotes_values h hfields
  | .dictionary entries, h, hfields => entries.denotes_values h hfields

theorem Items.denotes_values : ∀ (items : Items), items.Scanned →
    (∀ f ∈ items.fields, f.WellFormed) → items.Denotes items.values
  | .done, _, _ => trivial
  | .item head tail, h, hfields => by
    rw [Items.fields, List.forall_mem_append] at hfields
    exact ⟨head.denotes_value h.1 hfields.1, tail.denotes_values h.2 hfields.2⟩

theorem Entries.denotes_values : ∀ (entries : Entries), entries.Scanned →
    (∀ f ∈ entries.fields, f.WellFormed) → entries.Denotes entries.values
  | .done stray, _, hfields => hfields (.stray stray) (List.mem_singleton_self _)
  | .entry length key value tail, h, hfields => by
    rw [Entries.fields, List.forall_mem_cons, List.forall_mem_append] at hfields
    exact ⟨rfl, h.1.lengthText hfields.1, value.denotes_value h.2.1 hfields.2.1,
      tail.denotes_values h.2.2 hfields.2.2⟩

end

mutual

theorem Source.of_denotes : ∀ (source : Source) (v : Value), source.Denotes v →
    source.Scanned ∧ (∀ f ∈ source.fields, f.WellFormed) ∧ source.value = v
  | .integer text, .integer n, h => by
    refine ⟨isDIGIT_of_integerText h, ?_, ?_⟩
    · exact List.forall_mem_singleton.mpr ⟨n, h⟩
    · rw [Source.value, extractInteger_of_integerText h]
  | .string length octets, .string s, h => by
    obtain ⟨rfl, hlength⟩ := h
    exact ⟨⟨hlength.1, hlength.counts⟩, List.forall_mem_singleton.mpr ⟨_, hlength⟩, rfl⟩
  | .list items, .list vs, h => by
    obtain ⟨h1, h2, h3⟩ := items.of_denotes vs h
    exact ⟨h1, h2, congrArg Value.list h3⟩
  | .dictionary entries, .dictionary vs, h => by
    obtain ⟨h1, h2, h3⟩ := entries.of_denotes vs h
    exact ⟨h1, h2, congrArg Value.dictionary h3⟩

theorem Items.of_denotes : ∀ (items : Items) (vs : List Value), items.Denotes vs →
    items.Scanned ∧ (∀ f ∈ items.fields, f.WellFormed) ∧ items.values = vs
  | .done, [], _ => ⟨trivial, by simp [Items.fields], rfl⟩
  | .item head tail, v :: vs, h => by
    obtain ⟨h1, h2, rfl⟩ := head.of_denotes v h.1
    obtain ⟨h3, h4, rfl⟩ := tail.of_denotes vs h.2
    exact ⟨⟨h1, h3⟩, by rw [Items.fields, List.forall_mem_append]; exact ⟨h2, h4⟩, rfl⟩

theorem Entries.of_denotes : ∀ (entries : Entries) (vs : List (List UInt8 × Value)),
    entries.Denotes vs →
    entries.Scanned ∧ (∀ f ∈ entries.fields, f.WellFormed) ∧ entries.values = vs
  | .done stray, [], h => by
    obtain rfl : stray = [] := h
    exact ⟨by simp [Entries.Scanned], List.forall_mem_singleton.mpr rfl, rfl⟩
  | .entry length key value tail, (k, v) :: vs, h => by
    obtain ⟨rfl, hlength, hv, hvs⟩ := h
    obtain ⟨h1, h2, rfl⟩ := value.of_denotes v hv
    obtain ⟨h3, h4, rfl⟩ := tail.of_denotes vs hvs
    refine ⟨⟨hlength.counts, h1, h3⟩, ?_, rfl⟩
    rw [Entries.fields, List.forall_mem_cons, List.forall_mem_append]
    exact ⟨⟨_, hlength⟩, h2, h4⟩

end

mutual

theorem Source.value_fits : ∀ (source : Source), source.Scanned → source.value.Fits
  | .integer _, _ => trivial
  | .string _ _, h => h.2.length_lt
  | .list items, h => items.values_fit h
  | .dictionary entries, h => entries.values_fit h

theorem Items.values_fit : ∀ (items : Items), items.Scanned → ItemsFit items.values
  | .done, _ => trivial
  | .item head tail, h => ⟨head.value_fits h.1, tail.values_fit h.2⟩

theorem Entries.values_fit : ∀ (entries : Entries), entries.Scanned → EntriesFit entries.values
  | .done _, _ => trivial
  | .entry _ _ value tail, h => ⟨h.1.length_lt, value.value_fits h.2.1, tail.values_fit h.2.2⟩

end

mutual

theorem Value.source_denotes : ∀ (v : Value), v.Fits → v.source.Denotes v
  | .integer n, _ => integerText_numeral n.toInt
  | .string _, h => ⟨rfl, lengthText_decimal h⟩
  | .list items, h => itemSources_denote items h
  | .dictionary entries, h => entrySources_denote entries h

theorem itemSources_denote : ∀ (vs : List Value), ItemsFit vs → (itemSources vs).Denotes vs
  | [], _ => trivial
  | v :: vs, h => ⟨v.source_denotes h.1, itemSources_denote vs h.2⟩

theorem entrySources_denote : ∀ (vs : List (List UInt8 × Value)), EntriesFit vs →
    (entrySources vs).Denotes vs
  | [], _ => rfl
  | (_, v) :: vs, h =>
    ⟨rfl, lengthText_decimal h.1, v.source_denotes h.2.1, entrySources_denote vs h.2.2⟩

end

section Unique

variable {text text' r r' : List UInt8} {b c : UInt8}

theorem digits_unique (htext : ∀ b ∈ text, isDIGIT b = true) (htext' : ∀ b ∈ text', isDIGIT b = true)
    (hb : isDIGIT b = false) (hc : isDIGIT c = false) (h : text ++ b :: r = text' ++ c :: r') :
    text = text' ∧ b = c ∧ r = r' := by
  have hstop : ∀ {d : UInt8} {t : List UInt8}, isDIGIT d = false → Stops isDIGIT (d :: t) :=
    fun hd => by simpa [Stops] using hd
  obtain ⟨rfl, hrest⟩ := run_unique htext htext' (hstop hb) (hstop hc) h
  exact ⟨rfl, List.cons_eq_cons.mp hrest⟩

theorem counted_unique {octets octets' : List UInt8} (h : Counts text octets)
    (h' : Counts text' octets')
    (heq : text ++ ':'.toUInt8 :: (octets ++ r) = text' ++ ':'.toUInt8 :: (octets' ++ r')) :
    text = text' ∧ octets = octets' ∧ r = r' := by
  obtain ⟨rfl, -, hrest⟩ := digits_unique h.1 h'.1 (by decide) (by decide) heq
  obtain ⟨rfl, rfl⟩ := List.append_inj hrest (h.2.trans h'.2.symm)
  exact ⟨rfl, rfl, rfl⟩

theorem digits_ne (hne : text ≠ []) (htext : ∀ b ∈ text, isDIGIT b = true)
    (hb : isDIGIT b = false) : text ++ r ≠ b :: r' := by
  cases text with
  | nil => exact absurd rfl hne
  | cons a text =>
    intro h
    obtain ⟨rfl, -⟩ := List.cons_eq_cons.mp h
    rw [htext a (List.mem_cons_self ..)] at hb
    cases hb

end Unique

theorem Source.bytes_ne_end {source : Source} (h : source.Scanned) {r r' : List UInt8} :
    source.bytes ++ r ≠ 'e'.toUInt8 :: r' := by
  cases source with
  | integer text => exact fun heq => absurd (List.cons_eq_cons.mp heq).1 (by decide)
  | string length octets =>
    rw [Source.bytes, List.append_assoc]
    exact digits_ne h.1 h.2.1 (by decide)
  | list items => exact fun heq => absurd (List.cons_eq_cons.mp heq).1 (by decide)
  | dictionary entries => exact fun heq => absurd (List.cons_eq_cons.mp heq).1 (by decide)

mutual

/-- An input has one reading: induction on the tree, in which the first octet decides the
case. -/
theorem Source.bytes_unique : ∀ (s s' : Source) (r r' : List UInt8), s.Scanned → s'.Scanned →
    s.bytes ++ r = s'.bytes ++ r' → s = s' ∧ r = r'
  | .integer text, s', r, r', h, h', heq => by
    cases s' with
    | integer text' =>
      simp only [Source.bytes, List.cons_append, List.append_assoc, List.cons_eq_cons] at heq
      obtain ⟨rfl, -, rfl⟩ := digits_unique h h' (by decide) (by decide) heq.2
      exact ⟨rfl, rfl⟩
    | string length octets =>
      rw [Source.bytes, Source.bytes, List.append_assoc length] at heq
      exact absurd heq.symm (digits_ne h'.1 h'.2.1 (by decide))
    | list items => exact absurd (List.cons_eq_cons.mp heq).1 (by decide)
    | dictionary entries => exact absurd (List.cons_eq_cons.mp heq).1 (by decide)
  | .string length octets, s', r, r', h, h', heq => by
    rw [Source.bytes, List.append_assoc] at heq
    cases s' with
    | string length' octets' =>
      rw [Source.bytes, List.append_assoc] at heq
      obtain ⟨rfl, rfl, rfl⟩ := counted_unique h.2 h'.2 heq
      exact ⟨rfl, rfl⟩
    | integer text => exact absurd heq (digits_ne h.1 h.2.1 (by decide))
    | list items => exact absurd heq (digits_ne h.1 h.2.1 (by decide))
    | dictionary entries => exact absurd heq (digits_ne h.1 h.2.1 (by decide))
  | .list items, s', r, r', h, h', heq => by
    cases s' with
    | list items' =>
      obtain ⟨rfl, rfl⟩ := items.bytes_unique items' r r' h h' (List.cons_eq_cons.mp heq).2
      exact ⟨rfl, rfl⟩
    | string length octets =>
      rw [Source.bytes, Source.bytes, List.append_assoc length] at heq
      exact absurd heq.symm (digits_ne h'.1 h'.2.1 (by decide))
    | integer text => exact absurd (List.cons_eq_cons.mp heq).1 (by decide)
    | dictionary entries => exact absurd (List.cons_eq_cons.mp heq).1 (by decide)
  | .dictionary entries, s', r, r', h, h', heq => by
    cases s' with
    | dictionary entries' =>
      obtain ⟨rfl, rfl⟩ := entries.bytes_unique entries' r r' h h' (List.cons_eq_cons.mp heq).2
      exact ⟨rfl, rfl⟩
    | string length octets =>
      rw [Source.bytes, Source.bytes, List.append_assoc length] at heq
      exact absurd heq.symm (digits_ne h'.1 h'.2.1 (by decide))
    | integer text => exact absurd (List.cons_eq_cons.mp heq).1 (by decide)
    | list items => exact absurd (List.cons_eq_cons.mp heq).1 (by decide)

theorem Items.bytes_unique : ∀ (s s' : Items) (r r' : List UInt8), s.Scanned → s'.Scanned →
    s.bytes ++ r = s'.bytes ++ r' → s = s' ∧ r = r'
  | .done, .done, r, r', _, _, heq => ⟨rfl, (List.cons_eq_cons.mp heq).2⟩
  | .done, .item head tail, r, r', _, h', heq => by
    rw [Items.bytes, Items.bytes, List.append_assoc head.bytes] at heq
    exact absurd heq.symm (Source.bytes_ne_end h'.1)
  | .item head tail, .done, r, r', h, _, heq => by
    rw [Items.bytes, Items.bytes, List.append_assoc] at heq
    exact absurd heq (Source.bytes_ne_end h.1)
  | .item head tail, .item head' tail', r, r', h, h', heq => by
    rw [Items.bytes, Items.bytes, List.append_assoc, List.append_assoc] at heq
    obtain ⟨rfl, hrest⟩ := head.bytes_unique head' _ _ h.1 h'.1 heq
    obtain ⟨rfl, rfl⟩ := tail.bytes_unique tail' r r' h.2 h'.2 hrest
    exact ⟨rfl, rfl⟩

theorem Entries.bytes_unique : ∀ (s s' : Entries) (r r' : List UInt8), s.Scanned → s'.Scanned →
    s.bytes ++ r = s'.bytes ++ r' → s = s' ∧ r = r'
  | .done stray, .done stray', r, r', h, h', heq => by
    rw [Entries.bytes, Entries.bytes, List.append_assoc, List.append_assoc] at heq
    obtain ⟨rfl, -, hr⟩ := digits_unique h h' (by decide) (by decide) heq
    exact ⟨rfl, hr⟩
  | .done stray, .entry length key value tail, r, r', h, h', heq => by
    rw [Entries.bytes, Entries.bytes, List.append_assoc, List.append_assoc] at heq
    exact absurd (digits_unique h h'.1.1 (by decide) (by decide) heq).2.1 (by decide)
  | .entry length key value tail, .done stray, r, r', h, h', heq => by
    rw [Entries.bytes, Entries.bytes, List.append_assoc, List.append_assoc] at heq
    exact absurd (digits_unique h.1.1 h' (by decide) (by decide) heq).2.1 (by decide)
  | .entry length key value tail, .entry length' key' value' tail', r, r', h, h', heq => by
    simp only [Entries.bytes, List.append_assoc, List.cons_append] at heq
    obtain ⟨rfl, rfl, hvalue⟩ := counted_unique h.1 h'.1 heq
    obtain ⟨rfl, hrest⟩ := value.bytes_unique value' _ _ h.2.1 h'.2.1 hvalue
    obtain ⟨rfl, rfl⟩ := tail.bytes_unique tail' r r' h.2.2 h'.2.2 hrest
    exact ⟨rfl, rfl⟩

end
end ACENetwork.BitTorrent.Bencoding
