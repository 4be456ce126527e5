import ACENetwork.BitTorrent.Bencoding.Simulation

/-!
# What the bencoding parser accepts

The parser accepts an input exactly when a tree that the scanner reads stands in front
of it, and returns the value of the tree. The canonical encoding of a value is read back
as long as the lengths fit; a text that is no numeral is read as a number all the same.
-/
namespace ACENetwork.BitTorrent.Bencoding
open Library

section Read

variable {ndebug : Bool} {n : ℕ}

/-- An element is in front of every input of a length that is not rejected. -/
def ReadsElement (ndebug : Bool) (n : ℕ) : Prop :=
  ∀ (input : List UInt8), input.length = n → ∀ (s : Scanner) (contexts : List Context) (d : Driver),
    s.start.Element → TakesElement contexts → d.Ready →
    (s.start = .list → input.head? ≠ some 'e'.toUInt8) →
    (∃ source : Source, ∃ rest, input = source.bytes ++ rest ∧ source.Scanned) ∨
      Rejects (parseFrom ndebug ⟨s.continueAt input, contexts, d⟩)

def ReadsItems (ndebug : Bool) (n : ℕ) : Prop :=
  ∀ (input : List UInt8), input.length = n → ∀ (c : StartCondition) (stack : List StartCondition)
    (contexts : List Context) (d : Driver) (top : ℕ) (up ps : List ℕ), d.Filling top up →
    d.key = none → d.elements top = some (.list ps) →
    (∃ items : Items, ∃ rest, input = items.bytes ++ rest ∧ items.Scanned) ∨
      Rejects (parseFrom ndebug ⟨⟨.list, c :: stack, input⟩, .listItems :: contexts, d⟩)

def ReadsEntries (ndebug : Bool) (n : ℕ) : Prop :=
  ∀ (input : List UInt8), input.length = n → ∀ (c : StartCondition) (stack : List StartCondition)
    (contexts : List Context) (d : Driver) (top : ℕ) (up : List ℕ)
    (es : List (Option (List UInt8) × ℕ)), d.Filling top up →
    d.key = none → d.elements top = some (.dictionary es) →
    (∃ entries : Entries, ∃ rest, input = entries.bytes ++ rest ∧ entries.Scanned) ∨
      Rejects (parseFrom ndebug
        ⟨⟨.dictionaryKey, c :: stack, input⟩, .dictionaryItems :: contexts, d⟩)

theorem exists_counted {length rest : List UInt8} (hdigits : ∀ b ∈ length, isDIGIT b = true)
    (hle : (extractLength length).toNat ≤ rest.length) :
    ∃ octets tail, rest = octets ++ tail ∧ Counts length octets :=
  ⟨rest.take (extractLength length).toNat, rest.drop (extractLength length).toNat,
    (List.take_append_drop _ _).symm, hdigits, List.length_take_of_le hle⟩

theorem readsInteger {s : Scanner} {contexts : List Context} {d : Driver} (hs : s.start.Element)
    (rest : List UInt8) :
    (∃ source : Source, ∃ tail, 'i'.toUInt8 :: rest = source.bytes ++ tail ∧ source.Scanned) ∨
      Rejects (parseFrom ndebug ⟨s.continueAt ('i'.toUInt8 :: rest), contexts, d⟩) := by
  obtain ⟨text, tail, rfl, htext, hstops⟩ := exists_run isDIGIT rest
  by_cases hend : tail.head? = some 'e'.toUInt8
  · obtain ⟨tail, rfl⟩ := List.head?_eq_some_iff.mp hend
    exact .inl ⟨.integer text, tail, by simp [Source.bytes], htext⟩
  · refine .inr (rejects_of_starved (starved_integer hs htext hstops fun b hb hbe => ?_))
    subst hbe
    exact hend hb

theorem readsString {s : Scanner} {contexts : List Context} {d : Driver} (hs : s.start.Element)
    {b : UInt8} (hb : isDIGIT b = true) (rest : List UInt8) :
    (∃ source : Source, ∃ tail, b :: rest = source.bytes ++ tail ∧ source.Scanned) ∨
      Rejects (parseFrom ndebug ⟨s.continueAt (b :: rest), contexts, d⟩) := by
  obtain ⟨text, tail, htail, htext, hstops⟩ := exists_run isDIGIT (b :: rest)
  have hne : text ≠ [] := by
    rintro rfl
    rw [List.nil_append] at htail
    rw [← htail, stops_cons, hb] at hstops
    cases hstops
  rw [htail]
  by_cases hcolon : ∃ octets, tail = ':'.toUInt8 :: octets ∧
      (extractLength text).toNat ≤ octets.length
  · obtain ⟨rest, rfl, hle⟩ := hcolon
    obtain ⟨octets, tail, rfl, hcounts⟩ := exists_counted htext hle
    exact .inl ⟨.string text octets, tail, by simp [Source.bytes], hne, hcounts⟩
  · refine .inr (rejects_of_starved (starved_string hs htext hne hstops fun c hc hcc => ?_))
    subst hcc
    obtain ⟨octets, rfl⟩ := List.head?_eq_some_iff.mp hc
    exact not_le.mp fun hle => hcolon ⟨octets, rfl, hle⟩

theorem readsElement (hitems : ∀ m < n, ReadsItems ndebug m)
    (hentries : ∀ m < n, ReadsEntries ndebug m) : ReadsElement ndebug n := by
  rintro input rfl s contexts d hs hcontexts hd hend
  cases input with
  | nil => exact .inr (rejects_of_starved (starved_endOfFile rfl))
  | cons b rest =>
    by_cases hi : b = 'i'.toUInt8
    · exact hi ▸ readsInteger hs rest
    by_cases hdigit : isDIGIT b = true
    · exact readsString hs hdigit rest
    by_cases hl : b = 'l'.toUInt8
    · subst hl
      by_cases hread : ∃ items : Items, ∃ tail, rest = items.bytes ++ tail ∧ items.Scanned
      · obtain ⟨items, tail, rfl, hscanned⟩ := hread
        exact .inl ⟨.list items, tail, rfl, hscanned⟩
      · refine .inr (rejects_container (yylex_list hs) (by simp) hcontexts hd (by rfl) rfl ?_)
        exact fun d1 up hd1 hkey hcell =>
          (hitems rest.length (by simp) rest rfl s.resume.start s.resume.stack _ d1 d.size up []
            hd1 hkey hcell).resolve_left hread
    by_cases hd' : b = 'd'.toUInt8
    · subst hd'
      by_cases hread : ∃ entries : Entries, ∃ tail, rest = entries.bytes ++ tail ∧ entries.Scanned
      · obtain ⟨entries, tail, rfl, hscanned⟩ := hread
        exact .inl ⟨.dictionary entries, tail, rfl, hscanned⟩
      · refine .inr (rejects_container (yylex_dictionary hs) (by simp) hcontexts hd (by rfl) rfl ?_)
        exact fun d1 up hd1 hkey hcell =>
          (hentries rest.length (by simp) rest rfl s.resume.start s.resume.stack _ d1 d.size up []
            hd1 hkey hcell).resolve_left hread
    · refine .inr (rejects_of_starved (starved_element hs hi hl hd' (by simpa using hdigit) ?_))
      exact fun hlist hbe => hend hlist (by rw [hbe]; rfl)

theorem Source.length_bytes_pos (source : Source) : 0 < source.bytes.length := by
  cases source <;> simp [Source.bytes]

theorem readsItems (helement : ReadsElement ndebug n) (hitems : ∀ m < n, ReadsItems ndebug m) :
    ReadsItems ndebug n := by
  rintro input rfl c stack contexts d top up ps hd hkey hps
  by_cases hend : input.head? = some 'e'.toUInt8
  · obtain ⟨rest, rfl⟩ := List.head?_eq_some_iff.mp hend
    exact .inl ⟨.done, rest, rfl, trivial⟩
  rcases helement input rfl ⟨.list, c :: stack, []⟩ (.listItems :: contexts) d (.inr (.inl rfl))
    (by simp [TakesElement]) (.item hd hps hkey) (fun _ => hend) with
    ⟨source, rest, rfl, hscanned⟩ | hrejects
  · obtain ⟨d', hcompleted, hparse⟩ := source.parses ndebug ⟨.list, c :: stack, []⟩
      (.listItems :: contexts) d rest (.inr (.inl rfl)) (by simp [TakesElement])
      (.item hd hps hkey) hscanned
    have hlt : rest.length < (source.bytes ++ rest).length := by
      have := source.length_bytes_pos
      rw [List.length_append]
      omega
    have htop : d'.elements top = some (.list (ps ++ [d.size])) := by
      rw [hcompleted.top top (by rw [hd.current]; rfl), hps]
      rfl
    rcases hitems rest.length hlt rest rfl c stack contexts d' top up _ (hcompleted.filling hd)
      hcompleted.key htop with ⟨items, tail, rfl, hread⟩ | hrejects
    · exact .inl ⟨.item source items, tail, by simp [Items.bytes], hscanned, hread⟩
    · exact .inr (Eq.mpr (congrArg Rejects hparse) hrejects)
  · exact .inr hrejects

theorem readsEntries (helement : ∀ m < n, ReadsElement ndebug m)
    (hentries : ∀ m < n, ReadsEntries ndebug m) : ReadsEntries ndebug n := by
  rintro input rfl c stack contexts d top up es hd hkey hes
  obtain ⟨text, tail, rfl, htext, hstops⟩ := exists_run isDIGIT input
  by_cases hend : tail.head? = some 'e'.toUInt8
  · obtain ⟨rest, rfl⟩ := List.head?_eq_some_iff.mp hend
    exact .inl ⟨.done text, rest, by simp [Entries.bytes], htext⟩
  by_cases hcolon : ∃ octets, tail = ':'.toUInt8 :: octets ∧
      (extractLength text).toNat ≤ octets.length
  · obtain ⟨rest, rfl, hle⟩ := hcolon
    obtain ⟨key, tail, rfl, hcounts⟩ := exists_counted htext hle
    rw [parseFrom_key hcounts hkey]
    rcases helement tail.length (by simp; omega) tail rfl
      ⟨.dictionaryValue, keyCondition key :: c :: stack, []⟩ (.dictionaryValue :: contexts)
      { d with key := some key } (.inr (.inr rfl)) (by simp [TakesElement])
      (.value hd.withKey hes rfl) nofun with ⟨source, rest, rfl, hscanned⟩ | hrejects
    · obtain ⟨d', hcompleted, hparse⟩ := source.parses ndebug
        ⟨.dictionaryValue, keyCondition key :: c :: stack, []⟩ (.dictionaryValue :: contexts)
        { d with key := some key } rest (.inr (.inr rfl)) (by simp [TakesElement])
        (.value hd.withKey hes rfl) hscanned
      have htop : d'.elements top = some (.dictionary (es ++ [(some key, d.size)])) := by
        rw [hcompleted.top top (by rw [hd.current]; rfl)]
        exact (congrArg (Option.map _) hes).trans rfl
      cases rest with
      | nil => exact .inr (Eq.mpr (congrArg Rejects hparse) (rejects_of_starved (starved_endOfFile rfl)))
      | cons b rest =>
        rcases hentries (b :: rest).length (by simp; omega) (b :: rest) rfl c stack contexts d' top up
          _ (hcompleted.filling hd.withKey) hcompleted.key htop with
          ⟨entries, tail, htail, hread⟩ | hrejects
        · exact .inl ⟨.entry text key source entries, tail, by simp [Entries.bytes, htail], hcounts,
            hscanned, hread⟩
        · exact .inr (Eq.mpr (congrArg Rejects (hparse.trans parseElement_value)) hrejects)
    · exact .inr hrejects
  · refine .inr (rejects_of_starved (starved_key htext hstops ?_ fun b hb hbc => ?_))
    · rintro b hb rfl
      exact hend hb
    · subst hbc
      obtain ⟨octets, rfl⟩ := List.head?_eq_some_iff.mp hb
      exact not_le.mp fun hle => hcolon ⟨octets, rfl, hle⟩

theorem readsElement_all : ∀ n, ReadsElement ndebug n := by
  suffices h : ∀ n, ReadsElement ndebug n ∧ ReadsItems ndebug n ∧ ReadsEntries ndebug n from
    fun n => (h n).1
  intro n
  induction n using Nat.strong_induction_on with
  | _ n ih =>
    have helement := readsElement (fun m hm => (ih m hm).2.1) (fun m hm => (ih m hm).2.2)
    exact ⟨helement, readsItems helement fun m hm => (ih m hm).2.1,
      readsEntries (fun m hm => (ih m hm).1) fun m hm => (ih m hm).2.2⟩

end Read

def Driver.Holds (d : Driver) (v : Value) : Prop :=
  ∃ p, d.bencoding = some p ∧ Represents d.elements p v

theorem Driver.Holds.unique {d : Driver} {v v' : Value} (h : d.Holds v) (h' : d.Holds v') :
    v = v' := by
  obtain ⟨p, hp, hv⟩ := h
  obtain ⟨p', hp', hv'⟩ := h'
  obtain rfl : p = p' := by rw [hp] at hp'; simpa using hp'
  exact Represents.unique p v v' hv hv'

/-- `parse` accepts the input up to a rest and returns the value; the stacks and the key are
left as they were. -/
def ParsesTo (ndebug : Bool) (input : List UInt8) (v : Value) (rest : List UInt8) : Prop :=
  ∃ d, parse ndebug input = .ok (some (d, ⟨.initial, [], rest⟩)) ∧ d.Holds v ∧ d.current = [] ∧
    d.key = none

theorem driver_ready : ({} : Driver).Ready := .first rfl rfl rfl rfl fun _ _ => rfl

theorem parse_source (ndebug : Bool) (source : Source) (h : source.Scanned) (rest : List UInt8) :
    ParsesTo ndebug (source.bytes ++ rest) source.value rest := by
  obtain ⟨d, hcompleted, hparse⟩ := source.parses ndebug ⟨.initial, [], []⟩ [] {} rest (.inl rfl)
    (by simp [TakesElement]) driver_ready h
  exact ⟨d, hparse, ⟨0, hcompleted.bencoding, hcompleted.represents⟩, hcompleted.current,
    hcompleted.key⟩

theorem parse_accepted {ndebug : Bool} {input : List UInt8} {d : Driver} {s : Scanner}
    (h : parse ndebug input = .ok (some (d, s))) :
    ∃ source : Source, source.Scanned ∧ input = source.bytes ++ s.input ∧ d.Holds source.value := by
  rcases @readsElement_all ndebug input.length input rfl ⟨.initial, [], []⟩ [] {} (.inl rfl)
    (by simp [TakesElement]) driver_ready nofun with ⟨source, rest, rfl, hscanned⟩ | hrejects
  · obtain ⟨d', hparse, hholds, -, -⟩ := parse_source ndebug source hscanned rest
    rw [h] at hparse
    obtain ⟨rfl, rfl⟩ := Prod.mk.inj (Option.some.inj (Except.ok.inj hparse))
    exact ⟨source, hscanned, rfl, hholds⟩
  · exact absurd h (hrejects d s)

/-- The parser undoes the canonical encoding of a value, in front of anything, exactly when
every string and key of the value is shorter than 2^32 octets. -/
theorem parse_encode_iff (ndebug : Bool) (v : Value) :
    (∀ rest, ParsesTo ndebug (v.encode ++ rest) v rest) ↔ v.Fits := by
  constructor
  · intro h
    obtain ⟨d, hparse, hholds, -, -⟩ := h []
    obtain ⟨source, hscanned, -, hsource⟩ := parse_accepted hparse
    rw [hholds.unique hsource]
    exact source.value_fits hscanned
  · intro hfits rest
    obtain ⟨hscanned, -, hvalue⟩ := v.source.of_denotes v (v.source_denotes hfits)
    have hparses := parse_source ndebug v.source hscanned rest
    rwa [hvalue] at hparses

/-- A string of 2^32 octets is cut. -/
theorem parse_not_encode :
    ¬ ∀ (v : Value) (rest : List UInt8), ParsesTo false (v.encode ++ rest) v rest := by
  intro h
  have hfits : (List.replicate (2 ^ 32) (0 : UInt8)).length < 2 ^ 32 :=
    (parse_encode_iff false (.string _)).mp (h _)
  rw [List.length_replicate] at hfits
  exact absurd hfits (lt_irrefl _)

theorem wellFormed_bytes {source : Source} (h : source.Scanned) :
    WellFormed source.value source.bytes ↔ ∀ field ∈ source.fields, field.WellFormed := by
  constructor
  · rintro ⟨source', hbytes, hdenotes⟩
    obtain ⟨hscanned', hfields, -⟩ := source'.of_denotes _ hdenotes
    obtain ⟨rfl, -⟩ := Source.bytes_unique source' source [] [] hscanned' h (by rw [hbytes])
    exact hfields
  · exact fun hfields => ⟨source, rfl, source.denotes_value h hfields⟩

/-- What the parser accepts is a well-formed bencoding of what it returns exactly when no
number in the input is malformed and no digits stand in front of the end of a
dictionary. -/
theorem parse_wellFormed_iff {ndebug : Bool} {input : List UInt8} {d : Driver} {s : Scanner}
    (h : parse ndebug input = .ok (some (d, s))) :
    ∃ v consumed, d.Holds v ∧ input = consumed ++ s.input ∧
      (WellFormed v consumed ↔ ∀ source : Source, source.Scanned → source.bytes <+: input →
        ∀ field ∈ source.fields, field.WellFormed) := by
  obtain ⟨source, hscanned, hinput, hholds⟩ := parse_accepted h
  refine ⟨source.value, source.bytes, hholds, hinput, (wellFormed_bytes hscanned).trans ?_⟩
  constructor
  · rintro hfields source' hscanned' ⟨rest, hrest⟩
    obtain ⟨rfl, -⟩ := Source.bytes_unique source' source _ _ hscanned' hscanned
      (hrest.trans hinput)
    exact hfields
  · exact fun hfields => hfields source hscanned ⟨s.input, hinput.symm⟩

/-- The tree of the text `i5-3e`, which is read as 5. -/
def sampleMalformed : Source := .integer ['5'.toUInt8, '-'.toUInt8, '3'.toUInt8]

theorem sampleMalformed_scanned : sampleMalformed.Scanned := by
  simp [sampleMalformed, Source.Scanned]
  decide

theorem parse_wellFormed_iff_malformed :
    ∃ d v consumed, parse false sampleMalformed.bytes = .ok (some (d, ⟨.initial, [], []⟩)) ∧
      d.Holds v ∧ sampleMalformed.bytes = consumed ++ [] ∧ (WellFormed v consumed ↔
        ∀ source : Source, source.Scanned → source.bytes <+: sampleMalformed.bytes →
          ∀ field ∈ source.fields, field.WellFormed) := by
  obtain ⟨d, hparse, -⟩ := parse_source false sampleMalformed sampleMalformed_scanned []
  rw [List.append_nil] at hparse
  obtain ⟨v, consumed, h⟩ := parse_wellFormed_iff hparse
  exact ⟨d, v, consumed, hparse, h⟩

/-- An integer with a sign behind its first digits is accepted. -/
theorem parse_not_wellFormed :
    ¬ ∀ (input : List UInt8) (d : Driver) (s : Scanner), parse false input = .ok (some (d, s)) →
      ∃ v consumed, d.Holds v ∧ input = consumed ++ s.input ∧ WellFormed v consumed := by
  intro h
  obtain ⟨d, hparse, hholds, -⟩ := parse_source false sampleMalformed sampleMalformed_scanned []
  obtain ⟨v, consumed, hv, hconsumed, hwell⟩ := h _ d _ hparse
  rw [List.append_nil, List.append_nil] at hconsumed
  rw [hv.unique hholds, ← hconsumed, wellFormed_bytes sampleMalformed_scanned] at hwell
  obtain ⟨n, digits, -, hdigits, ⟨htext, -⟩ | ⟨htext, -⟩⟩ := hwell _ (List.mem_singleton_self _)
  · exact absurd (hdigits '-'.toUInt8 (by rw [← htext]; decide)) (by decide)
  · exact absurd (List.cons_eq_cons.mp htext).1 (by decide)

end ACENetwork.BitTorrent.Bencoding
