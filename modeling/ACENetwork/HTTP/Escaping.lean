import ACENetwork.Library.Formatting

/-!
# Percent escapes

`HTTP_Tools::URLEncode` writes octets as hexadecimal numbers with one output stream, and
`HTTP_Tools::URLDecode` reads them. The classes of characters of the C library are defined for the
values of an `unsigned char` and for `EOF`, and the characters of a text are signed.
-/
namespace ACENetwork.HTTP.Escaping
open Library

def percent : UInt8 := 0x25

section Encode

def isUnreserved (b : UInt8) : Bool :=
  isDigit b || isAlpha b || b == '.'.toUInt8 || b == '-'.toUInt8 || b == '_'.toUInt8 ||
    b == '~'.toUInt8

def upper (b : UInt8) : UInt8 := if 0x61 ≤ b && b ≤ 0x7A then b - 0x20 else b

/-- The loop over the characters; the format of the stream is kept. -/
def encodeAll (escapeAll upperCaseHexDigits : Bool) : OutputStream → Bytes → Bytes
  | _, [] => []
  | converter, b :: rest =>
    if escapeAll || !isUnreserved b then
      let converter := { converter with text := [] }.insertAll [.setw 2, .number b.toNat]
      let convertedString :=
        if upperCaseHexDigits then converter.text.map upper else converter.text
      percent :: ((if convertedString.length = 2 then convertedString else convertedString.drop 2) ++
        encodeAll escapeAll upperCaseHexDigits converter rest)
    else b :: encodeAll escapeAll upperCaseHexDigits converter rest

def URLEncode (s : Bytes) (escapeAll upperCaseHexDigits : Bool) : Bytes :=
  encodeAll escapeAll upperCaseHexDigits
    (OutputStream.insertAll {} [.hex, .setfill '0'.toUInt8]) s

end Encode

section Decode

/-- What the language does not define. -/
inductive Undefined where
  | pastEnd
  | classification
  deriving DecidableEq

def charAt (s : Bytes) (i : ℕ) : Except Undefined UInt8 :=
  match s[i]? with
  | none => .error .pastEnd
  | some b => .ok b

def isXDigit (b : UInt8) : Bool :=
  isDigit b || 0x41 ≤ b && b ≤ 0x46 || 0x61 ≤ b && b ≤ 0x66

/-- The arguments of `isxdigit`: the values of an `unsigned char`, and `EOF`. As a signed character
the last octet is -1, which is `EOF`. -/
def IsArgument (b : UInt8) : Prop := b < 0x80 ∨ b = 0xFF

instance : DecidablePred IsArgument := fun b => inferInstanceAs (Decidable (b < 0x80 ∨ b = 0xFF))

def isxdigit (b : UInt8) : Except Undefined Bool :=
  if IsArgument b then .ok (isXDigit b) else .error .classification

def xdigitValue (b : UInt8) : ℕ :=
  if isDigit b then (b - '0'.toUInt8).toNat else (upper b - 'A'.toUInt8).toNat + 10

/-- Whether two characters are digits; the second is looked at only if the first is one. -/
def areXDigits (high low : UInt8) : Except Undefined Bool := do
  if ← isxdigit high then isxdigit low else .ok false

/-- `(highValue << 4) | lowValue`. -/
def decodedChar (high low : UInt8) : UInt8 :=
  UInt8.ofNat (xdigitValue high <<< 4 ||| xdigitValue low)

def decodeFrom (s : Bytes) (i : ℕ) : Except Undefined Bytes :=
  if h : i < s.length then do
    let c ← charAt s i
    if c = percent then
      if i + 2 < s.length then do
        let high ← charAt s (i + 1)
        let low ← charAt s (i + 2)
        if ← areXDigits high low then do
          let rest ← decodeFrom s (i + 3)
          .ok (decodedChar high low :: rest)
        else do
          let rest ← decodeFrom s (i + 1)
          .ok (c :: rest)
      else do
        let rest ← decodeFrom s (i + 1)
        .ok (c :: rest)
    else do
      let rest ← decodeFrom s (i + 1)
      .ok ((if c = '+'.toUInt8 then 0x20 else c) :: rest)
  else .ok []
termination_by s.length - i

def URLDecode (s : Bytes) : Except Undefined Bytes := decodeFrom s 0

end Decode

section Triplets
variable {escapeAll upperCaseHexDigits : Bool}

theorem hexPadded_two {n : ℕ} (h : n < 256) : hexPadded 2 n = [hexDigit (n / 16), hexDigit (n % 16)] := by
  have hlow : n % 16 < 16 := Nat.mod_lt _ (by decide)
  by_cases hzero : n = 0
  · subst hzero
    rfl
  rw [hexPadded, hexadecimal, if_neg hzero, Nat.digits_def' (by decide) (Nat.pos_of_ne_zero hzero)]
  by_cases hhigh : n / 16 = 0
  · rw [hhigh]
    simp [fillUp, hexDigit, digit]
  · have hlast : (n / 16) / 16 = 0 := by omega
    have hmod : n / 16 % 16 = n / 16 := by omega
    rw [Nat.digits_def' (by decide) (Nat.pos_of_ne_zero hhigh), hlast, hmod]
    simp [fillUp]

def writtenDigit (upperCaseHexDigits : Bool) (n : ℕ) : UInt8 :=
  if upperCaseHexDigits then upper (hexDigit n) else hexDigit n

def triplet (upperCaseHexDigits : Bool) (b : UInt8) : Bytes :=
  [percent, writtenDigit upperCaseHexDigits (b.toNat / 16),
    writtenDigit upperCaseHexDigits (b.toNat % 16)]

theorem isXDigit_writtenDigit {n : ℕ} (h : n < 16) :
    isXDigit (writtenDigit upperCaseHexDigits n) = true := by
  cases upperCaseHexDigits <;> interval_cases n <;> rfl

theorem xdigitValue_writtenDigit {n : ℕ} (h : n < 16) :
    xdigitValue (writtenDigit upperCaseHexDigits n) = n := by
  cases upperCaseHexDigits <;> interval_cases n <;> rfl

theorem isArgument_of_isXDigit {b : UInt8} (h : isXDigit b = true) : IsArgument b := by
  revert h
  revert b
  decide +kernel

theorem ne_percent_of_isXDigit {b : UInt8} (h : isXDigit b = true) : b ≠ percent := by
  rintro rfl
  exact absurd h (by decide)

theorem ne_percent_of_isUnreserved {b : UInt8} (h : isUnreserved b = true) : b ≠ percent := by
  rintro rfl
  exact absurd h (by decide)

theorem ne_plus_of_isUnreserved {b : UInt8} (h : isUnreserved b = true) : b ≠ '+'.toUInt8 := by
  rintro rfl
  exact absurd h (by decide)

/-- What the stream keeps from one octet to the next. -/
structure Hexadecimal (converter : OutputStream) : Prop where
  width : converter.width = 0
  fill : converter.fill = '0'.toUInt8
  base16 : converter.base16 = true

theorem hexadecimal_initial :
    Hexadecimal (OutputStream.insertAll {} [.hex, .setfill '0'.toUInt8]) := ⟨rfl, rfl, rfl⟩

theorem hexadecimal_number {converter : OutputStream} (h : Hexadecimal converter) (n : ℕ) :
    Hexadecimal ({ converter with text := [] }.insertAll [.setw 2, .number n]) :=
  ⟨rfl, h.fill, h.base16⟩

theorem text_number {converter : OutputStream} (h : Hexadecimal converter) (n : ℕ) :
    ({ converter with text := [] }.insertAll [.setw 2, .number n]).text = hexPadded 2 n := by
  simp [OutputStream.insertAll, OutputStream.insert, OutputStream.put, h.fill, h.base16, hexPadded]

theorem encodeAll_cons {converter : OutputStream} (h : Hexadecimal converter) (b : UInt8)
    (rest : Bytes) : ∃ next, Hexadecimal next ∧
      encodeAll escapeAll upperCaseHexDigits converter (b :: rest) =
        (if escapeAll || !isUnreserved b then triplet upperCaseHexDigits b else [b]) ++
          encodeAll escapeAll upperCaseHexDigits next rest := by
  by_cases hescape : (escapeAll || !isUnreserved b) = true
  · refine ⟨_, hexadecimal_number h b.toNat, ?_⟩
    have hlt : b.toNat < 256 := b.toNat_lt
    rw [encodeAll, if_pos hescape, if_pos hescape]
    dsimp only
    rw [text_number h, hexPadded_two hlt]
    cases upperCaseHexDigits <;> rfl
  · refine ⟨converter, h, ?_⟩
    rw [encodeAll, if_neg hescape, if_neg hescape]
    rfl

theorem isUnreserved_of_kept {b : UInt8} (h : ¬ (escapeAll || !isUnreserved b) = true) :
    isUnreserved b = true := by
  by_contra hreserved
  exact h (by rw [Bool.eq_false_iff.mpr hreserved, Bool.not_false, Bool.or_true])

/-- A text of unreserved characters and triplets. -/
inductive Escaped : Bytes → Prop where
  | nil : Escaped []
  | unreserved {b : UInt8} {rest : Bytes} : isUnreserved b = true → Escaped rest → Escaped (b :: rest)
  | triplet {high low : UInt8} {rest : Bytes} : isXDigit high = true → isXDigit low = true →
      Escaped rest → Escaped (percent :: high :: low :: rest)

theorem escaped_encodeAll {converter : OutputStream} (h : Hexadecimal converter) (s : Bytes) :
    Escaped (encodeAll escapeAll upperCaseHexDigits converter s) := by
  induction s generalizing converter with
  | nil => exact .nil
  | cons b rest ih =>
    obtain ⟨next, hnext, heq⟩ := encodeAll_cons h b rest
    rw [heq]
    have hlt : b.toNat < 256 := b.toNat_lt
    split
    · exact .triplet (isXDigit_writtenDigit (by omega)) (isXDigit_writtenDigit (by omega)) (ih hnext)
    · next hreserved =>
      exact .unreserved (isUnreserved_of_kept hreserved) (ih hnext)

end Triplets

section Reading
variable {s : Bytes} {i : ℕ}

theorem charAt_of_drop {c : UInt8} {rest : Bytes} (h : s.drop i = c :: rest) :
    charAt s i = .ok c ∧ s.drop (i + 1) = rest ∧ s.length = i + 1 + rest.length := by
  have hget : s[i]? = some c := by
    rw [← List.head?_drop, h]
    rfl
  have hlength : s.length - i = rest.length + 1 := by
    rw [← List.length_drop, h]
    rfl
  refine ⟨by rw [charAt, hget], ?_, by omega⟩
  rw [← List.drop_drop, h]
  rfl

theorem decodeFrom_nil (h : s.drop i = []) : decodeFrom s i = .ok [] := by
  rw [decodeFrom, dif_neg (by simpa using h)]

theorem decodeFrom_plain {c : UInt8} {rest : Bytes} (h : s.drop i = c :: rest) (hc : c ≠ percent) :
    decodeFrom s i =
      (decodeFrom s (i + 1)).map ((if c = '+'.toUInt8 then 0x20 else c) :: ·) := by
  obtain ⟨hchar, -, hlength⟩ := charAt_of_drop h
  rw [decodeFrom, dif_pos (by omega), hchar]
  cases hrest : decodeFrom s (i + 1) <;> simp [bind, Except.bind, hc, Except.map]

theorem decodeFrom_short {rest : Bytes} (h : s.drop i = percent :: rest) (hrest : rest.length < 2) :
    decodeFrom s i = (decodeFrom s (i + 1)).map (percent :: ·) := by
  obtain ⟨hchar, -, hlength⟩ := charAt_of_drop h
  rw [decodeFrom, dif_pos (by omega), hchar]
  have hend : ¬ i + 2 < s.length := by omega
  cases hnext : decodeFrom s (i + 1) <;> simp [bind, Except.bind, hend, Except.map]

theorem decodeFrom_percent {high low : UInt8} {rest : Bytes}
    (h : s.drop i = percent :: high :: low :: rest) :
    decodeFrom s i = (areXDigits high low).bind fun digits =>
      if digits then (decodeFrom s (i + 3)).map (decodedChar high low :: ·)
      else (decodeFrom s (i + 1)).map (percent :: ·) := by
  obtain ⟨hchar, hdrop, hlength⟩ := charAt_of_drop h
  obtain ⟨hhigh, hdrop, -⟩ := charAt_of_drop hdrop
  obtain ⟨hlow, -, -⟩ := charAt_of_drop hdrop
  rw [decodeFrom, dif_pos (by omega), hchar]
  have hend : i + 2 < s.length := by simp only [List.length_cons] at hlength; omega
  cases hdigits : areXDigits high low with
  | error e => simp [bind, Except.bind, hend, hhigh, hlow, hdigits]
  | ok digits =>
    cases digits
    · cases hnext : decodeFrom s (i + 1) <;>
        simp [bind, Except.bind, hend, hhigh, hlow, hdigits, Except.map]
    · cases hnext : decodeFrom s (i + 3) <;>
        simp [bind, Except.bind, hend, hhigh, hlow, hdigits, Except.map]

end Reading

section RoundTrip
variable {escapeAll upperCaseHexDigits : Bool}

theorem areXDigits_writtenDigit {m n : ℕ} (hm : m < 16) (hn : n < 16) :
    areXDigits (writtenDigit upperCaseHexDigits m) (writtenDigit upperCaseHexDigits n) = .ok true := by
  have hhigh : isXDigit (writtenDigit upperCaseHexDigits m) = true := isXDigit_writtenDigit hm
  have hlow : isXDigit (writtenDigit upperCaseHexDigits n) = true := isXDigit_writtenDigit hn
  simp [areXDigits, isxdigit, isArgument_of_isXDigit hhigh, isArgument_of_isXDigit hlow, hhigh, hlow, bind,
    Except.bind]

theorem decodedChar_writtenDigit (b : UInt8) :
    decodedChar (writtenDigit upperCaseHexDigits (b.toNat / 16))
      (writtenDigit upperCaseHexDigits (b.toNat % 16)) = b := by
  have hlt : b.toNat < 256 := b.toNat_lt
  rw [decodedChar, xdigitValue_writtenDigit (by omega), xdigitValue_writtenDigit (by omega),
    ← Nat.shiftLeft_add_eq_or_of_lt (i := 4) (by omega), Nat.shiftLeft_eq]
  have hvalue : b.toNat / 16 * 2 ^ 4 + b.toNat % 16 = b.toNat := by omega
  rw [hvalue, UInt8.ofNat_toNat]

/-- The decoder reads back what the encoder wrote for the rest of a text. -/
theorem decodeFrom_encodeAll {converter : OutputStream} (h : Hexadecimal converter) (s : Bytes)
    {text : Bytes} {i : ℕ} (htext : text.drop i = encodeAll escapeAll upperCaseHexDigits converter s) :
    decodeFrom text i = .ok s := by
  induction s generalizing converter i with
  | nil => exact decodeFrom_nil htext
  | cons b rest ih =>
    obtain ⟨next, hnext, heq⟩ := encodeAll_cons h b rest
    rw [heq] at htext
    have hlt : b.toNat < 256 := b.toNat_lt
    split at htext
    · have hrest : text.drop (i + 3) = encodeAll escapeAll upperCaseHexDigits next rest := by
        rw [← List.drop_drop, htext]
        rfl
      rw [decodeFrom_percent htext, areXDigits_writtenDigit (by omega) (by omega)]
      simp [Except.bind, ih hnext hrest, Except.map, decodedChar_writtenDigit]
    · next hreserved =>
      have hunreserved := isUnreserved_of_kept hreserved
      obtain ⟨-, hrest, -⟩ := charAt_of_drop htext
      rw [decodeFrom_plain htext (ne_percent_of_isUnreserved hunreserved),
        if_neg (ne_plus_of_isUnreserved hunreserved), ih hnext hrest]
      rfl

end RoundTrip

section Definedness
variable {s : Bytes} {i : ℕ}

/-- The characters after a percent sign that the decoder classifies can be classified. -/
def Classified (s : Bytes) : Prop :=
  ∀ (front : Bytes) (high low : UInt8) (rest : Bytes), s = front ++ percent :: high :: low :: rest →
    IsArgument high ∧ (isXDigit high = true → IsArgument low)

theorem isOk_areXDigits {high low : UInt8} :
    (areXDigits high low).isOk = true ↔
      IsArgument high ∧ (isXDigit high = true → IsArgument low) := by
  by_cases hhigh : IsArgument high
  · by_cases hdigit : isXDigit high = true
    · by_cases hlow : IsArgument low <;>
        simp [areXDigits, isxdigit, hhigh, hdigit, hlow, bind, Except.bind, Except.isOk,
          Except.toBool]
    · simp [areXDigits, isxdigit, hhigh, hdigit, bind, Except.bind, Except.isOk, Except.toBool]
  · simp [areXDigits, isxdigit, hhigh, bind, Except.bind, Except.isOk, Except.toBool]

theorem classified_cons {c : UInt8} {rest : Bytes} (hc : c ≠ percent) :
    Classified (c :: rest) ↔ Classified rest := by
  refine ⟨fun h front high low tail heq => h (c :: front) high low tail (by rw [heq]; rfl),
    fun h front high low tail heq => ?_⟩
  cases front with
  | nil => exact absurd (List.cons.inj heq).1 hc
  | cons first front => exact h front high low tail (List.cons.inj heq).2

theorem classified_percent {high low : UInt8} {rest : Bytes} :
    Classified (percent :: high :: low :: rest) ↔
      (IsArgument high ∧ (isXDigit high = true → IsArgument low)) ∧
        Classified (high :: low :: rest) := by
  refine ⟨fun h => ⟨h [] high low rest rfl, fun front high' low' tail heq => ?_⟩,
    fun h front high' low' tail heq => ?_⟩
  · exact h (percent :: front) high' low' tail (by rw [heq]; rfl)
  · cases front with
    | nil =>
      obtain ⟨-, rfl, rfl, -⟩ : percent = percent ∧ high = high' ∧ low = low' ∧ rest = tail := by
        simpa using heq
      exact h.1
    | cons first front => exact h.2 front high' low' tail (List.cons.inj heq).2

theorem classified_of_length_lt (h : s.length < 3) : Classified s := by
  rintro front high low tail rfl
  simp only [List.length_append, List.length_cons] at h
  omega

theorem isXDigit_of_areXDigits {high low : UInt8} (h : areXDigits high low = .ok true) :
    isXDigit high = true ∧ isXDigit low = true := by
  unfold areXDigits isxdigit at h
  by_cases hhigh : IsArgument high <;> by_cases hdigit : isXDigit high = true <;>
    by_cases hlow : IsArgument low <;> simp_all [bind, Except.bind]

@[simp] theorem isOk_map {α β : Type} (f : α → β) (x : Except Undefined α) :
    (x.map f).isOk = x.isOk := by
  cases x <;> rfl

/-- The loop is defined on the rest of a text, if the rest is classified. -/
theorem isOk_decodeFrom (s : Bytes) (i : ℕ) :
    (decodeFrom s i).isOk = true ↔ Classified (s.drop i) := by
  induction hn : s.length - i using Nat.strong_induction_on generalizing i with
  | _ n ih =>
    match hdrop : s.drop i with
    | [] =>
      rw [decodeFrom_nil hdrop]
      exact iff_of_true rfl (by intro front high low tail heq; simp at heq)
    | c :: rest =>
      obtain ⟨-, hrest, hlength⟩ := charAt_of_drop hdrop
      have hnext : (decodeFrom s (i + 1)).isOk = true ↔ Classified rest := by
        rw [ih (s.length - (i + 1)) (by omega) (i + 1) rfl, hrest]
      by_cases hc : c = percent
      · subst hc
        match rest, hrest, hlength, hdrop, hnext with
        | [], _, _, hdrop, hnext =>
          rw [decodeFrom_short hdrop (by decide), isOk_map, hnext]
          exact iff_of_true (classified_of_length_lt (by decide))
            (classified_of_length_lt (by decide))
        | [high], _, _, hdrop, hnext =>
          rw [decodeFrom_short hdrop (Nat.lt_succ_self 1), isOk_map, hnext]
          exact iff_of_true (classified_of_length_lt (Nat.lt_succ_of_lt (Nat.lt_succ_self 1)))
            (classified_of_length_lt (Nat.lt_succ_self 2))
        | high :: low :: rest, hrest, hlength, hdrop, hnext =>
          have hlast : s.drop (i + 3) = rest := by
            rw [← List.drop_drop, hdrop]
            rfl
          rw [decodeFrom_percent hdrop, classified_percent, ← isOk_areXDigits]
          cases hdigits : areXDigits high low with
          | error fault => simp [Except.bind, Except.isOk, Except.toBool]
          | ok digits =>
            cases digits with
            | false =>
              change ((decodeFrom s (i + 1)).map (percent :: ·)).isOk = true ↔ true = true ∧ _
              rw [isOk_map, hnext, eq_self, true_and]
            | true =>
              obtain ⟨hhigh, hlow⟩ := isXDigit_of_areXDigits hdigits
              simp only [List.length_cons] at hlength
              have hskip := ih (s.length - (i + 3)) (by omega) (i + 3) rfl
              rw [hlast] at hskip
              change ((decodeFrom s (i + 3)).map (decodedChar high low :: ·)).isOk = true ↔
                true = true ∧ _
              rw [isOk_map, hskip, classified_cons (ne_percent_of_isXDigit hhigh),
                classified_cons (ne_percent_of_isXDigit hlow), eq_self, true_and]
      · rw [decodeFrom_plain hdrop hc, isOk_map, hnext, classified_cons hc]

end Definedness

section Results

/-- The encoder writes unreserved characters and triplets only, and the decoder reads the text
back; the decoder is defined on those texts whose escapes can be classified. -/
theorem escaping_iff (s t : Bytes) (escapeAll upperCaseHexDigits : Bool) :
    (Escaped (URLEncode s escapeAll upperCaseHexDigits) ∧
        URLDecode (URLEncode s escapeAll upperCaseHexDigits) = .ok s) ∧
      ((∃ text, URLDecode t = .ok text) ↔ Classified t) := by
  refine ⟨⟨escaped_encodeAll hexadecimal_initial s,
    decodeFrom_encodeAll hexadecimal_initial s List.drop_zero⟩, ?_⟩
  rw [← List.drop_zero (l := t), ← isOk_decodeFrom, URLDecode, List.drop_zero]
  cases decodeFrom t 0 <;> simp [Except.isOk, Except.toBool]

/-- A negative character other than `EOF` behind a percent sign is classified nevertheless. -/
theorem not_defined : URLDecode [percent, 0x80, 'a'.toUInt8] = .error .classification := by
  decide +kernel

end Results

end ACENetwork.HTTP.Escaping
