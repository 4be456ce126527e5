import ACENetwork.Net.AddressForms

/-!
# Addresses with ports

`Net_Common_Tools::stringToIPAddress` puts the text of an IPv6 address in brackets and
looks for a port behind the last colon, which it finds inside the brackets; so the
given port is added to the texts of IPv4 addresses only.
-/
namespace ACENetwork.Net.Addresses
open Library

variable {ι : Type}

/-- `Net_Common_Tools::stringToIPAddress`, over `ACE_INET_Addr::string_to_addr` for a text and the
family of IPv4 or not. The number behind a colon that is found is read, but not used. -/
def stringToIPAddress (stringToAddr : Bytes → Bool → Option (ι × UInt16)) (unset : ι × UInt16)
    (address : Bytes) (portNumber : UInt16) : ι × UInt16 :=
  let isIPv6 := matchIPv6Address address
  let ipAddress := if isIPv6 then '['.toUInt8 :: (address ++ [']'.toUInt8]) else address
  let withPort :=
    if ':'.toUInt8 ∈ ipAddress then ipAddress
    else ipAddress ++ ':'.toUInt8 :: decimal portNumber.toNat
  (stringToAddr withPort (!isIPv6)).getD unset

/-- What is known of `string_to_addr`, where `ip4` and `ip6` are the addresses of texts. -/
structure Resolves (stringToAddr : Bytes → Bool → Option (ι × UInt16)) (ip4 ip6 : Bytes → ι) :
    Prop where
  ipv4 : ∀ a p, IsIPv4 a → stringToAddr (a ++ ':'.toUInt8 :: decimal p.toNat) true = some (ip4 a, p)
  ipv6 : ∀ t p, matchIPv6Address t = true →
    stringToAddr ('['.toUInt8 :: (t ++ ']'.toUInt8 :: ':'.toUInt8 :: decimal p.toNat)) false =
      some (ip6 t, p)
  absent : ∀ t, matchIPv6Address t = true →
    ∀ x ∈ stringToAddr ('['.toUInt8 :: (t ++ [']'.toUInt8])) false, x.2 = 0

theorem Accepted.colon {s : Bytes} (h : Accepted s) : ':'.toUInt8 ∈ s := by
  have hcolons : ':'.toUInt8 ∈ text "::" := by decide +kernel
  have hcompressed (left right : List Bytes) : ':'.toUInt8 ∈ Addresses.compressed left right :=
    List.mem_append_left _ (List.mem_append_right _ hcolons)
  cases h with
  | @full groups hlength _ =>
    obtain ⟨first, back, rfl⟩ := List.exists_cons_of_length_eq_add_one hlength
    obtain ⟨second, back, rfl⟩ := List.exists_cons_of_length_eq_add_one
      (by simpa using hlength : back.length = 6 + 1)
    rw [joined_cons]
    simp
  | compressed _ _ _ => exact hcompressed _ _
  | zoned _ =>
    rw [linkLocal, joined_cons]
    simp
  | quad _ _ _ => exact hcompressed _ _

section IPv4

variable {a : Bytes}

theorem IsIPv4.colon (h : IsIPv4 a) : ':'.toUInt8 ∉ a := h.isPart.colon

theorem not_match_ipv4 (h : IsIPv4 a) : matchIPv6Address a = false := by
  rw [Bool.eq_false_iff]
  intro hmatch
  exact h.colon (matchIPv6Address_iff.mp hmatch).colon

/-- A text without colons, and a port behind a colon, is no IPv6 address. -/
theorem not_match_pair {p : Bytes} (ha : IsPart a) (hp : IsPart p) :
    matchIPv6Address (a ++ ':'.toUInt8 :: p) = false := by
  rw [Bool.eq_false_iff]
  intro hmatch
  have hparts : ∀ q ∈ [a, p], IsPart q := by simp [ha, hp]
  have htext : a ++ ':'.toUInt8 :: p = joined ':'.toUInt8 [a, p] := by simp [joined]
  rw [htext, matchIPv6Address_iff] at hmatch
  generalize hs : joined ':'.toUInt8 [a, p] = s at hmatch
  cases hmatch with
  | full hlength hgroups =>
    have hsame := joined_injective (fun p hp => (hparts p hp).colon)
      (fun p hp => (hgroups p hp).isPart.colon) (by simp) (by rintro rfl; cases hlength) hs
    rw [← hsame] at hlength
    cases hlength
  | compressed _ hleft hright =>
    exact joined_ne_compressed hparts (by simp) (isPart_groups hleft) (isPart_groups hright) hs
  | zoned _ => exact joined_percent hparts (hs ▸ by simp)
  | quad h hlength hoctets =>
    obtain ⟨-, hleft, hright⟩ := h.groups
    exact joined_ne_compressed hparts (by simp) (isPart_groups hleft)
      (isPart_snoc (isPart_groups hright) (isPart_quad hlength hoctets)) hs

theorem isPart_digits {t : Bytes} (hne : t ≠ []) (hdigits : ∀ b ∈ t, isDigit b = true) : IsPart t :=
  ⟨hne, notMem_of_class hdigits (by decide), notMem_of_class hdigits (by decide)⟩

theorem isPart_decimal (n : ℕ) : IsPart (decimal n) :=
  isPart_digits (decimal_ne_nil n) fun _ => isDigit_of_mem_decimal

theorem not_match_port (h : IsIPv4 a) (n : ℕ) :
    matchIPv6Address (a ++ ':'.toUInt8 :: decimal n) = false :=
  not_match_pair h.isPart (isPart_decimal n)

end IPv4

section Parsing

variable {stringToAddr : Bytes → Bool → Option (ι × UInt16)} {unset : ι × UInt16}
  {ip4 ip6 : Bytes → ι}

theorem stringToIPAddress_port (h : Resolves stringToAddr ip4 ip6) {a : Bytes} (ha : IsIPv4 a)
    (p q : UInt16) :
    stringToIPAddress stringToAddr unset (a ++ ':'.toUInt8 :: decimal p.toNat) q = (ip4 a, p) := by
  have hcolon : ':'.toUInt8 ∈ a ++ ':'.toUInt8 :: decimal p.toNat := by simp
  simp only [stringToIPAddress, not_match_port ha, Bool.false_eq_true, if_false, hcolon, if_true,
    Bool.not_false, h.ipv4 a p ha, Option.getD_some]

theorem stringToIPAddress_ipv4 (h : Resolves stringToAddr ip4 ip6) {a : Bytes} (ha : IsIPv4 a)
    (q : UInt16) : stringToIPAddress stringToAddr unset a q = (ip4 a, q) := by
  simp only [stringToIPAddress, not_match_ipv4 ha, Bool.false_eq_true, if_false, ha.colon,
    Bool.not_false, h.ipv4 a q ha, Option.getD_some]

theorem stringToIPAddress_ipv6 {t : Bytes} (ht : matchIPv6Address t = true) (q : UInt16) :
    stringToIPAddress stringToAddr unset t q =
      (stringToAddr ('['.toUInt8 :: (t ++ [']'.toUInt8])) false).getD unset := by
  have hcolon : ':'.toUInt8 ∈ '['.toUInt8 :: (t ++ [']'.toUInt8]) := by
    simp [(matchIPv6Address_iff.mp ht).colon]
  simp only [stringToIPAddress, ht, if_true, hcolon, Bool.not_true]

/-- Address and port of an IPv4 text are kept. Those of an IPv6 text are kept exactly for the
default port zero, where the text in brackets resolves without a port. -/
theorem stringToIPAddress_keeps_iff (h : Resolves stringToAddr ip4 ip6) (hunset : unset.2 = 0) :
    (∀ a, IsIPv4 a → ∀ p q,
      stringToIPAddress stringToAddr unset (a ++ ':'.toUInt8 :: decimal p.toNat) q = (ip4 a, p) ∧
        stringToIPAddress stringToAddr unset a q = (ip4 a, q)) ∧
    ∀ t, matchIPv6Address t = true → ∀ q,
      (stringToIPAddress stringToAddr unset t q = (ip6 t, q) ↔
        q = 0 ∧ (stringToAddr ('['.toUInt8 :: (t ++ [']'.toUInt8])) false).getD unset = (ip6 t, 0)) := by
  refine ⟨fun a ha p q => ⟨stringToIPAddress_port h ha p q, stringToIPAddress_ipv4 h ha q⟩, ?_⟩
  intro t ht q
  rw [stringToIPAddress_ipv6 ht]
  have hport : ((stringToAddr ('['.toUInt8 :: (t ++ [']'.toUInt8])) false).getD unset).2 = 0 := by
    cases hresolved : stringToAddr ('['.toUInt8 :: (t ++ [']'.toUInt8])) false with
    | none => exact hunset
    | some x => exact h.absent t ht x hresolved
  constructor
  · intro hkept
    have hzero : q = 0 := by rw [hkept] at hport; exact hport
    exact ⟨hzero, hzero ▸ hkept⟩
  · rintro ⟨rfl, hkept⟩
    exact hkept

end Parsing

/-- The digits at the end of a text, and what is in front of them from the end on. -/
def splitPort (s : Bytes) : Bytes × Bytes :=
  ((s.reverse.takeWhile isDigit).reverse, s.reverse.dropWhile isDigit)

theorem splitPort_digits (front : Bytes) {digits : Bytes} (h : ∀ b ∈ digits, isDigit b = true) :
    splitPort (front ++ ':'.toUInt8 :: digits) = (digits, ':'.toUInt8 :: front.reverse) := by
  have hdigits : ∀ b ∈ digits.reverse, isDigit b = true := fun b hb => h b (List.mem_reverse.mp hb)
  have hstops : Stops isDigit (':'.toUInt8 :: front.reverse) := by
    rintro b ⟨⟩
    decide
  have hreverse : (front ++ ':'.toUInt8 :: digits).reverse =
      digits.reverse ++ ':'.toUInt8 :: front.reverse := by simp
  rw [splitPort, hreverse, takeWhile_run hdigits hstops, dropWhile_run hdigits hstops,
    List.reverse_reverse]

theorem splitPort_eq (front : Bytes) (p : UInt16) :
    splitPort (front ++ ':'.toUInt8 :: decimal p.toNat) =
      (decimal p.toNat, ':'.toUInt8 :: front.reverse) :=
  splitPort_digits front fun _ => isDigit_of_mem_decimal

/-- A resolver that takes the text of an address for the address; without a port it fails. -/
def resolveText (s : Bytes) (isIPv4 : Bool) : Option (Bytes × UInt16) :=
  match isIPv4, splitPort s with
  | true, (digits, _ :: rest) => some (rest.reverse, UInt16.ofNat (decimalValue digits))
  | false, (digits, separator :: _ :: rest) =>
    if separator = ':'.toUInt8 then
      some (rest.reverse.drop 1, UInt16.ofNat (decimalValue digits))
    else none
  | _, _ => none

theorem resolveText_resolves : Resolves resolveText id id := by
  constructor
  · intro a p _
    unfold resolveText
    rw [splitPort_eq]
    simp [decimalValue_decimal]
  · intro t p _
    have htext : '['.toUInt8 :: (t ++ ']'.toUInt8 :: ':'.toUInt8 :: decimal p.toNat) =
        ('['.toUInt8 :: (t ++ [']'.toUInt8])) ++ ':'.toUInt8 :: decimal p.toNat := by simp
    have hreverse : ('['.toUInt8 :: (t ++ [']'.toUInt8])).reverse =
        ']'.toUInt8 :: (t.reverse ++ ['['.toUInt8]) := by simp
    unfold resolveText
    rw [htext, splitPort_eq, hreverse]
    simp [decimalValue_decimal]
  · intro t _ x hx
    have hreverse : ('['.toUInt8 :: (t ++ [']'.toUInt8])).reverse =
        ']'.toUInt8 :: (t.reverse ++ ['['.toUInt8]) := by simp
    have hbracket : isDigit ']'.toUInt8 = false := by decide
    have hsplit : splitPort ('['.toUInt8 :: (t ++ [']'.toUInt8])) =
        ([], ']'.toUInt8 :: (t.reverse ++ ['['.toUInt8])) := by
      rw [splitPort, hreverse, List.takeWhile_cons_of_neg (by simp [hbracket]),
        List.dropWhile_cons_of_neg (by simp [hbracket]), List.reverse_nil]
    have hcolon : ']'.toUInt8 ≠ ':'.toUInt8 := by decide
    unfold resolveText at hx
    rw [hsplit] at hx
    cases hrest : t.reverse ++ ['['.toUInt8] with
    | nil => simp at hrest
    | cons b rest => simp [hrest, hcolon] at hx

theorem match_loopback : matchIPv6Address (text "::1") = true := by
  decide +kernel

theorem isIPv4_loopback : IsIPv4 (text "127.0.0.1") := by
  have hzero : IsOctet (text "0") := isOctet_digit 0 (by decide)
  have hone : IsOctet (text "1") := isOctet_digit 1 (by decide)
  have hnet : IsOctet (text "127") := ⟨127, by decide, by decide +kernel⟩
  refine ⟨[text "127", text "0", text "0", text "1"], rfl, ?_, by decide +kernel⟩
  simp [hzero, hone, hnet]

/-- The loopback addresses, that of IPv6 with the default port 0. -/
theorem stringToIPAddress_keeps_loopback :
    (stringToIPAddress resolveText ([], 0)
        (text "127.0.0.1" ++ ':'.toUInt8 :: decimal (80 : UInt16).toNat) 443 = (text "127.0.0.1", 80) ∧
      stringToIPAddress resolveText ([], 0) (text "127.0.0.1") 443 = (text "127.0.0.1", 443)) ∧
    (stringToIPAddress resolveText ([], 0) (text "::1") 0 = (text "::1", 0) ↔
      (0 : UInt16) = 0 ∧ (resolveText ('['.toUInt8 :: (text "::1" ++ [']'.toUInt8])) false).getD ([], 0) =
        (text "::1", 0)) := by
  obtain ⟨hipv4, hipv6⟩ := stringToIPAddress_keeps_iff resolveText_resolves
    (rfl : (([], 0) : Bytes × UInt16).2 = 0)
  exact ⟨hipv4 _ isIPv4_loopback 80 443, hipv6 _ match_loopback 0⟩

/-- The default port is not added to the loopback address of IPv6. -/
theorem stringToIPAddress_loses_port : Resolves resolveText id id ∧
    matchIPv6Address (text "::1") = true ∧
      stringToIPAddress resolveText ([], 0) (text "::1") 80 ≠ (text "::1", 80) := by
  refine ⟨resolveText_resolves, match_loopback, ?_⟩
  rw [stringToIPAddress_ipv6 match_loopback]
  decide +kernel

end ACENetwork.Net.Addresses
