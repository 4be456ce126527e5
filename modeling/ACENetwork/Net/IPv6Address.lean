import ACENetwork.Library.Regex
import ACENetwork.Net.IPv4Address

/-!
# Texts of IPv6 addresses

`Net_Common_Tools::matchIPv6Address` is one expression; only whether there is a match
counts. It recognises the forms of groups of hexadecimal digits. Of the forms with a
dotted quad it knows few, and a zone only behind some link-local addresses.
-/
namespace ACENetwork.Net.Addresses
open Library

def isHexOctet (b : UInt8) : Bool :=
  isDigit b || 'a'.toUInt8 ≤ b && b ≤ 'f'.toUInt8 || 'A'.toUInt8 ≤ b && b ≤ 'F'.toUInt8

def isZoneOctet (b : UInt8) : Bool := isDigit b || isAlpha b

def isUpTo (last : Char) (b : UInt8) : Bool := '0'.toUInt8 ≤ b && b ≤ last.toUInt8

section Pattern

open Regex

def lit (s : String) : Regex UInt8 := word (text s)

/-- `[0-9a-fA-F]{1,4}` -/
def groupPattern : Regex UInt8 := range 1 4 (symbol isHexOctet)

/-- `([0-9a-fA-F]{1,4}:){least,most}` -/
def groupsBefore (least most : ℕ) : Regex UInt8 := range least most (seq groupPattern (lit ":"))

/-- `(:[0-9a-fA-F]{1,4}){least,most}` -/
def groupsAfter (least most : ℕ) : Regex UInt8 := range least most (seq (lit ":") groupPattern)

/-- `25[0-5]|(2[0-4]|1{0,1}[0-9]){0,1}[0-9]` -/
def octetPattern : Regex UInt8 :=
  or (seq (lit "25") (symbol (isUpTo '5')))
    (seq (range 0 1 (or (seq (lit "2") (symbol (isUpTo '4')))
      (seq (range 0 1 (lit "1")) (symbol isDigit)))) (symbol isDigit))

def quadPattern : Regex UInt8 := seq (range 3 3 (seq octetPattern (lit "."))) octetPattern

/-- `fe80:(:[0-9a-fA-F]{0,4}){0,4}%[0-9a-zA-Z]{1,}` -/
def linkLocalPattern : Regex UInt8 :=
  seq (lit "fe80:") (seq (range 0 4 (seq (lit ":") (range 0 4 (symbol isHexOctet))))
    (seq (lit "%") (plus (symbol isZoneOctet))))

/-- `::(ffff(:0{1,4}){0,1}:){0,1}` and a quad. -/
def mappedPattern : Regex UInt8 :=
  seq (lit "::") (seq (range 0 1 (seq (lit "ffff")
    (seq (range 0 1 (seq (lit ":") (range 1 4 (symbol (· == '0'.toUInt8))))) (lit ":")))) quadPattern)

def alternatives : List (Regex UInt8) :=
  [seq (groupsBefore 7 7) groupPattern,
    seq (groupsBefore 1 7) (lit ":"),
    seq (groupsBefore 1 6) (seq (lit ":") groupPattern),
    seq (groupsBefore 1 5) (groupsAfter 1 2),
    seq (groupsBefore 1 4) (groupsAfter 1 3),
    seq (groupsBefore 1 3) (groupsAfter 1 4),
    seq (groupsBefore 1 2) (groupsAfter 1 5),
    seq groupPattern (seq (lit ":") (groupsAfter 1 6)),
    seq (lit ":") (or (groupsAfter 1 7) (lit ":")),
    linkLocalPattern,
    mappedPattern,
    seq (groupsBefore 1 4) (seq (lit ":") quadPattern)]

def ipv6Pattern : Regex UInt8 := anyOf alternatives

end Pattern

def matchIPv6Address (s : Bytes) : Bool := ipv6Pattern.accepts s

def IsGroup (g : Bytes) : Prop := 1 ≤ g.length ∧ g.length ≤ 4 ∧ ∀ b ∈ g, isHexOctet b = true

/-- Two sides of groups around a double colon. -/
def compressed (left right : List Bytes) : Bytes :=
  joined ':'.toUInt8 left ++ text "::" ++ joined ':'.toUInt8 right

/-- The text forms of an IPv6 address: eight groups, or up to seven with a double colon,
and both with a dotted quad in the place of the last two. -/
inductive IsIPv6 : Bytes → Prop
  | full {groups : List Bytes} (hlength : groups.length = 8) (hgroups : ∀ g ∈ groups, IsGroup g) :
    IsIPv6 (joined ':'.toUInt8 groups)
  | compressed {left right : List Bytes} (hlength : left.length + right.length ≤ 7)
    (hleft : ∀ g ∈ left, IsGroup g) (hright : ∀ g ∈ right, IsGroup g) :
    IsIPv6 (compressed left right)
  | fullQuad {groups : List Bytes} {quad : Bytes} (hlength : groups.length = 6)
    (hgroups : ∀ g ∈ groups, IsGroup g) (hquad : IsIPv4 quad) :
    IsIPv6 (joined ':'.toUInt8 (groups ++ [quad]))
  | compressedQuad {left right : List Bytes} {quad : Bytes} (hlength : left.length + right.length ≤ 5)
    (hleft : ∀ g ∈ left, IsGroup g) (hright : ∀ g ∈ right, IsGroup g) (hquad : IsIPv4 quad) :
    IsIPv6 (Addresses.compressed left (right ++ [quad]))

def stripZone (s : Bytes) : Bytes := s.takeWhile (· != '%'.toUInt8)

/-- What the expression takes for an octet: a leading zero is allowed in front of one digit. -/
def LooseOctet (t : Bytes) : Prop := IsOctet t ∨ ∃ d, isDigit d = true ∧ t = ['0'.toUInt8, d]

/-- The groups that the expression allows between a double colon and a quad. -/
def IsMapped (right : List Bytes) : Prop := right = [text "ffff"] ∨ ∃ zeros : Bytes,
  1 ≤ zeros.length ∧ zeros.length ≤ 4 ∧ (∀ b ∈ zeros, b = '0'.toUInt8) ∧
    right = [text "ffff", zeros]

/-- The groups around the double colon that the expression allows in front of a quad. -/
def Supported (left right : List Bytes) : Prop :=
  left = [] ∧ (right = [] ∨ IsMapped right) ∨
    (1 ≤ left.length ∧ left.length ≤ 4 ∧ ∀ g ∈ left, IsGroup g) ∧ right = []

/-- The parts behind `fe80:` and the zone that the expression allows. -/
structure LinkLocal (parts : List Bytes) (zone : Bytes) : Prop where
  length : parts.length ≤ 4
  parts : ∀ p ∈ parts, p.length ≤ 4 ∧ ∀ b ∈ p, isHexOctet b = true
  nonempty : zone ≠ []
  zone : ∀ b ∈ zone, isZoneOctet b = true

def linkLocal (parts : List Bytes) : Bytes := joined ':'.toUInt8 (text "fe80" :: [] :: parts)

inductive Accepted : Bytes → Prop
  | full {groups : List Bytes} (hlength : groups.length = 8) (hgroups : ∀ g ∈ groups, IsGroup g) :
    Accepted (joined ':'.toUInt8 groups)
  | compressed {left right : List Bytes} (hlength : left.length + right.length ≤ 7)
    (hleft : ∀ g ∈ left, IsGroup g) (hright : ∀ g ∈ right, IsGroup g) :
    Accepted (compressed left right)
  | zoned {parts : List Bytes} {zone : Bytes} (h : LinkLocal parts zone) :
    Accepted (linkLocal parts ++ '%'.toUInt8 :: zone)
  | quad {left right octets : List Bytes} (h : Supported left right) (hlength : octets.length = 4)
    (hoctets : ∀ t ∈ octets, LooseOctet t) :
    Accepted (Addresses.compressed left (right ++ [joined '.'.toUInt8 octets]))

section Languages

open Regex

variable {w : Bytes}

theorem mem_lit {s : String} : w ∈ (lit s).language ↔ w = text s := mem_word

theorem mem_groupPattern : w ∈ groupPattern.language ↔ IsGroup w := mem_range_symbol (by decide)

theorem mem_groupsBefore {least most : ℕ} (h : least ≤ most) :
    w ∈ (groupsBefore least most).language ↔ ∃ gs : List Bytes, least ≤ gs.length ∧
      gs.length ≤ most ∧ (∀ g ∈ gs, IsGroup g) ∧ w = gs.flatMap (· ++ [':'.toUInt8]) := by
  refine mem_range_map (fun v => ?_) h
  rw [mem_seq]
  constructor
  · rintro ⟨g, hg, _, hcolon, rfl⟩
    exact ⟨g, mem_groupPattern.1 hg, by rw [mem_lit.1 hcolon]; rfl⟩
  · rintro ⟨g, hg, rfl⟩
    exact ⟨g, mem_groupPattern.2 hg, [':'.toUInt8], mem_lit.2 rfl, rfl⟩

theorem mem_groupsAfter {least most : ℕ} (h : least ≤ most) :
    w ∈ (groupsAfter least most).language ↔ ∃ gs : List Bytes, least ≤ gs.length ∧
      gs.length ≤ most ∧ (∀ g ∈ gs, IsGroup g) ∧ w = gs.flatMap (':'.toUInt8 :: ·) := by
  refine mem_range_map (fun v => ?_) h
  rw [mem_seq]
  constructor
  · rintro ⟨_, hcolon, g, hg, rfl⟩
    exact ⟨g, mem_groupPattern.1 hg, by rw [mem_lit.1 hcolon]; rfl⟩
  · rintro ⟨g, hg, rfl⟩
    exact ⟨[':'.toUInt8], mem_lit.2 rfl, g, mem_groupPattern.2 hg, rfl⟩

def looseOctet (t : Bytes) : Bool :=
  decimalValue t ≤ 255 && decimal (decimalValue t) == t ||
    t.head? == some '0'.toUInt8 && t.length == 2 && t.all isDigit

theorem looseOctet_sound {t : Bytes} (h : looseOctet t = true) : LooseOctet t := by
  simp only [looseOctet, Bool.or_eq_true, Bool.and_eq_true, decide_eq_true_eq, beq_iff_eq,
    List.all_eq_true] at h
  rcases h with ⟨hvalue, hnumeral⟩ | ⟨⟨hhead, hlength⟩, hdigits⟩
  · exact .inl ⟨decimalValue t, hvalue, hnumeral.symm⟩
  · obtain ⟨a, d, rfl⟩ := List.length_eq_two.mp hlength
    obtain rfl : a = '0'.toUInt8 := by simpa using hhead
    exact .inr ⟨d, hdigits d (by simp), rfl⟩

theorem octets_loose :
    (∀ d, isUpTo '5' d = true → looseOctet (text "25" ++ [d]) = true) ∧
    (∀ d, isDigit d = true → looseOctet [d] = true) ∧
    (∀ a ∈ (List.range 5).map digit, ∀ d ∈ (List.range 10).map digit,
      looseOctet (text "2" ++ [a, d]) = true) ∧
    (∀ a ∈ (List.range 10).map digit, ∀ d ∈ (List.range 10).map digit,
      looseOctet [a, d] = true ∧ looseOctet (text "1" ++ [a, d]) = true) := by
  decide +kernel

theorem digits_mem :
    (∀ b, isDigit b = true → b ∈ (List.range 10).map digit) ∧
      ∀ b, isUpTo '4' b = true → b ∈ (List.range 5).map digit := by
  decide +kernel

theorem octets_accepted : (∀ n < 256, octetPattern.accepts (decimal n) = true) ∧
    ∀ d, isDigit d = true → octetPattern.accepts ['0'.toUInt8, d] = true := by
  decide +kernel

theorem mem_octetPattern : w ∈ octetPattern.language ↔ LooseOctet w := by
  obtain ⟨hhigh, hone, htwenties, htwo⟩ := octets_loose
  obtain ⟨hdigits, hdigits'⟩ := digits_mem
  obtain ⟨hnumeral, hzero⟩ := octets_accepted
  constructor
  · intro h
    refine looseOctet_sound ?_
    rw [octetPattern, mem_or, mem_seq, mem_seq] at h
    rcases h with ⟨_, hlit, _, ⟨d, hd, rfl⟩, rfl⟩ | ⟨front, hfront, _, ⟨d, hd, rfl⟩, rfl⟩
    · rw [mem_lit.1 hlit]
      exact hhigh d hd
    · have hd' := hdigits d hd
      obtain ⟨ws, -, hlength, hws, rfl⟩ := (mem_range (by decide)).mp hfront
      match ws with
      | [] => exact hone d hd
      | [v] =>
        rcases mem_or.mp (hws v List.mem_cons_self) with hv | hv
        · obtain ⟨_, hlit, _, ⟨b, hb, rfl⟩, rfl⟩ := mem_seq.mp hv
          rw [mem_lit.1 hlit]
          exact htwenties b (hdigits' b hb) d hd'
        · obtain ⟨_, hones, _, ⟨b, hb, rfl⟩, rfl⟩ := mem_seq.mp hv
          obtain ⟨us, -, hcount, hus, rfl⟩ := (mem_range (by decide)).mp hones
          match us with
          | [] => exact (htwo b (hdigits b hb) d hd').1
          | [u] =>
            rw [mem_lit.1 (hus u List.mem_cons_self)]
            exact (htwo b (hdigits b hb) d hd').2
          | _ :: _ :: _ => simp at hcount
      | _ :: _ :: _ => simp at hlength
  · rintro (⟨n, hn, rfl⟩ | ⟨d, hd, rfl⟩)
    · exact accepts_iff.mp (hnumeral n (by omega))
    · exact accepts_iff.mp (hzero d hd)

theorem mem_quadPattern : w ∈ quadPattern.language ↔ ∃ octets : List Bytes, octets.length = 4 ∧
    (∀ t ∈ octets, LooseOctet t) ∧ w = joined '.'.toUInt8 octets := by
  have hpart (v : Bytes) : v ∈ (seq octetPattern (lit ".")).language ↔
      ∃ t, LooseOctet t ∧ v = t ++ ['.'.toUInt8] := by
    rw [mem_seq]
    constructor
    · rintro ⟨t, ht, _, hdot, rfl⟩
      exact ⟨t, mem_octetPattern.1 ht, by rw [mem_lit.1 hdot]; rfl⟩
    · rintro ⟨t, ht, rfl⟩
      exact ⟨t, mem_octetPattern.2 ht, ['.'.toUInt8], mem_lit.2 rfl, rfl⟩
  rw [quadPattern, mem_seq]
  constructor
  · rintro ⟨u, hu, t, ht, rfl⟩
    obtain ⟨ts, hleast, hmost, hts, rfl⟩ := (mem_range_map hpart (by decide)).mp hu
    refine ⟨ts ++ [t], by rw [List.length_append, List.length_singleton]; omega, ?_,
      (joined_snoc ts t).symm⟩
    exact List.forall_mem_append.mpr ⟨hts, by simpa using mem_octetPattern.1 ht⟩
  · rintro ⟨octets, hlength, hoctets, rfl⟩
    obtain ⟨a, b, c, d, rfl⟩ := List.length_eq_four.mp hlength
    simp only [List.forall_mem_cons] at hoctets
    obtain ⟨ha, hb, hc, hd, -⟩ := hoctets
    refine ⟨[a, b, c].flatMap (· ++ ['.'.toUInt8]), ?_, d, mem_octetPattern.2 hd,
      (joined_snoc [a, b, c] d).symm⟩
    exact (mem_range_map hpart (by decide)).mpr ⟨[a, b, c], le_rfl, le_rfl, by simp [ha, hb, hc], rfl⟩

end Languages

/-- A side of the double colon among the parts of a text: an empty side is an empty part. -/
def edge (side : List Bytes) : List Bytes := if side = [] then [[]] else side

theorem edge_left (left : List Bytes) :
    (edge left).flatMap (· ++ [':'.toUInt8]) = joined ':'.toUInt8 left ++ [':'.toUInt8] := by
  unfold edge
  split_ifs with h
  · simp [h, joined]
  · rw [joined_append_sep h]

theorem edge_right (right : List Bytes) :
    (edge right).flatMap (':'.toUInt8 :: ·) = ':'.toUInt8 :: joined ':'.toUInt8 right := by
  unfold edge
  split_ifs with h
  · simp [h, joined]
  · rw [sep_joined h]

theorem compressed_eq (left right : List Bytes) :
    compressed left right = joined ':'.toUInt8 (edge left ++ [] :: edge right) := by
  have hcolons : text "::" = [':'.toUInt8, ':'.toUInt8] := rfl
  rw [joined_append, edge_left, edge_right, compressed, hcolons]
  simp

theorem compressed_flatMap (left right : List Bytes) : compressed left right =
    (edge left).flatMap (· ++ [':'.toUInt8]) ++ (edge right).flatMap (':'.toUInt8 :: ·) := by
  rw [compressed_eq, joined_append, List.append_nil]

section Recogniser

open Regex

variable {s : Bytes}

theorem edge_of_pos {side : List Bytes} (h : 1 ≤ side.length) : edge side = side :=
  if_neg fun hnil => by simp [hnil] at h

/-- Groups on both sides of a double colon. -/
theorem accepted_between {a b c d : ℕ} (hab : a ≤ b) (hcd : c ≤ d) (ha : 1 ≤ a) (hc : 1 ≤ c)
    (hsum : b + d ≤ 7) (h : s ∈ (seq (groupsBefore a b) (groupsAfter c d)).language) : Accepted s := by
  obtain ⟨u, hu, v, hv, rfl⟩ := mem_seq.mp h
  obtain ⟨left, hleast, hmost, hleft, rfl⟩ := (mem_groupsBefore hab).mp hu
  obtain ⟨right, hleast', hmost', hright, rfl⟩ := (mem_groupsAfter hcd).mp hv
  have htext := compressed_flatMap left right
  rw [edge_of_pos (by omega), edge_of_pos (by omega)] at htext
  rw [← htext]
  exact .compressed (by omega) hleft hright

theorem mem_between {a b c d : ℕ} {left right : List Bytes} (hab : a ≤ b) (hcd : c ≤ d)
    (hleast : a ≤ left.length) (hmost : left.length ≤ b) (hleast' : c ≤ right.length)
    (hmost' : right.length ≤ d) (hpos : 1 ≤ left.length) (hpos' : 1 ≤ right.length)
    (hleft : ∀ g ∈ left, IsGroup g) (hright : ∀ g ∈ right, IsGroup g) :
    compressed left right ∈ (seq (groupsBefore a b) (groupsAfter c d)).language := by
  rw [compressed_flatMap, edge_of_pos hpos, edge_of_pos hpos']
  exact mem_seq.mpr ⟨_, (mem_groupsBefore hab).mpr ⟨left, hleast, hmost, hleft, rfl⟩,
    _, (mem_groupsAfter hcd).mpr ⟨right, hleast', hmost', hright, rfl⟩, rfl⟩

theorem mem_groupsAfter_one : s ∈ (seq (lit ":") groupPattern).language ↔
    s ∈ (groupsAfter 1 1).language := by
  rw [mem_groupsAfter le_rfl, mem_seq]
  constructor
  · rintro ⟨_, hcolon, g, hg, rfl⟩
    refine ⟨[g], le_rfl, le_rfl, by simpa using mem_groupPattern.1 hg, ?_⟩
    rw [mem_lit.1 hcolon]
    simp [text]
    rfl
  · rintro ⟨gs, hleast, hmost, hgs, rfl⟩
    obtain ⟨g, rfl⟩ := List.length_eq_one_iff.mp (le_antisymm hmost hleast)
    exact ⟨[':'.toUInt8], mem_lit.2 rfl, g, mem_groupPattern.2 (by simpa using hgs), by simp⟩

theorem linkLocal_eq (parts : List Bytes) :
    linkLocal parts = text "fe80:" ++ parts.flatMap (':'.toUInt8 :: ·) := by
  have hhead : text "fe80:" = text "fe80" ++ [':'.toUInt8] := rfl
  rw [linkLocal, joined_cons, hhead]
  simp

theorem mem_linkLocalPattern : s ∈ linkLocalPattern.language ↔
    ∃ parts zone, LinkLocal parts zone ∧ s = linkLocal parts ++ '%'.toUInt8 :: zone := by
  have hpart (v : Bytes) : v ∈ (seq (lit ":") (range 0 4 (symbol isHexOctet))).language ↔
      ∃ p : Bytes, (p.length ≤ 4 ∧ ∀ b ∈ p, isHexOctet b = true) ∧ v = ':'.toUInt8 :: p := by
    rw [mem_seq]
    constructor
    · rintro ⟨_, hcolon, p, hp, rfl⟩
      obtain ⟨-, hlength, hhex⟩ := (mem_range_symbol (by decide)).mp hp
      exact ⟨p, ⟨hlength, hhex⟩, by rw [mem_lit.1 hcolon]; rfl⟩
    · rintro ⟨p, ⟨hlength, hhex⟩, rfl⟩
      exact ⟨[':'.toUInt8], mem_lit.2 rfl, p,
        (mem_range_symbol (by decide)).mpr ⟨Nat.zero_le _, hlength, hhex⟩, rfl⟩
  rw [linkLocalPattern, mem_seq]
  constructor
  · rintro ⟨_, hhead, _, hrest, rfl⟩
    obtain ⟨_, hmiddle, _, hbehind, rfl⟩ := mem_seq.mp hrest
    obtain ⟨_, hpercent, zone, htail, rfl⟩ := mem_seq.mp hbehind
    obtain ⟨parts, -, hlength, hparts, rfl⟩ := (mem_range_map hpart (by decide)).mp hmiddle
    obtain ⟨hnil, hzone⟩ := mem_plus_symbol.mp htail
    refine ⟨parts, zone, ⟨hlength, hparts, hnil, hzone⟩, ?_⟩
    rw [linkLocal_eq, mem_lit.1 hhead, mem_lit.1 hpercent, List.append_assoc]
    rfl
  · rintro ⟨parts, zone, h, rfl⟩
    rw [linkLocal_eq, List.append_assoc]
    refine ⟨_, mem_lit.2 rfl, _, mem_seq.mpr ⟨_, (mem_range_map hpart (by decide)).mpr
      ⟨parts, Nat.zero_le _, h.length, h.parts, rfl⟩, _, mem_seq.mpr
      ⟨['%'.toUInt8], mem_lit.2 rfl, zone, mem_plus_symbol.mpr ⟨h.nonempty, h.zone⟩, rfl⟩, rfl⟩, rfl⟩

theorem compressed_mapped (right : List Bytes) (quad : Bytes) : compressed [] (right ++ [quad]) =
    text "::" ++ (right.flatMap (· ++ [':'.toUInt8]) ++ quad) := by
  rw [compressed, joined_snoc]
  rfl

theorem compressed_quad {left : List Bytes} (h : 1 ≤ left.length) (quad : Bytes) :
    compressed left [quad] = left.flatMap (· ++ [':'.toUInt8]) ++ (text ":" ++ quad) := by
  have hcolons : text "::" = [':'.toUInt8] ++ text ":" := rfl
  have hnil : left ≠ [] := by
    rintro rfl
    simp at h
  rw [compressed, hcolons, ← List.append_assoc, joined_append_sep hnil]
  simp [joined]

theorem mem_mappedGroups : s ∈ (seq (lit "ffff")
      (seq (range 0 1 (seq (lit ":") (range 1 4 (symbol (· == '0'.toUInt8))))) (lit ":"))).language ↔
    ∃ right, IsMapped right ∧ s = right.flatMap (· ++ [':'.toUInt8]) := by
  have hzeros (v : Bytes) : v ∈ (seq (lit ":") (range 1 4 (symbol (· == '0'.toUInt8)))).language ↔
      ∃ z : Bytes, (1 ≤ z.length ∧ z.length ≤ 4 ∧ ∀ b ∈ z, b = '0'.toUInt8) ∧ v = ':'.toUInt8 :: z := by
    rw [mem_seq]
    constructor
    · rintro ⟨_, hcolon, z, hz, rfl⟩
      obtain ⟨hleast, hmost, hzero⟩ := (mem_range_symbol (by decide)).mp hz
      exact ⟨z, ⟨hleast, hmost, fun b hb => by simpa using hzero b hb⟩, by rw [mem_lit.1 hcolon]; rfl⟩
    · rintro ⟨z, ⟨hleast, hmost, hz⟩, rfl⟩
      exact ⟨[':'.toUInt8], mem_lit.2 rfl, z,
        (mem_range_symbol (by decide)).mpr ⟨hleast, hmost, fun b hb => by simpa using hz b hb⟩, rfl⟩
  rw [mem_seq]
  constructor
  · rintro ⟨_, hffff, _, hrest, rfl⟩
    obtain ⟨_, hmiddle, _, hcolon, rfl⟩ := mem_seq.mp hrest
    obtain ⟨zs, -, hlength, hzs, rfl⟩ := (mem_range_map hzeros (by decide)).mp hmiddle
    rw [mem_lit.1 hffff, mem_lit.1 hcolon]
    match zs with
    | [] => exact ⟨[text "ffff"], .inl rfl, rfl⟩
    | [z] =>
      obtain ⟨hleast, hmost, hzero⟩ := hzs z List.mem_cons_self
      refine ⟨[text "ffff", z], .inr ⟨z, hleast, hmost, hzero, rfl⟩, ?_⟩
      have hcolon : text ":" = [':'.toUInt8] := rfl
      simp [hcolon]
    | _ :: _ :: _ => simp at hlength
  · rintro ⟨_, rfl | ⟨z, hleast, hmost, hzero, rfl⟩, rfl⟩
    · exact ⟨text "ffff", mem_lit.2 rfl, _, mem_seq.mpr ⟨[], (mem_range_map hzeros (by decide)).mpr
        ⟨[], le_rfl, Nat.zero_le _, by simp, rfl⟩, [':'.toUInt8], mem_lit.2 rfl, rfl⟩, by simp⟩
    · exact ⟨text "ffff", mem_lit.2 rfl, _, mem_seq.mpr ⟨_, (mem_range_map hzeros (by decide)).mpr
        ⟨[z], Nat.zero_le _, le_rfl, by simpa using ⟨hleast, hmost, hzero⟩, rfl⟩,
        [':'.toUInt8], mem_lit.2 rfl, rfl⟩, by simp⟩

theorem mem_mappedPattern : s ∈ mappedPattern.language ↔ ∃ right octets : List Bytes,
    (right = [] ∨ IsMapped right) ∧ octets.length = 4 ∧ (∀ t ∈ octets, LooseOctet t) ∧
      s = compressed [] (right ++ [joined '.'.toUInt8 octets]) := by
  rw [mappedPattern, mem_seq]
  constructor
  · rintro ⟨_, hcolons, _, hrest, rfl⟩
    obtain ⟨_, hmiddle, _, hquad, rfl⟩ := mem_seq.mp hrest
    obtain ⟨octets, hlength, hoctets, rfl⟩ := mem_quadPattern.1 hquad
    obtain ⟨rights, -, hone, hrights, rfl⟩ :=
      (mem_range_map (fun _ => mem_mappedGroups) (by decide)).mp hmiddle
    rw [mem_lit.1 hcolons]
    match rights with
    | [] => exact ⟨[], octets, .inl rfl, hlength, hoctets, (compressed_mapped [] _).symm⟩
    | [right] =>
      refine ⟨right, octets, .inr (hrights right List.mem_cons_self), hlength, hoctets, ?_⟩
      rw [compressed_mapped]
      simp
    | _ :: _ :: _ => simp at hone
  · rintro ⟨right, octets, hright, hlength, hoctets, rfl⟩
    rw [compressed_mapped]
    refine ⟨_, mem_lit.2 rfl, _, mem_seq.mpr ⟨_, ?_, _,
      mem_quadPattern.2 ⟨octets, hlength, hoctets, rfl⟩, rfl⟩, rfl⟩
    rw [mem_range_map (fun _ => mem_mappedGroups) (by decide)]
    rcases hright with rfl | hright
    · exact ⟨[], le_rfl, Nat.zero_le _, by simp, rfl⟩
    · exact ⟨[right], Nat.zero_le _, le_rfl, by simpa using hright, by simp⟩

theorem compressed_single (g : Bytes) {right : List Bytes} (h : 1 ≤ right.length) :
    compressed [g] right = g ++ (text ":" ++ right.flatMap (':'.toUInt8 :: ·)) := by
  have hcolon : text ":" = [':'.toUInt8] := rfl
  rw [compressed_flatMap, edge_of_pos h, edge_of_pos (by simp), hcolon]
  simp

theorem accepted_of_mem (h : s ∈ ipv6Pattern.language) : Accepted s := by
  obtain ⟨r, hr, h⟩ := mem_anyOf.mp h
  simp only [alternatives, List.mem_cons, List.not_mem_nil, or_false] at hr
  rcases hr with rfl | rfl | rfl | rfl | rfl | rfl | rfl | rfl | rfl | rfl | rfl | rfl
  · obtain ⟨_, hfront, g, hg, rfl⟩ := mem_seq.mp h
    obtain ⟨gs, hleast, hmost, hgs, rfl⟩ := (mem_groupsBefore le_rfl).mp hfront
    rw [← joined_snoc]
    refine .full (by rw [List.length_append, List.length_singleton]; omega) ?_
    exact List.forall_mem_append.mpr ⟨hgs, by simpa using mem_groupPattern.1 hg⟩
  · obtain ⟨_, hfront, _, hcolon, rfl⟩ := mem_seq.mp h
    obtain ⟨gs, hleast, hmost, hgs, rfl⟩ := (mem_groupsBefore (by decide)).mp hfront
    have htext : compressed gs [] = gs.flatMap (· ++ [':'.toUInt8]) ++ text ":" := by
      rw [compressed_flatMap, edge_of_pos hleast]
      rfl
    rw [mem_lit.1 hcolon, ← htext]
    exact .compressed hmost hgs (by simp)
  · obtain ⟨_, hfront, _, hback, rfl⟩ := mem_seq.mp h
    exact accepted_between (by decide) le_rfl le_rfl le_rfl (by decide)
      (mem_seq.mpr ⟨_, hfront, _, mem_groupsAfter_one.1 hback, rfl⟩)
  · exact accepted_between (by decide) (by decide) le_rfl le_rfl (by decide) h
  · exact accepted_between (by decide) (by decide) le_rfl le_rfl (by decide) h
  · exact accepted_between (by decide) (by decide) le_rfl le_rfl (by decide) h
  · exact accepted_between (by decide) (by decide) le_rfl le_rfl (by decide) h
  · obtain ⟨g, hg, _, hback, rfl⟩ := mem_seq.mp h
    obtain ⟨_, hcolon, _, hright, rfl⟩ := mem_seq.mp hback
    obtain ⟨right, hleast, hmost, hgs, rfl⟩ := (mem_groupsAfter (by decide)).mp hright
    rw [mem_lit.1 hcolon, ← compressed_single g hleast]
    refine .compressed ?_ (by simpa using mem_groupPattern.1 hg) hgs
    rw [List.length_singleton]
    omega
  · obtain ⟨_, hcolon, v, hback, rfl⟩ := mem_seq.mp h
    rw [mem_lit.1 hcolon]
    rcases mem_or.mp hback with hright | hcolon'
    · obtain ⟨right, hleast, hmost, hgs, rfl⟩ := (mem_groupsAfter (by decide)).mp hright
      have htext : compressed [] right = text ":" ++ right.flatMap (':'.toUInt8 :: ·) := by
        rw [compressed_flatMap, edge_of_pos hleast]
        rfl
      rw [← htext]
      exact .compressed (by simpa using hmost) (by simp) hgs
    · rw [mem_lit.1 hcolon']
      have hcolons : Accepted (compressed [] []) := .compressed (by simp) (by simp) (by simp)
      exact hcolons
  · obtain ⟨parts, zone, hzone, rfl⟩ := mem_linkLocalPattern.1 h
    exact .zoned hzone
  · obtain ⟨right, octets, hright, hlength, hoctets, rfl⟩ := mem_mappedPattern.1 h
    exact .quad (.inl ⟨rfl, hright⟩) hlength hoctets
  · obtain ⟨_, hfront, _, hback, rfl⟩ := mem_seq.mp h
    obtain ⟨left, hleast, hmost, hgs, rfl⟩ := (mem_groupsBefore (by decide)).mp hfront
    obtain ⟨_, hcolon, _, hquad, rfl⟩ := mem_seq.mp hback
    obtain ⟨octets, hlength, hoctets, rfl⟩ := mem_quadPattern.1 hquad
    have hquad : Accepted (compressed left ([] ++ [joined '.'.toUInt8 octets])) :=
      .quad (.inr ⟨⟨hleast, hmost, hgs⟩, rfl⟩) hlength hoctets
    rw [List.nil_append, compressed_quad hleast] at hquad
    rw [mem_lit.1 hcolon]
    exact hquad

theorem mem_alternative {i : ℕ} {r : Regex UInt8} (hi : alternatives[i]? = some r)
    (h : s ∈ r.language) : s ∈ ipv6Pattern.language :=
  mem_anyOf.mpr ⟨r, List.mem_of_getElem? hi, h⟩

theorem mem_compressed {left right : List Bytes} (hlength : left.length + right.length ≤ 7)
    (hleft : ∀ g ∈ left, IsGroup g) (hright : ∀ g ∈ right, IsGroup g) :
    compressed left right ∈ ipv6Pattern.language := by
  rcases Nat.eq_zero_or_pos left.length with hl | hl
  · obtain rfl := List.length_eq_zero_iff.mp hl
    refine mem_alternative (i := 8) rfl (mem_seq.mpr ⟨text ":", mem_lit.2 rfl, ?_⟩)
    rcases Nat.eq_zero_or_pos right.length with hr | hr
    · obtain rfl := List.length_eq_zero_iff.mp hr
      exact ⟨text ":", mem_or.mpr (.inr (mem_lit.2 rfl)), rfl⟩
    · refine ⟨_, mem_or.mpr (.inl ((mem_groupsAfter (by decide)).mpr
        ⟨right, hr, by simpa using hlength, hright, rfl⟩)), ?_⟩
      rw [compressed_flatMap, edge_of_pos hr]
      rfl
  · rcases Nat.eq_zero_or_pos right.length with hr | hr
    · obtain rfl := List.length_eq_zero_iff.mp hr
      refine mem_alternative (i := 1) rfl (mem_seq.mpr ⟨_, (mem_groupsBefore (by decide)).mpr
        ⟨left, hl, hlength, hleft, rfl⟩, text ":", mem_lit.2 rfl, ?_⟩)
      rw [compressed_flatMap, edge_of_pos hl]
      rfl
    · -- the groups behind the colons select the alternative
      have hbetween (b d : ℕ) (hb : 1 ≤ b) (hd : 1 ≤ d) (hleft' : left.length ≤ b)
          (hright' : right.length ≤ d) :=
        mem_between hb hd hl hleft' hr hright' hl hr hleft hright
      obtain hr1 | hr2 | hr3 | hr4 | hr5 | hr6 : right.length = 1 ∨ right.length = 2 ∨
          right.length = 3 ∨ right.length = 4 ∨ right.length = 5 ∨ right.length = 6 := by omega
      · obtain ⟨u, hu, v, hv, huv⟩ := mem_seq.mp
          (hbetween 6 1 (by decide) le_rfl (by omega) (by omega))
        exact mem_alternative (i := 2) rfl
          (mem_seq.mpr ⟨u, hu, v, mem_groupsAfter_one.2 hv, huv⟩)
      · exact mem_alternative (i := 3) rfl
          (hbetween 5 2 (by decide) (by decide) (by omega) (by omega))
      · exact mem_alternative (i := 4) rfl
          (hbetween 4 3 (by decide) (by decide) (by omega) (by omega))
      · exact mem_alternative (i := 5) rfl
          (hbetween 3 4 (by decide) (by decide) (by omega) (by omega))
      · exact mem_alternative (i := 6) rfl
          (hbetween 2 5 (by decide) (by decide) (by omega) (by omega))
      · obtain ⟨g, rfl⟩ := List.length_eq_one_iff.mp (by omega : left.length = 1)
        refine mem_alternative (i := 7) rfl (mem_seq.mpr ⟨g, mem_groupPattern.2 (by simpa using hleft),
          _, mem_seq.mpr ⟨text ":", mem_lit.2 rfl, _, (mem_groupsAfter (by decide)).mpr
            ⟨right, hr, hr6.le, hright, rfl⟩, rfl⟩, (compressed_single g hr).symm⟩)

theorem matchIPv6Address_iff : matchIPv6Address s = true ↔ Accepted s := by
  rw [matchIPv6Address, accepts_iff]
  constructor
  · exact accepted_of_mem
  · intro h
    cases h with
    | full hlength hgroups =>
      rename_i groups
      obtain ⟨front, last, rfl⟩ := (List.eq_nil_or_concat' groups).resolve_left
        (by rintro rfl; cases hlength)
      rw [List.length_append, List.length_singleton] at hlength
      obtain ⟨hfront, hlast⟩ := List.forall_mem_append.mp hgroups
      rw [joined_snoc]
      exact mem_alternative (i := 0) rfl (mem_seq.mpr ⟨_, (mem_groupsBefore le_rfl).mpr
        ⟨front, by omega, by omega, hfront, rfl⟩, last, mem_groupPattern.2 (by simpa using hlast), rfl⟩)
    | compressed hlength hleft hright => exact mem_compressed hlength hleft hright
    | zoned hzone =>
      exact mem_alternative (i := 9) rfl (mem_linkLocalPattern.2 ⟨_, _, hzone, rfl⟩)
    | quad hsupported hlength hoctets =>
      rcases hsupported with ⟨rfl, hright⟩ | ⟨⟨hleast, hmost, hgs⟩, rfl⟩
      · exact mem_alternative (i := 10) rfl
          (mem_mappedPattern.2 ⟨_, _, hright, hlength, hoctets, rfl⟩)
      · rw [List.nil_append, compressed_quad hleast]
        exact mem_alternative (i := 11) rfl (mem_seq.mpr ⟨_, (mem_groupsBefore (by decide)).mpr
          ⟨_, hleast, hmost, hgs, rfl⟩, _, mem_seq.mpr ⟨text ":", mem_lit.2 rfl, _,
            mem_quadPattern.2 ⟨_, hlength, hoctets, rfl⟩, rfl⟩, rfl⟩)

end Recogniser

end ACENetwork.Net.Addresses
