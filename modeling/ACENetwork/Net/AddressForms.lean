import ACENetwork.Net.IPv6Address

/-!
# Where the recognition of addresses is exact

A text in its parts between the colons: the parts tell the form, so a form with a quad
or with a zone is accepted exactly if the expression names it. The recogniser differs from
the text forms for some forms with a dotted quad or a zone, and for no other text.
-/
namespace ACENetwork.Net.Addresses
open Library

/-- Text forms of addresses that are not recognised: a quad behind six groups or behind groups that
the expression does not allow, and zones. -/
inductive Refused : Bytes → Prop
  | fullQuad {groups : List Bytes} {quad : Bytes} (hlength : groups.length = 6)
    (hgroups : ∀ g ∈ groups, IsGroup g) (hquad : IsIPv4 quad) :
    Refused (joined ':'.toUInt8 (groups ++ [quad]))
  | compressedQuad {left right : List Bytes} {quad : Bytes} (hlength : left.length + right.length ≤ 5)
    (hleft : ∀ g ∈ left, IsGroup g) (hright : ∀ g ∈ right, IsGroup g) (hquad : IsIPv4 quad)
    (h : ¬ Supported left right) : Refused (compressed left (right ++ [quad]))
  | zoned {address zone : Bytes} (haddress : IsIPv6 address)
    (h : ¬ ∃ parts, LinkLocal parts zone ∧ address = linkLocal parts) :
    Refused (address ++ '%'.toUInt8 :: zone)

/-- Texts that are recognised but have no such form: a quad with an octet of two digits that
starts with a zero, and parts behind `fe80:` that are no groups. -/
inductive Admitted : Bytes → Prop
  | zeroOctet {left right octets : List Bytes} (h : Supported left right) (hlength : octets.length = 4)
    (hoctets : ∀ t ∈ octets, LooseOctet t)
    (hzero : ∃ d, isDigit d = true ∧ ['0'.toUInt8, d] ∈ octets) :
    Admitted (compressed left (right ++ [joined '.'.toUInt8 octets]))
  | zoned {parts : List Bytes} {zone : Bytes} (h : LinkLocal parts zone)
    (hparts : parts = [] ∨ 2 ≤ parts.length ∧ [] ∈ parts) :
    Admitted (linkLocal parts ++ '%'.toUInt8 :: zone)

/-- A part between colons that is not empty, in an address without a zone. -/
structure IsPart (p : Bytes) : Prop where
  nonempty : p ≠ []
  colon : ':'.toUInt8 ∉ p
  percent : '%'.toUInt8 ∉ p

theorem hex_marks : isHexOctet ':'.toUInt8 = false ∧ isHexOctet '%'.toUInt8 = false ∧
    isHexOctet '.'.toUInt8 = false ∧ isDigit ':'.toUInt8 = false ∧ isDigit '%'.toUInt8 = false ∧
      isDigit '.'.toUInt8 = false := by
  decide

theorem notMem_of_class {p : UInt8 → Bool} {t : Bytes} {b : UInt8} (ht : ∀ c ∈ t, p c = true)
    (hb : p b = false) : b ∉ t := fun h => by
  rw [ht b h] at hb
  cases hb

theorem IsGroup.isPart {g : Bytes} (h : IsGroup g) : IsPart g where
  nonempty := List.length_pos_iff.mp h.1
  colon := notMem_of_class h.2.2 hex_marks.1
  percent := notMem_of_class h.2.2 hex_marks.2.1

theorem LooseOctet.digits {t : Bytes} (h : LooseOctet t) : ∀ b ∈ t, isDigit b = true := by
  rcases h with h | ⟨d, hd, rfl⟩
  · exact h.digits
  · simp [hd]
    decide

section Quad

variable {octets : List Bytes}

theorem mem_quad (hlength : octets.length = 4) :
    '.'.toUInt8 ∈ joined '.'.toUInt8 octets := by
  obtain ⟨a, b, c, d, rfl⟩ := List.length_eq_four.mp hlength
  rw [joined_cons]
  simp

theorem isPart_quad (hlength : octets.length = 4) (hoctets : ∀ t ∈ octets, LooseOctet t) :
    IsPart (joined '.'.toUInt8 octets) where
  nonempty := List.ne_nil_of_mem (mem_quad hlength)
  colon := notMem_joined (by decide) fun t ht => notMem_of_class (hoctets t ht).digits (by decide)
  percent := notMem_joined (by decide) fun t ht => notMem_of_class (hoctets t ht).digits (by decide)

theorem not_isGroup_quad (hlength : octets.length = 4) : ¬ IsGroup (joined '.'.toUInt8 octets) :=
  fun h => notMem_of_class h.2.2 (by decide) (mem_quad hlength)

theorem IsIPv4.isPart {quad : Bytes} (h : IsIPv4 quad) : IsPart quad := by
  obtain ⟨octets, hlength, hoctets, rfl⟩ := h
  exact isPart_quad hlength fun t ht => .inl (hoctets t ht)

theorem IsIPv4.not_isGroup {quad : Bytes} (h : IsIPv4 quad) : ¬ IsGroup quad := by
  obtain ⟨octets, hlength, -, rfl⟩ := h
  exact not_isGroup_quad hlength

theorem isIPv4_quad (hlength : octets.length = 4) (hoctets : ∀ t ∈ octets, LooseOctet t) :
    IsIPv4 (joined '.'.toUInt8 octets) ↔ ¬ ∃ d, isDigit d = true ∧ ['0'.toUInt8, d] ∈ octets := by
  constructor
  · rintro ⟨octets', hlength', hoctets', heq⟩ ⟨d, hd, hzero⟩
    have hsame : octets = octets' := joined_injective
      (fun t ht => notMem_of_class (hoctets t ht).digits (by decide))
      (fun t ht => notMem_of_class (hoctets' t ht).digits (by decide))
      (by rintro rfl; cases hlength) (by rintro rfl; cases hlength') heq
    obtain ⟨n, hn, htext⟩ := hoctets' _ (hsame ▸ hzero)
    exact (octet_facts n (by omega)).2.2 (by rw [← htext]; simp)
  · intro h
    refine ⟨octets, hlength, fun t ht => ?_, rfl⟩
    rcases hoctets t ht with hoctet | ⟨d, hd, rfl⟩
    · exact hoctet
    · exact absurd ⟨d, hd, ht⟩ h

end Quad

section Parts

variable {left right left' right' parts : List Bytes}

theorem edge_parts (hleft : ∀ p ∈ left, IsPart p) : ∀ p ∈ edge left, ':'.toUInt8 ∉ p := by
  unfold edge
  split_ifs
  · simp
  · exact fun p hp => (hleft p hp).colon

theorem compressed_parts (hleft : ∀ p ∈ left, IsPart p) (hright : ∀ p ∈ right, IsPart p) :
    ∀ p ∈ edge left ++ [] :: edge right, ':'.toUInt8 ∉ p := by
  rw [List.forall_mem_append, List.forall_mem_cons]
  exact ⟨edge_parts hleft, by simp, edge_parts hright⟩

theorem edge_injective (hright : ∀ p ∈ right, IsPart p) (hright' : ∀ p ∈ right', IsPart p)
    (h : edge right = edge right') : right = right' := by
  unfold edge at h
  split_ifs at h with hnil hnil' hnil'
  · rw [hnil, hnil']
  · exact absurd rfl (hright' [] (by simp [← h])).nonempty
  · exact absurd rfl (hright [] (by simp [h])).nonempty
  · exact h

/-- What is in front of the first double colon can be read back. -/
theorem edge_append_injective {rest rest' : List Bytes} (hleft : ∀ p ∈ left, IsPart p)
    (hleft' : ∀ p ∈ left', IsPart p) (h : edge left ++ [] :: rest = edge left' ++ [] :: rest') :
    left = left' ∧ rest = rest' := by
  have hrun {side : List Bytes} (hside : ∀ p ∈ side, IsPart p) :
      ∀ p ∈ side, (p != []) = true := fun p hp => by simpa using (hside p hp).nonempty
  have hstops (rest : List Bytes) : Stops (· != []) ([] :: rest) := by
    rintro p ⟨⟩
    rfl
  by_cases hnil : left = []
  · by_cases hnil' : left' = []
    · exact ⟨by rw [hnil, hnil'], by simpa [edge, hnil, hnil'] using h⟩
    · obtain ⟨first, back, rfl⟩ := List.exists_cons_of_ne_nil hnil'
      simp only [edge, hnil, if_true, if_neg hnil', List.cons_append, List.cons.injEq] at h
      exact absurd h.1.symm (hleft' first List.mem_cons_self).nonempty
  · by_cases hnil' : left' = []
    · obtain ⟨first, back, rfl⟩ := List.exists_cons_of_ne_nil hnil
      simp only [edge, hnil', if_true, if_neg hnil, List.cons_append, List.cons.injEq] at h
      exact absurd h.1 (hleft first List.mem_cons_self).nonempty
    · have hsides : left ++ [] :: rest = left' ++ [] :: rest' := by
        simpa only [edge, if_neg hnil, if_neg hnil'] using h
      obtain ⟨hlefts, hrests⟩ := run_unique (hrun hleft) (hrun hleft') (hstops _) (hstops _) hsides
      exact ⟨hlefts, by simpa using hrests⟩

/-- The sides of a double colon can be read back. -/
theorem compressed_injective (hleft : ∀ p ∈ left, IsPart p) (hright : ∀ p ∈ right, IsPart p)
    (hleft' : ∀ p ∈ left', IsPart p) (hright' : ∀ p ∈ right', IsPart p)
    (h : compressed left right = compressed left' right') : left = left' ∧ right = right' := by
  rw [compressed_eq, compressed_eq] at h
  have hparts := joined_injective (compressed_parts hleft hright) (compressed_parts hleft' hright')
    (by simp) (by simp) h
  obtain ⟨hlefts, hrights⟩ := edge_append_injective hleft hleft' hparts
  exact ⟨hlefts, edge_injective hright hright' hrights⟩

theorem joined_ne_compressed (hparts : ∀ p ∈ parts, IsPart p) (hnil : parts ≠ [])
    (hleft : ∀ p ∈ left, IsPart p) (hright : ∀ p ∈ right, IsPart p) :
    joined ':'.toUInt8 parts ≠ compressed left right := by
  intro h
  rw [compressed_eq] at h
  have heq := joined_injective (fun p hp => (hparts p hp).colon) (compressed_parts hleft hright)
    hnil (by simp) h
  have hempty : [] ∈ parts := by
    rw [heq]
    simp
  exact (hparts [] hempty).nonempty rfl

end Parts

theorem isPart_groups {groups : List Bytes} (h : ∀ g ∈ groups, IsGroup g) :
    ∀ g ∈ groups, IsPart g := fun g hg => (h g hg).isPart

theorem isPart_snoc {groups : List Bytes} {quad : Bytes} (h : ∀ g ∈ groups, IsPart g)
    (hquad : IsPart quad) : ∀ p ∈ groups ++ [quad], IsPart p :=
  List.forall_mem_append.mpr ⟨h, by simpa using hquad⟩

theorem isGroup_ffff : IsGroup (text "ffff") := ⟨by decide, by decide, by decide +kernel⟩

theorem isGroup_fe80 : IsGroup (text "fe80") := ⟨by decide, by decide, by decide +kernel⟩

/-- The groups that the expression allows are groups, five at most. -/
theorem Supported.groups {left right : List Bytes} (h : Supported left right) :
    left.length + right.length ≤ 5 ∧ (∀ g ∈ left, IsGroup g) ∧ ∀ g ∈ right, IsGroup g := by
  rcases h with ⟨rfl, rfl | rfl | ⟨zeros, hleast, hmost, hzeros, rfl⟩⟩ | ⟨⟨-, hmost, hgroups⟩, rfl⟩
  · simp
  · exact ⟨by decide, by simp, by simpa using isGroup_ffff⟩
  · refine ⟨by simp, by simp, ?_⟩
    have hgroup : IsGroup zeros := by
      refine ⟨hleast, hmost, fun b hb => ?_⟩
      rw [hzeros b hb]
      decide
    simp [isGroup_ffff, hgroup]
  · exact ⟨by rw [List.length_nil]; omega, hgroups, by simp⟩

theorem joined_percent {parts : List Bytes} (hparts : ∀ p ∈ parts, IsPart p) :
    '%'.toUInt8 ∉ joined ':'.toUInt8 parts :=
  notMem_joined (by decide) fun p hp => (hparts p hp).percent

theorem compressed_percent {left right : List Bytes} (hleft : ∀ p ∈ left, IsPart p)
    (hright : ∀ p ∈ right, IsPart p) : '%'.toUInt8 ∉ compressed left right := by
  simp only [compressed, List.mem_append, not_or]
  exact ⟨⟨joined_percent hleft, by decide⟩, joined_percent hright⟩

theorem IsIPv6.percent {s : Bytes} (h : IsIPv6 s) : '%'.toUInt8 ∉ s := by
  cases h with
  | full _ hgroups => exact joined_percent (isPart_groups hgroups)
  | compressed _ hleft hright =>
    exact compressed_percent (isPart_groups hleft) (isPart_groups hright)
  | fullQuad _ hgroups hquad =>
    exact joined_percent (isPart_snoc (isPart_groups hgroups) hquad.isPart)
  | compressedQuad _ hleft hright hquad =>
    exact compressed_percent (isPart_groups hleft) (isPart_snoc (isPart_groups hright) hquad.isPart)

theorem stripZone_of_notMem {s : Bytes} (h : '%'.toUInt8 ∉ s) : stripZone s = s := by
  rw [stripZone, List.takeWhile_eq_self_iff]
  intro b hb
  simpa using fun heq : b = '%'.toUInt8 => h (heq ▸ hb)

theorem stripZone_append {address zone : Bytes} (h : '%'.toUInt8 ∉ address) :
    stripZone (address ++ '%'.toUInt8 :: zone) = address := by
  refine takeWhile_run (fun b hb => ?_) ?_
  · simpa using fun heq : b = '%'.toUInt8 => h (heq ▸ hb)
  · rintro b ⟨⟩
    rfl

theorem stripZone_of_mem {s : Bytes} (h : '%'.toUInt8 ∈ s) :
    ∃ zone, s = stripZone s ++ '%'.toUInt8 :: zone := by
  obtain ⟨front, zone, rfl, hfront⟩ := List.eq_append_cons_of_mem h
  exact ⟨zone, by rw [stripZone_append hfront]⟩

theorem linkLocal_percent {parts : List Bytes} {zone : Bytes} (h : LinkLocal parts zone) :
    '%'.toUInt8 ∉ linkLocal parts := by
  refine notMem_joined (by decide) ?_
  rw [List.forall_mem_cons, List.forall_mem_cons]
  exact ⟨(IsGroup.isPart isGroup_fe80).percent, by simp,
    fun p hp => notMem_of_class (h.parts p hp).2 (by decide)⟩

theorem Accepted.isIPv6_or_admitted {s : Bytes} (h : Accepted s) :
    IsIPv6 (stripZone s) ∨ Admitted s := by
  have hstrip {s : Bytes} (h : IsIPv6 s) : IsIPv6 (stripZone s) := by
    rwa [stripZone_of_notMem h.percent]
  cases h with
  | full hlength hgroups => exact .inl (hstrip (.full hlength hgroups))
  | compressed hlength hleft hright => exact .inl (hstrip (.compressed hlength hleft hright))
  | @zoned parts zone h =>
    rw [stripZone_append (linkLocal_percent h)]
    by_cases hbad : parts = [] ∨ 2 ≤ parts.length ∧ [] ∈ parts
    · exact .inr (.zoned h hbad)
    · left
      have hfe80 : ∀ g ∈ [text "fe80"], IsGroup g := by
        rw [List.forall_mem_singleton]
        exact isGroup_fe80
      have hform (right : List Bytes) (hedge : edge right = parts) :
          Addresses.compressed [text "fe80"] right = linkLocal parts := by
        rw [compressed_eq, hedge]
        rfl
      by_cases hempty : [] ∈ parts
      · obtain ⟨p, rfl⟩ : ∃ p, parts = [p] := by
          refine List.length_eq_one_iff.mp ?_
          have hpos := List.length_pos_of_mem hempty
          have hshort : ¬ 2 ≤ parts.length := fun hlong => hbad (.inr ⟨hlong, hempty⟩)
          omega
        obtain rfl : [] = p := by simpa using hempty
        rw [← hform [] rfl]
        exact .compressed (by decide) hfe80 (by simp)
      · have hnil : parts ≠ [] := fun hnil => hbad (.inl hnil)
        rw [← hform parts (if_neg hnil)]
        have hlength := h.length
        refine .compressed (by simp; omega) hfe80 fun p hp => ?_
        exact ⟨List.length_pos_iff.mpr fun hp' => hempty (hp' ▸ hp), h.parts p hp⟩
  | @quad left right octets h hlength hoctets =>
    obtain ⟨hcount, hleft, hright⟩ := h.groups
    by_cases hzero : ∃ d, isDigit d = true ∧ ['0'.toUInt8, d] ∈ octets
    · exact .inr (.zeroOctet h hlength hoctets hzero)
    · exact .inl (hstrip (.compressedQuad hcount hleft hright
        ((isIPv4_quad hlength hoctets).mpr hzero)))

theorem accepted_or_refused {s : Bytes} (h : IsIPv6 (stripZone s)) : Accepted s ∨ Refused s := by
  by_cases hpercent : '%'.toUInt8 ∈ s
  · obtain ⟨zone, hs⟩ := stripZone_of_mem hpercent
    rw [hs]
    by_cases hlocal : ∃ parts, LinkLocal parts zone ∧ stripZone s = linkLocal parts
    · obtain ⟨parts, hparts, haddress⟩ := hlocal
      rw [haddress]
      exact .inl (.zoned hparts)
    · exact .inr (.zoned h hlocal)
  · rw [stripZone_of_notMem hpercent] at h
    cases h with
    | full hlength hgroups => exact .inl (.full hlength hgroups)
    | compressed hlength hleft hright => exact .inl (.compressed hlength hleft hright)
    | fullQuad hlength hgroups hquad => exact .inr (.fullQuad hlength hgroups hquad)
    | @compressedQuad left right quad hlength hleft hright hquad =>
      by_cases hsupported : Supported left right
      · obtain ⟨octets, hoctets, hall, rfl⟩ := hquad
        exact .inl (.quad hsupported hoctets fun t ht => .inl (hall t ht))
      · exact .inr (.compressedQuad hlength hleft hright hquad hsupported)

theorem Refused.isIPv6 {s : Bytes} (h : Refused s) : IsIPv6 (stripZone s) := by
  have hstrip {s : Bytes} (h : IsIPv6 s) : IsIPv6 (stripZone s) := by
    rwa [stripZone_of_notMem h.percent]
  cases h with
  | fullQuad hlength hgroups hquad => exact hstrip (.fullQuad hlength hgroups hquad)
  | compressedQuad hlength hleft hright hquad _ =>
    exact hstrip (.compressedQuad hlength hleft hright hquad)
  | zoned haddress _ =>
    rw [stripZone_append haddress.percent]
    exact haddress

theorem Admitted.accepted {s : Bytes} (h : Admitted s) : Accepted s := by
  cases h with
  | zeroOctet h hlength hoctets _ => exact .quad h hlength hoctets
  | zoned h _ => exact .zoned h

theorem Refused.not_accepted {s : Bytes} (h : Refused s) : ¬ Accepted s := by
  have hzone {parts : List Bytes} {zone : Bytes} {t : Bytes} (ht : IsIPv6 t)
      (heq : t = linkLocal parts ++ '%'.toUInt8 :: zone) : False :=
    ht.percent (heq ▸ by simp)
  intro haccepted
  cases h with
  | @fullQuad groups quad hlength hgroups hquad =>
    have hparts := isPart_snoc (isPart_groups hgroups) hquad.isPart
    generalize hs : joined ':'.toUInt8 (groups ++ [quad]) = s at haccepted
    cases haccepted with
    | @full groups' hlength' hgroups' =>
      have heq := joined_injective (fun p hp => (hparts p hp).colon)
        (fun p hp => (hgroups' p hp).isPart.colon) (by simp) (by rintro rfl; cases hlength') hs
      exact hquad.not_isGroup (hgroups' quad (heq ▸ by simp))
    | compressed _ hleft hright =>
      exact joined_ne_compressed hparts (by simp) (isPart_groups hleft) (isPart_groups hright) hs
    | zoned _ => exact hzone (.fullQuad hlength hgroups hquad) hs
    | quad h hcount hoctets =>
      obtain ⟨-, hleft, hright⟩ := h.groups
      exact joined_ne_compressed hparts (by simp) (isPart_groups hleft)
        (isPart_snoc (isPart_groups hright) (isPart_quad hcount hoctets)) hs
  | @compressedQuad left right quad hlength hleft hright hquad hunsupported =>
    have hparts := isPart_snoc (isPart_groups hright) hquad.isPart
    generalize hs : compressed left (right ++ [quad]) = s at haccepted
    cases haccepted with
    | full hlength' hgroups' =>
      exact joined_ne_compressed (isPart_groups hgroups') (by rintro rfl; cases hlength')
        (isPart_groups hleft) hparts hs.symm
    | compressed _ hleft' hright' =>
      obtain ⟨-, rfl⟩ := compressed_injective (isPart_groups hleft) hparts (isPart_groups hleft')
        (isPart_groups hright') hs
      exact hquad.not_isGroup (hright' quad (by simp))
    | zoned _ => exact hzone (.compressedQuad hlength hleft hright hquad) hs
    | quad h hcount hoctets =>
      obtain ⟨-, hleft', hright'⟩ := h.groups
      obtain ⟨rfl, hrights⟩ := compressed_injective (isPart_groups hleft) hparts
        (isPart_groups hleft') (isPart_snoc (isPart_groups hright') (isPart_quad hcount hoctets)) hs
      obtain ⟨rfl, -⟩ := List.append_inj' hrights rfl
      exact hunsupported h
  | @zoned address zone haddress h =>
    generalize hs : address ++ '%'.toUInt8 :: zone = s at haccepted
    have hvalid {t : Bytes} (ht : IsIPv6 t) (heq : address ++ '%'.toUInt8 :: zone = t) : False :=
      ht.percent (heq ▸ by simp)
    cases haccepted with
    | full hlength hgroups => exact hvalid (.full hlength hgroups) hs
    | compressed hlength hleft hright => exact hvalid (.compressed hlength hleft hright) hs
    | @zoned parts zone' hlocal =>
      have haddress' : address = linkLocal parts := by
        rw [← stripZone_append haddress.percent, hs, stripZone_append (linkLocal_percent hlocal)]
      rw [haddress'] at hs
      obtain rfl : zone = zone' := by simpa using hs
      exact h ⟨parts, hlocal, haddress'⟩
    | quad h hcount hoctets =>
      obtain ⟨-, hleft, hright⟩ := h.groups
      exact compressed_percent (isPart_groups hleft)
        (isPart_snoc (isPart_groups hright) (isPart_quad hcount hoctets)) (hs ▸ by simp)

theorem Admitted.not_isIPv6 {s : Bytes} (h : Admitted s) : ¬ IsIPv6 (stripZone s) := by
  intro hvalid
  cases h with
  | @zeroOctet left right octets h hlength hoctets hzero =>
    obtain ⟨-, hleft, hright⟩ := h.groups
    have hparts := isPart_snoc (isPart_groups hright) (isPart_quad hlength hoctets)
    rw [stripZone_of_notMem (compressed_percent (isPart_groups hleft) hparts)] at hvalid
    generalize hs : compressed left (right ++ [joined '.'.toUInt8 octets]) = s at hvalid
    cases hvalid with
    | full hcount hgroups =>
      exact joined_ne_compressed (isPart_groups hgroups) (by rintro rfl; cases hcount)
        (isPart_groups hleft) hparts hs.symm
    | compressed _ hleft' hright' =>
      obtain ⟨-, rfl⟩ := compressed_injective (isPart_groups hleft) hparts (isPart_groups hleft')
        (isPart_groups hright') hs
      exact not_isGroup_quad hlength (hright' _ (by simp))
    | fullQuad _ hgroups hquad =>
      exact joined_ne_compressed (isPart_snoc (isPart_groups hgroups) hquad.isPart) (by simp)
        (isPart_groups hleft) hparts hs.symm
    | compressedQuad _ hleft' hright' hquad =>
      obtain ⟨-, hrights⟩ := compressed_injective (isPart_groups hleft) hparts
        (isPart_groups hleft') (isPart_snoc (isPart_groups hright') hquad.isPart) hs
      obtain ⟨-, hlast⟩ := List.append_inj' hrights rfl
      obtain rfl := List.singleton_inj.mp hlast
      exact (isIPv4_quad hlength hoctets).mp hquad hzero
  | @zoned parts zone h hbad =>
    rw [stripZone_append (linkLocal_percent h)] at hvalid
    have hfe80 : ∀ p ∈ [text "fe80"], IsPart p := by
      rw [List.forall_mem_singleton]
      exact IsGroup.isPart isGroup_fe80
    have hcolons : ∀ p ∈ text "fe80" :: [] :: parts, ':'.toUInt8 ∉ p := by
      rw [List.forall_mem_cons, List.forall_mem_cons]
      exact ⟨(IsGroup.isPart isGroup_fe80).colon, by simp, fun p hp => notMem_of_class (h.parts p hp).2 (by decide)⟩
    have hgroups {groups : List Bytes} (hgroups : ∀ p ∈ groups, IsPart p) (hnil : groups ≠ [])
        (heq : linkLocal parts = joined ':'.toUInt8 groups) : False := by
      have hsame := joined_injective hcolons (fun p hp => (hgroups p hp).colon) (by simp) hnil heq
      exact (hgroups [] (hsame ▸ by simp)).nonempty rfl
    have hsides {left right : List Bytes} (hleft : ∀ p ∈ left, IsPart p)
        (hright : ∀ p ∈ right, IsPart p) (heq : linkLocal parts = compressed left right) : False := by
      rw [compressed_eq] at heq
      have hsame := joined_injective hcolons (compressed_parts hleft hright) (by simp) (by simp) heq
      obtain ⟨-, rfl⟩ : [text "fe80"] = left ∧ parts = edge right :=
        edge_append_injective hfe80 hleft hsame
      unfold edge at hbad
      split_ifs at hbad with hnil
      · simp at hbad
      · rcases hbad with hnil' | ⟨-, hempty⟩
        · exact hnil hnil'
        · exact (hright [] hempty).nonempty rfl
    generalize hs : linkLocal parts = s at hvalid
    cases hvalid with
    | full hcount hall => exact hgroups (isPart_groups hall) (by rintro rfl; cases hcount) hs
    | compressed _ hleft hright => exact hsides (isPart_groups hleft) (isPart_groups hright) hs
    | fullQuad _ hall hquad =>
      exact hgroups (isPart_snoc (isPart_groups hall) hquad.isPart) (by simp) hs
    | compressedQuad _ hleft hright hquad =>
      exact hsides (isPart_groups hleft) (isPart_snoc (isPart_groups hright) hquad.isPart) hs

theorem matchIPv6Address_exact_iff (s : Bytes) :
    (matchIPv6Address s = true ↔ IsIPv6 (stripZone s)) ↔ ¬ Refused s ∧ ¬ Admitted s := by
  rw [matchIPv6Address_iff]
  constructor
  · intro h
    exact ⟨fun hrefused => hrefused.not_accepted (h.mpr hrefused.isIPv6),
      fun hadmitted => hadmitted.not_isIPv6 (h.mp hadmitted.accepted)⟩
  · rintro ⟨hrefused, hadmitted⟩
    exact ⟨fun h => h.isIPv6_or_admitted.resolve_right hadmitted,
      fun h => (accepted_or_refused h).resolve_right hrefused⟩

/-- Where both recognisers are exact. -/
theorem recognition_exact_iff (s : Bytes) :
    ((matchIPv4Address s = true ↔ IsIPv4 s) ↔ ¬ Gap s) ∧
      ((matchIPv6Address s = true ↔ IsIPv6 (stripZone s)) ↔ ¬ Refused s ∧ ¬ Admitted s) :=
  ⟨matchIPv4Address_exact_iff s, matchIPv6Address_exact_iff s⟩

theorem isOctet_digit : ∀ n < 10, IsOctet [digit n] := by
  intro n hn
  refine ⟨n, by omega, ?_⟩
  revert n
  decide

/-- A missing octet, a zone behind the loopback address and a leading zero. -/
theorem not_exact :
    ¬ (matchIPv4Address (text "1..2.3") = true ↔ IsIPv4 (text "1..2.3")) ∧
      ¬ (matchIPv6Address (text "::1%lo") = true ↔ IsIPv6 (stripZone (text "::1%lo"))) ∧
      ¬ (matchIPv6Address (text "::1.2.3.04") = true ↔ IsIPv6 (stripZone (text "::1.2.3.04"))) := by
  have hone : IsOctet (text "1") := isOctet_digit 1 (by decide)
  have htwo : IsOctet (text "2") := isOctet_digit 2 (by decide)
  have hthree : IsOctet (text "3") := isOctet_digit 3 (by decide)
  refine ⟨?_, ?_, ?_⟩
  · rw [matchIPv4Address_exact_iff, not_not]
    refine ⟨[text "1", [], text "2", text "3"], rfl, ?_, by simp, by decide +kernel⟩
    simp [hone, htwo, hthree]
  · rw [matchIPv6Address_exact_iff, not_and_or, not_not]
    left
    have hloopback : IsIPv6 (compressed [] [text "1"]) :=
      .compressed (by decide) (by simp) (by
        rw [List.forall_mem_singleton]
        exact ⟨by decide, by decide, by decide +kernel⟩)
    have hzoned : Refused (compressed [] [text "1"] ++ '%'.toUInt8 :: text "lo") := by
      refine .zoned hloopback ?_
      rintro ⟨parts, -, haddress⟩
      have hhead : some ':'.toUInt8 = some 'f'.toUInt8 := congrArg List.head? haddress
      exact absurd hhead (by decide)
    exact hzoned
  · rw [matchIPv6Address_exact_iff, not_and_or, not_not, not_not]
    right
    have hzero : LooseOctet (text "04") := .inr ⟨'4'.toUInt8, by decide, rfl⟩
    have hloose : ∀ t ∈ [text "1", text "2", text "3", text "04"], LooseOctet t := by
      simp only [List.forall_mem_cons]
      exact ⟨.inl hone, .inl htwo, .inl hthree, hzero, by simp⟩
    have hadmitted : Admitted (compressed []
        ([] ++ [joined '.'.toUInt8 [text "1", text "2", text "3", text "04"]])) := by
      refine .zeroOctet (.inl ⟨rfl, .inl rfl⟩) rfl hloose ⟨'4'.toUInt8, by decide, ?_⟩
      have hfour : text "04" = ['0'.toUInt8, '4'.toUInt8] := rfl
      simp [hfour]
    exact hadmitted

end ACENetwork.Net.Addresses
