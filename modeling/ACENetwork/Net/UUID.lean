import ACENetwork.Library.Formatting

/-!
# Generated UUIDs

`Net_Common_Tools::makeUUID` packs the time, a random clock sequence and the link-layer
address of an interface into the fields of a UUID of version one and prints them. The
low byte of the clock sequence and the bytes of the node are printed without a width,
so a byte below sixteen gives one digit instead of two. The version and the variant are
bit-fields of unions: they take the lowest bits, which the time and the clock sequence have
been written to, and the highest bits of the unions are never set.
-/
namespace ACENetwork.Net
open Library

/-- What `makeUUID` reads: the clock, a random number and the address of the interface. The
structure is not initialized, and its two unions hold what was in the storage. -/
structure Seed where
  time : ℕ
  clockSequence : UInt16
  address : Fin 6 → UInt8
  timeStorage : UInt16
  clockStorage : UInt8
  deriving DecidableEq

def uuidVersion : ℕ := 1

def uuidVariant : ℕ := 2

/-- `struct dce_time_format`, of the unions the members without a width. -/
structure TimeFormat where
  timeLow : UInt32
  timeMid : UInt16
  timeHiAndVersion : ℕ
  clockSeqHiAndReserved : ℕ
  clockSeqLow : UInt8
  node : Fin 6 → UInt8

/-- An assignment to a bit-field of a union. It is a member of its own and so begins at the
lowest bit, on a little-endian host. -/
def assignBits (storage width value : ℕ) : ℕ :=
  storage / 2 ^ width * 2 ^ width + value % 2 ^ width

def timeFormat (s : Seed) : TimeFormat where
  timeLow := UInt32.ofNat s.time
  timeMid := UInt16.ofNat (s.time / 2 ^ 32)
  timeHiAndVersion :=
    assignBits (assignBits s.timeStorage.toNat 12 (s.time / 2 ^ 48 % 2 ^ 16)) 4 uuidVersion
  clockSeqHiAndReserved :=
    assignBits (assignBits s.clockStorage.toNat 6 (s.clockSequence.toNat / 2 ^ 8)) 2 uuidVariant
  clockSeqLow := UInt8.ofNat s.clockSequence.toNat
  node := s.address

def insertions (f : TimeFormat) : List Insertion :=
  [.setfill '0'.toUInt8,
    .hex, .setw 8, .number f.timeLow.toNat, .dec, .setw 1, .char '-'.toUInt8,
    .hex, .setw 4, .number f.timeMid.toNat, .dec, .setw 1, .char '-'.toUInt8,
    .hex, .setw 4, .number f.timeHiAndVersion, .dec, .setw 1, .char '-'.toUInt8,
    .hex, .setw 2, .number f.clockSeqHiAndReserved, .number f.clockSeqLow.toNat, .setw 1, .dec,
    .char '-'.toUInt8,
    .hex, .number (f.node 0).toNat, .hex, .number (f.node 1).toNat, .hex, .number (f.node 2).toNat,
    .hex, .number (f.node 3).toNat, .hex, .number (f.node 4).toNat, .hex, .number (f.node 5).toNat]

def makeUUID (s : Seed) : Bytes := (OutputStream.insertAll {} (insertions (timeFormat s))).text

def uuidGroups (text : Bytes) : List Bytes := text.splitOn '-'.toUInt8

/-- Groups of eight, four, four, four and twelve hexadecimal digits in lower case. -/
structure IsUUID (text : Bytes) : Prop where
  widths : (uuidGroups text).map List.length = [8, 4, 4, 4, 12]
  digits : ∀ g ∈ uuidGroups text, ∀ b ∈ g, isHexDigit b = true

section Groups

variable (s : Seed)

def nodeText : Bytes := (List.ofFn s.address).flatMap fun b => hexadecimal b.toNat

def groups : List Bytes :=
  [hexPadded 8 (timeFormat s).timeLow.toNat, hexPadded 4 (timeFormat s).timeMid.toNat,
    hexPadded 4 (timeFormat s).timeHiAndVersion,
    hexPadded 2 (timeFormat s).clockSeqHiAndReserved ++ hexadecimal (timeFormat s).clockSeqLow.toNat,
    nodeText s]

theorem makeUUID_eq : makeUUID s = ['-'.toUInt8].intercalate (groups s) := by
  have hdash : fillUp '0'.toUInt8 1 ['-'.toUInt8] = ['-'.toUInt8] := rfl
  simp [makeUUID, insertions, OutputStream.insertAll, OutputStream.insert, OutputStream.put,
    groups, nodeText, hexPadded, hdash, timeFormat, List.ofFn_succ]

theorem groups_digits : ∀ g ∈ groups s, ∀ b ∈ g, isHexDigit b = true := by
  intro g hg b hb
  simp only [groups, List.mem_cons, List.not_mem_nil, or_false] at hg
  rcases hg with rfl | rfl | rfl | rfl | rfl
  · exact isHexDigit_of_mem_hexPadded hb
  · exact isHexDigit_of_mem_hexPadded hb
  · exact isHexDigit_of_mem_hexPadded hb
  · rcases List.mem_append.mp hb with hhi | hlow
    · exact isHexDigit_of_mem_hexPadded hhi
    · exact isHexDigit_of_mem_hexadecimal hlow
  · obtain ⟨octet, -, hoctet⟩ := List.mem_flatMap.mp hb
    exact isHexDigit_of_mem_hexadecimal hoctet

@[simp] theorem uuidGroups_makeUUID : uuidGroups (makeUUID s) = groups s := by
  rw [makeUUID_eq, uuidGroups]
  refine List.splitOn_intercalate _ ?_ (by simp [groups])
  intro g hg hdash
  exact absurd (groups_digits s g hg _ hdash) (by decide)

end Groups

theorem hexadecimal_octet_length (b : UInt8) :
    (hexadecimal b.toNat).length = if b.toNat < 16 then 1 else 2 := by
  have hlt : b.toNat < 256 := b.toNat_lt
  have hle : (hexadecimal b.toNat).length ≤ 2 := (hexadecimal_length_le (by decide)).mpr (by omega)
  have hone : (hexadecimal b.toNat).length ≤ 1 ↔ b.toNat < 16 := hexadecimal_length_le (by decide)
  have hpos : 0 < (hexadecimal b.toNat).length := List.length_pos_iff.mpr (hexadecimal_ne_nil _)
  split_ifs with h
  · have := hone.mpr h
    omega
  · have : ¬ (hexadecimal b.toNat).length ≤ 1 := fun hshort => h (hone.mp hshort)
    omega

/-- Octets printed without a width take two digits each exactly when none is below sixteen. -/
theorem flatMap_hexadecimal_length (octets : List UInt8) :
    (octets.flatMap fun b => hexadecimal b.toNat).length ≤ 2 * octets.length ∧
      ((octets.flatMap fun b => hexadecimal b.toNat).length = 2 * octets.length ↔
        ∀ b ∈ octets, 16 ≤ b.toNat) := by
  induction octets with
  | nil => simp
  | cons b octets ih =>
    obtain ⟨hle, hall⟩ := ih
    simp only [List.flatMap_cons, List.length_append, List.length_cons, List.forall_mem_cons,
      ← hall, hexadecimal_octet_length]
    split_ifs with h
    · constructor <;> omega
    · constructor <;> omega

theorem flatMap_hexadecimal_injective {octets octets' : List UInt8}
    (hlength : octets.length = octets'.length) (htwo : ∀ b ∈ octets, 16 ≤ b.toNat)
    (htwo' : ∀ b ∈ octets', 16 ≤ b.toNat)
    (h : (octets.flatMap fun b => hexadecimal b.toNat) =
      octets'.flatMap fun b => hexadecimal b.toNat) : octets = octets' := by
  induction octets generalizing octets' with
  | nil => exact (List.length_eq_zero_iff.mp hlength.symm).symm
  | cons b octets ih =>
    cases octets' with
    | nil => cases hlength
    | cons b' octets' =>
      simp only [List.forall_mem_cons] at htwo htwo'
      have hnarrow : ¬ b.toNat < 16 := by omega
      have hnarrow' : ¬ b'.toNat < 16 := by omega
      obtain ⟨hfirst, hrest⟩ := List.append_inj h (by
        rw [hexadecimal_octet_length, hexadecimal_octet_length, if_neg hnarrow, if_neg hnarrow'])
      have hvalue := congrArg hexadecimalValue hfirst
      rw [hexadecimalValue_hexadecimal, hexadecimalValue_hexadecimal] at hvalue
      rw [UInt8.toNat_inj.mp hvalue, ih (by simpa using hlength) htwo.2 htwo'.2 hrest]

/-- No octet that is printed without a width is below sixteen. -/
structure TwoDigits (s : Seed) : Prop where
  clock : 16 ≤ s.clockSequence.toNat % 2 ^ 8
  address : ∀ i, 16 ≤ (s.address i).toNat

section Fields

variable {s : Seed}

theorem timeHiAndVersion_eq : (timeFormat s).timeHiAndVersion =
    s.timeStorage.toNat / 2 ^ 12 * 2 ^ 12 + s.time / 2 ^ 52 % 2 ^ 8 * 2 ^ 4 + 1 := by
  simp only [timeFormat, assignBits, uuidVersion]
  omega

theorem clockSeqHiAndReserved_eq : (timeFormat s).clockSeqHiAndReserved =
    s.clockStorage.toNat / 2 ^ 6 * 2 ^ 6 + s.clockSequence.toNat / 2 ^ 10 % 2 ^ 4 * 2 ^ 2 + 2 := by
  simp only [timeFormat, assignBits, uuidVariant]
  omega

theorem clockHi_length : (hexPadded 2 (timeFormat s).clockSeqHiAndReserved).length = 2 := by
  refine hexPadded_length (by decide) ?_
  rw [clockSeqHiAndReserved_eq]
  have hstorage := s.clockStorage.toNat_lt
  omega

theorem isUUID_iff : IsUUID (makeUUID s) ↔ TwoDigits s := by
  have hlow : (hexPadded 8 (timeFormat s).timeLow.toNat).length = 8 :=
    hexPadded_length (by decide) (timeFormat s).timeLow.toNat_lt
  have hmid : (hexPadded 4 (timeFormat s).timeMid.toNat).length = 4 :=
    hexPadded_length (by decide) (timeFormat s).timeMid.toNat_lt
  have hhi : (hexPadded 4 (timeFormat s).timeHiAndVersion).length = 4 := by
    refine hexPadded_length (by decide) ?_
    rw [timeHiAndVersion_eq]
    have hstorage := s.timeStorage.toNat_lt
    omega
  have hclock : (hexadecimal (timeFormat s).clockSeqLow.toNat).length = 2 ↔
      16 ≤ s.clockSequence.toNat % 2 ^ 8 := by
    have hvalue : (timeFormat s).clockSeqLow.toNat = s.clockSequence.toNat % 2 ^ 8 := by
      simp [timeFormat]
    rw [hexadecimal_octet_length, hvalue]
    split_ifs <;> omega
  have hnode : (nodeText s).length = 12 ↔ ∀ i, 16 ≤ (s.address i).toNat := by
    have hoctets := (flatMap_hexadecimal_length (List.ofFn s.address)).2
    rw [List.length_ofFn, List.forall_mem_ofFn_iff] at hoctets
    exact hoctets
  constructor
  · intro h
    have hwidths := h.widths
    simp only [uuidGroups_makeUUID, groups, List.map_cons, List.map_nil, List.length_append,
      clockHi_length, List.cons.injEq, and_true] at hwidths
    exact ⟨hclock.mp (by omega), hnode.mp hwidths.2.2.2.2⟩
  · intro h
    refine ⟨?_, by simpa using groups_digits s⟩
    simp only [uuidGroups_makeUUID, groups, List.map_cons, List.map_nil, List.length_append,
      hlow, hmid, hhi, clockHi_length, hclock.mpr h.clock, hnode.mpr h.address]

end Fields

/-- The time, the clock sequence modulo 2^14 and the address. -/
def Seed.key (s : Seed) : ℕ × ℕ × (Fin 6 → UInt8) :=
  (s.time, s.clockSequence.toNat % 2 ^ 14, s.address)

/-- What the fields keep of the time and the clock sequence, and the bits of the unions that are
not set. The version overwrites bits 48 to 51 of the time, the variant bits 8 and 9 of the
clock sequence. -/
def Seed.kept (s : Seed) : ℕ × ℕ × ℕ × ℕ × ℕ × ℕ :=
  (s.time % 2 ^ 48, s.time / 2 ^ 52, s.clockSequence.toNat % 2 ^ 8,
    s.clockSequence.toNat / 2 ^ 10 % 2 ^ 4, s.timeStorage.toNat / 2 ^ 12,
    s.clockStorage.toNat / 2 ^ 6)

section Pairs

variable {x y : Seed}

/-- Two texts are the same exactly when the fields keep the same and the nodes have one text. -/
theorem makeUUID_eq_iff (hx : x.time < 2 ^ 60) (hy : y.time < 2 ^ 60) :
    makeUUID x = makeUUID y ↔ x.kept = y.kept ∧ nodeText x = nodeText y := by
  have hgroups : makeUUID x = makeUUID y ↔ groups x = groups y := by
    constructor
    · intro h
      rw [← uuidGroups_makeUUID, h, uuidGroups_makeUUID]
    · intro h
      rw [makeUUID_eq, h, makeUUID_eq]
  have hclock : hexPadded 2 (timeFormat x).clockSeqHiAndReserved ++
        hexadecimal (timeFormat x).clockSeqLow.toNat =
      hexPadded 2 (timeFormat y).clockSeqHiAndReserved ++
        hexadecimal (timeFormat y).clockSeqLow.toNat ↔
      (timeFormat x).clockSeqHiAndReserved = (timeFormat y).clockSeqHiAndReserved ∧
        (timeFormat x).clockSeqLow.toNat = (timeFormat y).clockSeqLow.toNat := by
    constructor
    · intro h
      obtain ⟨hhi, hlow⟩ := List.append_inj h (by rw [clockHi_length, clockHi_length])
      have hvalue := congrArg hexadecimalValue hlow
      rw [hexadecimalValue_hexadecimal, hexadecimalValue_hexadecimal] at hvalue
      exact ⟨hexPadded_injective 2 hhi, hvalue⟩
    · rintro ⟨hhi, hlow⟩
      rw [hhi, hlow]
  rw [hgroups]
  simp only [groups, List.cons.injEq, (hexPadded_injective _).eq_iff, hclock, and_true]
  simp only [timeHiAndVersion_eq, clockSeqHiAndReserved_eq]
  simp only [timeFormat, UInt32.toNat_ofNat', UInt16.toNat_ofNat', UInt8.toNat_ofNat', Seed.kept,
    Prod.mk.injEq]
  constructor
  · rintro ⟨hlow, hmid, hhi, ⟨hclockHi, hclockLow⟩, hnode⟩
    exact ⟨⟨by omega, by omega, by omega, by omega, by omega, by omega⟩, hnode⟩
  · rintro ⟨⟨htimeLow, htimeHi, hclockLow, hclockHi, htimeStorage, hclockStorage⟩, hnode⟩
    exact ⟨by omega, by omega, by omega, ⟨by omega, by omega⟩, hnode⟩

theorem nodeText_injective (htwo : TwoDigits x) (htwo' : TwoDigits y)
    (h : nodeText x = nodeText y) : x.address = y.address :=
  List.ofFn_injective (flatMap_hexadecimal_injective (by simp)
    (List.forall_mem_ofFn_iff.mpr htwo.address) (List.forall_mem_ofFn_iff.mpr htwo'.address) h)

/-- Two generated texts are well formed and distinct for distinct seeds exactly when no
octet printed without a width is below sixteen and distinct seeds differ in what is kept. -/
theorem wellFormed_and_distinct_iff (hx : x.time < 2 ^ 60) (hy : y.time < 2 ^ 60) :
    (IsUUID (makeUUID x) ∧ IsUUID (makeUUID y) ∧ (x.key ≠ y.key → makeUUID x ≠ makeUUID y)) ↔
      TwoDigits x ∧ TwoDigits y ∧
        (x.key ≠ y.key → x.kept ≠ y.kept ∨ x.address ≠ y.address) := by
  rw [isUUID_iff, isUUID_iff, ← not_and_or, ne_eq (makeUUID x), makeUUID_eq_iff hx hy]
  constructor
  · rintro ⟨htwo, htwo', hdistinct⟩
    refine ⟨htwo, htwo', fun hkey ⟨hkept, haddress⟩ => hdistinct hkey ⟨hkept, ?_⟩⟩
    rw [nodeText, nodeText, haddress]
  · rintro ⟨htwo, htwo', hdistinct⟩
    exact ⟨htwo, htwo', fun hkey ⟨hkept, hnode⟩ =>
      hdistinct hkey ⟨hkept, nodeText_injective htwo htwo' hnode⟩⟩

end Pairs

def firstHost : Seed := ⟨0x65000000, 0x1234, ![0x01, 0x23, 0x45, 0x67, 0x89, 0xAB], 0, 0⟩

def secondHost : Seed := ⟨0x65000000, 0x1234, ![0x12, 0x03, 0x45, 0x67, 0x89, 0xAB], 0, 0⟩

/-- A host without a small byte. -/
def thirdHost (clockSequence : UInt16) : Seed :=
  ⟨0x65000000, clockSequence, ![0x12, 0x23, 0x45, 0x67, 0x89, 0xAB], 0, 0⟩

theorem wellFormed_and_distinct_hosts :
    IsUUID (makeUUID (thirdHost 0x1011)) ∧ IsUUID (makeUUID (thirdHost 0x1411)) ∧
      ((thirdHost 0x1011).key ≠ (thirdHost 0x1411).key →
        makeUUID (thirdHost 0x1011) ≠ makeUUID (thirdHost 0x1411)) :=
  (wellFormed_and_distinct_iff (by decide) (by decide)).mpr
    ⟨⟨by decide, by decide⟩, ⟨by decide, by decide⟩, fun _ => .inl (by decide)⟩

/-- Two hosts with one text, which has eleven digits in its last group, and two clock sequences
of one host with one text. -/
theorem hosts_collide : (firstHost.key ≠ secondHost.key ∧
      makeUUID firstHost = makeUUID secondHost ∧ ¬ IsUUID (makeUUID firstHost)) ∧
    (thirdHost 0x1011).key ≠ (thirdHost 0x1111).key ∧
      makeUUID (thirdHost 0x1011) = makeUUID (thirdHost 0x1111) := by
  refine ⟨⟨?_, ?_, ?_⟩, ?_, ?_⟩
  · intro h
    exact absurd (congrFun (congrArg (fun k => k.2.2) h) 0) (by decide)
  · exact (makeUUID_eq_iff (by decide) (by decide)).mpr ⟨rfl, by decide +kernel⟩
  · intro h
    exact absurd ((isUUID_iff.mp h).address 0) (by decide)
  · intro h
    exact absurd (congrArg (fun k => k.2.1) h) (by decide)
  · exact (makeUUID_eq_iff (by decide) (by decide)).mpr ⟨rfl, rfl⟩

end ACENetwork.Net
