import ACENetwork.BitTorrent.Common
import ACENetwork.Library.Formatting

/-!
# The information elements of a BSS

How the callbacks of nl80211 look for the SSID among the elements of an access point, each an id,
a length and data, and how `Net_WLAN_Tools::decodeSSID` makes a text of it. Whatever the radio has
received may stand there.
-/
namespace ACENetwork.WLAN.Elements
open BitTorrent (Fault fault_bind_ok)
open Library

section Source

def essidMaxSize : ℕ := 32

def assert (condition : Bool) : Except Fault Unit := if condition then .ok () else .error .assertion

def read (b : Bytes) (i : ℕ) : Except Fault UInt8 :=
  match b[i]? with
  | none => .error .outOfRange
  | some octet => .ok octet

def readAll (b : Bytes) (i count : ℕ) : Except Fault Bytes :=
  if count = 0 ∨ i + count ≤ b.length then .ok ((b.drop i).take count) else .error .outOfRange

/-- The loop over the elements: the place of the first one with the id 0. -/
def find (b : Bytes) (limit offset : ℕ) : Except Fault (Option ℕ) :=
  if limit ≤ offset then .ok none
  else
    match read b offset with
    | .error e => .error e
    | .ok id =>
      if id = 0 then .ok (some offset)
      else
        match read b (offset + 1) with
        | .error e => .error e
        | .ok length => find b limit (offset + (1 + 1 + length.toNat))
  termination_by limit - offset

def elementSSID (b : Bytes) (offset : ℕ) : Except Fault (Option Bytes) := do
  let length ← read b (offset + 1)
  assert (length.toNat ≤ essidMaxSize)
  let data ← readAll b (offset + 2) length.toNat
  .ok (some data)

def ssidFrom (b : Bytes) (start : ℕ) : Except Fault (Option Bytes) :=
  match find b b.length start with
  | .error e => .error e
  | .ok none => .ok none
  | .ok (some offset) => elementSSID b offset

def ssidCb (b : Bytes) : Except Fault (Option Bytes) := ssidFrom b 0

def ssidsCb (b : Bytes) : Except Fault (Option Bytes) := ssidFrom b 0

/-- The SSID in the callback of the monitor, which `decodeSSID` reads; the length of the attribute
is kept in a `uint8_t`. -/
def scanResultsCb (b : Bytes) : Except Fault (Option Bytes) := do
  match ← find b (UInt8.ofNat b.length).toNat 0 with
  | none => .ok none
  | some offset =>
    let length ← read b (offset + 1)
    if length.toNat = 0 ∨ essidMaxSize < length.toNat then .ok none
    else do
      let data ← readAll b (offset + 2) length.toNat
      .ok (some data)

def isPrint (b : UInt8) : Bool := 0x20 ≤ b && b ≤ 0x7E

def decodeFrom : Bytes → Except Fault Bytes
  | [] => .ok []
  | b :: rest => do
    let piece ←
      if isPrint b && b != ' '.toUInt8 && b != '\\'.toUInt8 then .ok [b]
      else if b = ' '.toUInt8 then .ok [b]
      else do
        assert (b = '\\'.toUInt8)
        -- the octet behind it, wherever the data ends
        let next ← read rest 0
        .ok (text "\\x" ++ hexPadded 2 next.toNat)
    .ok (piece ++ (← decodeFrom rest))

def decodeSSID (data : Bytes) : Except Fault Bytes := do
  assert (0 < data.length && decide (data.length ≤ essidMaxSize))
  decodeFrom data

end Source

/-- What stands where the walk over the elements ends. -/
inductive Found where
  /-- Behind the last element. -/
  | nothing
  /-- One octet alone, too short for an element. -/
  | cut
  /-- An element with the id 0 at a place, its length and what follows. -/
  | element (offset : ℕ) (length : UInt8) (rest : Bytes)

def firstZero (offset : ℕ) : Bytes → Found
  | [] => .nothing
  | [_] => .cut
  | id :: length :: rest =>
    if id = 0 then .element offset length rest
    else firstZero (offset + (1 + 1 + length.toNat)) (rest.drop length.toNat)
  termination_by b => b.length
  decreasing_by simp only [List.length_drop, List.length_cons]; omega

/-- The data of an element lies inside the attribute, and is not empty nor too long. -/
def Complete (length : UInt8) (rest : Bytes) : Prop :=
  1 ≤ length.toNat ∧ length.toNat ≤ essidMaxSize ∧ length.toNat ≤ rest.length

instance (length : UInt8) (rest : Bytes) : Decidable (Complete length rest) :=
  inferInstanceAs (Decidable (_ ∧ _ ∧ _))

/-- The SSID of an access point: the data of its first element with the id 0. -/
def firstSSID (b : Bytes) : Option Bytes :=
  match firstZero 0 b with
  | .element _ length rest => if Complete length rest then some (rest.take length.toNat) else none
  | _ => none

/-- No element is cut off behind its id, and the first one with the id 0 is complete. -/
def Sound (b : Bytes) : Prop :=
  match firstZero 0 b with
  | .nothing => True
  | .cut => False
  | .element _ length rest => Complete length rest

/-- The element of the SSID starts where a length in one octet still reaches. -/
def InReach (b : Bytes) : Prop :=
  ∀ offset length rest, firstZero 0 b = .element offset length rest → offset < b.length % 2 ^ 8

/-- The three callbacks find the SSID without a fault. -/
def Alike (b : Bytes) : Prop :=
  ssidCb b = .ok (firstSSID b) ∧ ssidsCb b = .ok (firstSSID b) ∧ scanResultsCb b = .ok (firstSSID b)

def Decodes (ssid : Bytes) : Prop :=
  ∃ s, decodeSSID ssid = .ok s ∧ ∀ other, decodeSSID other = .ok s → other = ssid

/-- Printable octets, of which a backslash is not the last. -/
def Printable (ssid : Bytes) : Prop :=
  (∀ b ∈ ssid, isPrint b = true) ∧ ssid.getLast? ≠ some '\\'.toUInt8

section Walk

variable {b rest : Bytes} {id length : UInt8} {limit offset : ℕ}

theorem read_of_drop (h : b.drop offset = id :: rest) : read b offset = .ok id := by
  have hid : b[offset]? = some id := by
    rw [← List.head?_drop, h, List.head?_cons]
  rw [read, hid]

theorem drop_succ (h : b.drop offset = id :: rest) : b.drop (offset + 1) = rest := by
  rw [← List.drop_drop, h, List.drop_one, List.tail_cons]

theorem drop_next (h : b.drop offset = id :: length :: rest) :
    b.drop (offset + (1 + 1 + length.toNat)) = rest.drop length.toNat := by
  rw [← List.drop_drop, h, show 1 + 1 + length.toNat = length.toNat + 1 + 1 by omega]
  rfl

theorem lt_length_of_drop (h : b.drop offset = id :: rest) : offset < b.length := by
  by_contra hle
  rw [List.drop_eq_nil_of_le (by omega)] at h
  cases h

theorem find_end (h : limit ≤ offset) : find b limit offset = .ok none := by
  rw [find, if_pos h]

theorem find_zero (h : b.drop offset = 0 :: rest) (hlimit : offset < limit) :
    find b limit offset = .ok (some offset) := by
  rw [find, if_neg (by omega), read_of_drop h]
  rfl

theorem find_next (h : b.drop offset = id :: length :: rest) (hid : id ≠ 0)
    (hlimit : offset < limit) :
    find b limit offset = find b limit (offset + (1 + 1 + length.toNat)) := by
  rw [find, if_neg (by omega), read_of_drop h]
  simp only [if_neg hid, read_of_drop (drop_succ h)]

/-- An octet alone is read as an element, and there is no length behind it. -/
theorem ssidFrom_cut (h : b.drop offset = rest) (hcut : firstZero offset rest = .cut) :
    ssidFrom b offset = .error .outOfRange := by
  fun_induction firstZero offset rest with
  | case1 => cases hcut
  | case2 offset id =>
    have hlt := lt_length_of_drop h
    have hmissing : read b (offset + 1) = .error .outOfRange := by
      have hnil := drop_succ h
      rw [read, ← List.head?_drop, hnil]
      rfl
    by_cases hid : id = 0
    · subst hid
      rw [ssidFrom, find_zero h hlt]
      simp only [elementSSID, hmissing]
      rfl
    · rw [ssidFrom, find, if_neg (by omega), read_of_drop h]
      simp only [if_neg hid, hmissing]
  | case3 => cases hcut
  | case4 offset id length rest hid ih =>
    rw [ssidFrom, find_next h hid (lt_length_of_drop h)]
    exact ih (drop_next h) hcut

theorem find_nothing (h : b.drop offset = rest) (hlimit : limit ≤ b.length)
    (hnothing : firstZero offset rest = .nothing) : find b limit offset = .ok none := by
  fun_induction firstZero offset rest with
  | case1 offset => exact find_end (hlimit.trans (List.drop_eq_nil_iff.mp h))
  | case2 => cases hnothing
  | case3 => cases hnothing
  | case4 offset id length rest hid ih =>
    rcases Nat.lt_or_ge offset limit with hlt | hge
    · rw [find_next h hid hlt]
      exact ih (drop_next h) hnothing
    · exact find_end hge

/-- The walk stops at the element of the SSID, unless it ends before. -/
theorem find_element (limit : ℕ) {o : ℕ} {l : UInt8} {r : Bytes} (h : b.drop offset = rest)
    (hfound : firstZero offset rest = .element o l r) :
    b.drop o = 0 :: l :: r ∧ offset ≤ o ∧
      find b limit offset = .ok (if o < limit then some o else none) := by
  fun_induction firstZero offset rest with
  | case1 => cases hfound
  | case2 => cases hfound
  | case3 offset length rest =>
    cases hfound
    refine ⟨h, le_rfl, ?_⟩
    split
    · next hlt => exact find_zero h hlt
    · next hge => exact find_end (not_lt.mp hge)
  | case4 offset id length rest hid ih =>
    obtain ⟨hdrop, hle, hfind⟩ := ih (drop_next h) hfound
    refine ⟨hdrop, by omega, ?_⟩
    rcases Nat.lt_or_ge offset limit with hlt | hge
    · rw [find_next h hid hlt, hfind]
    · rw [find_end hge, if_neg (by omega)]

theorem readAll_data (h : b.drop offset = id :: length :: rest) (hpos : 1 ≤ length.toNat) :
    readAll b (offset + 2) length.toNat =
      if length.toNat ≤ rest.length then .ok (rest.take length.toNat) else .error .outOfRange := by
  have hrest : b.drop (offset + 2) = rest := by rw [← List.drop_drop, h]; rfl
  have hinside : (length.toNat = 0 ∨ offset + 2 + length.toNat ≤ b.length) ↔
      length.toNat ≤ rest.length := by
    rw [← hrest, List.length_drop]
    omega
  simp only [readAll, hinside, hrest]

theorem elementSSID_eq_iff (h : b.drop offset = 0 :: length :: rest) :
    elementSSID b offset =
        .ok (if Complete length rest then some (rest.take length.toNat) else none) ↔
      Complete length rest := by
  have hlength : read b (offset + 1) = .ok length := read_of_drop (drop_succ h)
  constructor
  · intro hok
    by_contra hnot
    rw [if_neg hnot] at hok
    obtain ⟨l, _, hok⟩ := fault_bind_ok.mp hok
    obtain ⟨_, _, hok⟩ := fault_bind_ok.mp hok
    obtain ⟨data, _, hdata⟩ := fault_bind_ok.mp hok
    cases hdata
  · intro hcomplete
    obtain ⟨hpos, hmax, hinside⟩ := id hcomplete
    rw [if_pos hcomplete, elementSSID, hlength]
    refine fault_bind_ok.mpr ⟨length, rfl, fault_bind_ok.mpr ⟨(), ?_, ?_⟩⟩
    · simp [assert, hmax]
    · rw [readAll_data h hpos, if_pos hinside]
      rfl

end Walk

section Callbacks

variable (b : Bytes)

/-- The two callbacks that keep the length of the attribute find the SSID of a sound one. -/
theorem ssidFrom_eq_iff : ssidFrom b 0 = .ok (firstSSID b) ↔ Sound b := by
  cases hfound : firstZero 0 b with
  | nothing => simp [ssidFrom, firstSSID, Sound, hfound, find_nothing List.drop_zero le_rfl hfound]
  | cut => simp [Sound, hfound, ssidFrom_cut List.drop_zero hfound]
  | element offset length rest =>
    obtain ⟨hdrop, _, hfind⟩ := find_element b.length List.drop_zero hfound
    rw [if_pos (lt_length_of_drop hdrop)] at hfind
    simp only [ssidFrom, firstSSID, Sound, hfound, hfind]
    exact elementSSID_eq_iff hdrop

/-- The monitor finds the SSID of a sound attribute where its own length reaches. -/
theorem scanResultsCb_eq_iff (h : Sound b) : scanResultsCb b = .ok (firstSSID b) ↔ InReach b := by
  have hlimit : (UInt8.ofNat b.length).toNat = b.length % 2 ^ 8 := UInt8.toNat_ofNat'
  cases hfound : firstZero 0 b with
  | nothing =>
    have hfind := find_nothing List.drop_zero (Nat.mod_le b.length (2 ^ 8)) hfound
    refine iff_of_true ?_ ?_
    · rw [scanResultsCb, hlimit, hfind, firstSSID, hfound]
      rfl
    · intro offset length rest helement
      rw [hfound] at helement
      cases helement
  | cut =>
    rw [Sound, hfound] at h
    exact h.elim
  | element offset length rest =>
    obtain ⟨hdrop, _, hfind⟩ := find_element (b.length % 2 ^ 8) List.drop_zero hfound
    have hcomplete : Complete length rest := by
      rw [Sound, hfound] at h
      exact h
    have hreach : InReach b ↔ offset < b.length % 2 ^ 8 := by
      constructor
      · exact fun hall => hall offset length rest hfound
      · intro hlt o l r helement
        rw [hfound] at helement
        cases helement
        exact hlt
    have hssid : firstSSID b = some (rest.take length.toNat) := by
      rw [firstSSID, hfound]
      exact if_pos hcomplete
    rw [hreach, hssid, scanResultsCb, hlimit, hfind]
    constructor
    · intro hok
      by_contra hnot
      rw [if_neg hnot] at hok
      cases hok
    · intro hlt
      obtain ⟨hpos, hmax, hinside⟩ := hcomplete
      rw [if_pos hlt]
      refine fault_bind_ok.mpr ⟨some offset, rfl, fault_bind_ok.mpr
        ⟨length, read_of_drop (drop_succ hdrop), ?_⟩⟩
      rw [if_neg (not_or.mpr ⟨by omega, not_lt.mpr hmax⟩), readAll_data hdrop hpos, if_pos hinside]
      rfl

theorem alike_iff : Alike b ↔ Sound b ∧ InReach b := by
  constructor
  · rintro ⟨hssid, _, hscan⟩
    have hsound := (ssidFrom_eq_iff b).mp hssid
    exact ⟨hsound, (scanResultsCb_eq_iff b hsound).mp hscan⟩
  · rintro ⟨hsound, hreach⟩
    have hssid := (ssidFrom_eq_iff b).mpr hsound
    exact ⟨hssid, hssid, (scanResultsCb_eq_iff b hsound).mpr hreach⟩

end Callbacks

section Decoding

/-- What an octet is written as, before an octet that is written as another. -/
def piece (b : UInt8) (rest : Bytes) : Bytes :=
  if b = '\\'.toUInt8 then text "\\x" ++ hexPadded 2 (rest.headD 0).toNat else [b]

theorem piece_length (b : UInt8) (rest : Bytes) :
    (piece b rest).length = if b = '\\'.toUInt8 then 4 else 1 := by
  unfold piece
  split
  · have hpadded : (hexPadded 2 (rest.headD 0).toNat).length = 2 :=
      hexPadded_length (by omega) (rest.headD 0).toNat_lt
    rw [List.length_append, hpadded]
    rfl
  · rfl

theorem piece_head (b : UInt8) (rest : Bytes) : (piece b rest).head? = some b := by
  unfold piece
  split
  · next hb =>
    rw [hb]
    rfl
  · rfl

/-- An octet is written if it is printable, and a backslash only with an octet behind it. -/
theorem decodeFrom_cons {b : UInt8} {rest s : Bytes} :
    decodeFrom (b :: rest) = .ok s ↔
      (isPrint b = true ∧ (b = '\\'.toUInt8 → rest ≠ [])) ∧
        ∃ t, decodeFrom rest = .ok t ∧ s = piece b rest ++ t := by
  have hspace : isPrint ' '.toUInt8 = true := rfl
  have hbackslash : isPrint '\\'.toUInt8 = true := rfl
  have hdiffer : ' '.toUInt8 ≠ '\\'.toUInt8 := by decide
  rw [decodeFrom, piece]
  by_cases hb : b = '\\'.toUInt8
  · subst hb
    cases rest with
    | nil => simp [hbackslash, hdiffer.symm, assert, read, bind, Except.bind]
    | cons next rest =>
      cases decodeFrom (next :: rest) <;>
        simp [hbackslash, hdiffer.symm, assert, read, bind, Except.bind, eq_comm]
  · by_cases hspaceb : b = ' '.toUInt8
    · subst hspaceb
      cases decodeFrom rest <;> simp [hspace, hb, bind, Except.bind, eq_comm]
    · cases hprint : isPrint b
      · simp [hb, hspaceb, assert, bind, Except.bind]
      · cases decodeFrom rest with
        | error e => simp [hb, hspaceb, bind, Except.bind]
        | ok t => simpa [hb, hspaceb, bind, Except.bind] using eq_comm

theorem printable_cons {b : UInt8} {rest : Bytes} :
    Printable (b :: rest) ↔
      (isPrint b = true ∧ (b = '\\'.toUInt8 → rest ≠ [])) ∧ Printable rest := by
  cases rest with
  | nil => simp [Printable]
  | cons next rest => simp [Printable, List.getLast?_cons_cons, and_assoc]

theorem decodeFrom_defined {ssid : Bytes} : (∃ s, decodeFrom ssid = .ok s) ↔ Printable ssid := by
  induction ssid with
  | nil => simp [decodeFrom, Printable]
  | cons b rest ih =>
    rw [printable_cons, ← ih]
    constructor
    · rintro ⟨s, hs⟩
      obtain ⟨hb, t, ht, _⟩ := decodeFrom_cons.1 hs
      exact ⟨hb, t, ht⟩
    · rintro ⟨hb, t, ht⟩
      exact ⟨_, decodeFrom_cons.2 ⟨hb, t, ht, rfl⟩⟩

theorem decodeFrom_injective {x y s : Bytes} (hx : decodeFrom x = .ok s)
    (hy : decodeFrom y = .ok s) : x = y := by
  induction x generalizing y s with
  | nil =>
    cases hx
    cases y with
    | nil => rfl
    | cons b rest =>
      obtain ⟨_, t, _, hs⟩ := decodeFrom_cons.1 hy
      have hhead := piece_head b rest
      rw [(List.append_eq_nil_iff.mp hs.symm).1] at hhead
      cases hhead
  | cons b rest ih =>
    obtain ⟨_, t, ht, rfl⟩ := decodeFrom_cons.1 hx
    cases y with
    | nil =>
      have hempty : [] = piece b rest ++ t := Except.ok.inj hy
      have hhead := piece_head b rest
      rw [(List.append_eq_nil_iff.mp hempty.symm).1] at hhead
      cases hhead
    | cons b' rest' =>
      obtain ⟨_, t', ht', hs⟩ := decodeFrom_cons.1 hy
      have hb : b = b' := by
        have hhead := congrArg List.head? hs
        rw [List.head?_append, List.head?_append, piece_head, piece_head] at hhead
        exact Option.some.inj hhead
      subst hb
      have hlength : (piece b rest).length = (piece b rest').length := by
        rw [piece_length, piece_length]
      obtain ⟨_, rfl⟩ := List.append_inj hs hlength
      rw [ih ht ht']

theorem decodeSSID_iff (ssid : Bytes) :
    Decodes ssid ↔ (0 < ssid.length ∧ ssid.length ≤ essidMaxSize) ∧ Printable ssid := by
  have hok : ∀ {x s : Bytes}, decodeSSID x = .ok s ↔
      (0 < x.length ∧ x.length ≤ essidMaxSize) ∧ decodeFrom x = .ok s := by
    intro x s
    rw [decodeSSID, fault_bind_ok]
    simp [assert]
  constructor
  · rintro ⟨s, hs, _⟩
    obtain ⟨hsize, hs⟩ := hok.mp hs
    exact ⟨hsize, decodeFrom_defined.1 ⟨s, hs⟩⟩
  · rintro ⟨hsize, hprintable⟩
    obtain ⟨s, hs⟩ := decodeFrom_defined.2 hprintable
    exact ⟨s, hok.mpr ⟨hsize, hs⟩, fun other hother =>
      decodeFrom_injective (hok.mp hother).2 hs⟩

end Decoding

/-- The callbacks find the SSID of an attribute exactly when it is sound and its element is in
reach, and it has a text of its own exactly when it is printable. -/
theorem scanned_ssid_iff (b ssid : Bytes) :
    (Alike b ↔ Sound b ∧ InReach b) ∧
      (Decodes ssid ↔ (0 < ssid.length ∧ ssid.length ≤ essidMaxSize) ∧ Printable ssid) :=
  ⟨alike_iff b, decodeSSID_iff ssid⟩

/-- A hidden network sends an empty SSID, which only the monitor leaves out, and an umlaut fails an
assertion. -/
theorem hidden_ssid_not_alike : ¬ Alike [0, 0] ∧ ¬ Decodes [0xC3, 0xA4] := by
  constructor
  · have hfound : firstZero 0 [0, 0] = .element 0 0 [] := by simp [firstZero]
    rw [alike_iff, Sound, hfound]
    exact fun h => absurd h.1 (by decide)
  · rw [decodeSSID_iff]
    exact fun h => absurd (h.2.1 0xC3 List.mem_cons_self) (by decide)

end ACENetwork.WLAN.Elements
