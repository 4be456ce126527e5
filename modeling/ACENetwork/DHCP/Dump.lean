import ACENetwork.BitTorrent.Common
import ACENetwork.Library.Decimal

/-!
# The addresses of the PCP server option

The branch of `DHCP_Tools::dump` for an option whose value is a concatenation of
lists of addresses, each behind the number of its bytes. A value whose first list has
two addresses or more is walked from its second byte on, with a count of used bytes
that leaves out the length bytes, so the walk always reads past the value.
-/
namespace ACENetwork.DHCP
open Library BitTorrent

/-- An address, in the order of its bytes in memory. -/
structure IPv4Address where
  a : UInt8
  b : UInt8
  c : UInt8
  d : UInt8
  deriving DecidableEq, Repr

def IPv4Address.bytes (address : IPv4Address) : List UInt8 :=
  [address.a, address.b, address.c, address.d]

/-- `Net_Common_Tools::IPv4AddressToString`, without a port. -/
def IPv4Address.text (address : IPv4Address) : List UInt8 :=
  decimal address.a.toNat ++ '.'.toUInt8 :: decimal address.b.toNat ++
    '.'.toUInt8 :: decimal address.c.toNat ++ '.'.toUInt8 :: decimal address.d.toNat

structure Printed where
  number : Option ℕ
  address : IPv4Address
  deriving DecidableEq, Repr

def Printed.text (p : Printed) : List UInt8 :=
  match p.number with
  | none => p.address.text
  | some number => "\n\t#".toUTF8.data.toList ++ decimal number ++ ": ".toUTF8.data.toList ++ p.address.text

section Walk

variable (value : List UInt8)

/-- A byte of the value; nothing can be read behind the last one. -/
def byteAt (pointer : ℕ) : Except Fault UInt8 :=
  match value.drop pointer with
  | b :: _ => .ok b
  | [] => .error .outOfRange

def addressAt (pointer : ℕ) : Except Fault IPv4Address :=
  match value.drop pointer with
  | a :: b :: c :: d :: _ => .ok ⟨a, b, c, d⟩
  | _ => .error .outOfRange

def printList (pointer count : ℕ) : Except Fault (List Printed) :=
  (List.range count).mapM fun i => do .ok ⟨some (i + 1), ← addressAt value (pointer + i * 4)⟩

def nextList (pointer usedBytes : ℕ) : Except Fault (List Printed) :=
  if h : pointer < value.length then do
    let count := value[pointer].toNat / 4
    let printed ← printList value (pointer + 1) count
    if usedBytes + count * 4 < value.length then
      .ok (printed ++ (← nextList (pointer + 1 + count * 4) (usedBytes + count * 4)))
    else .ok printed
  else .error .outOfRange
  termination_by value.length - pointer

def dumpAddresses : Except Fault (List Printed) := do
  aceAssert false (5 ≤ value.length)
  let count := (← byteAt value 0).toNat / 4
  aceAssert false (1 ≤ count)
  let address ← addressAt value 1
  if count = 1 then .ok [⟨none, address⟩]
  else nextList value 1 1

def dumpText : Except Fault (List UInt8) := do
  .ok ((← dumpAddresses value).flatMap Printed.text)

end Walk

/-- A list of an option: the number of its bytes, which is a multiple of four, and its addresses. -/
def listBytes (addresses : List IPv4Address) : List UInt8 :=
  UInt8.ofNat (4 * addresses.length) :: addresses.flatMap IPv4Address.bytes

def Encodes (lists : List (List IPv4Address)) (value : List UInt8) : Prop :=
  (∀ l ∈ lists, l.length ≤ 63) ∧ value = lists.flatMap listBytes

/-- The walk ends, within the value, and prints the addresses of a well-formed one. -/
def WalksWithin (value : List UInt8) : Prop :=
  ∃ printed, dumpAddresses value = .ok printed ∧
    ∀ lists, Encodes lists value → printed.map Printed.address = lists.flatten

section Walk

variable {value : List UInt8}

theorem addressAt_ok {pointer : ℕ} {address : IPv4Address} (h : addressAt value pointer = .ok address) :
    pointer + 4 ≤ value.length := by
  unfold addressAt at h
  split at h
  · rename_i a b c d rest hdrop
    have hlength := congrArg List.length hdrop
    simp only [List.length_drop, List.length_cons] at hlength
    omega
  · cases h

theorem printList_ok {pointer count : ℕ} {printed : List Printed}
    (h : printList value pointer count = .ok printed) (hcount : 0 < count) :
    pointer + count * 4 ≤ value.length := by
  obtain ⟨count, rfl⟩ : ∃ n, count = n + 1 := ⟨count - 1, by omega⟩
  rw [printList, List.range_succ, List.mapM_append] at h
  obtain ⟨front, -, hlast⟩ := fault_bind_ok.mp h
  obtain ⟨last, hmap, -⟩ := fault_bind_ok.mp hlast
  simp only [List.mapM_cons, List.mapM_nil] at hmap
  obtain ⟨printed', hread, -⟩ := fault_bind_ok.mp hmap
  obtain ⟨address, haddress, -⟩ := fault_bind_ok.mp hread
  have hbound : pointer + count * 4 + 4 ≤ value.length := addressAt_ok haddress
  omega

theorem addressAt_error {pointer : ℕ} {e : Fault} (h : addressAt value pointer = .error e) :
    e = .outOfRange := by
  unfold addressAt at h
  split at h
  · cases h
  · cases h
    rfl

theorem printList_error {pointer count : ℕ} {e : Fault}
    (h : printList value pointer count = .error e) : e = .outOfRange := by
  unfold printList at h
  generalize List.range count = places at h
  induction places with
  | nil => simp [pure, Except.pure] at h
  | cons i places ih =>
    rw [List.mapM_cons] at h
    rcases fault_bind_error.mp h with hfirst | ⟨first, -, hrest⟩
    · rcases fault_bind_error.mp hfirst with haddress | ⟨address, -, hok⟩
      · exact addressAt_error haddress
      · cases hok
    · rcases fault_bind_error.mp hrest with hplaces | ⟨rest, -, hok⟩
      · exact ih hplaces
      · cases hok

/-- The pointer is ahead of the bytes that count as used, so the walk leaves the value
before it would stop. -/
theorem nextList_outOfRange {pointer usedBytes : ℕ} (hused : usedBytes ≤ pointer)
    (hmore : usedBytes < value.length) :
    nextList value pointer usedBytes = .error .outOfRange := by
  induction hrest : value.length - pointer using Nat.strong_induction_on
    generalizing pointer usedBytes with
  | _ left ih =>
    subst hrest
    rw [nextList]
    by_cases hpointer : pointer < value.length
    · rw [dif_pos hpointer]
      simp only
      generalize value[pointer].toNat / 4 = count
      cases hlist : printList value (pointer + 1) count with
      | error e => rw [printList_error hlist]; rfl
      | ok printed =>
        simp only [bind, Except.bind]
        split_ifs with hnext
        · rw [ih _ (by omega) (by omega) hnext rfl]
        · -- the last list has an address, and its bytes reach past the value
          have hcount : 0 < count := by omega
          have hbound := printList_ok hlist hcount
          omega
    · rw [dif_neg hpointer]

/-- The branch, as it depends on the length and on the first byte. -/
theorem dumpAddresses_eq (a b c d e : UInt8) (rest : List UInt8) :
    dumpAddresses (a :: b :: c :: d :: e :: rest) =
      if a.toNat / 4 = 0 then .error .assertion
      else if a.toNat / 4 = 1 then .ok [⟨none, ⟨b, c, d, e⟩⟩]
      else .error .outOfRange := by
  simp only [dumpAddresses, byteAt, addressAt, List.drop_zero, List.drop_succ_cons, aceAssert,
    List.length_cons, bind, Except.bind]
  have hlength : 5 ≤ rest.length + 1 + 1 + 1 + 1 + 1 := by omega
  simp only [hlength, decide_true, Bool.or_true, if_true, Bool.false_or, decide_eq_true_eq]
  by_cases hzero : a.toNat / 4 = 0
  · simp [hzero]
  · rw [if_pos (by omega), if_neg hzero]
    simp only
    split_ifs with hone
    · rfl
    · exact nextList_outOfRange (by omega) (by simp only [List.length_cons]; omega)

theorem dumpAddresses_short (h : value.length < 5) : dumpAddresses value = .error .assertion := by
  have hlength : ¬ 5 ≤ value.length := by omega
  simp [dumpAddresses, aceAssert, hlength, bind, Except.bind]

end Walk

def HoldsAddress (bytes : List UInt8) : Prop := ∃ lists, Encodes lists bytes ∧ lists.flatten ≠ []

theorem encodes_single {lists : List (List IPv4Address)} {a b c d e : UInt8} {rest : List UInt8}
    (ha : a.toNat / 4 = 1) :
    Encodes lists (a :: b :: c :: d :: e :: rest) ↔
      a = 4 ∧ ∃ lists', lists = [⟨b, c, d, e⟩] :: lists' ∧ Encodes lists' rest := by
  constructor
  · rintro ⟨hcount, hvalue⟩
    cases lists with
    | nil => cases hvalue
    | cons l lists =>
      have hl : l.length ≤ 63 := hcount l List.mem_cons_self
      simp only [List.flatMap_cons, listBytes, List.cons_append, List.cons.injEq] at hvalue
      obtain ⟨rfl, hvalue⟩ := hvalue
      have hone : l.length = 1 := by
        simp only [UInt8.toNat_ofNat'] at ha
        omega
      obtain ⟨address, rfl⟩ := List.length_eq_one_iff.mp hone
      simp only [List.flatMap_cons, List.flatMap_nil, IPv4Address.bytes, List.append_nil,
        List.cons_append, List.nil_append, List.cons.injEq] at hvalue
      obtain ⟨rfl, rfl, rfl, rfl, rfl⟩ := hvalue
      exact ⟨rfl, lists, rfl, fun l hl => hcount l (List.mem_cons_of_mem _ hl), rfl⟩
  · rintro ⟨rfl, lists', rfl, hcount, rfl⟩
    refine ⟨?_, by simp [listBytes, IPv4Address.bytes]⟩
    simpa using hcount

/-- For every value: the walk does what it should exactly when the first list has one
address, its bytes are there, and no list behind it has an address. -/
theorem walksWithin_iff (value : List UInt8) :
    WalksWithin value ↔ 5 ≤ value.length ∧ (∀ first ∈ value.head?, first.toNat / 4 = 1) ∧
      (value.head? = some 4 → ¬ HoldsAddress (value.drop 5)) := by
  match value with
  | a :: b :: c :: d :: e :: rest =>
    simp only [WalksWithin, dumpAddresses_eq, List.length_cons, List.head?_cons, Option.mem_some,
      forall_eq', Option.some.injEq, List.drop_succ_cons, List.drop_zero]
    by_cases hone : a.toNat / 4 = 1
    · have hzero : a.toNat / 4 ≠ 0 := by omega
      simp only [hone, if_neg, one_ne_zero, not_false_eq_true, if_true, Except.ok.injEq,
        exists_eq_left', encodes_single hone, true_and]
      constructor
      · rintro h
        refine ⟨by omega, ?_⟩
        rintro rfl ⟨lists, hlists, haddress⟩
        have hprinted := h _ ⟨rfl, lists, rfl, hlists⟩
        exact haddress (by simpa using hprinted)
      · rintro ⟨-, h⟩ _ ⟨rfl, lists, rfl, hlists⟩
        have hempty : lists.flatten = [] := by
          by_contra haddress
          exact h rfl ⟨lists, hlists, haddress⟩
        simp [hempty]
    · constructor
      · rintro ⟨printed, hdump, -⟩
        split_ifs at hdump
      · rintro ⟨-, hfirst, -⟩
        exact absurd hfirst hone
  | [] | [_] | [_, _] | [_, _, _] | [_, _, _, _] =>
    rw [WalksWithin, dumpAddresses_short (by simp)]
    simp

/-- A list of two addresses is read from its second byte on, up to the byte behind it. -/
theorem not_walksWithin : ¬ WalksWithin [8, 10, 0, 0, 1, 10, 0, 0, 2] ∧
    Encodes [[⟨10, 0, 0, 1⟩, ⟨10, 0, 0, 2⟩]] [8, 10, 0, 0, 1, 10, 0, 0, 2] := by
  refine ⟨?_, by decide, by decide⟩
  rintro ⟨printed, hdump, -⟩
  rw [dumpAddresses_eq, if_neg (by decide), if_neg (by decide)] at hdump
  cases hdump

end ACENetwork.DHCP
