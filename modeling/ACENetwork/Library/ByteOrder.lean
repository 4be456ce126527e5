import Mathlib

/-!
# Words in network byte order

Fixed-width big-endian words over bytes, and the host-order loads and stores
that wire code combines with a conditional byte swap. The two swap lemmas say
that such code reads and writes the big-endian word on either kind of host.
-/
namespace ACENetwork.Library

/-- The `w` big-endian bytes of a natural number; higher digits are cut off. -/
def encodeBE : ℕ → ℕ → List UInt8
  | 0, _ => []
  | w + 1, n => UInt8.ofNat (n / 256 ^ w) :: encodeBE w n

/-- Big-endian value of a byte string, most significant byte first. -/
def decodeBE : List UInt8 → ℕ
  | [] => 0
  | b :: bs => b.toNat * 256 ^ bs.length + decodeBE bs

theorem encodeBE_succ (w n : ℕ) :
    encodeBE (w + 1) n = UInt8.ofNat (n / 256 ^ w) :: encodeBE w n := rfl

theorem decodeBE_nil : decodeBE [] = 0 := rfl

theorem decodeBE_cons (b : UInt8) (bs : List UInt8) :
    decodeBE (b :: bs) = b.toNat * 256 ^ bs.length + decodeBE bs := rfl

@[simp] theorem encodeBE_length (w n : ℕ) : (encodeBE w n).length = w := by
  induction w with
  | zero => rfl
  | succ w ih => simp [encodeBE_succ, ih]

theorem decodeBE_lt (bs : List UInt8) : decodeBE bs < 256 ^ bs.length := by
  induction bs with
  | nil => simp [decodeBE_nil]
  | cons b bs ih =>
    have hb : b.toNat + 1 ≤ 256 := b.toNat_lt
    calc decodeBE (b :: bs) < b.toNat * 256 ^ bs.length + 256 ^ bs.length := by
          simpa [decodeBE_cons] using ih
      _ = (b.toNat + 1) * 256 ^ bs.length := by ring
      _ ≤ 256 * 256 ^ bs.length := Nat.mul_le_mul_right _ hb
      _ = 256 ^ (b :: bs).length := by simp [pow_succ, mul_comm]

/-- Reading back a written word returns it modulo the width. -/
theorem decodeBE_encodeBE (w n : ℕ) : decodeBE (encodeBE w n) = n % 256 ^ w := by
  induction w with
  | zero => exact (Nat.mod_one n).symm
  | succ w ih =>
    have h : n % 256 ^ (w + 1) = n % 256 ^ w + 256 ^ w * (n / 256 ^ w % 256) := by
      rw [pow_succ, Nat.mod_mul]
    simp only [encodeBE_succ, decodeBE_cons, encodeBE_length, ih, h, UInt8.toNat_ofNat']
    ring

theorem decodeBE_encodeBE_of_lt {w n : ℕ} (h : n < 256 ^ w) :
    decodeBE (encodeBE w n) = n := by
  rw [decodeBE_encodeBE, Nat.mod_eq_of_lt h]

theorem encodeBE_congr {w m n : ℕ} (h : m % 256 ^ w = n % 256 ^ w) :
    encodeBE w m = encodeBE w n := by
  induction w with
  | zero => rfl
  | succ w ih =>
    have hdigit : m / 256 ^ w % 256 = n / 256 ^ w % 256 := by
      rw [pow_succ] at h
      rw [← Nat.mod_mul_right_div_self m, ← Nat.mod_mul_right_div_self n, h]
    have hlow : m % 256 ^ w = n % 256 ^ w := by
      have hd : 256 ^ w ∣ 256 ^ (w + 1) := pow_dvd_pow 256 (Nat.le_succ w)
      rw [← Nat.mod_mod_of_dvd m hd, h, Nat.mod_mod_of_dvd n hd]
    have hbyte : UInt8.ofNat (m / 256 ^ w) = UInt8.ofNat (n / 256 ^ w) := by
      apply UInt8.toNat_inj.mp
      simpa using hdigit
    simp [encodeBE_succ, hbyte, ih hlow]

/-- Writing a word that was read returns the bytes it was read from. -/
theorem encodeBE_decodeBE (bs : List UInt8) : encodeBE bs.length (decodeBE bs) = bs := by
  induction bs with
  | nil => rfl
  | cons b bs ih =>
    have hlt := decodeBE_lt bs
    have hhead : (b.toNat * 256 ^ bs.length + decodeBE bs) / 256 ^ bs.length = b.toNat := by
      rw [add_comm, Nat.add_mul_div_right _ _ (by positivity), Nat.div_eq_of_lt hlt, zero_add]
    have htail : encodeBE bs.length (b.toNat * 256 ^ bs.length + decodeBE bs) =
        encodeBE bs.length (decodeBE bs) := by
      apply encodeBE_congr
      rw [add_comm, Nat.add_mul_mod_self_right]
    simp only [List.length_cons, encodeBE_succ, decodeBE_cons, hhead, htail, ih]
    simp

theorem decodeBE_eq_zero {bs : List UInt8} : decodeBE bs = 0 ↔ ∀ b ∈ bs, b = 0 := by
  induction bs with
  | nil => simp [decodeBE_nil]
  | cons b bs ih =>
    rw [List.forall_mem_cons, ← ih, ← UInt8.toNat_inj]
    simp [decodeBE_cons]

inductive ByteOrder where
  | littleEndian
  | bigEndian
  deriving DecidableEq, Repr

namespace ByteOrder

def load : ByteOrder → List UInt8 → ℕ
  | .littleEndian, bs => decodeBE bs.reverse
  | .bigEndian, bs => decodeBE bs

def store : ByteOrder → ℕ → ℕ → List UInt8
  | .littleEndian, w, n => (encodeBE w n).reverse
  | .bigEndian, w, n => encodeBE w n

def swap (w n : ℕ) : ℕ := decodeBE (encodeBE w n).reverse

theorem load_lt (o : ByteOrder) (bs : List UInt8) : o.load bs < 256 ^ bs.length := by
  cases o with
  | littleEndian => simpa [load] using decodeBE_lt bs.reverse
  | bigEndian => exact decodeBE_lt bs

theorem load_store (o : ByteOrder) (w n : ℕ) : o.load (o.store w n) = n % 256 ^ w := by
  cases o with
  | littleEndian => rw [load, store, List.reverse_reverse, decodeBE_encodeBE]
  | bigEndian => exact decodeBE_encodeBE w n

@[simp] theorem length_store (o : ByteOrder) (w n : ℕ) : (o.store w n).length = w := by
  cases o <;> simp [store]

theorem load_eq_zero {o : ByteOrder} {bs : List UInt8} : o.load bs = 0 ↔ ∀ b ∈ bs, b = 0 := by
  cases o <;> simp [load, decodeBE_eq_zero]

/-- A load followed by a swap on little-endian hosts reads the network word. -/
def loadSwapped (o : ByteOrder) (bs : List UInt8) : ℕ :=
  if o = .littleEndian then swap bs.length (o.load bs) else o.load bs

/-- A store preceded by a swap on little-endian hosts writes the network word. -/
def storeSwapped (o : ByteOrder) (w n : ℕ) : List UInt8 :=
  o.store w (if o = .littleEndian then swap w n else n)

@[simp] theorem loadSwapped_eq (o : ByteOrder) (bs : List UInt8) :
    o.loadSwapped bs = decodeBE bs := by
  cases o with
  | littleEndian =>
    have h := encodeBE_decodeBE bs.reverse
    rw [List.length_reverse] at h
    simp [loadSwapped, load, swap, h]
  | bigEndian => simp [loadSwapped, load]

@[simp] theorem storeSwapped_eq (o : ByteOrder) (w n : ℕ) :
    o.storeSwapped w n = encodeBE w n := by
  cases o with
  | littleEndian =>
    have h := encodeBE_decodeBE (encodeBE w n).reverse
    rw [List.length_reverse, encodeBE_length] at h
    simp [storeSwapped, store, swap, h]
  | bigEndian => simp [storeSwapped, store]

end ByteOrder
end ACENetwork.Library
