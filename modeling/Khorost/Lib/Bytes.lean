import Mathlib.Algebra.Ring.Nat
import Mathlib.Data.List.Basic

namespace Bytes

/-- Reads a byte string whose least significant byte comes first. -/
def leValue : List UInt8 → Nat
  | [] => 0
  | b :: bs => b.toNat + 256 * leValue bs

/-- The `count` low bytes of a number, least significant byte first. -/
def leBytes : Nat → Nat → List UInt8
  | 0, _ => []
  | count + 1, n => UInt8.ofNat n :: leBytes count (n / 256)

@[simp] theorem le_bytes_length (count n : Nat) : (leBytes count n).length = count := by
  induction count generalizing n with
  | zero => rfl
  | succ count ih => simp [leBytes, ih]

theorem le_value_lt (bs : List UInt8) : leValue bs < 256 ^ bs.length := by
  induction bs with
  | nil => simp [leValue]
  | cons b bs ih =>
    have hb := b.toNat_lt
    simp only [leValue, List.length_cons, Nat.pow_succ]
    omega

/-- Writing and reading back keeps the bytes that were written. -/
theorem le_value_bytes (count n : Nat) : leValue (leBytes count n) = n % 256 ^ count := by
  induction count generalizing n with
  | zero => simp [leBytes, leValue, Nat.mod_one]
  | succ count ih =>
    have hp : 256 ^ (count + 1) = 256 * 256 ^ count := Nat.pow_succ'
    rw [leBytes, leValue, ih, UInt8.toNat_ofNat', hp]
    exact Nat.mod_mul.symm

/-- A byte string is the representation of its own value at its own length. -/
theorem le_bytes_value (bs : List UInt8) : leBytes bs.length (leValue bs) = bs := by
  induction bs with
  | nil => rfl
  | cons b bs ih =>
    have hb := b.toNat_lt
    have hlow : UInt8.ofNat (b.toNat + 256 * leValue bs) = b := by
      apply UInt8.toNat_inj.mp
      rw [UInt8.toNat_ofNat']
      omega
    have hhigh : (b.toNat + 256 * leValue bs) / 256 = leValue bs := by omega
    simp only [List.length_cons, leValue, leBytes, hlow, hhigh, ih]

/-- Turns the bytes of a number of the given width around. -/
def swap (count n : Nat) : Nat := leValue (leBytes count n).reverse

theorem swap_lt (count n : Nat) : swap count n < 256 ^ count := by
  simpa [swap] using le_value_lt (leBytes count n).reverse

theorem le_bytes_swap (count n : Nat) : leBytes count (swap count n) = (leBytes count n).reverse := by
  have h := le_bytes_value (leBytes count n).reverse
  rwa [List.length_reverse, le_bytes_length] at h

/-- A number survives the turn exactly when its bytes read the same both ways. -/
theorem swap_eq_iff (h : n < 256 ^ count) :
    swap count n = n ↔ (leBytes count n).reverse = leBytes count n := by
  constructor
  · intro he
    rw [← le_bytes_swap, he]
  · intro he
    rw [swap, he, le_value_bytes, Nat.mod_eq_of_lt h]

end Bytes
