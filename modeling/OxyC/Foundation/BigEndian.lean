import Mathlib.Algebra.Order.Ring.Nat
import Mathlib.Data.List.Basic

/-!
# Big-endian fields

Unsigned numbers as fixed-width byte strings, most significant byte first.
-/

namespace OxyC.Foundation

def toBytes : Nat → Nat → List UInt8
  | 0, _ => []
  | k + 1, n => UInt8.ofNat (n / 256 ^ k) :: toBytes k n

def ofBytes : List UInt8 → Nat
  | [] => 0
  | b :: bytes => 256 ^ bytes.length * b.toNat + ofBytes bytes

@[simp] theorem length_toBytes (k n : Nat) : (toBytes k n).length = k := by
  induction k with
  | zero => rfl
  | succ k ih => simp [toBytes, ih]

theorem ofBytes_toBytes (k n : Nat) : ofBytes (toBytes k n) = n % 256 ^ k := by
  induction k with
  | zero => simp [toBytes, ofBytes, Nat.mod_one]
  | succ k ih =>
      have hbyte : (UInt8.ofNat (n / 256 ^ k)).toNat = n / 256 ^ k % 256 := UInt8.toNat_ofNat'
      have hsplit : n % 256 ^ (k + 1) = n % 256 ^ k + 256 ^ k * (n / 256 ^ k % 256) :=
        Nat.mod_pow_succ
      rw [toBytes, ofBytes, ih, length_toBytes, hbyte, hsplit]
      exact Nat.add_comm _ _

theorem ofBytes_lt (bytes : List UInt8) : ofBytes bytes < 256 ^ bytes.length := by
  induction bytes with
  | nil => simp [ofBytes]
  | cons b bytes ih =>
      have hbyte : b.toNat ≤ 255 := Nat.le_of_lt_succ b.toNat_lt
      have hproduct := Nat.mul_le_mul_left (256 ^ bytes.length) hbyte
      rw [ofBytes, List.length_cons, Nat.pow_succ]
      omega

theorem ofBytes_toBytes_of_lt {k n : Nat} (h : n < 256 ^ k) : ofBytes (toBytes k n) = n := by
  rw [ofBytes_toBytes, Nat.mod_eq_of_lt h]

theorem ofBytes_take_append {k n : Nat} (h : n < 256 ^ k) (rest : List UInt8) :
    ofBytes ((toBytes k n ++ rest).take k) = n := by
  have htake : (toBytes k n ++ rest).take k = toBytes k n := by
    rw [List.take_append_of_le_length (by simp)]
    exact List.take_of_length_le (by simp)
  rw [htake, ofBytes_toBytes_of_lt h]

theorem drop_toBytes_append (k n : Nat) (rest : List UInt8) :
    (toBytes k n ++ rest).drop k = rest := by
  rw [List.drop_append_of_le_length (by simp), List.drop_of_length_le (by simp),
    List.nil_append]

end OxyC.Foundation
