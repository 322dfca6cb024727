import Mathlib.Data.Nat.Bitwise

/-! # Bitwise operators that work on 32 bits

The bitwise operators of a language whose numbers are doubles: the operands lose all but their low
32 bits, which are read as a signed integer. Nothing here mentions a program.

* `band_natCast`, `low_byte_shiftRight`, `shiftLeft_natCast`, `bor_natCast`: where an operator
  agrees with the one on natural numbers.
-/

namespace Daloy.Int32
set_option autoImplicit false

/-- `ToInt32`, on an integral number. -/
def toInt32 (n : ℤ) : BitVec 32 := BitVec.ofInt 32 n

/-- `a & b`. -/
def band (a b : ℤ) : ℤ := (toInt32 a &&& toInt32 b).toInt

/-- `a | b`. -/
def bor (a b : ℤ) : ℤ := (toInt32 a ||| toInt32 b).toInt

/-- `a << k`. -/
def shiftLeft (a : ℤ) (k : ℕ) : ℤ := (toInt32 a <<< (k % 32)).toInt

/-- `a >> k`. -/
def shiftRight (a : ℤ) (k : ℕ) : ℤ := ((toInt32 a).sshiftRight (k % 32)).toInt

/-- What a `Uint8Array` keeps of a number that is stored in it. -/
def toUint8 (n : ℤ) : UInt8 := ⟨BitVec.ofInt 8 n⟩

theorem toInt32_natCast (n : ℕ) : toInt32 n = BitVec.ofNat 32 n := BitVec.ofInt_natCast 32 n

theorem toInt32_toInt (x : BitVec 32) : toInt32 x.toInt = x := BitVec.ofInt_toInt

theorem toUint8_natCast (n : ℕ) : toUint8 n = UInt8.ofNat n := by
  rw [toUint8, BitVec.ofInt_natCast]
  rfl

theorem toInt_eq {x : BitVec 32} {n : ℕ} (hx : x.toNat = n) (hn : n < 0x80000000) :
    x.toInt = n := by
  rw [BitVec.toInt_eq_toNat_of_lt (by omega), hx]

theorem band_natCast (n : ℕ) {m : ℕ} (hm : m < 0x80000000) : band n m = (n &&& m : ℕ) := by
  have hle : n &&& m ≤ m := Nat.and_le_right
  rw [band, toInt32_natCast, toInt32_natCast]
  apply toInt_eq _ (by omega)
  rw [← BitVec.ofNat_and, BitVec.toNat_ofNat, Nat.mod_eq_of_lt (by omega)]

theorem testBit_byte {i : ℕ} (hi : 8 ≤ i) : Nat.testBit 0xff i = false :=
  Nat.testBit_lt_two_pow (Nat.lt_of_lt_of_le (by decide : 0xff < 2 ^ 8)
    (Nat.pow_le_pow_right (by decide) hi))

theorem low_byte_shiftRight (n : ℕ) {k : ℕ} (hk : k ≤ 24) :
    band (shiftRight n k) 0xff = ((n >>> k) &&& 0xff : ℕ) := by
  have hle : (n >>> k) &&& 0xff ≤ 0xff := Nat.and_le_right
  rw [band, shiftRight, toInt32_natCast, toInt32_toInt, Nat.mod_eq_of_lt (by omega)]
  apply toInt_eq _ (by omega)
  apply Nat.eq_of_testBit_eq
  intro i
  have hmask : (toInt32 0xff).getLsbD i = Nat.testBit 0xff i := by
    have hbits : toInt32 0xff = BitVec.ofNat 32 0xff := rfl
    rw [hbits, BitVec.getLsbD_ofNat]
    by_cases hi : i < 32
    · simp [hi]
    · rw [testBit_byte (by omega)]
      simp [hi]
  rw [BitVec.testBit_toNat, BitVec.getLsbD_and, BitVec.getLsbD_sshiftRight, hmask, Nat.testBit_and,
    Nat.testBit_shiftRight]
  by_cases hi : i < 8
  · rw [if_pos (by omega), BitVec.getLsbD_ofNat]
    simp [show k + i < 32 by omega, show ¬ 32 ≤ i by omega]
  · -- beyond the mask nothing is left on either side
    rw [testBit_byte (by omega), Bool.and_false, Bool.and_false]

theorem shiftLeft_natCast {n k : ℕ} (hk : k < 32) (hn : n <<< k < 0x80000000) :
    shiftLeft n k = (n <<< k : ℕ) := by
  rw [shiftLeft, toInt32_natCast, Nat.mod_eq_of_lt hk]
  apply toInt_eq _ hn
  rw [BitVec.toNat_shiftLeft, BitVec.toNat_ofNat, Nat.shiftLeft_eq, Nat.shiftLeft_eq,
    Nat.mod_mul_mod, ← Nat.shiftLeft_eq, Nat.mod_eq_of_lt (by omega)]

theorem bor_natCast {n m : ℕ} (hn : n < 0x80000000) (hm : m < 0x80000000) :
    bor n m = (n ||| m : ℕ) := by
  have hlt : n ||| m < 2 ^ 31 := Nat.or_lt_two_pow hn hm
  rw [bor, toInt32_natCast, toInt32_natCast]
  apply toInt_eq _ hlt
  rw [← BitVec.ofNat_or, BitVec.toNat_ofNat, Nat.mod_eq_of_lt (by omega)]

end Daloy.Int32
