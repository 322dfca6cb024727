import Daloy.Egress.IpMatch
import Mathlib.Algebra.Order.Ring.Nat

/-! # Ranges of addresses, bit by bit

What the masks of `src/ip-match.ts` do to the bits of an address.

* `bitsOf`: the bits of a list of bytes, the most significant first.
* `bitsOf_applyPrefixMask`: the bits behind the prefix are cleared and the others stay.
* `agree_iff`: two addresses agree when their first bits do.
* `compileCidrMatcher_eq_ok`: which ranges are compiled, and what of.
-/

namespace Daloy.Egress
set_option autoImplicit false

open Daloy.Unicode Daloy.Json

/-! ## Bits -/

def byteBits (b : UInt8) : List Bool := (List.range 8).map fun i => b.toNat.testBit (7 - i)

def bitsOf (bytes : List UInt8) : List Bool := bytes.flatMap byteBits

@[simp] theorem length_byteBits (b : UInt8) : (byteBits b).length = 8 := rfl

@[simp] theorem bitsOf_nil : bitsOf [] = [] := rfl

@[simp] theorem bitsOf_cons (b : UInt8) (bytes : List UInt8) :
    bitsOf (b :: bytes) = byteBits b ++ bitsOf bytes := rfl

@[simp] theorem length_bitsOf (bytes : List UInt8) : (bitsOf bytes).length = 8 * bytes.length := by
  induction bytes with
  | nil => rfl
  | cons b bytes ih =>
    rw [bitsOf_cons, List.length_append, ih, length_byteBits, List.length_cons]
    omega

theorem byteBits_injective {a b : UInt8} (h : byteBits a = byteBits b) : a = b := by
  apply UInt8.toNat_inj.mp
  apply Nat.eq_of_testBit_eq
  intro i
  by_cases hi : i < 8
  · have hmem : 7 - i ∈ List.range 8 := List.mem_range.mpr (by omega)
    have hbit := List.map_inj_left.mp h (7 - i) hmem
    have hindex : 7 - (7 - i) = i := by omega
    rwa [hindex] at hbit
  · have hbound : ∀ c : UInt8, c.toNat < 2 ^ i := fun c =>
      Nat.lt_of_lt_of_le c.toNat_lt (Nat.pow_le_pow_right (by omega) (by omega))
    rw [Nat.testBit_lt_two_pow (hbound a), Nat.testBit_lt_two_pow (hbound b)]

theorem bitsOf_injective {bytes bytes' : List UInt8} (hlength : bytes.length = bytes'.length)
    (h : bitsOf bytes = bitsOf bytes') : bytes = bytes' := by
  induction bytes generalizing bytes' with
  | nil => exact (List.eq_nil_of_length_eq_zero hlength.symm).symm
  | cons b bytes ih =>
    cases bytes' with
    | nil => cases hlength
    | cons b' bytes' =>
      obtain ⟨hbyte, hrest⟩ := List.append_inj h rfl
      rw [byteBits_injective hbyte, ih (Nat.succ.inj hlength) hrest]

/-! ## Masks -/

theorem testBit_mask {bits j : ℕ} (hpos : 0 < bits) (hbits : bits < 8) (hj : j < 8) :
    ((0xFF : UInt8) <<< UInt8.ofNat (8 - bits)).toNat.testBit j = decide (8 - bits ≤ j) := by
  have hall : ∀ bits : Fin 8, ∀ j : Fin 8, 0 < bits.val →
      ((0xFF : UInt8) <<< UInt8.ofNat (8 - bits)).toNat.testBit j =
        decide (8 - bits.val ≤ j.val) := by
    decide
  exact hall ⟨bits, hbits⟩ ⟨j, hj⟩ hpos

theorem byteBits_leading (bits : ℕ) (b : UInt8) :
    byteBits (leading bits b) = (byteBits b).take bits ++ List.replicate (8 - bits) false := by
  unfold leading
  split
  · rename_i hbits
    have hzero : 8 - bits = 0 := by omega
    rw [List.take_of_length_le (by rw [length_byteBits]; exact hbits), hzero, List.replicate_zero,
      List.append_nil]
  · rename_i hbits
    apply List.ext_getElem
    · simp
      omega
    · intro i hi hi'
      rw [length_byteBits] at hi
      split
      · rename_i hzero
        subst hzero
        simp [byteBits]
      · rename_i hzero
        have hmask := @testBit_mask bits (7 - i) (by omega) (by omega) (by omega)
        rw [List.getElem_append]
        simp only [byteBits, List.getElem_map, List.getElem_range, UInt8.toNat_and,
          Nat.testBit_and, hmask, List.length_take, List.getElem_take, List.getElem_replicate]
        split
        · rename_i hlt
          have hle : 8 - bits ≤ 7 - i := by simp at hlt; omega
          simp [hle]
        · rename_i hlt
          have hle : ¬ 8 - bits ≤ 7 - i := by simp at hlt; omega
          simp [hle]

theorem bitsOf_applyPrefixMask (bytes : List UInt8) (bits : ℕ) :
    bitsOf (applyPrefixMask bytes bits) =
      (bitsOf bytes).take bits ++ List.replicate (8 * bytes.length - bits) false := by
  induction bytes generalizing bits with
  | nil => simp [applyPrefixMask]
  | cons b bytes ih =>
    rw [applyPrefixMask, bitsOf_cons, bitsOf_cons, ih, byteBits_leading, List.take_append,
      length_byteBits, List.length_cons]
    by_cases hbits : 8 ≤ bits
    · have hzero : 8 - bits = 0 := by omega
      have hcount : 8 * bytes.length - (bits - 8) = 8 * (bytes.length + 1) - bits := by omega
      rw [hzero, hcount]
      simp
    · have hzero : bits - 8 = 0 := by omega
      have hcount : 8 * (bytes.length + 1) - bits = 8 - bits + 8 * bytes.length := by omega
      rw [hzero, hcount, List.replicate_add]
      simp

theorem length_applyPrefixMask (bytes : List UInt8) (bits : ℕ) :
    (applyPrefixMask bytes bits).length = bytes.length := by
  induction bytes generalizing bits with
  | nil => rfl
  | cons b bytes ih => rw [applyPrefixMask, List.length_cons, ih, List.length_cons]

theorem leading_eq_iff {bits : ℕ} {a b : UInt8} :
    leading bits a = leading bits b ↔ (byteBits a).take bits = (byteBits b).take bits := by
  constructor
  · intro h
    have hbits := congrArg byteBits h
    rw [byteBits_leading, byteBits_leading] at hbits
    exact (List.append_inj hbits (by simp)).1
  · intro h
    apply byteBits_injective
    rw [byteBits_leading, byteBits_leading, h]

theorem agree_iff {candidate expected : List UInt8} (hlength : candidate.length = expected.length)
    (bits : ℕ) : agree candidate expected bits = true ↔
      (bitsOf candidate).take bits = (bitsOf expected).take bits := by
  induction candidate generalizing expected bits with
  | nil =>
    rw [List.eq_nil_of_length_eq_zero hlength.symm]
    simp [agree]
  | cons b candidate ih =>
    cases expected with
    | nil => cases hlength
    | cons e expected =>
      have hrest := ih (Nat.succ.inj hlength) (bits - 8)
      rw [agree, bitsOf_cons, bitsOf_cons, List.take_append, List.take_append, length_byteBits,
        length_byteBits, Bool.or_eq_true, Bool.and_eq_true, beq_iff_eq, hrest, leading_eq_iff,
        decide_eq_true_eq]
      constructor
      · intro h
        obtain rfl | ⟨hbyte, hbytes⟩ := h
        · simp
        · rw [hbyte, hbytes]
      · intro h
        exact .inr (List.append_inj h (by simp))

/-! ## Ranges -/

/-- An IPv4-mapped address as the IPv4 address it stands for, any other as it is. -/
def unmapped (ip : ParsedIp) : ParsedIp :=
  if h : ip.family = .v6 ∧ ip.bytes.take 12 = List.replicate 10 0 ++ [0xFF, 0xFF] then
    { family := .v4
      bytes := ip.bytes.drop 12
      sized := by rw [List.length_drop, ip.sized, h.1]; rfl }
  else ip

def readAs (family : Family) (ip : ParsedIp) : ParsedIp := if family = .v4 then unmapped ip else ip

def InRange (net : ParsedIp) (bits : ℕ) (ip : ParsedIp) : Prop :=
  (readAs net.family ip).family = net.family ∧
    (bitsOf (readAs net.family ip).bytes).take bits = (bitsOf net.bytes).take bits

theorem normalizeFamily_eq (ip : ParsedIp) (family : Family) :
    normalizeFamily ip family =
      if (readAs family ip).family = family then some (readAs family ip).bytes else none := by
  obtain ⟨f, bytes, hsized⟩ := ip
  unfold normalizeFamily readAs unmapped
  cases f with
  | v4 => cases family <;> simp
  | v6 =>
    cases family with
    | v6 => simp
    | v4 =>
      by_cases hmapped : bytes.take 12 = List.replicate 10 0 ++ [0xFF, 0xFF]
      · simp [hmapped]
      · have hnot : ¬ (Family.v6 = Family.v6 ∧
            bytes.take 12 = List.replicate 10 0 ++ [0xFF, 0xFF]) := fun h => hmapped h.2
        rw [dif_neg hnot]
        simpa using hmapped

theorem matchesMatcher_iff (net : ParsedIp) (bits : ℕ) (ip : ParsedIp) :
    matchesMatcher ip
        { family := net.family, prefixBits := bits, bytes := applyPrefixMask net.bytes bits } = true ↔
      InRange net bits ip := by
  rw [matchesMatcher, normalizeFamily_eq, InRange]
  by_cases hfamily : (readAs net.family ip).family = net.family
  · have hlength : (readAs net.family ip).bytes.length =
        (applyPrefixMask net.bytes bits).length := by
      rw [length_applyPrefixMask, (readAs net.family ip).sized, hfamily, net.sized]
    have hbits : ((bitsOf net.bytes).take bits ++
        List.replicate (8 * net.bytes.length - bits) false).take bits =
          (bitsOf net.bytes).take bits := by
      rw [List.take_append, List.take_take, List.length_take, length_bitsOf, Nat.min_self,
        List.take_replicate]
      have hzero : min (bits - min bits (8 * net.bytes.length))
          (8 * net.bytes.length - bits) = 0 := by omega
      rw [hzero, List.replicate_zero, List.append_nil]
    rw [if_pos hfamily, and_iff_right hfamily]
    dsimp only
    rw [agree_iff hlength, bitsOf_applyPrefixMask, hbits]
  · rw [if_neg hfamily]
    simp [hfamily]

/-- The prefix that a pattern gives: all bits without a slash, the digits behind it otherwise. -/
def GivesPrefix (pattern : JsString) (total bits : ℕ) : Prop :=
  bits ≤ total ∧
    ((slash ∉ pattern ∧ bits = total) ∨
      ∃ digits, pattern = pattern.takeWhile (· ≠ slash) ++ slash :: digits ∧ digits ≠ [] ∧
        (∀ u ∈ digits, isDigit u = true) ∧ bits = decimal digits)

theorem compileCidrMatcher_eq_ok {pattern : JsString} {m : IpMatcher}
    (h : compileCidrMatcher pattern = .ok m) :
    ∃ net bits, parseIp (pattern.takeWhile (· ≠ slash)) = some net ∧
      GivesPrefix pattern (8 * net.family.size) bits ∧
      m = { family := net.family, prefixBits := bits, bytes := applyPrefixMask net.bytes bits } := by
  unfold compileCidrMatcher at h
  split at h
  · cases h
  · rename_i net hnet
    have hsplit : pattern.takeWhile (· ≠ slash) ++ pattern.dropWhile (· ≠ slash) = pattern :=
      List.takeWhile_append_dropWhile
    dsimp only at h
    split at h
    · rename_i hdrop
      refine ⟨net, _, hnet, ⟨Nat.le_refl _, .inl ⟨?_, rfl⟩⟩, (Except.ok.inj h).symm⟩
      intro hslash
      rw [List.dropWhile_eq_nil_iff] at hdrop
      simpa using hdrop slash hslash
    · rename_i u digits hdrop
      split at h
      · rename_i hdigits
        have hhead := List.head?_dropWhile_not (fun u => decide (u ≠ slash)) pattern
        rw [hdrop] at hhead
        have hu : u = slash := by simpa using hhead
        rw [hdrop, hu] at hsplit
        refine ⟨net, _, hnet, ⟨hdigits.2.2, .inr ⟨digits, hsplit.symm, hdigits.1, ?_, rfl⟩⟩,
          (Except.ok.inj h).symm⟩
        exact List.all_eq_true.mp hdigits.2.1
      · cases h

end Daloy.Egress
