import Mathlib.Algebra.Order.Ring.Rat
import Mathlib.Tactic.Positivity
import Sable.Number.Binary
import Sable.Proofs.Numbers.Unpacked

/-!
# Whole numbers among the doubles

`IsWhole`: a double is a whole number by its parts (`Parts.value?`). Below `2 ^ 53` sums, products and
comparisons are exact; zero may have either sign.
-/

namespace Sable.Number

open Float.Model Float.Model.UnpackedFloat

/-! ### The parts of a double -/

def signBit : Sign → Bool
  | .negative => true
  | .positive => false

def Parts.ofUnpacked : UnpackedFloat → Parts
  | .notANumber => .nan
  | .infinity s => .infinite (signBit s)
  | .zero s => .finite (signBit s) 0 (-1074)
  | .finite s m e _ => .finite (signBit s) m e

theorem toNat_unpackExponent (b : BitVec 64) :
    (@unpackExponent .binary64 b).toNat = b.toNat / 2 ^ 52 % 2 ^ 11 := by
  show (b.extractLsb' 52 11).toNat = _
  rw [BitVec.extractLsb'_toNat, Nat.shiftRight_eq_div_pow]

theorem toNat_unpackMantissa (b : BitVec 64) :
    (@unpackMantissa .binary64 b).toNat = b.toNat % 2 ^ 52 := by
  show (b.extractLsb' 0 52).toNat = _
  rw [BitVec.extractLsb'_toNat, Nat.shiftRight_zero]

theorem signBit_unpackSign (b : BitVec 64) :
    signBit (Sign.ofBitVec (@unpackSign .binary64 b)) = (b.toNat / 2 ^ 63 % 2 == 1) := by
  have : (@unpackSign .binary64 b).toNat = b.toNat / 2 ^ 63 % 2 := by
    show (b.extractLsb' 63 1).toNat = _
    rw [BitVec.extractLsb'_toNat, Nat.shiftRight_eq_div_pow]
  rw [← this]
  generalize (@unpackSign .binary64 b) = v
  revert v
  decide

/-- Both readings of the bits agree. -/
theorem Parts.of_eq (x : Float) : Parts.of x = .ofUnpacked x.toModel.unpack := by
  obtain ⟨b, hb⟩ : ∃ b : BitVec 64, x.toModel.toBits.toBitVec = b := ⟨_, rfl⟩
  have hbits : x.toBits.toNat = b.toNat := by
    rw [← hb]
    rfl
  have hparts : Parts.of x = .ofBits b.toNat := by rw [Parts.of, hbits]
  have hones : ∀ E : BitVec 11, E = -1#11 ↔ E.toNat = 2047 := fun E => BitVec.toNat_inj.symm
  have hzero : ∀ {w : Nat} (M : BitVec w), M = 0#w ↔ M.toNat = 0 := fun M => by
    rw [← BitVec.toNat_inj, BitVec.toNat_zero]
  show _ = Parts.ofUnpacked (UnpackedFloat.unpack .binary64 x.toModel.toBits.toBitVec)
  rw [hparts, hb, Parts.ofBits]
  simp only [Nat.pow_eq, ← toNat_unpackExponent, ← toNat_unpackMantissa, ← signBit_unpackSign]
  -- the exponent of all ones, then that of zeros, then the normal numbers
  by_cases hE : @unpackExponent .binary64 b = -1#11
  · rw [if_pos ((hones _).1 hE)]
    by_cases hM : @unpackMantissa .binary64 b = 0#52
    · have hunpack : UnpackedFloat.unpack .binary64 b = .infinity _ := (if_pos hE).trans (if_pos hM)
      rw [if_pos ((hzero _).1 hM), hunpack]
      rfl
    · have hunpack : UnpackedFloat.unpack .binary64 b = .notANumber :=
        (if_pos hE).trans (if_neg hM)
      rw [if_neg (mt (hzero _).2 hM), hunpack]
      rfl
  · rw [if_neg (mt (hones _).2 hE)]
    by_cases hE₀ : @unpackExponent .binary64 b = 0#11
    · rw [if_pos ((hzero _).1 hE₀)]
      by_cases hM : @unpackMantissa .binary64 b = 0#52
      · have hunpack : UnpackedFloat.unpack .binary64 b = .zero _ :=
          ((if_neg hE).trans (if_pos hE₀)).trans (dif_pos hM)
        rw [(hzero _).1 hM, hunpack]
        rfl
      · have hunpack : UnpackedFloat.unpack .binary64 b = .finite _ _ _ _ :=
          ((if_neg hE).trans (if_pos hE₀)).trans (dif_neg hM)
        rw [hunpack, hE₀]
        rfl
    · obtain ⟨_, hunpack⟩ := unpack_normal hE hE₀
      rw [if_neg (mt (hzero _).2 hE₀), hunpack]
      show _ = Parts.finite _ (1#1 ++ @unpackMantissa .binary64 b).toNat _
      rw [toNat_leading]

/-- The mantissa has 53 places, or fewer where the exponent is the least. -/
theorem Parts.finite_cases {x : Float} {negative : Bool} {m : Nat} {e : Int}
    (h : Parts.of x = .finite negative m e) :
    (m < 2 ^ 52 ∧ e = -1074) ∨ (2 ^ 52 ≤ m ∧ m < 2 ^ 53 ∧ -1074 ≤ e) := by
  have hlt : x.toBits.toNat % 2 ^ 52 < 2 ^ 52 := Nat.mod_lt _ (Nat.two_pow_pos 52)
  unfold Parts.of Parts.ofBits at h
  simp only [Nat.pow_eq] at h
  split at h
  · split at h <;> cases h
  · split at h <;> cases h
    · exact .inl ⟨hlt, rfl⟩
    · exact .inr ⟨by omega, by omega, by omega⟩

/-- The number that a finite double is. -/
def Parts.value? : Parts → Option ℚ
  | .finite negative mantissa exponent =>
    some ((if negative then -(mantissa : ℚ) else mantissa) * 2 ^ exponent)
  | .infinite _ | .nan => none

/-- A double is a whole number. -/
def IsWhole (x : Float) (n : Int) : Prop :=
  (Parts.of x).value? = some (n : ℚ)

theorem mul_zpow_neg_eq_iff (m p k : Nat) : (m : ℚ) * 2 ^ (-(k : Int)) = p ↔ m = p * 2 ^ k := by
  rw [zpow_neg, zpow_natCast, ← div_eq_mul_inv, div_eq_iff (by positivity)]
  exact_mod_cast Iff.rfl

theorem Parts.value_zero (s : Sign) : (Parts.ofUnpacked (.zero s)).value? = some 0 := by
  show some ((if signBit s then -((0 : Nat) : ℚ) else (0 : Nat)) * 2 ^ (-1074 : Int)) = some 0
  simp

theorem Parts.value_finite (s : Sign) (m : Nat) (e : Int) (hm : 0 < m) :
    (Parts.ofUnpacked (.finite s m e hm)).value? = some ((s.apply 1 : ℚ) * (m * 2 ^ e)) := by
  cases s with
  | negative =>
    show some (-(m : ℚ) * 2 ^ e) = some (((-1 : Int) : ℚ) * (m * 2 ^ e))
    simp
  | positive =>
    show some ((m : ℚ) * 2 ^ e) = some (((1 : Int) : ℚ) * (m * 2 ^ e))
    simp

theorem Denotes.value_eq {u : UnpackedFloat} {n : Int} (h : Denotes u n) :
    (Parts.ofUnpacked u).value? = some (n : ℚ) := by
  cases h with
  | zero s => rw [Parts.value_zero, Int.cast_zero]
  | @finite s p hp hlt =>
    have hlog := log2_le hp hlt
    have hexponent : (p.log2 : Int) - 52 = -((52 - p.log2 : Nat) : Int) := by omega
    rw [Parts.value_finite, hexponent, (mul_zpow_neg_eq_iff _ p _).2 rfl]
    cases s <;> simp [Sign.apply]

/-- The parts of a whole number below `2 ^ 53` are determined. -/
theorem Parts.eq_aligned {m p : Nat} {e : Int} (hp : 0 < p) (hlt : p < 2 ^ 53)
    (hm : (m < 2 ^ 52 ∧ e = -1074) ∨ (2 ^ 52 ≤ m ∧ m < 2 ^ 53 ∧ -1074 ≤ e))
    (hsize : (m : ℚ) * 2 ^ e = p) : m = p * 2 ^ (52 - p.log2) ∧ e = p.log2 - 52 := by
  have hlog := log2_le hp hlt
  -- a negative exponent has shifted the number to the left; any other leaves no room for a shift
  rcases Int.le_total e 0 with hneg | hpos
  · obtain ⟨k, rfl⟩ := Int.exists_eq_neg_ofNat hneg
    have hk : m = p * 2 ^ k := (mul_zpow_neg_eq_iff m p k).1 hsize
    have hm' : 2 ^ 52 ≤ m ∧ m < 2 ^ 53 := by
      rcases hm with ⟨hsmall, he⟩ | ⟨hle, hlt, -⟩
      · have hpow : 2 ^ 52 ≤ 2 ^ k := Nat.pow_le_pow_right (by decide) (by omega)
        have : 2 ^ k ≤ m := hk ▸ Nat.le_mul_of_pos_left (2 ^ k) hp
        omega
      · exact ⟨hle, hlt⟩
    have hlog' : m.log2 = 52 := (Nat.log2_eq_iff (by omega)).2 hm'
    have hsum : p.log2 + k = 52 := by rw [← log2_mul_two_pow hp, ← hk, hlog']
    have hsub : 52 - p.log2 = k := by omega
    exact ⟨by rw [hsub, hk], by omega⟩
  · obtain ⟨k, rfl⟩ := Int.eq_ofNat_of_zero_le hpos
    have hk : m * 2 ^ k = p := by exact_mod_cast hsize
    have hm' : 2 ^ 52 ≤ m ∧ m < 2 ^ 53 := by omega
    have hlog' : m.log2 = 52 := (Nat.log2_eq_iff (by omega)).2 hm'
    have hsum : p.log2 = 52 + k := by rw [← hk, log2_mul_two_pow (by omega), hlog']
    obtain rfl : k = 0 := by omega
    rw [Nat.pow_zero, Nat.mul_one] at hk
    exact ⟨by rw [hsum, hk, Nat.sub_self, Nat.pow_zero, Nat.mul_one], by omega⟩

/-- A double that is a whole number is zero or has the sign of the number. -/
theorem IsWhole.unpack_cases {x : Float} {n : Int} (h : IsWhole x n) :
    (n = 0 ∧ ∃ s, x.toModel.unpack = .zero s) ∨
      ∃ s p m e hm, n = s.apply p ∧ 0 < p ∧ x.toModel.unpack = .finite s m e hm ∧
        (m : ℚ) * 2 ^ e = (p : Nat) := by
  rw [IsWhole, Parts.of_eq] at h
  cases hu : x.toModel.unpack with
  | notANumber | infinity s =>
    rw [hu] at h
    cases h
  | zero s =>
    rw [hu, Parts.value_zero, Option.some.injEq] at h
    exact .inl ⟨by exact_mod_cast h.symm, s, rfl⟩
  | finite s m e hm =>
    rw [hu, Parts.value_finite, Option.some.injEq] at h
    -- the mantissa is positive, so the sign is that of the number
    have hsize : (m : ℚ) * 2 ^ e = s.apply n := by
      cases s with
      | negative =>
        show _ = ((-n : Int) : ℚ)
        rw [Int.cast_neg, ← h]
        simp [Sign.apply]
      | positive => simpa [Sign.apply] using h
    have hpos : 0 < s.apply n := by
      have : (0 : ℚ) < s.apply n := hsize ▸ mul_pos (Nat.cast_pos.2 hm) (zpow_pos two_pos e)
      exact_mod_cast this
    have hnat : ((s.apply n).toNat : Int) = s.apply n := Int.toNat_of_nonneg (Int.le_of_lt hpos)
    refine .inr ⟨s, (s.apply n).toNat, m, e, hm, ?_, by omega, rfl, ?_⟩
    · rw [hnat]
      cases s with
      | negative => exact (Int.neg_neg n).symm
      | positive => rfl
    · rw [hsize, ← hnat]
      rfl

/-! ### Comparisons -/

section

variable (x y : Float)

theorem beq_iff_compare :
    (x == y) = true ↔ x.toModel.unpack.compare y.toModel.unpack = some .eq := by
  show (x.toModel.unpack.compare y.toModel.unpack == some .eq) = true ↔ _
  rw [beq_iff_eq]

theorem lt_iff_compare : x < y ↔ x.toModel.unpack.compare y.toModel.unpack = some .lt := by
  show decide (x.toModel < y.toModel) = true ↔ _
  rw [decide_eq_true_eq]
  show (x.toModel.unpack.compare y.toModel.unpack == some .lt) = true ↔ _
  rw [beq_iff_eq]

theorem le_iff_compare :
    x ≤ y ↔ (x.toModel.unpack.compare y.toModel.unpack).any Ordering.isLE = true := by
  show decide (x.toModel ≤ y.toModel) = true ↔ _
  rw [decide_eq_true_eq]
  rfl

end

theorem denotes_of_pack {u : UnpackedFloat} {n : Int} (h : Denotes u n) :
    Denotes (Float.Model.pack u).unpack n := by
  rw [h.unpack_pack]
  exact h

/-- A number is read as one with no decimal places, times the power of ten that moves none. -/
theorem denotes_ofNat {n : Nat} (hn : n < 2 ^ 53) : Denotes (Float.ofNat n).toModel.unpack n := by
  have hscientific : Float.ofNat n = n.toUInt64.toFloat * Float.ofBits 4607182418800017408 := by
    show Float.ofScientific n false 0 = _
    rw [Float.ofScientific, dif_pos ⟨hn, by decide⟩]
    rfl
  have hread : Denotes n.toUInt64.toFloat.toModel.unpack n := by
    have hnat : n.toUInt64.toNat = n := by
      rw [Nat.toUInt64_eq, UInt64.toNat_ofNat']
      omega
    have h := normalize_whole (n := n) hn 0 .positive
    rw [Int.pow_zero, Int.mul_one] at h
    refine denotes_of_pack ?_
    show Denotes (UnpackedFloat.normalize _ (n.toUInt64.toNat : Int) 0 .positive) n
    rwa [hnat]
  have hone : Denotes (Float.ofBits 4607182418800017408).toModel.unpack 1 :=
    .finite .positive (p := 1) (by decide) (by decide)
  have hproduct := hread.mul hone (by omega)
  rw [Int.mul_one] at hproduct
  rw [hscientific]
  exact denotes_of_pack hproduct

theorem isWhole_iff {x : Float} {n : Int} (hn : n.natAbs < 2 ^ 53) :
    IsWhole x n ↔ Denotes x.toModel.unpack n := by
  refine ⟨fun h => ?_, fun h => ?_⟩
  · obtain ⟨rfl, s, hu⟩ | ⟨s, p, m, e, hm, rfl, hp, hu, hsize⟩ := h.unpack_cases
    · rw [hu]
      exact .zero s
    · rw [natAbs_apply, Int.natAbs_natCast] at hn
      have hparts : Parts.of x = .finite (signBit s) m e :=
        (Parts.of_eq x).trans (congrArg Parts.ofUnpacked hu)
      obtain ⟨rfl, rfl⟩ := Parts.eq_aligned hp hn (Parts.finite_cases hparts) hsize
      rw [hu]
      exact .finite s hp hn
  · rw [IsWhole, Parts.of_eq]
    exact h.value_eq

theorem isWhole_ofNat {n : Nat} (hn : n < 2 ^ 53) : IsWhole (Float.ofNat n) n :=
  (isWhole_iff (n := n) hn).2 (denotes_ofNat hn)

namespace IsWhole

variable {x y : Float} {a b : Int} (hx : IsWhole x a) (hy : IsWhole y b)
  (ha : a.natAbs < 2 ^ 53) (hb : b.natAbs < 2 ^ 53)
include hx hy ha hb

theorem add (h : (a + b).natAbs < 2 ^ 53) : IsWhole (x + y) (a + b) :=
  (isWhole_iff h).2 (denotes_of_pack (((isWhole_iff ha).1 hx).add ((isWhole_iff hb).1 hy) h))

theorem mul (h : (a * b).natAbs < 2 ^ 53) : IsWhole (x * y) (a * b) :=
  (isWhole_iff h).2 (denotes_of_pack (((isWhole_iff ha).1 hx).mul ((isWhole_iff hb).1 hy) h))

theorem compare_eq : x.toModel.unpack.compare y.toModel.unpack = some (compare a b) :=
  ((isWhole_iff ha).1 hx).compare_eq ((isWhole_iff hb).1 hy)

theorem lt_iff : x < y ↔ a < b := by
  rw [lt_iff_compare, compare_eq hx hy ha hb, Option.some.injEq, Int.compare_eq_lt]

theorem le_iff : x ≤ y ↔ a ≤ b := by
  rw [le_iff_compare, compare_eq hx hy ha hb, Option.any_some, Int.isLE_compare]

end IsWhole

theorem unpack_zero : (0 : Float).toModel.unpack = .zero .positive :=
  rfl

/-! Next to zero the size of a whole number makes no difference. -/

namespace IsWhole

variable {x : Float} {a : Int} (hx : IsWhole x a)
include hx

theorem pos_iff : 0 < x ↔ 0 < a := by
  rw [lt_iff_compare, unpack_zero]
  obtain ⟨rfl, s, hu⟩ | ⟨s, p, m, e, hm, rfl, hp, hu, -⟩ := hx.unpack_cases
  · rw [hu]
    show some Ordering.eq = some .lt ↔ (0 : Int) < 0
    simp
  · rw [hu]
    cases s with
    | negative =>
      show some Ordering.gt = some .lt ↔ 0 < -(p : Int)
      simp
    | positive =>
      show some Ordering.lt = some .lt ↔ 0 < (p : Int)
      simpa using hp

theorem beq_zero_iff : (x == 0) = true ↔ a = 0 := by
  rw [beq_iff_compare, unpack_zero]
  obtain ⟨rfl, s, hu⟩ | ⟨s, p, m, e, hm, rfl, hp, hu, -⟩ := hx.unpack_cases
  · rw [hu]
    show some Ordering.eq = some .eq ↔ (0 : Int) = 0
    simp
  · rw [hu]
    have hne : p ≠ 0 := Nat.ne_of_gt hp
    cases s with
    | negative =>
      show some Ordering.lt = some .eq ↔ -(p : Int) = 0
      simpa using hne
    | positive =>
      show some Ordering.gt = some .eq ↔ (p : Int) = 0
      simpa using hne

theorem zero_mul : IsWhole (0 * x) 0 := by
  refine (isWhole_iff (by decide)).2 (denotes_of_pack ?_)
  rw [unpack_zero]
  obtain ⟨rfl, s, hu⟩ | ⟨s, p, m, e, hm, rfl, hp, hu, -⟩ := hx.unpack_cases
  · rw [hu]
    exact .zero (.positive * s)
  · rw [hu]
    exact .zero (.positive * s)

end IsWhole

end Sable.Number
