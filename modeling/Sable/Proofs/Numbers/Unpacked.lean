import Mathlib.Algebra.Order.Ring.Int

/-!
# Unpacked doubles that are whole numbers

`Denotes`: an unpacked double stands for a whole number below `2 ^ 53`. Sums and products below that
bound are computed without rounding, and the order of the doubles is that of the numbers.
-/

namespace Sable.Number

open Float.Model Float.Model.UnpackedFloat

/-! ### Rounding where there is nothing to round -/

theorem log2_mul_two_pow {p : Nat} (hp : 0 < p) (j : Nat) : (p * 2 ^ j).log2 = p.log2 + j := by
  have hne : p * 2 ^ j ≠ 0 := Nat.ne_of_gt (Nat.mul_pos hp (Nat.two_pow_pos j))
  refine (Nat.log2_eq_iff hne).2 ⟨?_, ?_⟩
  · rw [Nat.pow_add]
    exact Nat.mul_le_mul_right _ (Nat.log2_self_le (Nat.ne_of_gt hp))
  · rw [Nat.add_right_comm, Nat.pow_add]
    exact Nat.mul_lt_mul_of_pos_right Nat.lt_log2_self (Nat.two_pow_pos j)

/-- Places that hold nothing are dropped without loss. -/
theorem shiftRight_exact (m j : Nat) :
    ExtendedMantissa.ofMantissaAndAccuracy (m * 2 ^ j) .exact >>> j =
      ExtendedMantissa.ofMantissaAndAccuracy m .exact := by
  induction j generalizing m with
  | zero =>
    rw [Nat.pow_zero, Nat.mul_one]
    rfl
  | succ j ih =>
    show (ExtendedMantissa.ofMantissaAndAccuracy (m * 2 ^ (j + 1)) .exact >>> j).shiftRightOne = _
    rw [Nat.pow_succ', ← Nat.mul_assoc, ih (m * 2)]
    simp [ExtendedMantissa.shiftRightOne, ExtendedMantissa.ofMantissaAndAccuracy]

theorem targetExponent_eq (m : Nat) (e : Int) :
    Format.binary64.targetExponent (totalExponent m e) = max (m.log2 + e - 52) (-1074) := by
  have hmin : Format.binary64.minExponent = -1074 := by decide
  have hbits : (Format.binary64.mantissaBits : Int) = 53 := by decide
  rw [Format.targetExponent, totalExponent, hmin, hbits]
  congr 1
  omega

theorem shiftToTargetExponent_exact {m : Nat} {e : Int} (hm : m.log2 = 52) (he : -1074 ≤ e) (j : Nat) :
    shiftToTargetExponent .binary64 (m * 2 ^ j) (e - j) .exact =
      (ExtendedMantissa.ofMantissaAndAccuracy m .exact, e) := by
  have hpos : 0 < m := Nat.pos_of_ne_zero fun h => by simp [h] at hm
  have htarget : (max (((m * 2 ^ j).log2 : Int) + (e - j) - 52) (-1074) - (e - j)).toNat = j := by
    rw [log2_mul_two_pow hpos, hm]
    omega
  rw [shiftToTargetExponent, targetExponent_eq, shiftToExponent, htarget]
  simp only [shiftRight_exact, Prod.mk.injEq, true_and]
  omega

/-- A number of 53 places is what it is rounded to, however many empty places follow. -/
theorem roundWithAccuracy_exact (s : Sign) {m : Nat} {e : Int} (hpos : 0 < m) (hm : m.log2 = 52)
    (he : -1074 ≤ e) (j : Nat) :
    roundWithAccuracy .binary64 s (m * 2 ^ j) (e - j) .exact = .finite s m e hpos := by
  have hagain := shiftToTargetExponent_exact hm he 0
  rw [Nat.pow_zero, Nat.mul_one, Int.natCast_zero, Int.sub_zero] at hagain
  have hround : (ExtendedMantissa.ofMantissaAndAccuracy m .exact).roundedMantissa = m := rfl
  rw [roundWithAccuracy, shiftToTargetExponent_exact hm he j]
  dsimp only
  rw [hround, hagain]
  exact dif_neg (Nat.ne_of_gt hpos)

/-! ### Packing and unpacking -/

theorem unpackSign_packComponents (s : Sign) (exponent : BitVec 11) (mantissa : BitVec 52) :
    Sign.ofBitVec (unpackSign (packComponents .binary64 s exponent mantissa)) = s := by
  show Sign.ofBitVec ((s.toBitVec ++ exponent ++ mantissa).extractLsb' 63 1) = s
  rw [BitVec.extractLsb'_append_eq_of_le (by decide), BitVec.extractLsb'_append_eq_of_le (by decide)]
  cases s <;> rfl

/-- The leading place of 53 is not written but implied. -/
theorem toNat_leading (mantissa : BitVec 52) : (1#1 ++ mantissa).toNat = 2 ^ 52 + mantissa.toNat := by
  rw [BitVec.toNat_append, ← Nat.shiftLeft_add_eq_or_of_lt mantissa.isLt, BitVec.toNat_ofNat,
    Nat.shiftLeft_eq]
  rfl

theorem toNat_leading_ofNat {m : Nat} (hpos : 0 < m) (hm : m.log2 = 52) :
    (1#1 ++ BitVec.ofNat 52 m).toNat = m := by
  obtain ⟨hle, hlt⟩ := (Nat.log2_eq_iff (Nat.ne_of_gt hpos)).1 hm
  rw [toNat_leading, BitVec.toNat_ofNat]
  omega

/-- The double that bits stand for, where the exponent is neither the least nor the greatest. -/
theorem unpack_normal {b : BitVec 64} (hones : @unpackExponent .binary64 b ≠ -1#11)
    (hzero : @unpackExponent .binary64 b ≠ 0#11) :
    ∃ hpos, UnpackedFloat.unpack .binary64 b =
      .finite (.ofBitVec (@unpackSign .binary64 b)) (1#1 ++ @unpackMantissa .binary64 b).toNat
        ((@unpackExponent .binary64 b).toNat - 1075) hpos :=
  ⟨_, (if_neg hones).trans (if_neg hzero)⟩

theorem unpack_pack_zero (s : Sign) : (Float.Model.pack (.zero s)).unpack = .zero s := by
  cases s <;> rfl

theorem unpack_pack_finite (s : Sign) {m : Nat} {e : Int} (hpos : 0 < m) (hm : m.log2 = 52)
    (hlow : -1074 ≤ e) (hhigh : e ≤ 971) :
    (Float.Model.pack (.finite s m e hpos)).unpack = .finite s m e hpos := by
  obtain ⟨b, hb⟩ : ∃ b : Nat, (e + 1023 + 52).toNat = b := ⟨_, rfl⟩
  have hpack : UnpackedFloat.pack .binary64 (.finite s m e hpos) =
      packComponents .binary64 s (BitVec.ofNat 11 b) (BitVec.ofNat 52 m) := by
    show (if 2 ^ 11 ≤ (e + 1023 + 52).toNat + 1 then _ else if m.log2 + 1 = 53 then _ else _) = _
    rw [if_neg (by omega), if_pos (by omega), ← hb]
    rfl
  have hexponent : (BitVec.ofNat 11 b).toNat = b := by
    rw [BitVec.toNat_ofNat]
    omega
  have hones : BitVec.ofNat 11 b ≠ -1#11 := fun h => by
    have := congrArg BitVec.toNat h
    rw [hexponent] at this
    simp at this
    omega
  have hzero : BitVec.ofNat 11 b ≠ 0#11 := fun h => by
    have := congrArg BitVec.toNat h
    rw [hexponent] at this
    simp at this
    omega
  obtain ⟨_, hunpack⟩ := unpack_normal (b := packComponents .binary64 s (.ofNat 11 b) (.ofNat 52 m))
    (unpackExponent_packComponents.trans_ne hones) (unpackExponent_packComponents.trans_ne hzero)
  show UnpackedFloat.unpack .binary64 (UnpackedFloat.pack .binary64 (.finite s m e hpos)) = _
  rw [hpack, hunpack, finite.injEq, unpackExponent_packComponents, unpackMantissa_packComponents,
    hexponent]
  exact ⟨unpackSign_packComponents .., toNat_leading_ofNat hpos hm, by omega⟩

/-! ### The unpacked forms of whole numbers -/

/-- An unpacked double stands for a whole number below `2 ^ 53`. -/
inductive Denotes : UnpackedFloat → Int → Prop
  | zero (s : Sign) : Denotes (.zero s) 0
  | finite (s : Sign) {p : Nat} (hp : 0 < p) (hlt : p < 2 ^ 53) :
      Denotes (.finite s (p * 2 ^ (52 - p.log2)) (p.log2 - 52) (Nat.mul_pos hp (Nat.two_pow_pos _)))
        (s.apply p)

section

variable {p : Nat} (hp : 0 < p) (hlt : p < 2 ^ 53)
include hp hlt

theorem log2_le : p.log2 ≤ 52 :=
  Nat.le_of_lt_succ ((Nat.log2_lt (Nat.ne_of_gt hp)).2 hlt)

theorem log2_aligned : (p * 2 ^ (52 - p.log2)).log2 = 52 := by
  have := log2_le hp hlt
  rw [log2_mul_two_pow hp]
  omega

/-- Rounding brings a whole number into its form, whatever places it was written with. -/
theorem roundWithAccuracy_whole (s : Sign) {m : Nat} {e : Int} {j : Nat} (hj : 52 - p.log2 ≤ j)
    (hm : m = p * 2 ^ j) (he : e = -j) :
    Denotes (roundWithAccuracy .binary64 s m e .exact) (s.apply p) := by
  have hlog := log2_le hp hlt
  have hmantissa : m = p * 2 ^ (52 - p.log2) * 2 ^ (j - (52 - p.log2)) := by
    rw [Nat.mul_assoc, ← Nat.pow_add, hm]
    congr 2
    omega
  have hexponent : e = ((p.log2 : Int) - 52) - (j - (52 - p.log2) : Nat) := by omega
  rw [hmantissa, hexponent, roundWithAccuracy_exact s (Nat.mul_pos hp (Nat.two_pow_pos _))
    (log2_aligned hp hlt) (by omega)]
  exact .finite s hp hlt

theorem round_whole (s : Sign) (k : Nat) :
    Denotes (UnpackedFloat.round .binary64 s (p * 2 ^ k) (-k)) (s.apply p) := by
  have hlog := log2_le hp hlt
  have htarget : Format.binary64.targetExponent (totalExponent (p * 2 ^ k) (-k)) = p.log2 - 52 := by
    rw [targetExponent_eq, log2_mul_two_pow hp]
    omega
  rw [UnpackedFloat.round, htarget]
  refine roundWithAccuracy_whole hp hlt s (j := k + (-k - ((p.log2 : Int) - 52)).toNat) (by omega) ?_ ?_
  · rw [Nat.shiftLeft_eq, Nat.mul_assoc, ← Nat.pow_add]
  · omega

end

theorem normalize_whole {n : Int} (hn : n.natAbs < 2 ^ 53) (k : Nat) (s : Sign) :
    Denotes (UnpackedFloat.normalize .binary64 (n * 2 ^ k) (-k) s) n := by
  have hpow : (0 : Int) < 2 ^ k := Int.pow_pos (by decide)
  have hnat : (n * 2 ^ k).natAbs = n.natAbs * 2 ^ k := by
    rw [Int.natAbs_mul, Int.natAbs_pow]
    rfl
  rw [UnpackedFloat.normalize]
  rcases Int.lt_trichotomy n 0 with hneg | rfl | hpos
  · have hlt : n * 2 ^ k < 0 := Int.mul_neg_of_neg_of_pos hneg hpow
    have hsize : (-(n * 2 ^ k)).toNat = n.natAbs * 2 ^ k := by omega
    rw [Int.compare_eq_lt.2 hlt]
    show Denotes (UnpackedFloat.round _ _ (-(n * 2 ^ k)).toNat _) n
    rw [hsize]
    have hround := round_whole (p := n.natAbs) (by omega) hn .negative k
    have hvalue : Sign.negative.apply n.natAbs = n := by
      show -(n.natAbs : Int) = n
      omega
    rwa [hvalue] at hround
  · rw [Int.zero_mul]
    exact .zero s
  · have hlt : 0 < n * 2 ^ k := Int.mul_pos hpos hpow
    have hsize : (n * 2 ^ k).toNat = n.natAbs * 2 ^ k := by omega
    rw [Int.compare_eq_gt.2 hlt]
    show Denotes (UnpackedFloat.round _ _ (n * 2 ^ k).toNat _) n
    rw [hsize]
    have hround := round_whole (p := n.natAbs) (by omega) hn .positive k
    have hvalue : Sign.positive.apply n.natAbs = n := by
      show (n.natAbs : Int) = n
      omega
    rwa [hvalue] at hround

/-! ### Signs -/

theorem apply_mul (s : Sign) (m n : Int) : s.apply m * n = s.apply (m * n) := by
  cases s with
  | negative => exact Int.neg_mul m n
  | positive => rfl

theorem apply_mul_apply (s t : Sign) (m n : Int) : s.apply m * t.apply n = (s * t).apply (m * n) := by
  cases s <;> cases t
  · exact Int.neg_mul_neg m n
  · exact Int.neg_mul m n
  · exact Int.mul_neg m n
  · rfl

theorem natAbs_apply (s : Sign) (n : Int) : (s.apply n).natAbs = n.natAbs := by
  cases s with
  | negative => exact Int.natAbs_neg n
  | positive => rfl

/-! ### Arithmetic -/

/-- Numbers are brought to a common exponent before they are added. -/
theorem decreaseExponent_whole {p K : Nat} (hp : 0 < p) (hlt : p < 2 ^ 53) (hK : 52 - p.log2 ≤ K) :
    (decreaseExponent (p * 2 ^ (52 - p.log2)) (p.log2 - 52) (-K)).1 = p * 2 ^ K := by
  have hlog := log2_le hp hlt
  show (p * 2 ^ (52 - p.log2)) <<< ((p.log2 : Int) - 52 - -K).toNat = _
  rw [Nat.shiftLeft_eq, Nat.mul_assoc, ← Nat.pow_add]
  congr 2
  omega

namespace Denotes

variable {u v : UnpackedFloat} {a b : Int}

theorem unpack_pack (h : Denotes u a) : (Float.Model.pack u).unpack = u := by
  cases h with
  | zero s => exact unpack_pack_zero s
  | finite s hp hlt =>
    have := log2_le hp hlt
    exact unpack_pack_finite s _ (log2_aligned hp hlt) (by omega) (by omega)

theorem add (hu : Denotes u a) (hv : Denotes v b) (hsum : (a + b).natAbs < 2 ^ 53) :
    Denotes (UnpackedFloat.add .binary64 u v) (a + b) := by
  cases hu with
  | zero s =>
    rw [Int.zero_add]
    cases hv with
    | zero t => cases s <;> cases t <;> exact .zero _
    | finite t hq hlt => exact .finite t hq hlt
  | @finite s p hp hplt =>
    cases hv with
    | zero t =>
      rw [Int.add_zero]
      exact .finite s hp hplt
    | @finite t q hq hqlt =>
      have hpl := log2_le hp hplt
      have hql := log2_le hq hqlt
      -- both are brought to the smaller exponent, where their mantissas add up
      obtain ⟨K, hK⟩ : ∃ K, max (52 - p.log2) (52 - q.log2) = K := ⟨_, rfl⟩
      have hmin : min ((p.log2 : Int) - 52) (q.log2 - 52) = -K := by omega
      have hscale : ∀ (s : Sign) (n : Nat), s.apply ((n * 2 ^ K : Nat) : Int) = s.apply n * 2 ^ K := by
        intro s n
        rw [apply_mul, Int.natCast_mul, Int.natCast_pow]
        rfl
      show Denotes (UnpackedFloat.normalize _ (s.apply (decreaseExponent _ _ (min _ _)).1 +
        t.apply (decreaseExponent _ _ (min _ _)).1) (min _ _) .positive) _
      rw [hmin, decreaseExponent_whole hp hplt (by omega), decreaseExponent_whole hq hqlt (by omega),
        hscale, hscale, ← Int.add_mul]
      exact normalize_whole hsum K .positive

theorem mul (hu : Denotes u a) (hv : Denotes v b) (hproduct : (a * b).natAbs < 2 ^ 53) :
    Denotes (UnpackedFloat.mul .binary64 u v) (a * b) := by
  cases hu with
  | zero s =>
    rw [Int.zero_mul]
    cases hv with
    | zero t => exact .zero (s * t)
    | finite t hq hlt => exact .zero (s * t)
  | @finite s p hp hplt =>
    cases hv with
    | zero t =>
      rw [Int.mul_zero]
      exact .zero (s * t)
    | @finite t q hq hqlt =>
      rw [apply_mul_apply, ← Int.natCast_mul] at hproduct ⊢
      rw [natAbs_apply, Int.natAbs_natCast] at hproduct
      have hpl := log2_le hp hplt
      have hql := log2_le hq hqlt
      have hlog : p.log2 ≤ (p * q).log2 :=
        (Nat.le_log2 (Nat.ne_of_gt (Nat.mul_pos hp hq))).2
          (Nat.le_trans (Nat.log2_self_le (Nat.ne_of_gt hp)) (Nat.le_mul_of_pos_right p hq))
      refine roundWithAccuracy_whole (Nat.mul_pos hp hq) hproduct (s * t)
        (j := (52 - p.log2) + (52 - q.log2)) (by omega) ?_ (by omega)
      rw [Nat.pow_add]
      exact Nat.mul_mul_mul_comm ..

end Denotes

/-! ### Order -/

theorem compare_neg_neg (m n : Int) : compare (-m) (-n) = (compare m n).swap := by
  rcases Int.lt_trichotomy m n with h | rfl | h
  · rw [Int.compare_eq_lt.2 h, Int.compare_eq_gt.2 (by omega), Ordering.swap_lt]
  · rw [Int.compare_eq_eq.2 rfl, Int.compare_eq_eq.2 rfl, Ordering.swap_eq]
  · rw [Int.compare_eq_gt.2 h, Int.compare_eq_lt.2 (by omega), Ordering.swap_gt]

/-- Of two aligned numbers the one with the larger exponent is larger. -/
theorem compare_aligned {p q : Nat} (hp : 0 < p) (hq : 0 < q) :
    (compare ((p.log2 : Int) - 52) (q.log2 - 52)).then
      (compare (p * 2 ^ (52 - p.log2)) (q * 2 ^ (52 - q.log2))) = compare (p : Int) q := by
  have hlt : ∀ {m n : Nat}, 0 < n → m.log2 < n.log2 → (m : Int) < n := fun {m n} hn hlog => by
    have h : 2 ^ (m.log2 + 1) ≤ n :=
      Nat.le_trans (Nat.pow_le_pow_right (by decide) hlog) (Nat.log2_self_le (Nat.ne_of_gt hn))
    exact Int.ofNat_lt.2 (Nat.lt_of_lt_of_le Nat.lt_log2_self h)
  rcases Nat.lt_trichotomy p.log2 q.log2 with h | h | h
  · rw [Int.compare_eq_lt.2 (hlt hq h), Int.compare_eq_lt.2 (by omega)]
    rfl
  · have hpow : 0 < 2 ^ (52 - q.log2) := Nat.two_pow_pos _
    rw [h, Int.compare_eq_eq.2 rfl, Ordering.eq_then]
    rcases Nat.lt_trichotomy p q with hpq | rfl | hpq
    · rw [Int.compare_eq_lt.2 (Int.ofNat_lt.2 hpq),
        Nat.compare_eq_lt.2 (Nat.mul_lt_mul_of_pos_right hpq hpow)]
    · rw [Int.compare_eq_eq.2 rfl, Nat.compare_eq_eq.2 rfl]
    · rw [Int.compare_eq_gt.2 (Int.ofNat_lt.2 hpq),
        Nat.compare_eq_gt.2 (Nat.mul_lt_mul_of_pos_right hpq hpow)]
  · rw [Int.compare_eq_gt.2 (hlt hp h), Int.compare_eq_gt.2 (by omega)]
    rfl

namespace Denotes

variable {u v : UnpackedFloat} {a b : Int}

theorem compare_eq (hu : Denotes u a) (hv : Denotes v b) : u.compare v = some (compare a b) := by
  have hless : ∀ {m n : Int}, m < n → some Ordering.lt = some (compare m n) := fun h => by
    rw [Int.compare_eq_lt.2 h]
  have hmore : ∀ {m n : Int}, n < m → some Ordering.gt = some (compare m n) := fun h => by
    rw [Int.compare_eq_gt.2 h]
  cases hu with
  | zero s =>
    cases hv with
    | zero t => rfl
    | @finite t q hq hqlt =>
      cases t with
      | negative => exact hmore (by show -(q : Int) < 0; omega)
      | positive => exact hless (by show (0 : Int) < q; omega)
  | @finite s p hp hplt =>
    cases hv with
    | zero t =>
      cases s with
      | negative => exact hless (by show -(p : Int) < 0; omega)
      | positive => exact hmore (by show (0 : Int) < p; omega)
    | @finite t q hq hqlt =>
      have haligned := compare_aligned hp hq
      cases s <;> cases t
      · show some (Ordering.swap _) = some (compare (-(p : Int)) (-q))
        rw [haligned, compare_neg_neg]
      · exact hless (by show -(p : Int) < q; omega)
      · exact hmore (by show -(q : Int) < p; omega)
      · exact congrArg some haligned

end Denotes

end Sable.Number
