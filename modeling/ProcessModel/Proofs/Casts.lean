import Mathlib.Algebra.Ring.Int.Defs
import Mathlib.Algebra.Ring.Nat
import Mathlib.Tactic.Common
import ProcessModel.Value

/-! Casting to an element type.

A value that is cast a second time stays as it is. For integers this is a fact about rounding: the
double nearest to an integer is an integer with at most 53 binary digits before its trailing zeros,
and such an integer is its own nearest double. -/

namespace ProcessModel

namespace Real64

open Float.Model Float.Model.UnpackedFloat

/-! ### Shifting -/

theorem shiftRight_succ (em : ExtendedMantissa) (k : Nat) :
    em >>> (k + 1) = (em >>> k).shiftRightOne := rfl

theorem mantissa_shiftRight (em : ExtendedMantissa) (k : Nat) :
    (em >>> k).mantissa = em.mantissa / 2 ^ k := by
  induction k with
  | zero => simp [HShiftRight.hShiftRight, Nat.repeat]
  | succ k ih =>
    rw [shiftRight_succ, ExtendedMantissa.shiftRightOne, ih, Nat.div_div_eq_div_mul, Nat.pow_succ]

theorem shiftRight_mul_two_pow (m k : Nat) :
    (⟨m * 2 ^ k, false, false⟩ : ExtendedMantissa) >>> k = ⟨m, false, false⟩ := by
  induction k generalizing m with
  | zero => simp [HShiftRight.hShiftRight, Nat.repeat]
  | succ k ih =>
    have hm : m * 2 ^ (k + 1) = m * 2 * 2 ^ k := by rw [Nat.pow_succ]; ac_rfl
    rw [shiftRight_succ, hm, ih]
    simp [ExtendedMantissa.shiftRightOne]

theorem roundedMantissa_bounds (em : ExtendedMantissa) :
    em.mantissa ≤ em.roundedMantissa ∧ em.roundedMantissa ≤ em.mantissa + 1 := by
  obtain ⟨m, r, s⟩ := em
  cases r <;> cases s <;>
    simp [ExtendedMantissa.roundedMantissa, ExtendedMantissa.accuracy, Accuracy.roundToNearestEven]
  omega

variable {m : Nat}

theorem log2_mul_two_pow (hm : 0 < m) (k : Nat) : (m * 2 ^ k).log2 = m.log2 + k := by
  induction k with
  | zero => simp
  | succ k ih =>
    have hpos : m * 2 ^ k ≠ 0 := Nat.ne_of_gt (Nat.mul_pos hm (Nat.two_pow_pos k))
    have hmul : m * 2 ^ (k + 1) = 2 * (m * 2 ^ k) := by rw [Nat.pow_succ]; ac_rfl
    rw [hmul, Nat.log2_two_mul hpos, ih, Nat.add_assoc]

/-! ### Rounding integers -/

variable {e : Int}

theorem targetExponent_eq (h : -1022 ≤ m.log2 + e) :
    Format.binary64.targetExponent (totalExponent m e) = m.log2 + e - 52 := by
  have hrange : Format.binary64.targetExponent (totalExponent m e) =
      max (m.log2 + 1 + e - 53) (-1074) := rfl
  omega

theorem shiftToTargetExponent_exact (h : -1022 ≤ m.log2 + e) :
    shiftToTargetExponent .binary64 m e .exact =
      ((⟨m, false, false⟩ : ExtendedMantissa) >>> (m.log2 - 52), e + (m.log2 - 52 : Nat)) := by
  have hshift : (m.log2 + e - 52 - e).toNat = m.log2 - 52 := by omega
  rw [shiftToTargetExponent, targetExponent_eq h, shiftToExponent, hshift]
  rfl

theorem shiftToTargetExponent_mul_two_pow (hm : m.log2 = 52) (hpos : 0 < m) (he : -1074 ≤ e)
    (k : Nat) :
    shiftToTargetExponent .binary64 (m * 2 ^ k) e .exact = (⟨m, false, false⟩, e + k) := by
  have hlog : (m * 2 ^ k).log2 = 52 + k := by rw [log2_mul_two_pow hpos, hm]
  rw [shiftToTargetExponent_exact (by omega), hlog, Nat.add_sub_cancel_left, shiftRight_mul_two_pow]

variable {v : Nat}

theorem roundWithAccuracy_eq {e' : Int} {em : ExtendedMantissa} {k : Nat} (s : Sign)
    (hv : shiftToTargetExponent .binary64 v e .exact = (em, e'))
    (hem : em.roundedMantissa = m * 2 ^ k) (hm : m.log2 = 52) (hpos : 0 < m) (he : -1074 ≤ e') :
    roundWithAccuracy .binary64 s v e .exact = .finite s m (e' + k) hpos := by
  rw [roundWithAccuracy, hv]
  dsimp only
  rw [hem, shiftToTargetExponent_mul_two_pow hm hpos he]
  exact dif_neg (Nat.ne_of_gt hpos)

/-- The nearest double of an integer of more than 53 digits. Rounding up may make a power of two of
the mantissa, which then is one digit longer. -/
theorem round_of_long (s : Sign) (hv : 52 < v.log2) :
    ∃ m k : Nat, ∃ hpos : 0 < m, m.log2 = 52 ∧ m * 2 ^ k ≤ 2 ^ 53 ∧ k ≤ 1 ∧
      UnpackedFloat.round .binary64 s v 0 = .finite s m ((v.log2 - 52 : Nat) + k) hpos := by
  have hv0 : v ≠ 0 := by
    rintro rfl
    simp at hv
  let em : ExtendedMantissa := (⟨v, false, false⟩ : ExtendedMantissa) >>> (v.log2 - 52)
  have hq : em.mantissa = v / 2 ^ (v.log2 - 52) := mantissa_shiftRight _ _
  have hlower : 2 ^ 52 ≤ em.mantissa := by
    rw [hq, Nat.le_div_iff_mul_le (Nat.two_pow_pos _), ← Nat.pow_add]
    rw [Nat.add_sub_cancel' (Nat.le_of_lt hv)]
    exact Nat.log2_self_le hv0
  have hupper : em.mantissa < 2 ^ 53 := by
    rw [hq, Nat.div_lt_iff_lt_mul (Nat.two_pow_pos _), ← Nat.pow_add]
    have hlog : 53 + (v.log2 - 52) = v.log2 + 1 := by omega
    rw [hlog]
    exact Nat.lt_log2_self
  have hshift : shiftToTargetExponent .binary64 v 0 .exact = (em, ((v.log2 - 52 : Nat) : Int)) := by
    rw [shiftToTargetExponent_exact (by omega), Int.zero_add]
  have hround : UnpackedFloat.round .binary64 s v 0 = roundWithAccuracy .binary64 s v 0 .exact := by
    have hleft : (0 - ((v.log2 : Int) + 0 - 52)).toNat = 0 := by omega
    rw [UnpackedFloat.round, targetExponent_eq (by omega), decreaseExponent, hleft]
    rfl
  have hbounds := roundedMantissa_bounds em
  rw [hround]
  by_cases hr : em.roundedMantissa < 2 ^ 53
  · have hpos : 0 < em.roundedMantissa := by omega
    refine ⟨em.roundedMantissa, 0, hpos, ?_, by omega, by decide, ?_⟩
    · exact (Nat.log2_eq_iff (by omega)).2 ⟨by omega, hr⟩
    · exact roundWithAccuracy_eq s hshift (by simp)
        ((Nat.log2_eq_iff (by omega)).2 ⟨by omega, hr⟩) hpos (by omega)
  · have hr' : em.roundedMantissa = 2 ^ 52 * 2 ^ 1 := by omega
    refine ⟨2 ^ 52, 1, by decide, Nat.log2_two_pow, Nat.le_refl _, Nat.le_refl _, ?_⟩
    exact roundWithAccuracy_eq s hshift hr' Nat.log2_two_pow (by decide) (by omega)

theorem ofBitVec_unpackSign (s : Sign) (exponent : BitVec 11) (mantissa : BitVec 52) :
    Sign.ofBitVec (unpackSign (packComponents .binary64 s exponent mantissa)) = s := by
  have hsign : unpackSign (packComponents .binary64 s exponent mantissa) = s.toBitVec := by
    show (s.toBitVec ++ exponent ++ mantissa).extractLsb' 63 1 = s.toBitVec
    rw [BitVec.extractLsb'_append_eq_of_le (by decide),
      BitVec.extractLsb'_append_eq_of_le (by decide)]
    cases s <;> rfl
  rw [hsign]
  cases s <;> rfl

theorem finite_congr {s : Sign} {n : Nat} {f : Int} {hm : 0 < m} {hn : 0 < n} (h : m = n)
    (he : e = f) : UnpackedFloat.finite s m e hm = .finite s n f hn := by
  subst h
  subst he
  rfl

/-- The bits of a normal number: its exponent is neither of the two that are set aside, and the
first digit of its mantissa is not among the bits. -/
theorem unpack_packComponents (s : Sign) {b : Nat} (hpos : 0 < b) (hlt : b < 2047)
    (hfull : m.log2 = 52) (hm : 0 < m) :
    UnpackedFloat.unpack .binary64
        (packComponents .binary64 s (BitVec.ofNat 11 b) (BitVec.ofNat 52 m)) =
      .finite s m (b - 1075) hm := by
  have hbits : (BitVec.ofNat 11 b).toNat = b := by
    rw [BitVec.toNat_ofNat]
    omega
  have hmantissa : (1#1 ++ BitVec.ofNat 52 m).toNat = m := by
    have hbounds := (Nat.log2_eq_iff (Nat.ne_of_gt hm)).1 hfull
    have hone : (1#1).toNat <<< 52 = 2 ^ 52 := by decide
    rw [BitVec.toNat_append, hone, BitVec.toNat_ofNat, Nat.or_comm,
      Nat.or_two_pow_eq_add_of_lt (Nat.mod_lt _ (Nat.two_pow_pos 52))]
    omega
  have hones : unpackExponent (packComponents .binary64 s (BitVec.ofNat 11 b)
      (BitVec.ofNat 52 m)) ≠ -1#11 := by
    rw [unpackExponent_packComponents]
    intro heq
    have hone : (-1#11).toNat = 2047 := by decide
    rw [← heq, hbits] at hone
    omega
  have hzero : unpackExponent (packComponents .binary64 s (BitVec.ofNat 11 b)
      (BitVec.ofNat 52 m)) ≠ 0#11 := by
    rw [unpackExponent_packComponents]
    intro heq
    have hnone : (0#11).toNat = 0 := by decide
    rw [← heq, hbits] at hnone
    omega
  refine ((if_neg hones).trans (if_neg hzero)).trans ?_
  rw [ofBitVec_unpackSign]
  apply finite_congr
  · rw [unpackMantissa_packComponents]
    exact hmantissa
  · rw [unpackExponent_packComponents, hbits]
    rfl

/-- `w` is the integer with mantissa `m` and exponent `e`, the mantissa has 53 binary digits, and
the exponent is that of an integer of 64 bits. -/
structure IsIntegral (w m : Nat) (e : Int) : Prop where
  full : m.log2 = 52
  lower : -52 ≤ e
  upper : e ≤ 11
  value : w * 2 ^ (-e).toNat = m * 2 ^ e.toNat

namespace IsIntegral

variable {w m : Nat} {e : Int}

variable (h : IsIntegral w m e)
include h

theorem mantissa_pos : 0 < m := by
  rcases Nat.eq_zero_or_pos m with rfl | hm
  · have := h.full
    simp at this
  · exact hm

theorem pos : 0 < w := by
  have hpos : 0 < w * 2 ^ (-e).toNat :=
    h.value ▸ Nat.mul_pos h.mantissa_pos (Nat.two_pow_pos _)
  exact Nat.pos_of_mul_pos_right hpos

theorem round_eq (s : Sign) :
    UnpackedFloat.round .binary64 s w 0 = .finite s m e h.mantissa_pos := by
  have hlog : w.log2 + (-e).toNat = 52 + e.toNat := by
    rw [← log2_mul_two_pow h.pos, h.value, log2_mul_two_pow h.mantissa_pos, h.full]
  have htarget : Format.binary64.targetExponent (totalExponent w 0) = e := by
    rw [targetExponent_eq (by omega)]
    omega
  have hlower : -1074 ≤ min e 0 := by have := h.lower; omega
  have hshift := shiftToTargetExponent_mul_two_pow h.full h.mantissa_pos hlower e.toNat
  have hround := roundWithAccuracy_eq (k := 0) s hshift (by simp [ExtendedMantissa.roundedMantissa,
    ExtendedMantissa.accuracy, Accuracy.roundToNearestEven]) h.full h.mantissa_pos (by omega)
  have hleft : (0 - e).toNat = (-e).toNat := by omega
  have hrest : 0 - ((-e).toNat : Int) = min e 0 := by omega
  rw [UnpackedFloat.round, htarget, decreaseExponent, hleft, hrest, Nat.shiftLeft_eq, h.value]
  exact hround.trans (finite_congr rfl (by omega))

theorem roundToInt_eq (s : Sign) : roundToInt s m e = s.apply w := by
  have hdiv : m * 2 ^ e.toNat / 2 ^ (-e).toNat = w := by
    rw [← h.value, Nat.mul_div_cancel _ (Nat.two_pow_pos _)]
  have hshift : (0 - (e - (e.toNat : Int))).toNat = (-e).toNat := by omega
  simp only [roundToInt, decreaseExponent, shiftToExponent, Int.sub_zero, Nat.shiftLeft_eq,
    mantissa_shiftRight, ExtendedMantissa.ofMantissaAndAccuracy, hshift, hdiv]

theorem unpack_pack (s : Sign) :
    (Float.Model.pack (.finite s m e h.mantissa_pos)).unpack = .finite s m e h.mantissa_pos := by
  have hlower := h.lower
  have hupper := h.upper
  have hpack : UnpackedFloat.pack .binary64 (.finite s m e h.mantissa_pos) =
      packComponents .binary64 s (BitVec.ofNat 11 (e + 1023 + 52).toNat) (BitVec.ofNat 52 m) := by
    have hfinite : ¬ 2048 ≤ (e + 1023 + 52).toNat + 1 := by omega
    have hnormal : m.log2 + 1 = 53 := by rw [h.full]
    exact (if_neg hfinite).trans (if_pos hnormal)
  calc (Float.Model.pack (.finite s m e h.mantissa_pos)).unpack
      = UnpackedFloat.unpack .binary64 (packComponents .binary64 s
          (BitVec.ofNat 11 (e + 1023 + 52).toNat) (BitVec.ofNat 52 m)) := by
        rw [← hpack]
        rfl
    _ = .finite s m ((e + 1023 + 52).toNat - 1075) h.mantissa_pos :=
        unpack_packComponents s (by omega) (by omega) h.full h.mantissa_pos
    _ = .finite s m e h.mantissa_pos := finite_congr rfl (by omega)

end IsIntegral

theorem exists_isIntegral (hpos : 0 < v) (hv : v ≤ 2 ^ 63) (s : Sign) :
    ∃ w m e, ∃ h : IsIntegral w m e, w ≤ 2 ^ 63 ∧
      UnpackedFloat.round .binary64 s v 0 = .finite s m e h.mantissa_pos := by
  by_cases hlong : 52 < v.log2
  · rcases Nat.lt_or_eq_of_le hv with hlt | rfl
    · have hlog : v.log2 < 63 := (Nat.log2_lt (Nat.ne_of_gt hpos)).2 hlt
      obtain ⟨m, k, hm, hfull, hle, hk, hround⟩ := round_of_long s hlong
      have hint : IsIntegral (m * 2 ^ (v.log2 - 52 + k)) m ((v.log2 - 52 : Nat) + k) :=
        ⟨hfull, by omega, by omega, by
          have hneg : (-((v.log2 - 52 : Nat) + k : Int)).toNat = 0 := by omega
          have hexp : ((v.log2 - 52 : Nat) + k : Int).toNat = v.log2 - 52 + k := by omega
          rw [hneg, hexp, Nat.pow_zero, Nat.mul_one]⟩
      refine ⟨_, m, _, hint, ?_, hround⟩
      calc m * 2 ^ (v.log2 - 52 + k) = m * 2 ^ k * 2 ^ (v.log2 - 52) := by
            rw [Nat.pow_add]; ac_rfl
        _ ≤ 2 ^ 53 * 2 ^ 10 :=
            Nat.mul_le_mul hle (Nat.pow_le_pow_right (by decide) (by omega))
        _ = 2 ^ 63 := by decide
    · have hint : IsIntegral (2 ^ 63) (2 ^ 52) 11 := ⟨by decide, by decide, by decide, by decide⟩
      exact ⟨_, _, _, hint, Nat.le_refl _, hint.round_eq s⟩
  · have hint : IsIntegral v (v * 2 ^ (52 - v.log2)) (v.log2 - 52) :=
      ⟨by rw [log2_mul_two_pow hpos]; omega, by omega, by omega, by
        have hneg : (-((v.log2 : Int) - 52)).toNat = 52 - v.log2 := by omega
        have hexp : ((v.log2 : Int) - 52).toNat = 0 := by omega
        rw [hneg, hexp, Nat.pow_zero, Nat.mul_one]⟩
    exact ⟨v, _, _, hint, hv, hint.round_eq s⟩

theorem normalize_apply (hpos : 0 < v) (s z : Sign) :
    UnpackedFloat.normalize .binary64 (s.apply v) 0 z = UnpackedFloat.round .binary64 s v 0 := by
  cases s with
  | negative =>
    have hlt : compare (-(v : Int)) 0 = .lt := by
      rw [Int.compare_eq_lt]; omega
    simp [UnpackedFloat.normalize, Sign.apply, hlt]
  | positive =>
    have hgt : compare (v : Int) 0 = .gt := by
      rw [Int.compare_eq_gt]; omega
    simp [UnpackedFloat.normalize, Sign.apply, hgt]

/-- The end of the range is reached by rounding, so that what lies beyond it is not lost. -/
theorem ofInt_ofIntClamp {w : Nat} (h : IsIntegral w m e) (hw : w ≤ 2 ^ 63) (s : Sign) :
    ofInt (Int64.ofIntClamp (s.apply w)) =
      .ofModel (Float.Model.pack (.finite s m e h.mantissa_pos)) := by
  have hround : ∀ n : Int64, UnpackedFloat.normalize .binary64 n.toInt 0 .positive =
      UnpackedFloat.round .binary64 s w 0 →
      ofInt n = .ofModel (Float.Model.pack (.finite s m e h.mantissa_pos)) := by
    intro n hn
    rw [← h.round_eq s, ← hn]
    rfl
  by_cases hin : s.apply w ≤ Int64.maxValue.toInt
  · apply hround
    have hmin : Int64.minValue.toInt ≤ s.apply w := by
      have hmin : Int64.minValue.toInt = -2 ^ 63 := by decide
      cases s <;> simp only [Sign.apply, hmin] <;> omega
    rw [Int64.toInt_ofIntClamp hmin hin, normalize_apply h.pos]
  · have hmax : Int64.maxValue.toInt = 2 ^ 63 - 1 := by decide
    cases s with
    | negative =>
      simp only [Sign.apply, hmax] at hin
      omega
    | positive =>
      have hw' : w = 2 ^ 63 := by
        simp only [Sign.apply, hmax] at hin
        omega
      subst hw'
      apply hround
      rfl

theorem exists_apply_eq {n : Int64} (hn : n ≠ 0) :
    ∃ (s : Sign) (v : Nat), n.toInt = s.apply v ∧ 0 < v ∧ v ≤ 2 ^ 63 := by
  have hzero : n.toInt ≠ 0 := fun h => hn (Int64.toInt.inj h)
  have hlower := n.le_toInt
  have hupper := n.toInt_lt
  by_cases hneg : n.toInt < 0
  · exact ⟨.negative, (-n.toInt).toNat, by simp only [Sign.apply]; omega, by omega, by omega⟩
  · exact ⟨.positive, n.toInt.toNat, by simp only [Sign.apply]; omega, by omega, by omega⟩

theorem ofInt_toInt_ofInt (n : Int64) : ofInt (toInt (ofInt n)) = ofInt n := by
  by_cases hn : n = 0
  · subst hn
    decide
  obtain ⟨s, v, hsv, hpos, hle⟩ := exists_apply_eq hn
  obtain ⟨w, m, e, h, hw, hround⟩ := exists_isIntegral hpos hle s
  have hof : ofInt n = .ofModel (Float.Model.pack (.finite s m e h.mantissa_pos)) := by
    rw [← hround, ← normalize_apply hpos s .positive, ← hsv]
    rfl
  have hto : toInt (ofInt n) = Int64.ofIntClamp (s.apply w) := by
    rw [hof, ← h.roundToInt_eq s]
    show (Float.Model.pack (.finite s m e h.mantissa_pos)).unpack.toInt64 = _
    rw [h.unpack_pack s]
    rfl
  rw [hto, ofInt_ofIntClamp h hw, hof]

end Real64

theorem Element.cast_cast (element : Element) (x : Float) :
    element.cast (element.cast x) = element.cast x := by
  cases element with
  | float => rfl
  | int => exact Real64.ofInt_toInt_ofInt _
  | bool =>
    by_cases hx : x != 0.0
    · simp only [cast, hx, if_true]
      decide
    · simp only [cast, hx]
      decide

end ProcessModel
