import Mathlib
import ScriptLowering.Number

/-!
# Natural numbers as doubles

A natural number up to 2^53 is a double exactly.  Below that it is held by 53 bits
and the exponent that makes up for them; a product with one and a sum with one
are of that form again, since what rounding shifts out of them is zeros.  What is
known of packed doubles comes with the whole library, not with a module of it.

    n * 2^52 = significand n * 2^(log2 n)                            (significand_mul)
    53 bits and k zeros, rounded, are the 53 bits                    (roundWithAccuracy_exact)
    (ofNat n).add one = ofNat (n + 1), and not ofNat n               (ofNat_succ)
-/

namespace ScriptLowering.Number

open Float.Model (Format UnpackedFloat totalExponent)
open Float.Model.UnpackedFloat

/-! ## Algorithm -/

/-- The mantissa has 53 bits, the leading one included. -/
def IsNormal (m : Nat) : Prop := 2 ^ 52 ≤ m ∧ m < 2 ^ 53

theorem IsNormal.pos {m : Nat} (h : IsNormal m) : 0 < m := Nat.lt_of_lt_of_le (by decide) h.1

/-- A positive double in the form in which it is stored. -/
def normal (m : Nat) (e : Int) (h : IsNormal m) : UnpackedFloat := .finite .positive m e h.pos

/-- The number scaled up to 53 bits. -/
def significand (n : Nat) : Nat := n * 2 ^ (52 - n.log2)

/-- The number that an unpacked double stands for. -/
def ofUnpacked (x : UnpackedFloat) : Number := ofFloat (.ofModel (.pack x))

def unpacked (n : Number) : UnpackedFloat := n.toFloat.toModel.unpack

/-! ## Lemmas -/

/-! ### Scaling -/

theorem log2_mul_two_pow {n : Nat} (hn : n ≠ 0) (k : Nat) : (n * 2 ^ k).log2 = n.log2 + k := by
  rw [Nat.log2_eq_iff (Nat.mul_ne_zero hn (Nat.ne_of_gt (Nat.two_pow_pos k))),
    Nat.add_right_comm, Nat.pow_add, Nat.pow_add _ (n.log2 + 1)]
  exact ⟨Nat.mul_le_mul_right _ (Nat.log2_self_le hn),
    Nat.mul_lt_mul_of_pos_right Nat.lt_log2_self (Nat.two_pow_pos k)⟩

theorem isNormal_iff_log2 {m : Nat} (hm : m ≠ 0) : IsNormal m ↔ m.log2 = 52 :=
  (Nat.log2_eq_iff hm).symm

theorem IsNormal.log2 {m : Nat} (h : IsNormal m) : m.log2 = 52 :=
  (isNormal_iff_log2 (Nat.ne_of_gt h.pos)).1 h

theorem log2_le {n : Nat} (hn : n ≠ 0) (hlt : n < 2 ^ 53) : n.log2 ≤ 52 :=
  Nat.le_of_lt_succ ((Nat.log2_lt hn).2 hlt)

theorem isNormal_significand {n : Nat} (hn : n ≠ 0) (hlt : n < 2 ^ 53) :
    IsNormal (significand n) := by
  have hm : significand n ≠ 0 := Nat.mul_ne_zero hn (Nat.ne_of_gt (Nat.two_pow_pos _))
  rw [isNormal_iff_log2 hm, significand, log2_mul_two_pow hn]
  exact Nat.add_sub_of_le (log2_le hn hlt)

theorem significand_mul {n : Nat} (hn : n ≠ 0) (hlt : n < 2 ^ 53) :
    significand n * 2 ^ n.log2 = n * 2 ^ 52 := by
  rw [significand, Nat.mul_assoc, ← Nat.pow_add, Nat.sub_add_cancel (log2_le hn hlt)]

/-! ### Exact rounding -/

/-- Zeros are shifted out without a trace. -/
theorem shiftRight_exact (m k : Nat) :
    (⟨m * 2 ^ k, false, false⟩ : ExtendedMantissa) >>> k = ⟨m, false, false⟩ := by
  show k.repeat ExtendedMantissa.shiftRightOne _ = _
  induction k generalizing m with
  | zero => simp [Nat.repeat]
  | succ k ih =>
    have hm : m * 2 ^ (k + 1) = m * 2 * 2 ^ k := by rw [Nat.pow_succ, Nat.mul_assoc, Nat.mul_comm 2]
    rw [Nat.repeat, hm, ih]
    simp [ExtendedMantissa.shiftRightOne]

/-- The exponent at which 53 bits are left. -/
theorem targetExponent_eq {n : Nat} {x e : Int} (h : n.log2 + x = 52 + e) (he : -1074 ≤ e) :
    Format.binary64.targetExponent (totalExponent n x) = e := by
  simp only [Format.targetExponent, totalExponent, Format.mantissaBits, Format.minExponent]
  omega

section

variable {m : Nat} (h : IsNormal m) {e : Int} (he : -1074 ≤ e)

include h he

theorem targetExponent_scaled (k : Nat) :
    Format.binary64.targetExponent (totalExponent (m * 2 ^ k) (e - k)) = e := by
  refine targetExponent_eq ?_ he
  rw [log2_mul_two_pow (Nat.ne_of_gt h.pos), h.log2]
  omega

theorem shiftToTargetExponent_exact (k : Nat) :
    shiftToTargetExponent .binary64 (m * 2 ^ k) (e - k) .exact = (⟨m, false, false⟩, e) := by
  have hk : (e - (e - k)).toNat = k := by omega
  rw [shiftToTargetExponent, targetExponent_scaled h he, shiftToExponent, hk]
  exact Prod.ext (shiftRight_exact m k) (Int.sub_add_cancel e k)

theorem roundWithAccuracy_exact (k : Nat) :
    roundWithAccuracy .binary64 .positive (m * 2 ^ k) (e - k) .exact = normal m e h := by
  have hagain : shiftToTargetExponent .binary64 m e .exact = (⟨m, false, false⟩, e) := by
    simpa using shiftToTargetExponent_exact h he 0
  rw [roundWithAccuracy, shiftToTargetExponent_exact h he k]
  simp only [ExtendedMantissa.roundedMantissa, ExtendedMantissa.accuracy,
    Accuracy.roundToNearestEven, hagain]
  exact dif_neg (Nat.ne_of_gt h.pos)

/-- Too many bits are rounded away. -/
theorem round_down (k : Nat) :
    UnpackedFloat.round .binary64 .positive (m * 2 ^ k) (e - k) = normal m e h := by
  have hk : (e - k - e).toNat = 0 := by omega
  simp only [UnpackedFloat.round, targetExponent_scaled h he, decreaseExponent, hk,
    Nat.shiftLeft_zero, Int.natCast_zero, Int.sub_zero]
  exact roundWithAccuracy_exact h he k

/-- Too few bits are filled up with zeros. -/
theorem round_up {n k : Nat} (hn : n ≠ 0) (hm : n * 2 ^ k = m) :
    UnpackedFloat.round .binary64 .positive n (e + k) = normal m e h := by
  have htarget : Format.binary64.targetExponent (totalExponent n (e + k)) = e := by
    refine targetExponent_eq ?_ he
    have hlog := h.log2
    rw [← hm, log2_mul_two_pow hn] at hlog
    omega
  have hk : (e + k - e).toNat = k := by omega
  simp only [UnpackedFloat.round, htarget, decreaseExponent, hk, Nat.shiftLeft_eq, hm,
    Int.add_sub_cancel]
  simpa using roundWithAccuracy_exact h he 0

end

/-! ### Storing -/

theorem bitVec_ofNat_ne {w b : Nat} {v : BitVec w} (hb : b < 2 ^ w) (h : b ≠ v.toNat) :
    BitVec.ofNat w b ≠ v := by
  rintro rfl
  exact h (by rw [BitVec.toNat_ofNat, Nat.mod_eq_of_lt hb])

theorem normal_congr {m m' : Nat} {e e' : Int} (hm : m = m') (he : e = e') (hpos : 0 < m)
    (h : IsNormal m') : .finite .positive m e hpos = normal m' e' h := by
  subst hm he
  rfl

section

variable {m : Nat} (h : IsNormal m) {e : Int} (hlo : -1074 ≤ e) (hhi : e ≤ 971)

include h hlo hhi

theorem pack_normal : UnpackedFloat.pack .binary64 (normal m e h) =
    packComponents .binary64 .positive (BitVec.ofNat 11 (e + 1075).toNat) (BitVec.ofNat 52 m) := by
  have hbias : e + Format.binary64.exponentBias + Format.binary64.mantissaBitsWithoutImplicit =
      e + 1075 := by
    simp only [Format.exponentBias]
    omega
  have hfits : ¬ 2 ^ Format.binary64.exponentBits ≤ (e + 1075).toNat + 1 := by
    show ¬ 2 ^ 11 ≤ _
    omega
  simp only [normal, UnpackedFloat.pack, hbias, h.log2]
  rw [if_neg hfits]
  exact if_pos rfl

/-- What is stored of a normal double is all of it. -/
theorem unpack_pack_normal : (Float.Model.pack (normal m e h)).unpack = normal m e h := by
  have hbias : (e + 1075).toNat < 2 ^ 11 := by omega
  have hmax : BitVec.ofNat 11 (e + 1075).toNat ≠ -1#11 :=
    bitVec_ofNat_ne hbias (show _ ≠ 2047 by omega)
  have hmin : BitVec.ofNat 11 (e + 1075).toNat ≠ 0#11 :=
    bitVec_ofNat_ne hbias (show _ ≠ 0 by omega)
  show UnpackedFloat.unpack .binary64 (UnpackedFloat.pack .binary64 (normal m e h)) = _
  rw [pack_normal h hlo hhi, UnpackedFloat.unpack]
  simp only [unpackMantissa_packComponents, unpackExponent_packComponents,
    unpackSign_packComponents, Sign.ofBitVec_toBitVec]
  rw [if_neg hmax, if_neg hmin]
  -- the leading bit is not stored, and comes back in front of the fraction
  refine normal_congr ?_ ?_ _ h
  · have hfraction : (BitVec.ofNat 52 m).toNat = m - 2 ^ 52 := by
      rw [BitVec.toNat_ofNat, Nat.mod_eq_sub_mod h.1, Nat.mod_eq_of_lt (by have := h.2; omega)]
    show (1#1 ++ BitVec.ofNat 52 m).toNat = m
    rw [BitVec.toNat_append, hfraction, Nat.shiftLeft_eq, Nat.mul_comm,
      ← Nat.two_pow_add_eq_or_of_lt (by have := h.2; omega)]
    exact Nat.add_sub_of_le h.1
  · show ((BitVec.ofNat 11 (e + 1075).toNat).toNat : Int) -
      ((Format.binary64.exponentBias + 52 : Nat) : Int) = e
    rw [BitVec.toNat_ofNat, Nat.mod_eq_of_lt hbias]
    simp only [Format.exponentBias]
    omega

end

/-! ### Naturals -/

theorem toFloat_ofFloat (x : Float) : (ofFloat x).toFloat = x := Float.ofBits_toBits x

theorem unpacked_ofUnpacked {x : UnpackedFloat} (h : (Float.Model.pack x).unpack = x) :
    (ofUnpacked x).unpacked = x := by
  rw [unpacked, ofUnpacked, toFloat_ofFloat]
  exact h

theorem add_eq (a b : Number) :
    a.add b = ofUnpacked (UnpackedFloat.add .binary64 a.unpacked b.unpacked) := rfl

theorem isNormal_one : IsNormal (2 ^ 52) := ⟨Nat.le_refl _, by decide⟩

theorem unpacked_one : one.unpacked = normal (2 ^ 52) (-52) isNormal_one := rfl

theorem normalize_natCast {n : Nat} (hn : n ≠ 0) (e : Int) (s : Sign) :
    UnpackedFloat.normalize .binary64 n e s = UnpackedFloat.round .binary64 .positive n e := by
  have hcompare : compare (n : Int) 0 = .gt := Int.compare_eq_gt.2 (by omega)
  simp only [UnpackedFloat.normalize, hcompare, Int.toNat_natCast]

section

variable {n : Nat} (hn : n ≠ 0) (hlt : n < 2 ^ 53)

/-- The unpacked double of a natural number. -/
def natural : UnpackedFloat := normal (significand n) (n.log2 - 52) (isNormal_significand hn hlt)

theorem unpack_pack_natural : (Float.Model.pack (natural hn hlt)).unpack = natural hn hlt := by
  have hlog := log2_le hn hlt
  exact unpack_pack_normal _ (by omega) (by omega)

theorem ofNat_eq_natural : UnpackedFloat.ofNat .binary64 n = natural hn hlt := by
  have hexponent : ((n.log2 : Int) - 52) + ((52 - n.log2 : Nat) : Int) = 0 := by
    have hlog := log2_le hn hlt
    omega
  have hround := round_up (isNormal_significand hn hlt) (e := n.log2 - 52) (by omega) hn rfl
  rw [hexponent] at hround
  exact (normalize_natCast hn 0 .positive).trans hround

theorem natural_mul_one :
    UnpackedFloat.mul .binary64 (natural hn hlt) (normal (2 ^ 52) (-52) isNormal_one) =
      natural hn hlt :=
  roundWithAccuracy_exact (isNormal_significand hn hlt) (by omega) 52

/-- The converted number is multiplied by one, which changes nothing. -/
theorem ofNat_eq_ofUnpacked : ofNat n = ofUnpacked (natural hn hlt) := by
  have hword : n < 2 ^ 64 := by omega
  have hconverted : n.toUInt64.toNat = n := UInt64.toNat_ofNat_of_lt' hword
  have hfast : Float.ofNat n = n.toUInt64.toFloat * Float.ofBits 0x3ff0000000000000 :=
    dif_pos ⟨hlt, by decide⟩
  have hproduct : ofNat n = ofUnpacked (UnpackedFloat.mul .binary64
      (Float.Model.pack (UnpackedFloat.ofNat .binary64 n.toUInt64.toNat)).unpack one.unpacked) :=
    congrArg ofFloat hfast
  rw [hproduct, hconverted, ofNat_eq_natural hn hlt, unpack_pack_natural, unpacked_one,
    natural_mul_one]

theorem unpacked_ofNat : (ofNat n).unpacked = natural hn hlt := by
  rw [ofNat_eq_ofUnpacked hn hlt, unpacked_ofUnpacked (unpack_pack_natural hn hlt)]

theorem natural_add_one (hlt' : n + 1 < 2 ^ 53) :
    UnpackedFloat.add .binary64 (natural hn hlt) (normal (2 ^ 52) (-52) isNormal_one) =
      natural n.succ_ne_zero hlt' := by
  have hmin : min ((n.log2 : Int) - 52) (-52) = -52 := by omega
  have hshift : ((n.log2 : Int) - 52 - -52).toNat = n.log2 := by omega
  have hsum : ((significand n * 2 ^ n.log2 : Nat) : Int) + ((2 ^ 52 : Nat) : Int) =
      ((significand (n + 1) * 2 ^ (n + 1).log2 : Nat) : Int) := by
    rw [significand_mul hn hlt, significand_mul n.succ_ne_zero hlt', Nat.succ_mul]
    omega
  -- both are brought to the exponent of one, and the sum is rounded back up
  have hround := round_down (isNormal_significand n.succ_ne_zero hlt')
    (e := (n + 1).log2 - 52) (by omega) (n + 1).log2
  have hexponent : ((n + 1).log2 : Int) - 52 - (n + 1).log2 = -52 := by omega
  rw [hexponent] at hround
  simp only [natural, normal, UnpackedFloat.add, hmin, decreaseExponent, hshift, Nat.shiftLeft_eq,
    Sign.apply]
  show UnpackedFloat.normalize .binary64
    (((significand n * 2 ^ n.log2 : Nat) : Int) + ((2 ^ 52 : Nat) : Int)) (-52) .positive = _
  have hpos : significand (n + 1) * 2 ^ (n + 1).log2 ≠ 0 :=
    Nat.ne_of_gt (Nat.mul_pos (isNormal_significand n.succ_ne_zero hlt').pos (Nat.two_pow_pos _))
  rw [hsum, normalize_natCast hpos, hround]
  rfl

include hn hlt

theorem ofNat_add_one_of_lt (hlt' : n + 1 < 2 ^ 53) : (ofNat n).add one = ofNat (n + 1) := by
  rw [add_eq, unpacked_ofNat hn hlt, unpacked_one, natural_add_one hn hlt hlt',
    ofNat_eq_ofUnpacked n.succ_ne_zero hlt']

/-- Significand and exponent tell a natural number. -/
theorem ofNat_ne_succ_of_lt (hlt' : n + 1 < 2 ^ 53) : ofNat n ≠ ofNat (n + 1) := by
  intro heq
  have hsucc : n + 1 ≠ 0 := n.succ_ne_zero
  have hunpacked := congrArg unpacked heq
  rw [unpacked_ofNat hn hlt, unpacked_ofNat hsucc hlt'] at hunpacked
  injection hunpacked with _ hm he
  have hlog : n.log2 = (n + 1).log2 := by omega
  have hscaled := significand_mul hn hlt
  rw [hm, hlog, significand_mul hsucc hlt'] at hscaled
  omega

end

/-- The sum with one is the next number, and another one. -/
theorem ofNat_succ {n : Nat} (h : n < 2 ^ 53) :
    (ofNat n).add one = ofNat (n + 1) ∧ ofNat n ≠ ofNat (n + 1) := by
  by_cases hn : n = 0
  · subst hn
    decide +kernel
  -- 2^53 is not converted by way of a product, so the last sum is worked out
  by_cases hlast : n + 1 = 2 ^ 53
  · obtain rfl : n = 2 ^ 53 - 1 := by omega
    decide +kernel
  have hlt : n + 1 < 2 ^ 53 := by omega
  exact ⟨ofNat_add_one_of_lt hn h hlt, ofNat_ne_succ_of_lt hn h hlt⟩

end ScriptLowering.Number
