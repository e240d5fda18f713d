import LispFrontEnd.Proofs.Binary64.Integers

/-! # The float nearest to an integer

An integer is converted by rounding its magnitude to a mantissa of 53 bits. Integers that have such
a mantissa are kept, and those of `2 ^ 53` and more stay there.
-/

namespace LispFrontEnd

namespace Binary64

open Float.Model Float.Model.UnpackedFloat

variable {s : Sign} {m n : Nat} {e : Int} {pos : 0 < m}

theorem log2_of_full (full : 2 ^ 52 ≤ m) (bound : m < 2 ^ 53) :
    m.log2 + 1 = Format.binary64.mantissaBits := by
  rw [(Nat.log2_eq_iff (by omega)).mpr ⟨full, bound⟩]
  rfl

theorem pack_finite (full : 2 ^ 52 ≤ m) (bound : m < 2 ^ 53) (most : e ≤ 971) :
    UnpackedFloat.pack Format.binary64 (.finite s m e pos) =
      packComponents Format.binary64 s (BitVec.ofNat 11 (e + 1075).toNat) (BitVec.ofNat 52 m) := by
  have biased : (e + Format.binary64.exponentBias + (52 : Nat)).toNat = (e + 1075).toNat := by
    rw [exponentBias_binary64]; congr 1; omega
  change (if 2 ^ 11 ≤ (e + Format.binary64.exponentBias + (52 : Nat)).toNat + 1 then _
    else if m.log2 + 1 = Format.binary64.mantissaBits then packComponents _ _
      (BitVec.ofNat _ (e + Format.binary64.exponentBias + (52 : Nat)).toNat) _ else _) = _
  rw [biased, if_neg (by omega), if_pos (log2_of_full full bound)]

theorem sign_packComponents (s : Sign) (exponent : BitVec 11) (fraction : BitVec 52) :
    Sign.ofBitVec (unpackSign (packComponents Format.binary64 s exponent fraction)) = s := by
  have bit : unpackSign (packComponents Format.binary64 s exponent fraction) = s.toBitVec := by
    change BitVec.extractLsb' 63 1 (s.toBitVec ++ exponent ++ fraction) = _
    rw [BitVec.extractLsb'_append_eq_of_le (by decide), BitVec.extractLsb'_append_eq_left]
  rw [bit]
  cases s <;> rfl

theorem unpack_packComponents {exponent : BitVec 11} (fraction : BitVec 52)
    (notTop : exponent ≠ -1#11) (notBottom : exponent ≠ 0#11) :
    UnpackedFloat.unpack Format.binary64 (packComponents Format.binary64 s exponent fraction) =
      .finite s (2 ^ 52 + fraction.toNat) (exponent.toNat - 1075)
        (Nat.add_pos_left (Nat.two_pow_pos 52) _) := by
  have sign := sign_packComponents s exponent fraction
  have middle := @unpackExponent_packComponents Format.binary64 s exponent fraction
  have low := @unpackMantissa_packComponents Format.binary64 s exponent fraction
  generalize packComponents Format.binary64 s exponent fraction = packed at *
  subst sign middle low
  exact unpack_of_normal notTop notBottom

/-- A float packed with a full mantissa comes back as it was. -/
theorem unpack_pack_finite (full : 2 ^ 52 ≤ m) (bound : m < 2 ^ 53) (least : -1074 ≤ e)
    (most : e ≤ 971) : (Float.Model.pack (.finite s m e pos)).unpack = .finite s m e pos := by
  have exponent : (BitVec.ofNat 11 (e + 1075).toNat).toNat = (e + 1075).toNat := by
    rw [BitVec.toNat_ofNat]; omega
  have notTop : BitVec.ofNat 11 (e + 1075).toNat ≠ -1#11 := fun top => by
    have := congrArg BitVec.toNat top
    rw [exponent] at this
    change _ = 2047 at this
    omega
  have notBottom : BitVec.ofNat 11 (e + 1075).toNat ≠ 0#11 := fun bottom => by
    have := congrArg BitVec.toNat bottom
    rw [exponent] at this
    change _ = 0 at this
    omega
  change UnpackedFloat.unpack Format.binary64 (UnpackedFloat.pack Format.binary64 _) = _
  rw [pack_finite full bound most, unpack_packComponents _ notTop notBottom]
  refine finite_congr ?_ ?_
  · rw [BitVec.toNat_ofNat]; omega
  · rw [exponent]; omega

theorem targetExponent_binary64 (total : Int) :
    Format.binary64.targetExponent total = max (total - 53) (-1074) := rfl

theorem mantissa_shiftRight (em : ExtendedMantissa) (k : Nat) :
    (em >>> k).mantissa = em.mantissa / 2 ^ k := by
  induction k with
  | zero => exact (Nat.div_one _).symm
  | succ k ih =>
    change (em >>> k).mantissa / 2 = _
    rw [ih, Nat.div_div_eq_div_mul, Nat.pow_succ]

/-- Zeros are shifted out without a trace. -/
theorem shiftRight_zeros (m k : Nat) :
    (⟨m * 2 ^ k, false, false⟩ : ExtendedMantissa) >>> k = ⟨m, false, false⟩ := by
  induction k generalizing m with
  | zero => rw [Nat.pow_zero, Nat.mul_one]; rfl
  | succ k ih =>
    change ExtendedMantissa.shiftRightOne ((⟨_, false, false⟩ : ExtendedMantissa) >>> k) = _
    rw [Nat.pow_succ', ← Nat.mul_assoc, ih (m * 2)]
    simp only [ExtendedMantissa.shiftRightOne, Nat.mul_div_cancel _ Nat.two_pos,
      Nat.mul_mod_left, bne_self_eq_false, Bool.or_self]

theorem roundedMantissa_bounds (em : ExtendedMantissa) :
    em.mantissa ≤ em.roundedMantissa ∧ em.roundedMantissa ≤ em.mantissa + 1 := by
  obtain ⟨m, round, sticky⟩ := em
  cases round <;> cases sticky <;>
    simp only [ExtendedMantissa.roundedMantissa, ExtendedMantissa.accuracy,
      Accuracy.roundToNearestEven] <;> omega

theorem log2_of_shift {k : Nat} (full : 2 ^ 52 ≤ m / 2 ^ k) (bound : m / 2 ^ k < 2 ^ 53) :
    m.log2 = 52 + k := by
  rw [Nat.le_div_iff_mul_le (Nat.two_pow_pos k), ← Nat.pow_add] at full
  rw [Nat.div_lt_iff_lt_mul (Nat.two_pow_pos k), ← Nat.pow_add] at bound
  have nonzero : m ≠ 0 := (Nat.lt_of_lt_of_le (Nat.two_pow_pos _) full).ne'
  refine (Nat.log2_eq_iff nonzero).mpr ⟨full, ?_⟩
  rwa [Nat.add_right_comm]

theorem shiftToTargetExponent_exact {k : Nat} (full : 2 ^ 52 ≤ m / 2 ^ k)
    (bound : m / 2 ^ k < 2 ^ 53) (least : -1074 ≤ e + k) :
    shiftToTargetExponent Format.binary64 m e .exact =
      ((⟨m, false, false⟩ : ExtendedMantissa) >>> k, e + k) := by
  have shift : (Format.binary64.targetExponent (totalExponent m e) - e).toNat = k := by
    rw [targetExponent_binary64, totalExponent, log2_of_shift full bound]
    omega
  simp only [shiftToTargetExponent, shiftToExponent, shift, ExtendedMantissa.ofMantissaAndAccuracy]

theorem roundWithAccuracy_eq {first last : ExtendedMantissa} {e₁ e₂ : Int}
    (shifted : shiftToTargetExponent Format.binary64 m e .exact = (first, e₁))
    (carried : shiftToTargetExponent Format.binary64 first.roundedMantissa e₁ .exact = (last, e₂))
    (positive : 0 < last.mantissa) :
    roundWithAccuracy Format.binary64 s m e .exact = .finite s last.mantissa e₂ positive := by
  rw [roundWithAccuracy, shifted]
  dsimp only
  rw [carried]
  exact dif_neg positive.ne'

/-- A number of 53 significant bits is kept. -/
theorem roundWithAccuracy_mul (pos : 0 < m) (full : 2 ^ 52 ≤ m) (bound : m < 2 ^ 53)
    (least : -1074 ≤ e) (k : Nat) :
    roundWithAccuracy Format.binary64 s (m * 2 ^ k) (e - k) .exact = .finite s m e pos := by
  have quotient : m * 2 ^ k / 2 ^ k = m := Nat.mul_div_cancel _ (Nat.two_pow_pos k)
  have shifted := shiftToTargetExponent_exact (m := m * 2 ^ k) (e := e - k) (k := k)
    (quotient.symm ▸ full) (quotient.symm ▸ bound) (by omega)
  have carried := shiftToTargetExponent_exact (m := m) (e := e) (k := 0)
    (by rwa [Nat.pow_zero, Nat.div_one]) (by rwa [Nat.pow_zero, Nat.div_one]) (by omega)
  rw [shiftRight_zeros, Int.sub_add_cancel] at shifted
  rw [Int.natCast_zero, Int.add_zero] at carried
  exact roundWithAccuracy_eq shifted carried pos

/-- Any other number is rounded up or down, and stays as large as the mantissa it is cut to. -/
theorem exists_roundWithAccuracy {k : Nat} (full : 2 ^ 52 ≤ m / 2 ^ k) (bound : m / 2 ^ k < 2 ^ 53)
    (least : -1074 ≤ e + k) :
    ∃ r f pos, roundWithAccuracy Format.binary64 s m e .exact = .finite s r f pos ∧
      2 ^ 52 ≤ r ∧ r < 2 ^ 53 ∧ e + k ≤ f ∧ f ≤ e + k + 1 := by
  have shifted := shiftToTargetExponent_exact full bound least
  have rounded := roundedMantissa_bounds ((⟨m, false, false⟩ : ExtendedMantissa) >>> k)
  rw [mantissa_shiftRight] at rounded
  change m / 2 ^ k ≤ _ ∧ _ ≤ m / 2 ^ k + 1 at rounded
  generalize (⟨m, false, false⟩ : ExtendedMantissa) >>> k = first at shifted rounded
  -- Rounding up to `2 ^ 53` carries into the exponent.
  obtain ⟨c, atMost, full', bound'⟩ : ∃ c : Nat, c ≤ 1 ∧
      2 ^ 52 ≤ first.roundedMantissa / 2 ^ c ∧ first.roundedMantissa / 2 ^ c < 2 ^ 53 := by
    obtain fits | carry := Nat.lt_or_ge first.roundedMantissa (2 ^ 53)
    · exact ⟨0, by omega, by omega, by omega⟩
    · exact ⟨1, by omega, by omega, by omega⟩
  have carried := shiftToTargetExponent_exact (e := e + k) full' bound' (by omega)
  have last : ((⟨first.roundedMantissa, false, false⟩ : ExtendedMantissa) >>> c).mantissa =
      first.roundedMantissa / 2 ^ c := mantissa_shiftRight _ c
  refine ⟨_, _, ?_, roundWithAccuracy_eq shifted carried (last ▸ by omega), ?_⟩
  · omega
  · omega

/-- The natural numbers that a mantissa of 53 bits represents. -/
def Fits (n : Nat) : Prop := n % 2 ^ (n.log2 - 52) = 0

theorem fits_of_lt (small : n < 2 ^ 53) : Fits n := by
  have log : n.log2 - 52 = 0 := by
    obtain rfl | nonzero := Decidable.em (n = 0)
    · rfl
    · have := (Nat.log2_lt nonzero).mpr small
      omega
  rw [Fits, log, Nat.pow_zero, Nat.mod_one]

theorem denotes_shift (nonneg : 0 ≤ e) : Denotes m e (m * 2 ^ e.toNat) := by
  rw [Denotes, Int.toNat_of_nonpos (Int.neg_nonpos_of_nonneg nonneg), Nat.pow_zero, Nat.mul_one]

theorem fits_of_denotes (bound : m < 2 ^ 53) (denotes : Denotes m e n) : Fits n := by
  obtain negative | nonneg := Int.lt_or_le e 0
  · have below : n ≤ n * 2 ^ (-e).toNat := Nat.le_mul_of_pos_right n (Nat.two_pow_pos _)
    rw [← denotes, Int.toNat_of_nonpos (by omega), Nat.pow_zero, Nat.mul_one] at below
    exact fits_of_lt (Nat.lt_of_le_of_lt below bound)
  · obtain rfl := denotes.unique (denotes_shift nonneg)
    obtain zero | nonzero := Decidable.em (m * 2 ^ e.toNat = 0)
    · rw [zero]; rfl
    · have below : m * 2 ^ e.toNat < 2 ^ (53 + e.toNat) := by
        rw [Nat.pow_add]
        exact Nat.mul_lt_mul_of_pos_right bound (Nat.two_pow_pos _)
      have log := (Nat.log2_lt nonzero).mpr below
      exact Nat.mod_eq_zero_of_dvd
        (Nat.dvd_mul_left_of_dvd (Nat.pow_dvd_pow 2 (by omega)) m)

theorem shift_to_full (positive : 0 < n) (below : n < 2 ^ 53) :
    n.log2 ≤ 52 ∧ 2 ^ 52 ≤ n * 2 ^ (52 - n.log2) ∧ n * 2 ^ (52 - n.log2) < 2 ^ 53 := by
  have small : n.log2 ≤ 52 := Nat.le_of_lt_succ ((Nat.log2_lt positive.ne').mpr below)
  refine ⟨small, ?_, ?_⟩
  · calc 2 ^ 52 = 2 ^ n.log2 * 2 ^ (52 - n.log2) := by rw [← Nat.pow_add]; congr 1; omega
      _ ≤ _ := Nat.mul_le_mul_right _ (Nat.log2_self_le positive.ne')
  · calc _ < 2 ^ (n.log2 + 1) * 2 ^ (52 - n.log2) :=
          Nat.mul_lt_mul_of_pos_right Nat.lt_log2_self (Nat.two_pow_pos _)
      _ = 2 ^ 53 := by rw [← Nat.pow_add]; congr 1; omega

theorem cut_to_full {k : Nat} (log : n.log2 = 52 + k) (positive : 0 < n) :
    2 ^ 52 ≤ n / 2 ^ k ∧ n / 2 ^ k < 2 ^ 53 := by
  rw [Nat.le_div_iff_mul_le (Nat.two_pow_pos k), Nat.div_lt_iff_lt_mul (Nat.two_pow_pos k),
    ← Nat.pow_add, ← Nat.pow_add, ← log, show 53 + k = n.log2 + 1 by omega]
  exact ⟨Nat.log2_self_le positive.ne', Nat.lt_log2_self⟩

theorem exists_log2 (above : 2 ^ 53 ≤ n) (bound : n < 2 ^ 64) :
    ∃ k, n.log2 = 52 + k ∧ 1 ≤ k ∧ k ≤ 11 := by
  have lower : 53 ≤ n.log2 := (Nat.le_log2 (by omega)).mpr above
  have upper : n.log2 < 64 := (Nat.log2_lt (by omega)).mpr bound
  exact ⟨n.log2 - 52, by omega, by omega, by omega⟩

/-- Below `2 ^ 53` a number is converted as a 64-bit one and then multiplied with one. -/
theorem toModel_ofNat_of_lt (below : n < 2 ^ 53) :
    (Float.ofNat n).toModel =
      Float.Model.ofUInt64 n.toUInt64 * (Float.ofBits 0x3FF0000000000000).toModel := by
  change (Float.ofScientific n false 0).toModel = _
  rw [Float.ofScientific, dif_pos ⟨below, by decide⟩]
  rfl

theorem unpack_one : (Float.ofBits 0x3FF0000000000000).toModel.unpack =
    .finite .positive (2 ^ 52) (-52) (by decide) := by
  rfl

theorem round_of_lt (positive : 0 < n) (below : n < 2 ^ 53) :
    UnpackedFloat.round Format.binary64 s n 0 = .finite s (n * 2 ^ (52 - n.log2)) (n.log2 - 52)
      (Nat.mul_pos positive (Nat.two_pow_pos _)) := by
  obtain ⟨small, full, bound⟩ := shift_to_full positive below
  have target : Format.binary64.targetExponent (totalExponent n 0) = n.log2 - 52 := by
    rw [targetExponent_binary64, totalExponent]; omega
  have shift : (0 - ((n.log2 : Int) - 52)).toNat = 52 - n.log2 := by omega
  have least : (0 : Int) - (52 - n.log2 : Nat) = n.log2 - 52 := by omega
  rw [UnpackedFloat.round, decreaseExponent, target]
  dsimp only
  rw [shift, Nat.shiftLeft_eq, least]
  have kept := roundWithAccuracy_mul (s := s) (e := n.log2 - 52)
    (Nat.mul_pos positive (Nat.two_pow_pos _)) full bound (by omega) 0
  rwa [Nat.pow_zero, Nat.mul_one, Int.natCast_zero, Int.sub_zero] at kept

theorem unpack_ofUInt64 (positive : 0 < n) (below : n < 2 ^ 53) :
    (Float.Model.ofUInt64 n.toUInt64).unpack =
      .finite .positive (n * 2 ^ (52 - n.log2)) (n.log2 - 52)
        (Nat.mul_pos positive (Nat.two_pow_pos _)) := by
  obtain ⟨small, full, bound⟩ := shift_to_full positive below
  have same : n.toUInt64.toNat = n := UInt64.toNat_ofNat_of_lt' (by rw [UInt64.size]; omega)
  have greater : compare (n : Int) 0 = .gt := by
    rw [Int.compare_eq_gt]
    omega
  rw [Float.Model.ofUInt64, UnpackedFloat.ofUInt64, UnpackedFloat.ofNat, UnpackedFloat.ofInt,
    UnpackedFloat.normalize, same, greater]
  dsimp only
  rw [Int.toNat_natCast, round_of_lt positive below]
  exact unpack_pack_finite full bound (by omega) (by omega)

theorem unpack_mul {a b : Float.Model} {t : Sign} {m' : Nat} {e' : Int} {pos' : 0 < m'}
    {u : UnpackedFloat} (first : a.unpack = .finite s m e pos)
    (second : b.unpack = .finite t m' e' pos')
    (rounded : roundWithAccuracy Format.binary64 (s * t) (m * m') (e + e') .exact = u) :
    (a * b).unpack = (Float.Model.pack u).unpack := by
  change (Float.Model.pack (UnpackedFloat.mul Format.binary64 a.unpack b.unpack)).unpack = _
  rw [first, second, ← rounded]
  rfl

/-- From `2 ^ 53` up a number is rounded at once. -/
theorem toModel_ofNat_of_le (above : 2 ^ 53 ≤ n) :
    (Float.ofNat n).toModel =
      Float.Model.pack (roundWithAccuracy Format.binary64 .positive (n * 2 ^ 53) (-53) .exact) := by
  have least : ¬ (0 : Int) < -(2 ^ Format.binary64.exponentBits + n.log2) := by
    change ¬ (0 : Int) < -(2 ^ 11 + n.log2)
    omega
  have slow : (Float.ofNat n).toModel = Float.Model.ofScientific n 0 := by
    change (Float.ofScientific n false 0).toModel = _
    rw [Float.ofScientific, dif_neg fun bounds => Nat.not_lt.mpr above bounds.1]
    rfl
  rw [slow, Float.Model.ofScientific, UnpackedFloat.ofScientific, dif_neg (by omega),
    if_neg (by decide), if_neg least, if_pos (by decide)]
  change Float.Model.pack (roundWithAccuracy Format.binary64 .positive
    (n <<< 53 * 10 ^ (0 : Int).toNat) (-53) .exact) = _
  rw [Nat.shiftLeft_eq, Int.toNat_zero, Nat.pow_zero, Nat.mul_one]

/-- A float with a full mantissa, and the sign and the magnitude of the integer it stands for. -/
structure Normal (x : Float) (s : Sign) (n : Nat) (m : Nat) (e : Int) : Prop where
  full : 2 ^ 52 ≤ m
  bound : m < 2 ^ 53
  least : -1074 ≤ e
  most : e ≤ 971
  denotes : Denotes m e n
  unpacked : x.toModel.unpack = .finite s m e (Nat.lt_of_lt_of_le (Nat.two_pow_pos 52) full)

theorem Normal.integer? {x : Float} (normal : Normal x s n m e) :
    Number.integer? x = some (s.apply n) :=
  (Number.integer?_of_finite normal.unpacked).mpr ⟨n, normal.denotes, rfl⟩

theorem Normal.neg {x : Float} (normal : Normal x s n m e) : Normal x.neg (-s) n m e := by
  refine { normal with unpacked := ?_ }
  have unpacked := normal.unpacked
  change (Float.Model.pack x.toModel.unpack.neg).unpack = _
  rw [unpacked]
  exact unpack_pack_finite normal.full normal.bound normal.least normal.most

theorem Normal.ofInt {a : Int} (nonzero : a ≠ 0)
    (normal : Normal (Float.ofNat a.natAbs) .positive n m e) :
    ∃ s, Normal (Float.ofInt a) s n m e ∧ s.apply a.natAbs = a := by
  cases a with
  | ofNat k => exact ⟨.positive, normal, rfl⟩
  | negSucc k => exact ⟨.negative, normal.neg, rfl⟩

theorem normal_ofNat_of_lt (positive : 0 < n) (below : n < 2 ^ 53) :
    Normal (Float.ofNat n) .positive n (n * 2 ^ (52 - n.log2)) (n.log2 - 52) := by
  obtain ⟨small, full, bound⟩ := shift_to_full positive below
  refine ⟨full, bound, by omega, by omega, ?_, ?_⟩
  · have nonneg : ((n.log2 : Int) - 52).toNat = 0 := by omega
    have shift : (-((n.log2 : Int) - 52)).toNat = 52 - n.log2 := by omega
    rw [Denotes, nonneg, shift, Nat.pow_zero, Nat.mul_one]
  · have kept := roundWithAccuracy_mul (s := .positive) (e := n.log2 - 52)
      (Nat.mul_pos positive (Nat.two_pow_pos _)) full bound (by omega) 52
    rw [toModel_ofNat_of_lt below, unpack_mul (unpack_ofUInt64 positive below) unpack_one kept]
    exact unpack_pack_finite full bound (by omega) (by omega)

theorem exists_normal_ofNat_of_le (above : 2 ^ 53 ≤ n) (bound : n < 2 ^ 64) :
    ∃ r m e, Normal (Float.ofNat n) .positive r m e ∧ 2 ^ 53 ≤ r := by
  obtain ⟨k, log, large, few⟩ := exists_log2 above bound
  have cut : n * 2 ^ 53 / 2 ^ (k + 53) = n / 2 ^ k := by
    rw [Nat.pow_add, Nat.mul_div_mul_right _ _ (Nat.two_pow_pos 53)]
  obtain ⟨full, bound⟩ := cut_to_full log (by omega)
  rw [← cut] at full bound
  obtain ⟨m, e, pos, rounded, full, bound, least, most⟩ :=
    exists_roundWithAccuracy (s := .positive) (e := -53) full bound (by omega)
  refine ⟨m * 2 ^ e.toNat, m, e,
    ⟨full, bound, by omega, by omega, denotes_shift (by omega), ?_⟩, ?_⟩
  · rw [toModel_ofNat_of_le above, rounded]
    exact unpack_pack_finite full bound (by omega) (by omega)
  · calc 2 ^ 53 = 2 ^ 52 * 2 ^ 1 := by rfl
      _ ≤ _ := Nat.mul_le_mul full (Nat.pow_le_pow_right Nat.two_pos (by omega))

theorem exists_normal_ofNat_of_fits (positive : 0 < n) (bound : n < 2 ^ 64) (fits : Fits n) :
    ∃ m e, Normal (Float.ofNat n) .positive n m e := by
  obtain below | above := Nat.lt_or_ge n (2 ^ 53)
  · exact ⟨_, _, normal_ofNat_of_lt positive below⟩
  · obtain ⟨k, log, large, few⟩ := exists_log2 above bound
    obtain ⟨full, bound⟩ := cut_to_full log positive
    rw [Fits, log, Nat.add_sub_cancel_left] at fits
    have whole : n / 2 ^ k * 2 ^ k = n := Nat.div_mul_cancel (Nat.dvd_of_mod_eq_zero fits)
    refine ⟨n / 2 ^ k, k, full, bound, by omega, by omega, ?_, ?_⟩
    · have denotes := denotes_shift (m := n / 2 ^ k) (Int.natCast_nonneg k)
      rwa [Int.toNat_natCast, whole] at denotes
    · have kept := roundWithAccuracy_mul (s := .positive) (e := k) (by omega) full bound
        (by omega) (k + 53)
      have exponent : (k : Int) - (k + 53 : Nat) = -53 := by omega
      rw [Nat.pow_add, ← Nat.mul_assoc, whole, exponent] at kept
      rw [toModel_ofNat_of_le above, kept]
      exact unpack_pack_finite full bound (by omega) (by omega)

end Binary64

namespace Number

open Binary64

/-- An integer of 53 significant bits is converted exactly. -/
theorem integer?_ofInt {a : Int} (bound : a.natAbs < 2 ^ 64) (fits : Fits a.natAbs) :
    integer? (Float.ofInt a) = some a := by
  obtain rfl | nonzero := Decidable.em (a = 0)
  · decide
  · obtain ⟨m, e, normal⟩ := exists_normal_ofNat_of_fits (Int.natAbs_pos.mpr nonzero) bound fits
    obtain ⟨s, normal, value⟩ := normal.ofInt nonzero
    rw [normal.integer?, value]

theorem exists_integer?_ofInt {a : Int} (above : 2 ^ 53 ≤ a.natAbs) (bound : a.natAbs < 2 ^ 64) :
    ∃ b, integer? (Float.ofInt a) = some b ∧ 2 ^ 53 ≤ b.natAbs := by
  obtain ⟨r, m, e, normal, large⟩ := exists_normal_ofNat_of_le above bound
  obtain ⟨s, normal, value⟩ := normal.ofInt (by omega)
  exact ⟨_, normal.integer?, by rwa [natAbs_apply]⟩

theorem fits_of_integer? {x : Float} {a : Int} (stands : integer? x = some a) : Fits a.natAbs := by
  obtain ⟨s, -, rfl⟩ | ⟨s, m, e, pos, n, unpacked, denotes, rfl⟩ := unpack_of_integer? stands
  · rfl
  · rw [natAbs_apply]
    exact fits_of_denotes (canonical_of_unpack unpacked).bound denotes

end Number

end LispFrontEnd
