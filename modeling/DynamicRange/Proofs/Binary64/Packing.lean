import DynamicRange.Proofs.Binary64.Rounding

/-!
# Numbers in 64 bits

An operation packs its result into 64 bits, and the next operation unpacks it. What a word unpacks
to is canonical (`canonical_of_unpack`), and a canonical number survives being packed unless its
exponent is too great, when it is replaced by an infinity of its sign (`stored_finite`).
-/

namespace DynamicRange.Binary64

open Float.Model Float.Model.UnpackedFloat

/-- What is found where a result was stored. -/
def stored (u : UnpackedFloat) : UnpackedFloat :=
  UnpackedFloat.unpack Format.binary64 (UnpackedFloat.pack Format.binary64 u)

/-- What a float stands for. -/
def unpacked (x : Float) : UnpackedFloat := x.toModel.unpack

/-- The sign bit of a word is the sign that was packed. -/
theorem ofBitVec_unpackSign {f : Format} (s : Sign) (E : BitVec f.exponentBits)
    (M : BitVec f.mantissaBitsWithoutImplicit) :
    Sign.ofBitVec (unpackSign (packComponents f s E M)) = s := by
  have hbits : unpackSign (packComponents f s E M) = s.toBitVec := by
    ext i hi
    obtain rfl : i = 0 := by omega
    simp [unpackSign, packComponents, BitVec.getLsbD_append, BitVec.getElem_append]
  rw [hbits]
  cases s <;> rfl

/-- What a word stands for that has a sign, an exponent and a mantissa. -/
def ofFields (s : Sign) (E : BitVec 11) (M : BitVec 52) : UnpackedFloat :=
  if E = -1#_ then
    if M = 0#_ then .infinity s else .notANumber
  else if E = 0#_ then
    if h : M = 0#_ then .zero s
    else .finite s M.toNat (-1074) (by simpa [BitVec.toNat_pos, BitVec.pos_iff_ne_zero])
  else
    .finite s (2 ^ 52 + M.toNat) (E.toNat - 1075) (by positivity)

/-- A word stands for what its fields say. -/
theorem unpack_eq_ofFields (b : BitVec Format.binary64.numBits) :
    UnpackedFloat.unpack Format.binary64 b =
      ofFields (.ofBitVec (unpackSign b)) (unpackExponent b) (unpackMantissa b) := by
  have hdigit : ∀ M : BitVec 52, (1#1 ++ M).toNat = 2 ^ 52 + M.toNat := by
    intro M
    rw [BitVec.toNat_append, ← Nat.shiftLeft_add_eq_or_of_lt M.isLt]
    rfl
  have hbias : ((Format.binary64.exponentBias : ℤ) + Format.binary64.mantissaBitsWithoutImplicit) =
      1075 := rfl
  simp only [UnpackedFloat.unpack, ofFields, hdigit, hbias]
  split
  · rfl
  · split
    · next hzero =>
      split
      · rfl
      · simp only [hzero]
        rfl
    · rfl

/-- A word that was made of fields stands for what they say. -/
theorem unpack_packComponents (s : Sign) (E : BitVec 11) (M : BitVec 52) :
    UnpackedFloat.unpack Format.binary64 (packComponents Format.binary64 s E M) =
      ofFields s E M := by
  rw [unpack_eq_ofFields, ofBitVec_unpackSign, unpackExponent_packComponents,
    unpackMantissa_packComponents]

/-- The finite numbers that words stand for are canonical, and their exponents are bounded. -/
theorem canonical_of_unpack {b : BitVec Format.binary64.numBits} {s : Sign} {m : ℕ} {e : ℤ}
    {hm : 0 < m} (h : UnpackedFloat.unpack Format.binary64 b = .finite s m e hm) :
    Canonical m e ∧ e ≤ 971 := by
  rw [unpack_eq_ofFields] at h
  generalize unpackMantissa b = M at h
  generalize unpackExponent b = E at h
  have hM : M.toNat < 2 ^ 52 := M.isLt
  have hE : E.toNat < 2 ^ 11 := E.isLt
  unfold ofFields at h
  split at h
  · split at h <;> cases h
  next htop =>
  split at h
  · split at h
    · cases h
    · cases h
      exact ⟨⟨by omega, .inl rfl⟩, by norm_num⟩
  · next hzero =>
    have hE0 : E.toNat ≠ 0 := fun h0 => hzero (BitVec.eq_of_toNat_eq h0)
    have hE1 : E.toNat ≠ 2047 := fun h1 => htop (BitVec.eq_of_toNat_eq h1)
    cases h
    refine ⟨⟨by omega, ?_⟩, by omega⟩
    rcases eq_or_ne E.toNat 1 with hlowest | hhigher
    · exact .inl (by rw [hlowest]; rfl)
    · exact .inr ⟨by omega, Nat.le_add_right _ _⟩

/-- The fields of a number whose first digit is not stored. -/
theorem ofFields_normal (s : Sign) {m k : ℕ} (hm : 0 < m) (hlow : 2 ^ 52 ≤ m) (hlt : m < 2 ^ 53)
    (hk : k < 2046) :
    ofFields s (BitVec.ofNat 11 (k + 1)) (BitVec.ofNat 52 m) = .finite s m (k - 1074) hm := by
  have hE : (BitVec.ofNat 11 (k + 1)).toNat = k + 1 := Nat.mod_eq_of_lt (by omega)
  have hM : (BitVec.ofNat 52 m).toNat = m - 2 ^ 52 := by
    rw [BitVec.toNat_ofNat, Nat.mod_eq_sub_mod hlow, Nat.mod_eq_of_lt (by omega)]
  have hne : ∀ E : BitVec 11, E.toNat ≠ k + 1 → BitVec.ofNat 11 (k + 1) ≠ E :=
    fun E h heq => h (heq ▸ hE)
  rw [ofFields, if_neg (hne _ (by simp; omega)), if_neg (hne _ (by simp)),
    UnpackedFloat.finite.injEq]
  exact ⟨rfl, by rw [hM]; omega, by rw [hE]; push_cast; ring⟩

/-- The fields of a number that has fewer digits. -/
theorem ofFields_subnormal (s : Sign) {m : ℕ} (hm : 0 < m) (hlt : m < 2 ^ 52) :
    ofFields s 0#11 (BitVec.ofNat 52 m) = .finite s m (-1074) hm := by
  have hM : (BitVec.ofNat 52 m).toNat = m := Nat.mod_eq_of_lt hlt
  have hne : BitVec.ofNat 52 m ≠ 0#52 := fun h0 => hm.ne' (hM.symm.trans (congrArg _ h0))
  rw [ofFields, if_neg (by decide), if_pos rfl, dif_neg hne, UnpackedFloat.finite.injEq]
  exact ⟨rfl, hM, rfl⟩

/-- The fields of an infinity. -/
theorem ofFields_infinity (s : Sign) : ofFields s (-1#11) 0#52 = .infinity s := rfl

/-- A canonical number is found where it was stored, or an infinity if its exponent is too great. -/
theorem stored_finite (s : Sign) {m : ℕ} {e : ℤ} (hm : 0 < m) (hc : Canonical m e) :
    stored (.finite s m e hm) = if e ≤ 971 then .finite s m e hm else .infinity s := by
  obtain ⟨k, rfl⟩ : ∃ k : ℕ, e = k - 1074 :=
    ⟨(e + 1074).toNat, by have := hc.lastPlace.ge; omega⟩
  have hpack : UnpackedFloat.pack Format.binary64 (.finite s m (k - 1074) hm) =
      if 2046 ≤ k then packComponents Format.binary64 s (-1#11) 0#52
      else if m.log2 = 52 then
        packComponents Format.binary64 s (BitVec.ofNat 11 (k + 1)) (BitVec.ofNat 52 m)
      else packComponents Format.binary64 s 0#11 (BitVec.ofNat 52 m) := by
    have hbias : (k - 1074 + (1023 : ℕ) + (52 : ℕ) : ℤ).toNat = k + 1 := by omega
    have htop : 2 ^ 11 ≤ k + 1 + 1 ↔ 2046 ≤ k := by omega
    have hdigits : m.log2 + 1 = 53 ↔ m.log2 = 52 := by omega
    simp only [← htop, ← hdigits, ← hbias]
    rfl
  rw [stored, hpack]
  rcases le_or_gt 2046 k with hgreat | hsmall
  · rw [if_pos hgreat, if_neg (by omega), unpack_packComponents, ofFields_infinity]
  rw [if_neg hsmall.not_ge, if_pos (show (k - 1074 : ℤ) ≤ 971 by omega)]
  rcases eq_or_ne m.log2 52 with hlog | hlog
  · rw [if_pos hlog, unpack_packComponents,
      ofFields_normal s hm (hlog ▸ Nat.log2_self_le hm.ne') hc.lt hsmall]
  · have hlt : m < 2 ^ 52 := by
      by_contra hge
      have hfew := (Nat.log2_lt hm.ne').mpr hc.lt
      have hmany := (Nat.le_log2 hm.ne').mpr (not_lt.mp hge)
      omega
    -- A number of fewer digits is in the lowest place.
    obtain rfl : k = 0 := by have := hc.le; omega
    rw [if_neg hlog, unpack_packComponents, ofFields_subnormal s hm hlt]
    rfl

/-- Zeros and infinities are found where they were stored. -/
theorem stored_zero (s : Sign) : stored (.zero s) = .zero s := by cases s <;> rfl

theorem stored_infinity (s : Sign) : stored (.infinity s) = .infinity s := by cases s <;> rfl

end DynamicRange.Binary64
