import Mathlib.Tactic

/-! # Two signed words in one wider word

Extending a word with its sign and combining the result with another extended
word by `or` is how two parameters are put into one machine word. Without a
shift only the `or` of the words is left. With a shift the lower word comes
back, and the upper one comes back where the lower one is not negative.
-/

namespace EbpfIsp.Library
variable {w v : ℕ} {a b a' b' : BitVec w}

theorem setWidth_signExtend (hv : w ≤ v) (a : BitVec w) : (a.signExtend v).setWidth w = a := by
  apply BitVec.eq_of_getLsbD_eq
  intro i hi
  simp [BitVec.getElem_signExtend, hi, show i < v by omega]

theorem signExtend_inj (hv : w ≤ v) : a.signExtend v = b.signExtend v ↔ a = b := by
  constructor
  · intro h
    rw [← setWidth_signExtend hv a, h, setWidth_signExtend hv b]
  · rintro rfl
    rfl

/-- Without a shift the words are told apart by their `or` alone. -/
theorem or_signExtend_inj (hv : w ≤ v) :
    a.signExtend v ||| b.signExtend v = a'.signExtend v ||| b'.signExtend v ↔
      a ||| b = a' ||| b' := by
  rw [← BitVec.signExtend_or, ← BitVec.signExtend_or, signExtend_inj hv]

theorem setWidth_shiftLeft_or (hv : w ≤ v) (a b : BitVec w) :
    (a.signExtend v <<< w ||| b.signExtend v).setWidth w = b := by
  apply BitVec.eq_of_getLsbD_eq
  intro i hi
  simp [BitVec.getElem_signExtend, hi, show i < v by omega]

/-- The sign of the lower word covers the upper word. -/
theorem shiftLeft_or_of_msb (hb : b.msb = true) (a : BitVec w) :
    a.signExtend v <<< w ||| b.signExtend v = b.signExtend v := by
  apply BitVec.eq_of_getLsbD_eq
  intro i hi
  by_cases hlow : i < w
  · simp [hlow]
  · simp [BitVec.getElem_signExtend, hi, hlow, hb]

theorem setWidth_ushiftRight_shiftLeft_or (hv : w + w ≤ v) (hb : b.msb = false) (a : BitVec w) :
    ((a.signExtend v <<< w ||| b.signExtend v) >>> w).setWidth w = a := by
  apply BitVec.eq_of_getLsbD_eq
  intro i hi
  simp [BitVec.getElem_signExtend, hi, hb, show w + i < v by omega, show i < v by omega]

/-- With a shift two pairs of words collide exactly if they have the same lower word and,
where that is not negative, the same upper word. -/
theorem shiftLeft_or_inj (hv : w + w ≤ v) :
    a.signExtend v <<< w ||| b.signExtend v = a'.signExtend v <<< w ||| b'.signExtend v ↔
      b = b' ∧ (b.msb = false → a = a') := by
  constructor
  · intro h
    have hwv : w ≤ v := Nat.le_of_add_right_le hv
    have hlow : b = b' := by
      rw [← setWidth_shiftLeft_or hwv a b, h, setWidth_shiftLeft_or hwv]
    subst hlow
    refine ⟨rfl, fun hb => ?_⟩
    rw [← setWidth_ushiftRight_shiftLeft_or hv hb a, h, setWidth_ushiftRight_shiftLeft_or hv hb]
  · rintro ⟨rfl, hhigh⟩
    cases hb : b.msb with
    | true => rw [shiftLeft_or_of_msb hb, shiftLeft_or_of_msb hb]
    | false => rw [hhigh hb]

end EbpfIsp.Library
