import EbpfIsp.Library.Loop
import Mathlib.Tactic

/-! # Machine words that are summed up

An array of signed machine words that is only added to, together with the
operands of all additions made so far. If everything that is added is
non-negative, the exact totals never decrease. So an addition has left the
signed range exactly if one of the totals does not fit.
-/

namespace EbpfIsp.Library
variable {w : ℕ}

/-- The slots and the operands of the additions, the last one first. -/
structure Accumulators (w : ℕ) where
  slots : ℕ → BitVec w
  additions : List (BitVec w × BitVec w)

namespace Accumulators

def add (a : Accumulators w) (j : ℕ) (x : BitVec w) : Accumulators w where
  slots := Function.update a.slots j (a.slots j + x)
  additions := (a.slots j, x) :: a.additions

@[simp] theorem slots_add (a : Accumulators w) (j : ℕ) (x : BitVec w) :
    (a.add j x).slots = Function.update a.slots j (a.slots j + x) := rfl

/-- No addition has left the signed range. -/
def InRange (a : Accumulators w) : Prop :=
  ∀ p ∈ a.additions, -2 ^ (w - 1) ≤ p.1.toInt + p.2.toInt ∧ p.1.toInt + p.2.toInt < 2 ^ (w - 1)

/-- The slots hold the exact totals `P` modulo `2 ^ w`, and overflow shows in `P`. -/
structure Tracks (a : Accumulators w) (P : ℕ → ℕ) : Prop where
  slots : ∀ j, a.slots j = BitVec.ofNat w (P j)
  inRange : a.InRange ↔ ∀ j, P j < 2 ^ (w - 1)

theorem tracks_zero : Tracks (⟨fun _ => 0, []⟩ : Accumulators w) fun _ => 0 where
  slots _ := rfl
  inRange := ⟨fun _ _ => Nat.two_pow_pos _, fun _ _ hp => absurd hp List.not_mem_nil⟩

theorem toInt_of_lt (hw : 0 < w) {x : BitVec w} (hx : x.toNat < 2 ^ (w - 1)) :
    x.toInt = x.toNat := by
  apply BitVec.toInt_eq_toNat_of_lt
  have hpow : 2 ^ w = 2 * 2 ^ (w - 1) := by
    rw [← Nat.pow_succ', Nat.succ_eq_add_one, Nat.sub_add_cancel hw]
  omega

theorem toInt_ofNat_of_lt (hw : 0 < w) {k : ℕ} (hk : k < 2 ^ (w - 1)) :
    (BitVec.ofNat w k).toInt = k := by
  have hlt : k < 2 ^ w := hk.trans_le (Nat.pow_le_pow_right (by decide) (Nat.sub_le w 1))
  have hval : (BitVec.ofNat w k).toNat = k := by rw [BitVec.toNat_ofNat, Nat.mod_eq_of_lt hlt]
  rw [toInt_of_lt hw (by rw [hval]; exact hk), hval]

theorem inRange_add (a : Accumulators w) (j : ℕ) (x : BitVec w) : (a.add j x).InRange ↔
    (-2 ^ (w - 1) ≤ (a.slots j).toInt + x.toInt ∧ (a.slots j).toInt + x.toInt < 2 ^ (w - 1)) ∧
      a.InRange :=
  List.forall_mem_cons

/-- The totals fit after a step exactly if they did before and the new one does. -/
theorem forall_update_lt_iff {P : ℕ → ℕ} {j x bound : ℕ} :
    (∀ k, Function.update P j (P j + x) k < bound) ↔ P j + x < bound ∧ ∀ k, P k < bound := by
  constructor
  · intro h
    have hj := h j
    rw [Function.update_self] at hj
    refine ⟨hj, fun k => ?_⟩
    by_cases hk : k = j
    · subst hk
      omega
    · have hother := h k
      rwa [Function.update_of_ne hk] at hother
  · rintro ⟨hj, hP⟩ k
    by_cases hk : k = j
    · subst hk
      rwa [Function.update_self]
    · rw [Function.update_of_ne hk]
      exact hP k

theorem Tracks.add (hw : 0 < w) {a : Accumulators w} {P : ℕ → ℕ} (h : a.Tracks P) (j : ℕ)
    {x : BitVec w} (hx : x.toNat < 2 ^ (w - 1)) :
    (a.add j x).Tracks (Function.update P j (P j + x.toNat)) := by
  constructor
  · intro k
    by_cases hk : k = j
    · subst hk
      rw [slots_add, Function.update_self, Function.update_self, h.slots, BitVec.ofNat_add,
        BitVec.ofNat_toNat, BitVec.setWidth_eq]
    · rw [slots_add, Function.update_of_ne hk, Function.update_of_ne hk, h.slots]
  · rw [inRange_add, h.inRange, forall_update_lt_iff]
    apply and_congr_left
    intro hP
    have hsum : (a.slots j).toInt + x.toInt = ((P j + x.toNat : ℕ) : ℤ) := by
      rw [h.slots, toInt_ofNat_of_lt hw (hP j), toInt_of_lt hw hx, Nat.cast_add]
    have hpow : (0 : ℤ) < 2 ^ (w - 1) := by positivity
    rw [hsum, and_iff_right (by omega)]
    exact_mod_cast Iff.rfl

theorem Tracks.addRow (hw : 0 < w) {a : Accumulators w} {P : ℕ → ℕ} (h : a.Tracks P)
    {v : ℕ → BitVec w} {n : ℕ} (hv : ∀ j < n, (v j).toNat < 2 ^ (w - 1)) :
    (forPure n (fun j a => a.add j (v j)) a).Tracks
      fun k => P k + if k < n then (v k).toNat else 0 := by
  apply forPure_invariant fun j (a : Accumulators w) =>
    a.Tracks fun k => P k + if k < j then (v k).toNat else 0
  · simpa using h
  · intro j hj a ha
    convert ha.add hw j (hv j hj) using 1
    funext k
    by_cases hk : k = j
    · subst hk
      simp
    · have hiff : k < j + 1 ↔ k < j := by omega
      rw [Function.update_of_ne hk]
      simp only [hiff]

end Accumulators

end EbpfIsp.Library
