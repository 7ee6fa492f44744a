import EbpfIsp.Device.Nvme
import EbpfIsp.Library.Rows

/-! # The embedding kernel

`embedding32.c` and `embedding64.c` differ in the vector length and the value
they return. Both add one row of the data block to one result slot of the map
page. The row is selected by the embedding id modulo the rows of a block, the
slot by the result id.
-/

namespace EbpfIsp.Kernels
open Library Device

/-- Words of one 4096-byte page. -/
abbrev Page := Region 1024 CInt

/-- First word of the row:
`vector_length * (embedding_id % (4096 / (attribute_size * vector_length)))`. -/
def targetVector (vectorLength : ℕ) (embeddingId : CInt) : ℕ :=
  vectorLength * (embeddingId.toNat % (4096 / (4 * vectorLength)))

/-- First word of the slot; the product with the `unsigned` vector length is unsigned. -/
def mapPtr (vectorLength : ℕ) (resultId : CInt) : ℕ :=
  vectorLength * resultId.toNat % 2 ^ 32

/-- `embedding(ctx)` for one vector length and return value. -/
def embedding (vectorLength : ℕ) (ret : CInt) : Kernel 1024 CInt :=
  fun resultId embeddingId _ data mapPage =>
    (forLoop vectorLength (fun i page =>
      (data.load (targetVector vectorLength embeddingId + i)).bind fun x =>
        page.addAt (mapPtr vectorLength resultId + i) x) mapPage).map fun page => (ret, page)

def embedding32 : Kernel 1024 CInt := embedding 32 0

def embedding64 : Kernel 1024 CInt := embedding 64 4

section Spec
variable {vl : ℕ} {ret rid eid : CInt}

theorem mapPtr_of_lt (h : vl * rid.toNat < 2 ^ 32) : mapPtr vl rid = vl * rid.toNat :=
  Nat.mod_eq_of_lt h

theorem targetVector_eq (vl : ℕ) (eid : CInt) :
    targetVector vl eid = vl * (eid.toNat % (1024 / vl)) := by
  rw [targetVector, show (4096 : ℕ) = 4 * 1024 from rfl, Nat.mul_div_mul_left _ _ (by decide)]

theorem targetVector_end_le (hpos : 0 < vl) (hle : vl ≤ 1024) (eid : CInt) :
    targetVector vl eid + vl ≤ 1024 := by
  rw [targetVector_eq]
  exact row_end_le hpos hle eid.toNat

theorem targetVector_add_le (hvl : vl ∣ 1024) (eid : CInt) : targetVector vl eid + vl ≤ 1024 :=
  targetVector_end_le (Nat.pos_of_dvd_of_pos hvl (by decide)) (Nat.le_of_dvd (by decide) hvl) eid

/-- A kernel run whose row and slot are in range adds the row to the slot. -/
theorem embedding_eq {n : ℕ} (data : Region n CInt) (page : Page) (x : ℕ → CInt)
    (hdst : mapPtr vl rid + vl ≤ 1024)
    (hsrc : ∀ i < vl, data.load (targetVector vl eid + i) = some (x i)) :
    embedding vl ret rid eid n data page = some (ret, addSpan page (mapPtr vl rid) vl x) := by
  rw [embedding, forLoop_addSpan page (mapPtr vl rid) vl (fun i => mapPtr vl rid + i) _ x hdst
    (fun _ _ => rfl) hsrc]
  rfl

/-- The kernel has a result exactly when its row lies in the data and its slot in the map page. -/
theorem embedding_isSome_iff {n : ℕ} (hvl : 0 < vl) (data : Region n CInt) (page : Page) :
    (embedding vl ret rid eid n data page).isSome ↔
      targetVector vl eid + vl ≤ n ∧ mapPtr vl rid + vl ≤ 1024 := by
  constructor
  · intro h
    rw [embedding, Option.isSome_map] at h
    -- the last iteration touches the last word of the row and of the slot
    obtain ⟨t, ht⟩ := forLoop_isSome h (vl - 1) (by omega)
    cases hload : data.load (targetVector vl eid + (vl - 1)) with
    | none => simp [hload] at ht
    | some x =>
      rw [hload, Option.bind_some] at ht
      have hsome : (data.load (targetVector vl eid + (vl - 1))).isSome := by simp [hload]
      have hsrc := Region.load_isSome hsome
      have hdst := Region.addAt_isSome ht
      omega
  · rintro ⟨hsrc, hdst⟩
    rw [embedding_eq data page (fun i => (data.load (targetVector vl eid + i)).getD 0) hdst]
    · rfl
    · intro i hi
      rw [data.load_of_lt (by omega)]
      rfl

end Spec

end EbpfIsp.Kernels
