import Mathlib.Data.Nat.Count
import Mathlib.Algebra.BigOperators.Group.Finset.Basic
import Mathlib.Algebra.Order.BigOperators.Group.Finset
import Mathlib.Tactic

/-! # Counting in chunks

Positions are cut into chunks of `size`, and in each chunk the first `m`
positions are looked at. What is missed are the hits in the remaining
`size - m` positions of each chunk, the gap. In a search for a word the gap
holds the occurrences that cross a chunk boundary.
-/

namespace EbpfIsp.Library
variable (p : ℕ → Prop) [DecidablePred p] (size m : ℕ)

/-- Hits among the first `m` positions of each of `n` chunks. -/
def chunkCount (n : ℕ) : ℕ := ∑ c ∈ Finset.range n, Nat.count (fun i => p (c * size + i)) m

def gapCount (n : ℕ) : ℕ :=
  ∑ c ∈ Finset.range n, Nat.count (fun i => p (c * size + m + i)) (size - m)

theorem chunkCount_succ (n : ℕ) : chunkCount p size m (n + 1) =
    chunkCount p size m n + Nat.count (fun i => p (n * size + i)) m :=
  Finset.sum_range_succ _ n

theorem gapCount_succ (n : ℕ) : gapCount p size m (n + 1) =
    gapCount p size m n + Nat.count (fun i => p (n * size + m + i)) (size - m) :=
  Finset.sum_range_succ _ n

variable {size m}

/-- Chunks and gaps make up everything before the next chunk. -/
theorem chunkCount_add_gapCount (hm : m ≤ size) (n : ℕ) :
    chunkCount p size m n + gapCount p size m n = Nat.count p (n * size) := by
  induction n with
  | zero => simp [chunkCount, gapCount]
  | succ n ih =>
    have hsplit : (n + 1) * size = n * size + m + (size - m) := by
      rw [Nat.succ_mul]
      omega
    rw [hsplit, Nat.count_add, Nat.count_add, ← ih, chunkCount_succ, gapCount_succ]
    omega

/-- One scan up to the last position of chunk `n` finds the gaps before it too. -/
theorem count_eq_chunkCount_add_gapCount (hm : m ≤ size) (n : ℕ) :
    Nat.count p (n * size + m) = chunkCount p size m (n + 1) + gapCount p size m n := by
  rw [Nat.count_add, ← chunkCount_add_gapCount p hm, chunkCount_succ]
  omega

variable {p}

theorem gapCount_eq_zero_iff {n : ℕ} :
    gapCount p size m n = 0 ↔ ∀ c < n, ∀ k < size - m, ¬ p (c * size + m + k) := by
  simp only [gapCount, Finset.sum_eq_zero_iff, Finset.mem_range, Nat.count_iff_forall_not]

theorem sum_range_chunks {M : Type*} [AddCommMonoid M] (f : ℕ → M) (size n : ℕ) :
    ∑ c ∈ Finset.range n, ∑ i ∈ Finset.range size, f (c * size + i) =
      ∑ k ∈ Finset.range (n * size), f k := by
  induction n with
  | zero => simp
  | succ n ih => rw [Finset.sum_range_succ, ih, Nat.succ_mul, Finset.sum_range_add]

end EbpfIsp.Library
