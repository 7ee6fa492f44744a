import EbpfIsp.Recsys.HitRates
import EbpfIsp.Recsys.NdpResults
import Mathlib.Algebra.BigOperators.Group.List.Lemmas

/-! # Hits expected and hits counted

The fill adds up the counts of the indices that it stores; `expected_hits` is
the number of lookups that these indices should serve in one epoch. In `ndp`
mode nothing is stored afterwards, so the caches serve the same lookups in every
epoch. The sum is too large when a table has more than 2000 distinct indices:
the store that evicts the most frequent index is counted, and so is that index.
-/

namespace EbpfIsp.Recsys
open Library

section Expected
variable {m : ℕ} {L : Lru ℕ (IntRow m)} {W : Table m}

variable (order : DictOrder) (lookups : List ℕ)

end Expected

section Serving
variable {m : ℕ} {L : Lru ℕ (IntRow m)} {s s' s'' : SlsState L.toCache} {h h' n n' : ℕ}

/-- From `s` to `s'` the caches have served `h` of `n` lookups, and kept their keys. -/
structure Served (L : Lru ℕ (IntRow m)) (h n : ℕ) (s s' : SlsState L.toCache) : Prop where
  same : ∀ i e, L.get? (s'.lru i) e = L.get? (s.lru i) e
  hits : s'.hits = s.hits + h
  lookups : s'.hits + s'.misses = s.hits + s.misses + n

theorem Served.refl : Served L 0 0 s s := ⟨fun _ _ => rfl, rfl, rfl⟩

theorem Served.trans (hs : Served L h n s s') (hs' : Served L h' n' s' s'') :
    Served L (h + h') (n + n') s s'' where
  same i e := (hs'.same i e).trans (hs.same i e)
  hits := by rw [hs'.hits, hs.hits, Nat.add_assoc]
  lookups := by rw [hs'.lookups, hs.lookups, Nat.add_assoc]

structure ServedLocal (L : Lru ℕ (IntRow m)) (h n : ℕ) (s s' : SlsState L.toCache) : Prop
    extends Served L h n s s' where
  localLookups : s'.localLookups = s.localLookups + n

theorem ServedLocal.trans (hs : ServedLocal L h n s s') (hs' : ServedLocal L h' n' s' s'') :
    ServedLocal L (h + h') (n + n') s s'' :=
  ⟨hs.toServed.trans hs'.toServed, by rw [hs'.localLookups, hs.localLookups, Nat.add_assoc]⟩

variable {lib : FlashRec} {qid : Device.CInt} {b g tables : ℕ}

end Serving

section Runs
variable {δ : Type} {m : ℕ} {L : Lru ℕ (IntRow m)} {lib : FlashRec} {tables b g : ℕ}
  {net : DlrmNet} {runNet : Workspace δ m → Py (Workspace δ m)} {batches : ℕ → Batch δ}

end Runs

end EbpfIsp.Recsys
