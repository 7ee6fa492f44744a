import Mathlib.Algebra.BigOperators.Group.Finset.Basic
import Mathlib.Tactic

/-! # Counted loops over bounded memory

A region is a fixed number of cells. A load or a store outside it has no
result, so a loop that returns at all has touched its own cells only. Loops run
in any monad of failures. The two rules below are total: the invariant rule
yields the final state, and the span rule gives the closed form of a loop that
adds to consecutive cells.
-/

namespace EbpfIsp.Library

abbrev Region (n : ℕ) (α : Type*) := Fin n → α

theorem rowMajor_lt {rows cols i j : ℕ} (hi : i < rows) (hj : j < cols) :
    i * cols + j < rows * cols :=
  calc i * cols + j < (i + 1) * cols := by rw [Nat.add_mul]; omega
    _ ≤ rows * cols := Nat.mul_le_mul_right _ hi

namespace Region

variable {n : ℕ} {α : Type*}

/-- Read cell `i`; there is no result outside the region. -/
def load (m : Region n α) (i : ℕ) : Option α :=
  if h : i < n then some (m ⟨i, h⟩) else none

def store (m : Region n α) (i : ℕ) (a : α) : Option (Region n α) :=
  if h : i < n then some (Function.update m ⟨i, h⟩ a) else none

def addAt [Add α] (m : Region n α) (i : ℕ) (a : α) : Option (Region n α) :=
  (m.load i).bind fun b => m.store i (b + a)

theorem load_of_lt (m : Region n α) {i : ℕ} (h : i < n) : m.load i = some (m ⟨i, h⟩) := by
  simp [load, h]

theorem load_eq_some_getD (m : Region n α) {i : ℕ} (h : i < n) (a : α) :
    m.load i = some ((m.load i).getD a) := by
  rw [load_of_lt m h, Option.getD_some]

theorem load_eq_none (m : Region n α) {i : ℕ} (h : n ≤ i) : m.load i = none := by
  simp [load, Nat.not_lt.mpr h]

theorem load_isSome {m : Region n α} {i : ℕ} (h : (m.load i).isSome) : i < n := by
  by_contra hn
  simp [load, hn] at h

theorem store_of_lt (m : Region n α) {i : ℕ} (h : i < n) (a : α) :
    m.store i a = some (Function.update m ⟨i, h⟩ a) := by
  simp [store, h]

theorem store_isSome {m : Region n α} {i : ℕ} {a : α} (h : (m.store i a).isSome) : i < n := by
  by_contra hn
  simp [store, hn] at h

theorem addAt_isSome [Add α] {m : Region n α} {i : ℕ} {a : α} (h : (m.addAt i a).isSome) :
    i < n := by
  by_contra hn
  simp [addAt, load, hn] at h

theorem addAt_of_lt [Add α] (m : Region n α) {i : ℕ} (h : i < n) (a : α) :
    m.addAt i a = some (Function.update m ⟨i, h⟩ (m ⟨i, h⟩ + a)) := by
  simp [addAt, load, store, h]

end Region

section Loop
variable {σ : Type} {M : Type → Type} [Monad M]

/-- `for (i = 0; i < n; i++)` over a state; an iteration that fails ends the loop. -/
def forLoop : ℕ → (ℕ → σ → M σ) → σ → M σ
  | 0, _, s => pure s
  | n + 1, body, s => forLoop n body s >>= body n

/-- Total loop rule: an invariant that every iteration advances holds at the end. -/
theorem forLoop_invariant [LawfulMonad M] (I : ℕ → σ → Prop) (n : ℕ) (body : ℕ → σ → M σ) (s : σ)
    (hinit : I 0 s)
    (hstep : ∀ i < n, ∀ t, I i t → ∃ t', body i t = pure t' ∧ I (i + 1) t') :
    ∃ t, forLoop n body s = pure t ∧ I n t := by
  induction n with
  | zero => exact ⟨s, rfl, hinit⟩
  | succ n ih =>
    obtain ⟨t, ht, hI⟩ := ih (fun i hi => hstep i (Nat.lt_succ_of_lt hi))
    obtain ⟨t', ht', hI'⟩ := hstep n (Nat.lt_succ_self n) t hI
    exact ⟨t', by rw [forLoop, ht, pure_bind, ht'], hI'⟩

/-- A loop whose states are known in advance. -/
theorem forLoop_eq [LawfulMonad M] (f : ℕ → σ) (n : ℕ) (body : ℕ → σ → M σ)
    (hstep : ∀ i < n, body i (f i) = pure (f (i + 1))) :
    forLoop n body (f 0) = pure (f n) := by
  obtain ⟨t, ht, rfl⟩ := forLoop_invariant (fun i t => t = f i) n body (f 0) rfl
    (fun i hi t hI => ⟨f (i + 1), by rw [hI, hstep i hi], rfl⟩)
  exact ht

theorem bind_eq_ok {ε α β : Type} {x : Except ε α} {f : α → Except ε β} {b : β}
    (h : x >>= f = .ok b) : ∃ a, x = .ok a ∧ f a = .ok b := by
  cases x with
  | error e => cases h
  | ok a => exact ⟨a, rfl, h⟩

/-- Partial loop rule: what the iterations preserve holds if the loop returns. -/
theorem forLoop_ok {ε : Type} (I : ℕ → σ → Prop) {n : ℕ} {body : ℕ → σ → Except ε σ} {s t : σ}
    (hloop : forLoop n body s = .ok t) (hinit : I 0 s)
    (hstep : ∀ i < n, ∀ s s', I i s → body i s = .ok s' → I (i + 1) s') : I n t := by
  induction n generalizing t with
  | zero =>
    obtain rfl : s = t := by simpa [forLoop, pure, Except.pure] using hloop
    exact hinit
  | succ n ih =>
    obtain ⟨t', ht', hbody⟩ := bind_eq_ok hloop
    exact hstep n (Nat.lt_succ_self n) t' t
      (ih ht' fun i hi => hstep i (Nat.lt_succ_of_lt hi)) hbody

/-- The first iteration that fails ends the loop. -/
theorem forLoop_error {ε : Type} {body : ℕ → σ → Except ε σ} {s t : σ} {e : ε} {k n : ℕ}
    (hk : forLoop k body s = .ok t) (herr : body k t = .error e) (hn : k < n) :
    forLoop n body s = .error e := by
  induction n with
  | zero => omega
  | succ n ih =>
    rcases Nat.lt_succ_iff_lt_or_eq.mp hn with hlt | rfl
    · rw [forLoop, ih hlt]
      rfl
    · rw [forLoop, hk]
      exact herr

section OneError
variable {ε : Type} {n : ℕ} {body : ℕ → σ → Except ε σ} {e : ε}
  (hbody : ∀ i < n, ∀ s, (∃ t, body i s = .ok t) ∨ body i s = .error e)
include hbody

/-- Iterations that raise nothing but `e`. -/
theorem forLoop_ok_or_error (s : σ) :
    (∃ t, forLoop n body s = .ok t) ∨ forLoop n body s = .error e := by
  induction n with
  | zero => exact .inl ⟨s, rfl⟩
  | succ n ih =>
    rw [forLoop]
    rcases ih fun i hi => hbody i (Nat.lt_succ_of_lt hi) with ⟨t, ht⟩ | herr
    · rw [ht]
      exact hbody n (Nat.lt_succ_self n) t
    · right
      rw [herr]
      rfl

theorem forLoop_error_of_lt {i : ℕ} (hi : i < n) (herr : ∀ s, body i s = .error e) (s : σ) :
    forLoop n body s = .error e := by
  induction n with
  | zero => omega
  | succ n ih =>
    have hpre := fun i hi => hbody i (Nat.lt_succ_of_lt hi)
    rw [forLoop]
    rcases forLoop_ok_or_error hpre s with ⟨t, ht⟩ | h
    · rcases Nat.lt_succ_iff_lt_or_eq.mp hi with hlt | rfl
      · rw [ih hpre hlt]
        rfl
      · rw [ht]
        exact herr t
    · rw [h]
      rfl

end OneError

theorem forLoop_isSome {n : ℕ} {body : ℕ → σ → Option σ} {s : σ}
    (h : (forLoop n body s).isSome) : ∀ i < n, ∃ t, (body i t).isSome := by
  induction n with
  | zero => simp
  | succ n ih =>
    rw [forLoop] at h
    cases hn : forLoop n body s with
    | none => simp [hn] at h
    | some t =>
      intro i hi
      rcases Nat.lt_succ_iff_lt_or_eq.mp hi with hlt | rfl
      · exact ih (by simp [hn]) i hlt
      · exact ⟨t, by simpa [hn] using h⟩

end Loop

section Break

/-- `for (; k > 0; k--, j++) if (stop(j)) break;`, with the final value of `j`. -/
def forBreak (stop : ℕ → Option Bool) : ℕ → ℕ → Option ℕ
  | 0, j => some j
  | k + 1, j => (stop j).bind fun b => if b then some j else forBreak stop k (j + 1)

/-- The loop reaches its bound exactly when nothing stops it. -/
theorem forBreak_spec (stop : ℕ → Option Bool) (P : ℕ → Prop) [DecidablePred P] {k j : ℕ}
    (hstop : ∀ i, j ≤ i → i < j + k → stop i = some (decide (¬ P i))) :
    ∃ r, forBreak stop k j = some r ∧ (r = j + k ↔ ∀ i, j ≤ i → i < j + k → P i) := by
  induction k generalizing j with
  | zero =>
    refine ⟨j, rfl, ?_⟩
    simp only [Nat.add_zero, true_iff]
    omega
  | succ k ih =>
    rw [forBreak, hstop j le_rfl (by omega), Option.bind_some]
    by_cases hj : P j
    · obtain ⟨r, hr, hiff⟩ := ih (j := j + 1) (fun i hi hk => hstop i (by omega) (by omega))
      refine ⟨r, by simpa [hj] using hr, ?_⟩
      rw [show j + (k + 1) = j + 1 + k by omega, hiff]
      constructor
      · intro h i hi hk
        by_cases hij : i = j
        · subst hij
          exact hj
        · exact h i (by omega) hk
      · intro h i hi hk
        exact h i (by omega) hk
    · refine ⟨j, by simp [hj], ?_⟩
      constructor
      · intro h
        omega
      · intro h
        exact absurd (h j le_rfl (by omega)) hj

end Break

section Pure
variable {σ : Type}

def forPure : ℕ → (ℕ → σ → σ) → σ → σ
  | 0, _, s => s
  | n + 1, body, s => body n (forPure n body s)

theorem forPure_eq (f : ℕ → σ) (n : ℕ) (body : ℕ → σ → σ)
    (hstep : ∀ i < n, body i (f i) = f (i + 1)) : forPure n body (f 0) = f n := by
  induction n with
  | zero => rfl
  | succ n ih =>
    rw [forPure, ih fun i hi => hstep i (Nat.lt_succ_of_lt hi), hstep n (Nat.lt_succ_self n)]

theorem forPure_invariant (I : ℕ → σ → Prop) (n : ℕ) (body : ℕ → σ → σ) (s : σ) (hinit : I 0 s)
    (hstep : ∀ i < n, ∀ s, I i s → I (i + 1) (body i s)) : I n (forPure n body s) := by
  induction n with
  | zero => exact hinit
  | succ n ih =>
    exact hstep n (Nat.lt_succ_self n) _ (ih fun i hi => hstep i (Nat.lt_succ_of_lt hi))

/-- A view of the state that every iteration respects is respected by the loop. -/
theorem forPure_map {τ : Type} (g : σ → τ) (n : ℕ) (body : ℕ → σ → σ) (body' : ℕ → τ → τ) (s : σ)
    (h : ∀ i s, g (body i s) = body' i (g s)) : g (forPure n body s) = forPure n body' (g s) := by
  induction n with
  | zero => rfl
  | succ n ih => rw [forPure, h, ih, forPure]

end Pure

section Fill
variable {α : Type}

def fill (v : ℕ → α) : ℕ → (ℕ → α) → ℕ → α
  | 0, buf => buf
  | n + 1, buf => Function.update (fill v n buf) n (v n)

theorem fill_apply (v : ℕ → α) (n : ℕ) (buf : ℕ → α) (k : ℕ) :
    fill v n buf k = if k < n then v k else buf k := by
  induction n with
  | zero => simp [fill]
  | succ n ih =>
    by_cases h : k = n
    · subst h
      simp [fill]
    · have hiff : k < n + 1 ↔ k < n := by omega
      rw [fill, Function.update_of_ne h, ih]
      simp only [hiff]

end Fill

section Span
variable {α : Type} [AddCommMonoid α] {n : ℕ}

/-- The cells of `m` after the first `k` values of `v` were added from `base` on. -/
def addSpan (m : Region n α) (base k : ℕ) (v : ℕ → α) : Region n α :=
  fun w => m w + if base ≤ w.val ∧ w.val < base + k then v (w.val - base) else 0

theorem addSpan_zero (m : Region n α) (base : ℕ) (v : ℕ → α) : addSpan m base 0 v = m := by
  funext w
  rw [addSpan, if_neg (by omega), add_zero]

theorem addSpan_succ (m : Region n α) (base k : ℕ) (v : ℕ → α) (h : base + k < n) :
    (addSpan m base k v).addAt (base + k) (v k) = some (addSpan m base (k + 1) v) := by
  rw [Region.addAt_of_lt _ h]
  congr 1
  funext w
  by_cases hw : w = ⟨base + k, h⟩
  · subst hw
    simp [addSpan]
  · have hv : w.val ≠ base + k := fun he => hw (Fin.ext he)
    have hiff : (base ≤ w.val ∧ w.val < base + (k + 1)) ↔ (base ≤ w.val ∧ w.val < base + k) := by
      omega
    rw [Function.update_of_ne hw]
    simp only [addSpan, hiff]

/-- A loop that adds its `j`-th value to cell `base + j`. -/
theorem forLoop_addSpan (m : Region n α) (base k : ℕ) (dst : ℕ → ℕ) (src : ℕ → Option α)
    (v : ℕ → α) (hk : base + k ≤ n) (hdst : ∀ j < k, dst j = base + j)
    (hsrc : ∀ j < k, src j = some (v j)) :
    forLoop k (fun j m => (src j).bind fun a => m.addAt (dst j) a) m =
      some (addSpan m base k v) := by
  have h := forLoop_eq (fun j => addSpan m base j v) k
    (fun j m => (src j).bind fun a => m.addAt (dst j) a) (fun j hj => by
      rw [hsrc j hj, hdst j hj]
      exact addSpan_succ m base j v (by omega))
  rwa [addSpan_zero] at h

end Span

end EbpfIsp.Library
