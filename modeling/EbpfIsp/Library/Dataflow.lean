import EbpfIsp.Library.Loop
import Mathlib.Data.List.Perm.Basic
import Mathlib.Logic.Function.Basic

/-! # Nets of operators on named blobs

An operator reads blobs by name and writes blobs by name. An assignment of
values to all blobs solves a net if every operator maps the values of its
inputs to the values of its outputs. A net run in any order in which no
operator comes after a reader of its outputs ends in the solution. If every blob
has one writer, a run that succeeds leaves a solution, so all orders agree.
-/

namespace EbpfIsp.Library

section Folds
variable {ε α σ : Type} {f : σ → α → Except ε σ} {l : List α} {s t u : σ}

/-- Steps that succeed and keep an invariant do so one after the other. -/
theorem foldlM_invariant (I : σ → Prop) (hstep : ∀ a ∈ l, ∀ s, I s → ∃ t, f s a = .ok t ∧ I t)
    (hs : I s) : ∃ t, l.foldlM f s = .ok t ∧ I t := by
  induction l generalizing s with
  | nil => exact ⟨s, rfl, hs⟩
  | cons a l ih =>
    rw [List.forall_mem_cons] at hstep
    obtain ⟨s₁, hfirst, hs₁⟩ := hstep.1 s hs
    rw [List.foldlM_cons, hfirst]
    exact ih hstep.2 hs₁

theorem foldlM_append_ok (hl : l.foldlM f s = .ok t) {a : α} (ha : f t a = .ok u) :
    (l ++ [a]).foldlM f s = .ok u := by
  rw [List.foldlM_append, hl]
  change (f t a >>= pure) = _
  rw [ha]
  rfl

end Folds

structure OpDef (K N : Type) where
  kind : K
  inputs : List N
  outputs : List N
  deriving DecidableEq

namespace Dataflow

variable {K N N' V E : Type}

def rename (f : N → N') (op : OpDef K N) : OpDef K N' :=
  ⟨op.kind, op.inputs.map f, op.outputs.map f⟩

section Run
variable [DecidableEq N] (kernel : K → List V → Except E (List V)) (missing : N → E)

def fetch (ws : N → Option V) (b : N) : Except E V :=
  match ws b with
  | some v => .ok v
  | none => .error (missing b)

def store (ws : N → Option V) (names : List N) (vs : List V) : N → Option V :=
  (names.zip vs).foldl (fun ws p => Function.update ws p.1 (some p.2)) ws

def runOp (ws : N → Option V) (op : OpDef K N) : Except E (N → Option V) := do
  let xs ← op.inputs.mapM (fetch missing ws)
  let ys ← kernel op.kind xs
  return store ws op.outputs ys

def runOps (ops : List (OpDef K N)) (ws : N → Option V) : Except E (N → Option V) :=
  ops.foldlM (runOp kernel missing) ws

end Run

/-- Every input is known or an output of an earlier operator. -/
def Complete (known : N → Prop) : List (OpDef K N) → Prop
  | [] => True
  | op :: ops => (∀ b ∈ op.inputs, known b) ∧ Complete (fun b => known b ∨ b ∈ op.outputs) ops

instance decidableComplete [DecidableEq N] (known : N → Prop) [DecidablePred known] :
    (ops : List (OpDef K N)) → Decidable (Complete known ops)
  | [] => isTrue trivial
  | op :: ops =>
    have := decidableComplete (fun b => known b ∨ b ∈ op.outputs) ops
    inferInstanceAs (Decidable (_ ∧ _))

section Store
variable [DecidableEq N] {ws W : N → Option V} {names : List N} {vs : List V} {b : N}

theorem store_of_notMem (h : b ∉ names) : store ws names vs b = ws b := by
  induction names generalizing ws vs with
  | nil => rfl
  | cons n names ih =>
    cases vs with
    | nil => rfl
    | cons v vs =>
      rw [List.mem_cons, not_or] at h
      change store (Function.update ws n (some v)) names vs b = ws b
      rw [ih h.2, Function.update_of_ne h.1]

/-- Where `W` has the stored values, the stored values are those of `W`. -/
theorem store_of_mem (hvs : names.map W = vs.map some) (h : b ∈ names) :
    store ws names vs b = W b := by
  induction names generalizing ws vs with
  | nil => cases h
  | cons n names ih =>
    cases vs with
    | nil => cases hvs
    | cons v vs =>
      rw [List.map_cons, List.map_cons, List.cons.injEq] at hvs
      change store (Function.update ws n (some v)) names vs b = W b
      by_cases hmem : b ∈ names
      · exact ih hvs.2 hmem
      · obtain rfl := (List.mem_cons.mp h).resolve_right hmem
        rw [store_of_notMem hmem, Function.update_self, hvs.1]

theorem map_store (hnodup : names.Nodup) (hlen : vs.length = names.length) :
    names.map (store ws names vs) = vs.map some := by
  induction names generalizing ws vs with
  | nil =>
    obtain rfl := List.length_eq_zero_iff.mp hlen
    rfl
  | cons n names ih =>
    cases vs with
    | nil => cases hlen
    | cons v vs =>
      rw [List.nodup_cons] at hnodup
      change store (Function.update ws n (some v)) names vs n ::
        names.map (store (Function.update ws n (some v)) names vs) = _
      rw [store_of_notMem hnodup.1, Function.update_self, ih hnodup.2 (Nat.succ.inj hlen)]
      rfl

omit [DecidableEq N] in
theorem mapM_fetch {missing : N → E} {xs : List V} (h : names.map ws = xs.map some) :
    names.mapM (fetch missing ws) = .ok xs := by
  induction names generalizing xs with
  | nil =>
    obtain rfl : xs = [] := by simpa using h
    rfl
  | cons n names ih =>
    cases xs with
    | nil => cases h
    | cons x xs =>
      rw [List.map_cons, List.map_cons, List.cons.injEq] at h
      rw [List.mapM_cons, ih h.2]
      simp only [fetch, h.1]
      rfl

omit [DecidableEq N] in
theorem map_eq_of_mapM_fetch {missing : N → E} {xs : List V}
    (h : names.mapM (fetch missing ws) = .ok xs) : names.map ws = xs.map some := by
  induction names generalizing xs with
  | nil =>
    cases h
    rfl
  | cons n names ih =>
    rw [List.mapM_cons] at h
    cases hn : ws n with
    | none =>
      simp only [fetch, hn] at h
      cases h
    | some v =>
      simp only [fetch, hn] at h
      obtain ⟨vs, hvs, hxs⟩ := bind_eq_ok (show (names.mapM (fetch missing ws) >>=
        fun vs => pure (v :: vs)) = .ok xs from h)
      cases hxs
      rw [List.map_cons, List.map_cons, hn, ih hvs]

end Store

section Solves
variable {kernel : K → List V → Except E (List V)} {ops ops' l : List (OpDef K N)}
  {W : N → Option V}

/-- The values of the outputs are computed from the values of the inputs. -/
def SolvesOp (kernel : K → List V → Except E (List V)) (W : N → Option V) (op : OpDef K N) :
    Prop :=
  ∃ xs ys, op.inputs.map W = xs.map some ∧ kernel op.kind xs = .ok ys ∧
    op.outputs.map W = ys.map some

def Solves (kernel : K → List V → Except E (List V)) (ops : List (OpDef K N))
    (W : N → Option V) : Prop :=
  ∀ op ∈ ops, SolvesOp kernel W op

theorem Solves.append (h : Solves kernel ops W) (h' : Solves kernel ops' W) :
    Solves kernel (ops ++ ops') W := by
  intro op hop
  rcases List.mem_append.mp hop with hmem | hmem
  · exact h op hmem
  · exact h' op hmem

/-- The second operator writes nothing that the first reads. -/
def Before (a c : OpDef K N) : Prop := ∀ b ∈ a.inputs, b ∉ c.outputs

/-- No operator comes after, or is, a reader of its outputs. -/
structure InOrder (ops : List (OpDef K N)) : Prop where
  self : ∀ op ∈ ops, Before op op
  pairwise : ops.Pairwise Before

theorem InOrder.nil : InOrder ([] : List (OpDef K N)) := ⟨by simp, List.Pairwise.nil⟩

theorem InOrder.append (h : InOrder ops) (h' : InOrder ops')
    (hcross : ∀ a ∈ ops, ∀ c ∈ ops', Before a c) : InOrder (ops ++ ops') where
  self op hop := by
    rcases List.mem_append.mp hop with hmem | hmem
    · exact h.self op hmem
    · exact h'.self op hmem
  pairwise := List.pairwise_append.mpr ⟨h.pairwise, h'.pairwise, hcross⟩

/-- A blob that no operator of the net writes. -/
def External (ops : List (OpDef K N)) (b : N) : Prop := ∀ op ∈ ops, b ∉ op.outputs

/-- The operators in an order that a net with dependencies by name allows. -/
structure Schedule (ops l : List (OpDef K N)) : Prop where
  perm : l.Perm ops
  inOrder : InOrder l

theorem Schedule.refl (h : InOrder ops) : Schedule ops ops := ⟨.refl ops, h⟩

variable [DecidableEq N] {missing : N → E} {ws : N → Option V}

theorem runOp_eq (missing : N → E) {op : OpDef K N} (hop : SolvesOp kernel W op)
    (hin : ∀ b ∈ op.inputs, ws b = W b) : ∃ ys, op.outputs.map W = ys.map some ∧
      runOp kernel missing ws op = .ok (store ws op.outputs ys) := by
  obtain ⟨xs, ys, hxs, hker, hys⟩ := hop
  refine ⟨ys, hys, ?_⟩
  have hfetch : op.inputs.map ws = xs.map some := (List.map_congr_left hin).trans hxs
  rw [runOp, mapM_fetch hfetch]
  change (kernel op.kind xs >>= _) = _
  rw [hker]
  rfl

/-- The invariant is that all blobs but the outputs that are still to come have their values. -/
theorem runOps_eq (hsol : Solves kernel ops W) (hord : InOrder ops)
    (hws : ∀ b, External ops b → ws b = W b) : runOps kernel missing ops ws = .ok W := by
  induction ops generalizing ws with
  | nil =>
    obtain rfl : ws = W := funext fun b => hws b (by simp [External])
    rfl
  | cons op ops ih =>
    obtain ⟨hbefore, hpair⟩ := List.pairwise_cons.mp hord.pairwise
    have hin : ∀ b ∈ op.inputs, ws b = W b := by
      intro b hb
      apply hws
      intro op' hop'
      rcases List.mem_cons.mp hop' with rfl | hmem
      · exact hord.self op' List.mem_cons_self b hb
      · exact hbefore op' hmem b hb
    obtain ⟨ys, hys, hrun⟩ := runOp_eq missing (hsol op List.mem_cons_self) hin
    have hnext : ∀ b, External ops b → store ws op.outputs ys b = W b := by
      intro b hb
      by_cases hmem : b ∈ op.outputs
      · exact store_of_mem hys hmem
      · rw [store_of_notMem hmem]
        apply hws
        intro op' hop'
        rcases List.mem_cons.mp hop' with rfl | hmem'
        · exact hmem
        · exact hb op' hmem'
    rw [runOps, List.foldlM_cons, hrun]
    exact ih (fun op' hop' => hsol op' (List.mem_cons_of_mem _ hop'))
      ⟨fun op' hop' => hord.self op' (List.mem_cons_of_mem _ hop'), hpair⟩ hnext

/-- Every schedule of the net ends in the solution. -/
theorem Schedule.runOps_eq (hl : Schedule ops l) (hsol : Solves kernel ops W)
    (hws : ∀ b, External ops b → ws b = W b) : runOps kernel missing l ws = .ok W := by
  apply Dataflow.runOps_eq (fun op hop => hsol op (hl.perm.mem_iff.mp hop)) hl.inOrder
  intro b hb
  exact hws b fun op hop => hb op (hl.perm.mem_iff.mpr hop)

def SingleAssignment (ops : List (OpDef K N)) : Prop := (ops.flatMap OpDef.outputs).Nodup

def Returns (kernel : K → List V → Except E (List V)) (op : OpDef K N) : Prop :=
  ∀ xs ys, kernel op.kind xs = .ok ys → ys.length = op.outputs.length

/-- A run that succeeds leaves a solution. What comes before an operator has written its inputs,
and nothing after it writes its inputs or outputs again. -/
theorem solves_of_runOps (hret : ∀ op ∈ ops, Returns kernel op) (hord : InOrder ops)
    (hsingle : SingleAssignment ops) (hrun : runOps kernel missing ops ws = .ok W) :
    Solves kernel ops W ∧ ∀ b, External ops b → ws b = W b := by
  induction ops generalizing ws with
  | nil =>
    cases hrun
    exact ⟨by simp [Solves], fun _ _ => rfl⟩
  | cons op ops ih =>
    obtain ⟨hbefore, hpair⟩ := List.pairwise_cons.mp hord.pairwise
    rw [SingleAssignment, List.flatMap_cons, List.nodup_append] at hsingle
    obtain ⟨hnodup, hrest, hdisj⟩ := hsingle
    rw [List.forall_mem_cons] at hret
    rw [runOps, List.foldlM_cons] at hrun
    obtain ⟨ws₁, hop, hrun⟩ := bind_eq_ok hrun
    obtain ⟨xs, hxs, hop⟩ := bind_eq_ok hop
    obtain ⟨ys, hker, hws₁⟩ := bind_eq_ok hop
    cases hws₁
    obtain ⟨hsol, hext⟩ := ih hret.2
      ⟨fun op' hop' => hord.self op' (List.mem_cons_of_mem _ hop'), hpair⟩ hrest hrun
    have hin : ∀ b ∈ op.inputs, ws b = W b := by
      intro b hb
      rw [← hext b fun op' hop' => hbefore op' hop' b hb,
        store_of_notMem (hord.self op List.mem_cons_self b hb)]
    have hout : ∀ b ∈ op.outputs, store ws op.outputs ys b = W b := by
      intro b hb
      exact hext b fun op' hop' hmem =>
        hdisj b hb b (List.mem_flatMap.mpr ⟨op', hop', hmem⟩) rfl
    refine ⟨?_, fun b hb => ?_⟩
    · refine List.forall_mem_cons.mpr ⟨⟨xs, ys, ?_, hker, ?_⟩, hsol⟩
      · rw [← List.map_congr_left hin]
        exact map_eq_of_mapM_fetch hxs
      · rw [← List.map_congr_left hout]
        exact map_store hnodup (hret.1 xs ys hker)
    · rw [← hext b fun op' hop' => hb op' (List.mem_cons_of_mem _ hop'),
        store_of_notMem (hb op List.mem_cons_self)]

/-- All schedules of a net end alike, whatever its operators compute. -/
theorem Schedule.runOps_congr {l' : List (OpDef K N)} (hl : Schedule ops l)
    (hl' : Schedule ops l') (hret : ∀ op ∈ ops, Returns kernel op)
    (hsingle : SingleAssignment ops) (missing' : N → E)
    (hrun : runOps kernel missing l ws = .ok W) : runOps kernel missing' l' ws = .ok W := by
  obtain ⟨hsol, hext⟩ := solves_of_runOps (fun op hop => hret op (hl.perm.mem_iff.mp hop))
    hl.inOrder ((hl.perm.flatMap_right _).nodup_iff.mpr hsingle) hrun
  apply hl'.runOps_eq fun op hop => hsol op (hl.perm.mem_iff.mpr hop)
  intro b hb
  exact hext b fun op hop => hb op (hl.perm.mem_iff.mp hop)

/-- In an ordered net it is enough that every input is known or an output of some operator. -/
theorem complete_of_inOrder {known : N → Prop} (hord : InOrder ops)
    (h : ∀ op ∈ ops, ∀ b ∈ op.inputs, known b ∨ ¬ External ops b) : Complete known ops := by
  induction ops generalizing known with
  | nil => trivial
  | cons op ops ih =>
    obtain ⟨hbefore, hpair⟩ := List.pairwise_cons.mp hord.pairwise
    refine ⟨fun b hb => (h op List.mem_cons_self b hb).resolve_right ?_, ih
      ⟨fun op' hop' => hord.self op' (List.mem_cons_of_mem _ hop'), hpair⟩ fun op' hop' b hb => ?_⟩
    · rw [not_not]
      intro op' hop'
      rcases List.mem_cons.mp hop' with rfl | hmem
      · exact hord.self op' List.mem_cons_self b hb
      · exact hbefore op' hmem b hb
    · rcases h op' (List.mem_cons_of_mem _ hop') b hb with hknown | hout
      · exact .inl (.inl hknown)
      · by_cases hmem : b ∈ op.outputs
        · exact .inl (.inr hmem)
        · refine .inr fun hext => hout ?_
          intro op'' hop''
          rcases List.mem_cons.mp hop'' with rfl | hrest
          · exact hmem
          · exact hext op'' hrest

end Solves

section Rename
variable {kernel : K → List V → Except E (List V)} {ops : List (OpDef K N)} {f : N → N'}

theorem before_rename (hf : Function.Injective f) {a c : OpDef K N} :
    Before (rename f a) (rename f c) ↔ Before a c := by
  simp only [Before, rename, List.mem_map, forall_exists_index, and_imp,
    forall_apply_eq_imp_iff₂, not_exists, not_and]
  constructor
  · intro h b hb hmem
    exact h b hb b hmem rfl
  · intro h b hb b' hmem heq
    exact h b hb (hf heq ▸ hmem)

theorem InOrder.map (hf : Function.Injective f) (h : InOrder ops) :
    InOrder (ops.map (rename f)) where
  self op hop := by
    obtain ⟨op, hmem, rfl⟩ := List.mem_map.mp hop
    exact (before_rename hf).mpr (h.self op hmem)
  pairwise := List.pairwise_map.mpr (h.pairwise.imp (before_rename hf).mpr)

theorem SingleAssignment.map (hf : Function.Injective f) (h : SingleAssignment ops) :
    SingleAssignment (ops.map (rename f)) := by
  have houtputs : (ops.map (rename f)).flatMap OpDef.outputs =
      (ops.flatMap OpDef.outputs).map f := by
    rw [List.flatMap_map, List.map_flatMap]
    rfl
  rw [SingleAssignment, houtputs]
  exact List.Nodup.map hf h

theorem Schedule.map (hf : Function.Injective f) {l : List (OpDef K N)} (h : Schedule ops l) :
    Schedule (ops.map (rename f)) (l.map (rename f)) :=
  ⟨h.perm.map _, h.inOrder.map hf⟩

theorem Solves.map {W : N' → Option V} (h : Solves kernel ops (W ∘ f)) :
    Solves kernel (ops.map (rename f)) W := by
  intro op hop
  obtain ⟨op, hmem, rfl⟩ := List.mem_map.mp hop
  obtain ⟨xs, ys, hxs, hker, hys⟩ := h op hmem
  exact ⟨xs, ys, by simpa [rename] using hxs, hker, by simpa [rename] using hys⟩

/-- A solution of the net before the renaming gives the end of every run after it: the blobs
with a new name have the values of the solution, all others are unchanged. -/
theorem Schedule.runOps_rename [DecidableEq N'] (hf : Function.Injective f)
    {l : List (OpDef K N')} (hl : Schedule (ops.map (rename f)) l) (missing : N' → E)
    {ws : N' → Option V} {val : N → Option V} (hsol : Solves kernel ops val)
    (hws : ∀ c, External ops c → val c = ws (f c)) :
    runOps kernel missing l ws = .ok (Function.extend f val ws) := by
  apply hl.runOps_eq
  · apply Solves.map
    rwa [Function.extend_comp hf]
  · intro b hb
    by_cases hrange : ∃ c, f c = b
    · obtain ⟨c, rfl⟩ := hrange
      rw [hf.extend_apply, hws c]
      intro op hop hmem
      exact hb _ (List.mem_map_of_mem hop) (List.mem_map_of_mem hmem)
    · rw [Function.extend_apply' _ _ _ hrange]

end Rename

end Dataflow

end EbpfIsp.Library
