import Mathlib.Tactic

/-! # Agents over first-in first-out queues

An agent is a program: a function from its state to the operation it performs
next. Agents put messages on queues, take them off, look at a queue's length and
receive values from their surroundings. One step of a network is one operation
of one agent, so a run is an arbitrary interleaving.

Two laws reduce the network to its agents. Every queue is its puts without its
gets, in order. What an agent did in a run is a trace of that agent alone. A
property of the network is therefore proved from one invariant per agent and
from what the queues say about who put and who got what.
-/

namespace EbpfIsp.Library.Queues

/-- The operation an agent performs next. `C` holds the values the surroundings choose. -/
inductive Op (Q : Type) (M : Q → Type) (C τ : Type) where
  | put (q : Q) (m : M q) (next : τ)
  | get (q : Q) (next : M q → τ)
  | size (q : Q) (next : ℕ → τ)
  | choose (next : C → τ)
  | stop

inductive Act (Q : Type) (M : Q → Type) where
  | put (q : Q) (m : M q)
  | get (q : Q) (m : M q)
  | look (q : Q) (n : ℕ)
  | tau

variable {κ Q C τ : Type} {M : Q → Type} {σ : κ → Type}

/-! ## One agent -/

/-- One step of an agent on its own: the queues may answer anything. -/
inductive Local (p : τ → Op Q M C τ) : τ → Act Q M → τ → Prop
  | put {s s' : τ} {q : Q} {m : M q} (h : p s = .put q m s') : Local p s (.put q m) s'
  | get {s : τ} {q : Q} {next : M q → τ} (h : p s = .get q next) (m : M q) :
      Local p s (.get q m) (next m)
  | look {s : τ} {q : Q} {next : ℕ → τ} (h : p s = .size q next) (n : ℕ) :
      Local p s (.look q n) (next n)
  | tau {s : τ} {next : C → τ} (h : p s = .choose next) (c : C) : Local p s .tau (next c)

namespace Local

variable {p : τ → Op Q M C τ} {s s' t : τ} {a : Act Q M} {q : Q}

theorem put_inv (h : Local p s a s') {m : M q} (hp : p s = .put q m t) :
    a = .put q m ∧ s' = t := by
  cases h with
  | put h => rw [hp] at h; cases h; exact ⟨rfl, rfl⟩
  | get h | look h | tau h => rw [hp] at h; cases h

theorem get_inv (h : Local p s a s') {next : M q → τ} (hp : p s = .get q next) :
    ∃ m, a = .get q m ∧ s' = next m := by
  cases h with
  | get h m => rw [hp] at h; cases h; exact ⟨m, rfl, rfl⟩
  | put h | look h | tau h => rw [hp] at h; cases h

theorem size_inv (h : Local p s a s') {next : ℕ → τ} (hp : p s = .size q next) :
    ∃ n, a = .look q n ∧ s' = next n := by
  cases h with
  | look h n => rw [hp] at h; cases h; exact ⟨n, rfl, rfl⟩
  | put h | get h | tau h => rw [hp] at h; cases h

theorem choose_inv (h : Local p s a s') {next : C → τ} (hp : p s = .choose next) :
    ∃ c, a = .tau ∧ s' = next c := by
  cases h with
  | tau h c => rw [hp] at h; cases h; exact ⟨c, rfl, rfl⟩
  | put h | get h | look h => rw [hp] at h; cases h

theorem stop_inv (h : Local p s a s') (hp : p s = .stop) : False := by
  cases h with
  | put h | get h | look h | tau h => rw [hp] at h; cases h

end Local

inductive Trace (p : τ → Op Q M C τ) (start : τ) : List (Act Q M) → τ → Prop
  | nil : Trace p start [] start
  | snoc {as : List (Act Q M)} {s s' : τ} {a : Act Q M} (h : Trace p start as s)
      (hs : Local p s a s') : Trace p start (as ++ [a]) s'

/-- An invariant of an agent: it holds at the start and every step of the agent keeps it. -/
theorem Trace.invariant {p : τ → Op Q M C τ} {start s : τ} {as : List (Act Q M)}
    (h : Trace p start as s) {I : List (Act Q M) → τ → Prop} (h₀ : I [] start)
    (hstep : ∀ as s a s', I as s → Local p s a s' → I (as ++ [a]) s') : I as s := by
  induction h with
  | nil => exact h₀
  | snoc _ hs ih => exact hstep _ _ _ _ ih hs

/-! ## Messages of a trace -/

section Messages
variable [DecidableEq Q]

def Act.putOn (q : Q) : Act Q M → Option (M q)
  | .put q' m => if h : q' = q then some (h ▸ m) else none
  | _ => none

def Act.getFrom (q : Q) : Act Q M → Option (M q)
  | .get q' m => if h : q' = q then some (h ▸ m) else none
  | _ => none

@[simp] theorem Act.putOn_put (q : Q) (m : M q) : (Act.put q m).putOn q = some m := by
  simp [Act.putOn]

@[simp] theorem Act.putOn_put_ne {q q' : Q} (h : q' ≠ q) (m : M q') :
    (Act.put q' m).putOn q = none := by
  simp [Act.putOn, h]

@[simp] theorem Act.putOn_get (q q' : Q) (m : M q') : (Act.get q' m).putOn q = none := rfl
@[simp] theorem Act.putOn_look (q q' : Q) (n : ℕ) :
    (Act.look q' n : Act Q M).putOn q = none := rfl
@[simp] theorem Act.putOn_tau (q : Q) : (Act.tau : Act Q M).putOn q = none := rfl

@[simp] theorem Act.getFrom_get (q : Q) (m : M q) : (Act.get q m).getFrom q = some m := by
  simp [Act.getFrom]

@[simp] theorem Act.getFrom_get_ne {q q' : Q} (h : q' ≠ q) (m : M q') :
    (Act.get q' m).getFrom q = none := by
  simp [Act.getFrom, h]

@[simp] theorem Act.getFrom_put (q q' : Q) (m : M q') : (Act.put q' m).getFrom q = none := rfl
@[simp] theorem Act.getFrom_look (q q' : Q) (n : ℕ) :
    (Act.look q' n : Act Q M).getFrom q = none := rfl
@[simp] theorem Act.getFrom_tau (q : Q) : (Act.tau : Act Q M).getFrom q = none := rfl

def puts (q : Q) (as : List (Act Q M)) : List (M q) := as.filterMap (Act.putOn q)

def gets (q : Q) (as : List (Act Q M)) : List (M q) := as.filterMap (Act.getFrom q)

@[simp] theorem puts_nil (q : Q) : puts q ([] : List (Act Q M)) = [] := rfl
@[simp] theorem gets_nil (q : Q) : gets q ([] : List (Act Q M)) = [] := rfl

@[simp] theorem puts_snoc (q : Q) (as : List (Act Q M)) (a : Act Q M) :
    puts q (as ++ [a]) = puts q as ++ (a.putOn q).toList := by
  cases h : a.putOn q <;> simp [puts, h]

@[simp] theorem gets_snoc (q : Q) (as : List (Act Q M)) (a : Act Q M) :
    gets q (as ++ [a]) = gets q as ++ (a.getFrom q).toList := by
  cases h : a.getFrom q <;> simp [gets, h]

def NeverPuts (p : τ → Op Q M C τ) (q : Q) : Prop := ∀ s m s', p s ≠ .put q m s'

def NeverGets (p : τ → Op Q M C τ) (q : Q) : Prop := ∀ s next, p s ≠ .get q next

theorem Trace.puts_eq_nil {p : τ → Op Q M C τ} {start s : τ} {as : List (Act Q M)} {q : Q}
    (h : Trace p start as s) (hp : NeverPuts p q) : puts q as = [] := by
  refine h.invariant (I := fun as _ => puts q as = []) rfl fun as s a s' ih hs => ?_
  cases hs with
  | @put _ q' m h =>
    have hne : q' ≠ q := by
      rintro rfl
      exact hp _ _ _ h
    simp [ih, hne]
  | get _ m | look _ n | tau _ c => simp [ih]

theorem Trace.gets_eq_nil {p : τ → Op Q M C τ} {start s : τ} {as : List (Act Q M)} {q : Q}
    (h : Trace p start as s) (hp : NeverGets p q) : gets q as = [] := by
  refine h.invariant (I := fun as _ => gets q as = []) rfl fun as s a s' ih hs => ?_
  cases hs with
  | @get q' _ h m =>
    have hne : q' ≠ q := by
      rintro rfl
      exact hp _ _ h
    simp [ih, hne]
  | put _ | look _ n | tau _ c => simp [ih]

end Messages

/-! ## Networks -/

/-- Agents with their programs and the queues between them. A queue may be bounded, and an
agent may be killed when the other agents' states allow it. -/
structure Network (κ Q : Type) (M : Q → Type) (C : Type) (σ : κ → Type) where
  init : ∀ k, σ k
  prog : ∀ k, σ k → Op Q M C (σ k)
  capacity : Q → Option ℕ
  mayKill : (∀ k, σ k) → κ → Bool

structure Config (κ Q : Type) (M : Q → Type) (σ : κ → Type) where
  agent : ∀ k, σ k
  queue : ∀ q, List (M q)
  killed : κ → Bool
  log : List (κ × Act Q M)

namespace Network

variable [DecidableEq κ] [DecidableEq Q] (N : Network κ Q M C σ)

def start : Config κ Q M σ where
  agent := N.init
  queue _ := []
  killed _ := false
  log := []

def hasRoom (q : Q) (n : ℕ) : Bool := (N.capacity q).all (n < ·)

/-- Agent `k` performs its next operation; `c` is what the surroundings choose. -/
def exec (S : Config κ Q M σ) (k : κ) (c : C) : Option (Config κ Q M σ) :=
  if S.killed k then none else
  match N.prog k (S.agent k) with
  | .put q m s =>
    if N.hasRoom q (S.queue q).length then
      some { S with
        agent := Function.update S.agent k s
        queue := Function.update S.queue q (S.queue q ++ [m])
        log := S.log ++ [(k, .put q m)] }
    else none
  | .get q next =>
    match S.queue q with
    | [] => none
    | m :: rest =>
      some { S with
        agent := Function.update S.agent k (next m)
        queue := Function.update S.queue q rest
        log := S.log ++ [(k, .get q m)] }
  | .size q next =>
    some { S with
      agent := Function.update S.agent k (next (S.queue q).length)
      log := S.log ++ [(k, .look q (S.queue q).length)] }
  | .choose next =>
    some { S with
      agent := Function.update S.agent k (next c)
      log := S.log ++ [(k, .tau)] }
  | .stop => none

inductive Step : Config κ Q M σ → Config κ Q M σ → Prop
  | act {S S' : Config κ Q M σ} (k : κ) (c : C) (h : N.exec S k c = some S') : Step S S'
  | kill {S : Config κ Q M σ} (k : κ) (h : N.mayKill S.agent k = true) :
      Step S { S with killed := Function.update S.killed k true }

def Reachable (S : Config κ Q M σ) : Prop := Relation.ReflTransGen N.Step N.start S

def run : List (κ × C) → Config κ Q M σ → Option (Config κ Q M σ)
  | [], S => some S
  | (k, c) :: rest, S => (N.exec S k c).bind (run rest)

theorem reachable_of_run {sched : List (κ × C)} {S : Config κ Q M σ}
    (h : N.run sched N.start = some S) : N.Reachable S := by
  unfold Reachable
  generalize N.start = T at h ⊢
  induction sched generalizing T with
  | nil =>
    cases h
    exact .refl
  | cons e rest ih =>
    obtain ⟨T', hT', hrest⟩ := Option.bind_eq_some_iff.mp h
    exact .head (.act e.1 e.2 hT') (ih T' hrest)

def after (sched : List (κ × C)) (h : (N.run sched N.start).isSome = true) :
    {S : Config κ Q M σ // N.Reachable S} :=
  ⟨(N.run sched N.start).get h, N.reachable_of_run (Option.some_get h).symm⟩

inductive Effect : Act Q M → (∀ q, List (M q)) → (∀ q, List (M q)) → Prop
  | put {qs : ∀ q, List (M q)} {q : Q} {m : M q} (h : N.hasRoom q (qs q).length = true) :
      Effect (.put q m) qs (Function.update qs q (qs q ++ [m]))
  | get {qs : ∀ q, List (M q)} {q : Q} {m : M q} {rest : List (M q)} (h : qs q = m :: rest) :
      Effect (.get q m) qs (Function.update qs q rest)
  | look {qs : ∀ q, List (M q)} {q : Q} : Effect (.look q (qs q).length) qs qs
  | tau {qs : ∀ q, List (M q)} : Effect .tau qs qs

variable {N}

omit [DecidableEq κ] in
/-- A message on a queue was there before or has just been put. -/
theorem Effect.mem {a : Act Q M} {qs qs' : ∀ q, List (M q)} (h : N.Effect a qs qs') {q : Q}
    {m : M q} (hm : m ∈ qs' q) : m ∈ qs q ∨ a.putOn q = some m := by
  cases h with
  | @put _ q' m' hroom =>
    by_cases hq : q' = q
    · subst hq
      simpa [eq_comm] using hm
    · exact .inl (by simpa [Function.update_of_ne (Ne.symm hq)] using hm)
  | @get _ q' m' rest hget =>
    by_cases hq : q' = q
    · subst hq
      rw [Function.update_self] at hm
      exact .inl (hget ▸ .tail _ hm)
    · exact .inl (by simpa [Function.update_of_ne (Ne.symm hq)] using hm)
  | look | tau => exact .inl hm

/-- All that an operation can do. -/
theorem exec_cases {S S' : Config κ Q M σ} {k : κ} {c : C} (h : N.exec S k c = some S') :
    ∃ a s qs, S.killed k = false ∧ Local (N.prog k) (S.agent k) a s ∧ N.Effect a S.queue qs ∧
      S' = ⟨Function.update S.agent k s, qs, S.killed, S.log ++ [(k, a)]⟩ := by
  unfold exec at h
  split at h
  · cases h
  · rename_i hk
    have hk : S.killed k = false := by simpa using hk
    split at h
    · rename_i q m s hp
      split at h
      · rename_i hroom
        cases h
        exact ⟨_, _, _, hk, .put hp, .put hroom, rfl⟩
      · cases h
    · rename_i q next hp
      split at h
      · cases h
      · rename_i m rest hq
        cases h
        exact ⟨_, _, _, hk, .get hp m, .get hq, rfl⟩
    · rename_i q next hp
      cases h
      exact ⟨_, _, _, hk, .look hp _, .look, rfl⟩
    · rename_i next hp
      cases h
      exact ⟨_, _, _, hk, .tau hp c, .tau, rfl⟩
    · cases h

/-- An invariant of the network. A step may use that the state it leaves is reachable. -/
theorem Reachable.invariant {S : Config κ Q M σ} (h : N.Reachable S)
    {I : Config κ Q M σ → Prop} (h₀ : I N.start)
    (hact : ∀ S k a s qs, N.Reachable S → I S → Local (N.prog k) (S.agent k) a s →
      N.Effect a S.queue qs →
      I ⟨Function.update S.agent k s, qs, S.killed, S.log ++ [(k, a)]⟩)
    (hkill : ∀ S k, N.Reachable S → I S →
      I { S with killed := Function.update S.killed k true }) : I S := by
  induction h with
  | refl => exact h₀
  | tail hr hs ih =>
    cases hs with
    | act k c h =>
      obtain ⟨a, s, qs, -, hl, he, rfl⟩ := exec_cases h
      exact hact _ _ _ _ _ hr ih hl he
    | kill k h => exact hkill _ k hr ih

end Network

/-! ## The two laws -/

namespace Config

variable [DecidableEq κ]

def acts (S : Config κ Q M σ) : List (Act Q M) := S.log.map Prod.snd

def own (S : Config κ Q M σ) (k : κ) : List (Act Q M) :=
  S.log.filterMap fun e => if e.1 = k then some e.2 else none

end Config

section Laws

@[simp] theorem acts_snoc (S : Config κ Q M σ) (ag : ∀ k, σ k) (qs : ∀ q, List (M q))
    (k : κ) (a : Act Q M) :
    Config.acts ⟨ag, qs, S.killed, S.log ++ [(k, a)]⟩ = S.acts ++ [a] := by
  simp [Config.acts]

variable [DecidableEq κ]

@[simp] theorem own_snoc (S : Config κ Q M σ) (ag : ∀ k, σ k) (qs : ∀ q, List (M q))
    (k k' : κ) (a : Act Q M) :
    Config.own ⟨ag, qs, S.killed, S.log ++ [(k', a)]⟩ k =
      S.own k ++ if k' = k then [a] else [] := by
  by_cases h : k' = k <;> simp [Config.own, h]

variable [DecidableEq Q] {N : Network κ Q M C σ} {S : Config κ Q M σ}

/-- A queue holds what was put on it and not yet taken, in order. -/
theorem Network.Reachable.fifo (h : N.Reachable S) (q : Q) :
    puts q S.acts = gets q S.acts ++ S.queue q := by
  refine h.invariant (I := fun S => puts q S.acts = gets q S.acts ++ S.queue q) rfl ?_ ?_
  · intro S k a s qs _ ih _ he
    rw [acts_snoc, puts_snoc, gets_snoc, ih]
    cases he with
    | @put _ q' m _ =>
      by_cases hq : q' = q
      · subst hq
        simp
      · simp [hq, Function.update_of_ne (Ne.symm hq)]
    | @get _ q' m rest hget =>
      by_cases hq : q' = q
      · subst hq
        simp [hget]
      · simp [hq, Function.update_of_ne (Ne.symm hq)]
    | look | tau => simp
  · exact fun S k _ ih => ih

/-- What an agent did is a trace of its program. -/
theorem Network.Reachable.trace (h : N.Reachable S) (k : κ) :
    Trace (N.prog k) (N.init k) (S.own k) (S.agent k) := by
  refine h.invariant (I := fun S => Trace (N.prog k) (N.init k) (S.own k) (S.agent k))
    .nil ?_ ?_
  · intro S k' a s qs _ ih hl _
    rw [own_snoc]
    by_cases hk : k' = k
    · subst hk
      simpa using ih.snoc hl
    · simpa [hk, Function.update_of_ne (Ne.symm hk)] using ih
  · exact fun S k' _ ih => ih

omit [DecidableEq Q] in
/-- If only agent `k` performs the actions `f` selects, they are found in its own trace. -/
theorem Config.filterMap_acts_eq_own {β : Type} {f : Act Q M → Option β} {k : κ}
    (h : ∀ k' ≠ k, (S.own k').filterMap f = []) : S.acts.filterMap f = (S.own k).filterMap f := by
  obtain ⟨ag, qs, dead, log⟩ := S
  simp only [Config.acts, Config.own, List.filterMap_map, List.filterMap_filterMap] at h ⊢
  apply List.filterMap_congr
  intro e he
  by_cases hk : e.1 = k
  · simp [hk]
  · have hnone := List.filterMap_eq_nil_iff.mp (h e.1 hk) e he
    simpa [hk] using hnone

omit [DecidableEq Q] in
theorem Config.own_sublist (S : Config κ Q M σ) (k : κ) : (S.own k).Sublist S.acts := by
  obtain ⟨ag, qs, dead, log⟩ := S
  simp only [Config.own, Config.acts]
  induction log with
  | nil => exact .slnil
  | cons e log ih =>
    by_cases hk : e.1 = k
    · simpa [hk] using ih
    · simpa [hk] using ih.cons e.2

/-- An agent takes messages from a queue in the order in which they were put on it. -/
theorem Network.Reachable.gets_sublist (h : N.Reachable S) (q : Q) (k : κ) :
    (gets q (S.own k)).Sublist (puts q S.acts) := by
  rw [h.fifo q]
  exact ((S.own_sublist k).filterMap _).trans (List.sublist_append_left _ _)

omit [DecidableEq Q] in
theorem Config.filterMap_acts_eq_sum [Fintype κ] {β : Type} (f : Act Q M → Option β)
    (S : Config κ Q M σ) :
    (S.acts.filterMap f : Multiset β) = ∑ k, ((S.own k).filterMap f : Multiset β) := by
  obtain ⟨ag, qs, dead, log⟩ := S
  induction log with
  | nil => simp [Config.acts, Config.own]
  | cons e log ih =>
    have hown : ∀ k, ((Config.own ⟨ag, qs, dead, e :: log⟩ k).filterMap f : Multiset β) =
        (if e.1 = k then ((f e.2).toList : Multiset β) else 0) +
          ((Config.own ⟨ag, qs, dead, log⟩ k).filterMap f : Multiset β) := by
      intro k
      by_cases hk : e.1 = k <;> cases hf : f e.2 <;> simp [Config.own, hk, hf]
    have hacts : (Config.acts ⟨ag, qs, dead, e :: log⟩).filterMap f =
        (f e.2).toList ++ (Config.acts ⟨ag, qs, dead, log⟩).filterMap f := by
      cases hf : f e.2 <;> simp [Config.acts, hf]
    rw [hacts, ← Multiset.coe_add, ih]
    simp only [hown, Finset.sum_add_distrib]
    simp

end Laws

end EbpfIsp.Library.Queues
