import Mathlib.Logic.Hydra
import Mathlib.Logic.Relation
import Mathlib.Tactic

/-! # Programs that fork

A process issues requests, prints, forks and waits for its children. `fork`
copies the whole process: parent and child continue with the same program and
differ in the returned value alone. A machine runs all processes over one
server and one step is one step of one process.

Reasoning is by ghost state. A process owns some ghost state, its events change
it, and a fork divides it between parent and child. `Wp` computes what a program
needs to own, and an invariant of the log and of all ghost states then holds in
every reachable state.
-/

namespace EbpfIsp.Library

variable {σ cmd rsp out α β τ X : Type}

/-- What a process does apart from forking. -/
inductive Event (cmd rsp out : Type) where
  | call (c : cmd) (r : rsp)
  | print (o : out)
  | wait

/-- A program of one process. `fork` continues with `true` in the child; `wait` waits for
all children; `exit` leaves the process at once, `done` returns a value. -/
inductive ForkProgram (cmd rsp out α : Type) where
  | done (a : α)
  | exit
  | call (c : cmd) (next : rsp → ForkProgram cmd rsp out α)
  | print (o : out) (next : ForkProgram cmd rsp out α)
  | fork (next : Bool → ForkProgram cmd rsp out α)
  | wait (next : ForkProgram cmd rsp out α)

namespace ForkProgram

def bind : ForkProgram cmd rsp out α → (α → ForkProgram cmd rsp out β) →
    ForkProgram cmd rsp out β
  | .done a, f => f a
  | .exit, _ => .exit
  | .call c next, f => .call c fun r => (next r).bind f
  | .print o next, f => .print o (next.bind f)
  | .fork next, f => .fork fun b => (next b).bind f
  | .wait next, f => .wait (next.bind f)

instance : Monad (ForkProgram cmd rsp out) where
  pure := .done
  bind := bind

def issue (c : cmd) : ForkProgram cmd rsp out rsp := .call c .done

def say (o : out) : ForkProgram cmd rsp out Unit := .print o (.done ())

def forked : ForkProgram cmd rsp out Bool := .fork .done

def waitAll : ForkProgram cmd rsp out Unit := .wait (.done ())

/-- `for (i = 0; i < n; i++)` with the loop-carried variables `t`. -/
def loop : ℕ → (ℕ → τ → ForkProgram cmd rsp out τ) → τ → ForkProgram cmd rsp out τ
  | 0, _, t => .done t
  | n + 1, body, t => (loop n body t).bind (body n)

theorem loop_zero (body : ℕ → τ → ForkProgram cmd rsp out τ) (t : τ) :
    loop 0 body t = pure t := rfl

theorem loop_succ (n : ℕ) (body : ℕ → τ → ForkProgram cmd rsp out τ) (t : τ) :
    loop (n + 1) body t = loop n body t >>= body n := rfl

-- loops with large literal bounds are not to be unrolled by reduction
attribute [irreducible] loop

def Ended : ForkProgram cmd rsp out α → Prop
  | .done _ | .exit => True
  | _ => False

/-- `Next p q`: one step of a process leads from `q` to `p`, or creates `p`. -/
inductive Next : ForkProgram cmd rsp out α → ForkProgram cmd rsp out α → Prop
  | call (c : cmd) (next : rsp → ForkProgram cmd rsp out α) (r : rsp) : Next (next r) (.call c next)
  | print (o : out) (next : ForkProgram cmd rsp out α) : Next next (.print o next)
  | fork (next : Bool → ForkProgram cmd rsp out α) (b : Bool) : Next (next b) (.fork next)
  | wait (next : ForkProgram cmd rsp out α) : Next next (.wait next)

theorem next_wf : WellFounded (Next : ForkProgram cmd rsp out α → _ → Prop) := by
  refine ⟨fun p => ?_⟩
  induction p with
  | done a => exact ⟨_, fun q h => nomatch h⟩
  | exit => exact ⟨_, fun q h => nomatch h⟩
  | call c next ih => exact ⟨_, fun q h => by cases h; exact ih _⟩
  | print o next ih => exact ⟨_, fun q h => by cases h; exact ih⟩
  | fork next ih => exact ⟨_, fun q h => by cases h; exact ih _⟩
  | wait next ih => exact ⟨_, fun q h => by cases h; exact ih⟩

end ForkProgram

/-! ## Ghost state -/

/-- How events change the ghost state of a process and how a fork divides it: before the
fork, in the child, in the parent. Only responses in `expects` are considered. -/
structure Ghost (cmd rsp out X : Type) where
  expects : rsp → Prop
  event : Event cmd rsp out → X → X → Prop
  fork : X → X → X → Prop

/-- The ghost state is the process' own log, with a mark for the original process. Events
have to be allowed. -/
def Ghost.own (ok : rsp → Prop) (allow : Bool → Event cmd rsp out → Prop) :
    Ghost cmd rsp out (Bool × List (Event cmd rsp out)) where
  expects := ok
  event e x x' := allow x.1 e ∧ x' = (x.1, x.2 ++ [e])
  fork x xc xp := xc = (false, []) ∧ xp = x

@[simp] theorem Ghost.own_event (ok : rsp → Prop) (allow : Bool → Event cmd rsp out → Prop)
    (e : Event cmd rsp out) (x x' : Bool × List (Event cmd rsp out)) :
    (Ghost.own ok allow).event e x x' ↔ allow x.1 e ∧ x' = (x.1, x.2 ++ [e]) := .rfl

@[simp] theorem Ghost.own_fork (ok : rsp → Prop) (allow : Bool → Event cmd rsp out → Prop)
    (x xc xp : Bool × List (Event cmd rsp out)) :
    (Ghost.own ok allow).fork x xc xp ↔ xc = (false, []) ∧ xp = x := .rfl

@[simp] theorem Ghost.own_expects (ok : rsp → Prop) (allow : Bool → Event cmd rsp out → Prop)
    (r : rsp) : (Ghost.own ok allow).expects r ↔ ok r := .rfl

/-- The ghost state holds the requests that a process and its descendants still make. -/
def Ghost.budget (ok : rsp → Prop) : Ghost cmd rsp out (Multiset cmd) where
  expects := ok
  event
    | .call c _, m, m' => m = c ::ₘ m'
    | _, m, m' => m' = m
  fork m mc mp := m = mc + mp

namespace ForkProgram

section Wp
variable (G : Ghost cmd rsp out X) (E : X → Prop)

/-- The process ends with ghost state in `E`, as do all its descendants, provided `Q` does
so after the program. -/
def Wp : ForkProgram cmd rsp out α → (α → X → Prop) → X → Prop
  | .done a, Q, x => Q a x
  | .exit, _, x => E x
  | .call c next, Q, x => ∀ r, G.expects r → ∃ x', G.event (.call c r) x x' ∧ Wp (next r) Q x'
  | .print o next, Q, x => ∃ x', G.event (.print o) x x' ∧ Wp next Q x'
  | .fork next, Q, x => ∃ xc xp, G.fork x xc xp ∧ Wp (next true) Q xc ∧ Wp (next false) Q xp
  | .wait next, Q, x => ∃ x', G.event .wait x x' ∧ Wp next Q x'

variable {G E}

theorem Wp.mono {p : ForkProgram cmd rsp out α} {Q R : α → X → Prop} {x : X}
    (h : Wp G E p Q x) (hQ : ∀ a x, Q a x → R a x) : Wp G E p R x := by
  induction p generalizing x with
  | done a => exact hQ a x h
  | exit => exact h
  | call c next ih =>
    intro r hr
    obtain ⟨x', he, hn⟩ := h r hr
    exact ⟨x', he, ih r hn⟩
  | print o next ih =>
    obtain ⟨x', he, hn⟩ := h
    exact ⟨x', he, ih hn⟩
  | fork next ih =>
    obtain ⟨xc, xp, hf, hc, hp⟩ := h
    exact ⟨xc, xp, hf, ih true hc, ih false hp⟩
  | wait next ih =>
    obtain ⟨x', he, hn⟩ := h
    exact ⟨x', he, ih hn⟩

@[simp] theorem wp_bind {p : ForkProgram cmd rsp out α} {f : α → ForkProgram cmd rsp out β}
    {Q : β → X → Prop} {x : X} :
    Wp G E (p >>= f) Q x ↔ Wp G E p (fun a x => Wp G E (f a) Q x) x := by
  change Wp G E (p.bind f) Q x ↔ _
  induction p generalizing x with
  | done a => rfl
  | exit => rfl
  | call c next ih => simp only [bind, Wp, ih]
  | print o next ih => simp only [bind, Wp, ih]
  | fork next ih => simp only [bind, Wp, ih]
  | wait next ih => simp only [bind, Wp, ih]

@[simp] theorem wp_pure (a : α) (Q : α → X → Prop) (x : X) :
    Wp G E (pure a : ForkProgram cmd rsp out α) Q x ↔ Q a x := .rfl

@[simp] theorem wp_exit (Q : α → X → Prop) (x : X) :
    Wp G E (exit : ForkProgram cmd rsp out α) Q x ↔ E x := .rfl

@[simp] theorem wp_issue (c : cmd) (Q : rsp → X → Prop) (x : X) :
    Wp G E (issue c : ForkProgram cmd rsp out rsp) Q x ↔
      ∀ r, G.expects r → ∃ x', G.event (.call c r) x x' ∧ Q r x' := .rfl

@[simp] theorem wp_say (o : out) (Q : Unit → X → Prop) (x : X) :
    Wp G E (say o : ForkProgram cmd rsp out Unit) Q x ↔
      ∃ x', G.event (.print o) x x' ∧ Q () x' := .rfl

@[simp] theorem wp_forked (Q : Bool → X → Prop) (x : X) :
    Wp G E (forked : ForkProgram cmd rsp out Bool) Q x ↔
      ∃ xc xp, G.fork x xc xp ∧ Q true xc ∧ Q false xp := .rfl

@[simp] theorem wp_waitAll (Q : Unit → X → Prop) (x : X) :
    Wp G E (waitAll : ForkProgram cmd rsp out Unit) Q x ↔
      ∃ x', G.event .wait x x' ∧ Q () x' := .rfl

/-- Loop rule: `I i` holds of the loop variables and the ghost state before iteration `i`. -/
theorem wp_loop (I : ℕ → τ → X → Prop) {n : ℕ} {body : ℕ → τ → ForkProgram cmd rsp out τ}
    {Q : τ → X → Prop} {t : τ} {x : X}
    (hstep : ∀ i < n, ∀ t x, I i t x → Wp G E (body i t) (I (i + 1)) x)
    (hpost : ∀ t x, I n t x → Q t x) (hinit : I 0 t x) : Wp G E (loop n body t) Q x := by
  induction n generalizing Q with
  | zero =>
    rw [loop_zero]
    exact hpost t x hinit
  | succ n ih =>
    rw [loop_succ, wp_bind]
    apply ih fun i hi => hstep i (Nat.lt_succ_of_lt hi)
    intro t x hx
    exact (hstep n (Nat.lt_succ_self n) t x hx).mono hpost

end Wp

section Consumes
variable (ok : rsp → Prop)

/-- Between the two ends of the program, it and the descendants that stay behind make the
requests `m`. -/
structure Consumes (p : ForkProgram cmd rsp out α) (m : Multiset cmd) : Prop where
  wp : ∀ (Q : α → Multiset cmd → Prop) (m' : Multiset cmd), (∀ a, Q a m') →
    p.Wp (.budget ok) (· = 0) Q (m + m')

/-- The process makes the requests `m` and exits. -/
structure Exits (p : ForkProgram cmd rsp out α) (m : Multiset cmd) : Prop where
  wp : p.Wp (.budget ok) (· = 0) (fun _ _ => False) m

variable {ok}

theorem Consumes.pure (a : α) : Consumes ok (pure a : ForkProgram cmd rsp out α) 0 := by
  refine ⟨fun Q m' hQ => ?_⟩
  simpa using hQ a

theorem Consumes.say (o : out) : Consumes ok (say o : ForkProgram cmd rsp out Unit) 0 :=
  ⟨fun _ m' hQ => ⟨m', (zero_add m').symm, hQ ()⟩⟩

theorem Consumes.waitAll : Consumes ok (waitAll : ForkProgram cmd rsp out Unit) 0 :=
  ⟨fun _ m' hQ => ⟨m', (zero_add m').symm, hQ ()⟩⟩

theorem Consumes.bind {p : ForkProgram cmd rsp out α} {f : α → ForkProgram cmd rsp out β}
    {m n : Multiset cmd} (hp : Consumes ok p m) (hf : ∀ a, Consumes ok (f a) n) :
    Consumes ok (p >>= f) (m + n) := by
  refine ⟨fun Q m' hQ => ?_⟩
  rw [wp_bind, add_assoc]
  exact hp.wp _ _ fun a => (hf a).wp Q m' hQ

theorem Consumes.silent_bind {p : ForkProgram cmd rsp out α} {f : α → ForkProgram cmd rsp out β}
    {m : Multiset cmd} (hp : Consumes ok p 0) (hf : ∀ a, Consumes ok (f a) m) :
    Consumes ok (p >>= f) m := by
  simpa using hp.bind hf

theorem Consumes.issue_bind {c : cmd} {f : rsp → ForkProgram cmd rsp out α} {m : Multiset cmd}
    (hf : ∀ r, ok r → Consumes ok (f r) m) : Consumes ok (issue c >>= f) ({c} + m) := by
  refine ⟨fun Q m' hQ => ?_⟩
  rw [wp_bind, wp_issue]
  intro r hr
  have hm : {c} + m + m' = c ::ₘ (m + m') := by rw [add_assoc, Multiset.singleton_add]
  exact ⟨m + m', hm, (hf r hr).wp Q m' hQ⟩

theorem Consumes.loop {body : ℕ → τ → ForkProgram cmd rsp out τ} {m : ℕ → Multiset cmd} (n : ℕ)
    (t : τ) (h : ∀ i t, Consumes ok (body i t) (m i)) :
    Consumes ok (loop n body t) (∑ i ∈ Finset.range n, m i) := by
  induction n with
  | zero =>
    rw [loop_zero]
    exact .pure t
  | succ n ih =>
    rw [loop_succ, Finset.sum_range_succ]
    exact ih.bind (h n)

theorem Consumes.exits {p : ForkProgram cmd rsp out α} {m : Multiset cmd} (h : Consumes ok p m) :
    Exits ok (p >>= fun _ => (exit : ForkProgram cmd rsp out β)) m := by
  have hw := h.wp (fun _ x => x = 0) 0 fun _ => rfl
  rw [add_zero] at hw
  exact ⟨wp_bind.mpr hw⟩

/-- A child that exits, with the parent going on. -/
theorem Exits.forked {c : ForkProgram cmd rsp out α} {m : Multiset cmd} (h : Exits ok c m) (a : α) :
    Consumes ok (forked >>= fun b => if b then c else Pure.pure a) m := by
  refine ⟨fun Q m' hQ => ?_⟩
  simp only [wp_bind, wp_forked, if_true, Bool.false_eq_true, if_false, wp_pure]
  exact ⟨m, m', rfl, Wp.mono h.wp fun _ _ hF => hF.elim, hQ a⟩

end Consumes

end ForkProgram

/-! ## Machines of processes -/

structure Process (cmd rsp out α : Type) where
  parent : Option ℕ
  code : ForkProgram cmd rsp out α

/-- Processes are numbered in the order of their creation; the original process is 0. -/
structure Machine (σ cmd rsp out α : Type) where
  server : σ
  procs : List (Process cmd rsp out α)
  log : List (ℕ × Event cmd rsp out)

namespace Machine

def initial (s : σ) (p : ForkProgram cmd rsp out α) : Machine σ cmd rsp out α :=
  ⟨s, [⟨none, p⟩], []⟩

/-- One step of process `p`. A process that waits goes on once all its children ended. -/
inductive Step (serve : σ → cmd → rsp → σ → Prop) :
    Machine σ cmd rsp out α → Machine σ cmd rsp out α → Prop
  | call {S p par c next r s} (hp : S.procs[p]? = some ⟨par, .call c next⟩)
      (hs : serve S.server c r s) :
      Step serve S ⟨s, S.procs.set p ⟨par, next r⟩, S.log ++ [(p, .call c r)]⟩
  | print {S p par o next} (hp : S.procs[p]? = some ⟨par, .print o next⟩) :
      Step serve S ⟨S.server, S.procs.set p ⟨par, next⟩, S.log ++ [(p, .print o)]⟩
  | fork {S p par next} (hp : S.procs[p]? = some ⟨par, .fork next⟩) :
      Step serve S ⟨S.server, S.procs.set p ⟨par, next false⟩ ++ [⟨some p, next true⟩], S.log⟩
  | wait {S p par next} (hp : S.procs[p]? = some ⟨par, .wait next⟩)
      (hc : ∀ q ∈ S.procs, q.parent = some p → q.code.Ended) :
      Step serve S ⟨S.server, S.procs.set p ⟨par, next⟩, S.log ++ [(p, .wait)]⟩

def Reachable (serve : σ → cmd → rsp → σ → Prop) (S S' : Machine σ cmd rsp out α) : Prop :=
  Relation.ReflTransGen (Step serve) S S'

def Finished (S : Machine σ cmd rsp out α) : Prop := ∀ q ∈ S.procs, q.code.Ended

def Answered (ok : rsp → Prop) (S : Machine σ cmd rsp out α) : Prop :=
  ∀ p c r, (p, Event.call c r) ∈ S.log → ok r

theorem Reachable.mono {serve serve' : σ → cmd → rsp → σ → Prop} {S S' : Machine σ cmd rsp out α}
    (h : Reachable serve S S') (hs : ∀ s c r s', serve s c r s' → serve' s c r s') :
    Reachable serve' S S' := by
  refine Relation.ReflTransGen.mono ?_ S S' h
  intro S S' hstep
  cases hstep with
  | call hp hc => exact .call hp (hs _ _ _ _ hc)
  | print hp => exact .print hp
  | fork hp => exact .fork hp
  | wait hp hc => exact .wait hp hc

/-- The log only grows, by events that the server allows. -/
theorem Reachable.log {serve : σ → cmd → rsp → σ → Prop} {S S' : Machine σ cmd rsp out α}
    (h : Reachable serve S S') : ∃ log, S'.log = S.log ++ log ∧
      ∀ p c r, (p, Event.call c r) ∈ log → ∃ s s', serve s c r s' := by
  induction h with
  | refl => exact ⟨[], by simp, by simp⟩
  | tail _ hstep ih =>
    obtain ⟨log, hlog, hcalls⟩ := ih
    cases hstep with
    | call hp hs =>
      refine ⟨log ++ [_], by rw [hlog, List.append_assoc], ?_⟩
      intro p c r hm
      rcases List.mem_append.mp hm with hm | hm
      · exact hcalls p c r hm
      · cases List.mem_singleton.mp hm
        exact ⟨_, _, hs⟩
    | print hp =>
      exact ⟨log ++ [_], by rw [hlog, List.append_assoc], fun p c r hm =>
        hcalls p c r (by simpa using hm)⟩
    | fork hp => exact ⟨log, hlog, hcalls⟩
    | wait hp hc =>
      exact ⟨log ++ [_], by rw [hlog, List.append_assoc], fun p c r hm =>
        hcalls p c r (by simpa using hm)⟩

section Ghost
variable {serve : σ → cmd → rsp → σ → Prop} {G : Ghost cmd rsp out X} {E : X → Prop}
  {I : List (ℕ × Event cmd rsp out) → List X → Prop} {S S' : Machine σ cmd rsp out α}

/-- Ghost states `xs` that give every process what its code needs. -/
structure Owns (G : Ghost cmd rsp out X) (E : X → Prop) (S : Machine σ cmd rsp out α)
    (xs : List X) : Prop where
  length : xs.length = S.procs.length
  code : ∀ (p : ℕ) (q : Process cmd rsp out α) (x : X), S.procs[p]? = some q → xs[p]? = some x →
    q.code.Wp G E (fun _ => E) x

theorem Owns.exists_state {xs : List X} (h : S.Owns G E xs) {p : ℕ} {q : Process cmd rsp out α}
    (hp : S.procs[p]? = some q) : ∃ x, xs[p]? = some x ∧ q.code.Wp G E (fun _ => E) x := by
  have hlt : p < xs.length := h.length ▸ (List.getElem?_eq_some_iff.mp hp).1
  exact ⟨xs[p], List.getElem?_eq_getElem hlt, h.code p q _ hp (List.getElem?_eq_getElem hlt)⟩

theorem Owns.set {xs : List X} (h : S.Owns G E xs) {p : ℕ} {q : Process cmd rsp out α} {x : X}
    (hq : q.code.Wp G E (fun _ => E) x) (s : σ) (log : List (ℕ × Event cmd rsp out)) :
    (⟨s, S.procs.set p q, log⟩ : Machine σ cmd rsp out α).Owns G E (xs.set p x) := by
  refine ⟨by simpa using h.length, fun k q' x' hk hx => ?_⟩
  rcases eq_or_ne p k with rfl | hne
  · have hlt := (List.getElem?_eq_some_iff.mp hk).1
    have hlt' := (List.getElem?_eq_some_iff.mp hx).1
    rw [List.length_set] at hlt hlt'
    rw [List.getElem?_set_self hlt] at hk
    rw [List.getElem?_set_self hlt'] at hx
    obtain rfl := Option.some.inj hk
    obtain rfl := Option.some.inj hx
    exact hq
  · rw [List.getElem?_set_ne hne] at hk hx
    exact h.code k q' x' hk hx

theorem Owns.append {xs : List X} (h : S.Owns G E xs) {q : Process cmd rsp out α} {x : X}
    (hq : q.code.Wp G E (fun _ => E) x) :
    (⟨S.server, S.procs ++ [q], S.log⟩ : Machine σ cmd rsp out α).Owns G E (xs ++ [x]) := by
  refine ⟨by simpa using h.length, fun k q' x' hk hx => ?_⟩
  rcases Nat.lt_or_ge k xs.length with hlt | hge
  · rw [List.getElem?_append_left (h.length ▸ hlt)] at hk
    rw [List.getElem?_append_left hlt] at hx
    exact h.code k q' x' hk hx
  · rw [List.getElem?_append_right (h.length ▸ hge)] at hk
    rw [List.getElem?_append_right hge] at hx
    obtain rfl : q' = q := by simpa using List.mem_of_getElem? hk
    obtain rfl : x' = x := by simpa using List.mem_of_getElem? hx
    exact hq

/-- An invariant of the log and the ghost states of all processes. -/
structure Tracks (G : Ghost cmd rsp out X) (I : List (ℕ × Event cmd rsp out) → List X → Prop) :
    Prop where
  event : ∀ {log xs p x e x'}, I log xs → xs[p]? = some x → G.event e x x' →
    I (log ++ [(p, e)]) (xs.set p x')
  fork : ∀ {log xs p x xc xp}, I log xs → xs[p]? = some x → G.fork x xc xp →
    I log (xs.set p xp ++ [xc])

theorem Answered.of_step {ok : rsp → Prop} (h : S'.Answered ok) (hstep : Step serve S S') :
    S.Answered ok := by
  intro p c r hm
  refine h p c r ?_
  cases hstep <;> simp [hm]

/-- Every step keeps ghost states for all processes, and the invariant with them. -/
theorem owns_step (hI : Tracks G I) (hstep : Step serve S S') (hok : S'.Answered G.expects)
    (h : ∃ xs, S.Owns G E xs ∧ I S.log xs) : ∃ xs, S'.Owns G E xs ∧ I S'.log xs := by
  obtain ⟨xs, hxs, hi⟩ := h
  cases hstep with
  | @call p par c next r s hp hs =>
    obtain ⟨x, hx, hw⟩ := hxs.exists_state hp
    obtain ⟨x', he, hn⟩ := hw r (hok p c r (by simp))
    exact ⟨xs.set p x', hxs.set (q := ⟨par, next r⟩) hn _ _, hI.event hi hx he⟩
  | @print p par o next hp =>
    obtain ⟨x, hx, x', he, hn⟩ := hxs.exists_state hp
    exact ⟨xs.set p x', hxs.set (q := ⟨par, next⟩) hn _ _, hI.event hi hx he⟩
  | @fork p par next hp =>
    obtain ⟨x, hx, xc, xp, hf, hc, hpar⟩ := hxs.exists_state hp
    have hset := hxs.set (q := ⟨par, next false⟩) (p := p) hpar S.server S.log
    exact ⟨xs.set p xp ++ [xc], hset.append (q := ⟨some p, next true⟩) hc, hI.fork hi hx hf⟩
  | @wait p par next hp hc =>
    obtain ⟨x, hx, x', he, hn⟩ := hxs.exists_state hp
    exact ⟨xs.set p x', hxs.set (q := ⟨par, next⟩) hn _ _, hI.event hi hx he⟩

/-- Ghost states for all processes of every reachable machine. -/
theorem owns_reachable (hI : Tracks G I) {s : σ} {p : ForkProgram cmd rsp out α} {x : X}
    (hx : p.Wp G E (fun _ => E) x) (hinit : I [] [x])
    (h : Reachable serve (initial s p) S) (hok : S.Answered G.expects) :
    ∃ xs, S.Owns G E xs ∧ I S.log xs := by
  induction h with
  | refl =>
    refine ⟨[x], ⟨rfl, fun k q y hk hy => ?_⟩, hinit⟩
    obtain rfl : q = ⟨none, p⟩ := by simpa [initial] using List.mem_of_getElem? hk
    obtain rfl : y = x := by simpa using List.mem_of_getElem? hy
    exact hx
  | tail _ hstep ih => exact owns_step hI hstep hok (ih (hok.of_step hstep))

/-- Once a machine has finished, all its ghost states are in `E`. -/
theorem Owns.finished {xs : List X} (h : S.Owns G E xs) (hS : S.Finished) : ∀ x ∈ xs, E x := by
  intro x hx
  obtain ⟨k, hk, rfl⟩ := List.getElem_of_mem hx
  have hk' : k < S.procs.length := h.length ▸ hk
  have hw := h.code k _ _ (List.getElem?_eq_getElem hk') (List.getElem?_eq_getElem hk)
  have hend := hS _ (List.getElem_mem hk')
  revert hw hend
  generalize (S.procs[k]).code = q
  intro hw hend
  cases q with
  | done a => exact hw
  | exit => exact hw
  | _ => exact hend.elim

end Ghost

/-! ## The log of one process -/

section Own

def own (log : List (ℕ × Event cmd rsp out)) (p : ℕ) : List (Event cmd rsp out) :=
  (log.filter fun e => e.1 = p).map Prod.snd

structure OwnLogs (allow : Bool → Event cmd rsp out → Prop) (log : List (ℕ × Event cmd rsp out))
    (xs : List (Bool × List (Event cmd rsp out))) : Prop where
  pos : 0 < xs.length
  eq : ∀ p x, xs[p]? = some x → x = (p == 0, own log p)
  lt : ∀ e ∈ log, e.1 < xs.length
  allowed : ∀ e ∈ log, allow (e.1 == 0) e.2

variable {ok : rsp → Prop} {allow : Bool → Event cmd rsp out → Prop}

theorem mem_own {log : List (ℕ × Event cmd rsp out)} {p : ℕ} {e : Event cmd rsp out} :
    e ∈ own log p ↔ (p, e) ∈ log := by
  simp [own]

theorem own_append (log : List (ℕ × Event cmd rsp out)) (p k : ℕ) (e : Event cmd rsp out) :
    own (log ++ [(p, e)]) k = own log k ++ if p = k then [e] else [] := by
  by_cases h : p = k <;> simp [own, h]

theorem own_eq_nil {log : List (ℕ × Event cmd rsp out)} {p : ℕ} (h : ∀ e ∈ log, e.1 < p) :
    own log p = [] := by
  rw [own, List.map_eq_nil_iff, List.filter_eq_nil_iff]
  intro e he
  have hlt := h e he
  simp
  omega

theorem OwnLogs.event {log : List (ℕ × Event cmd rsp out)}
    {xs : List (Bool × List (Event cmd rsp out))} {p : ℕ} {x : Bool × List (Event cmd rsp out)}
    {e : Event cmd rsp out} (h : OwnLogs allow log xs) (hx : xs[p]? = some x) (ha : allow x.1 e) :
    OwnLogs allow (log ++ [(p, e)]) (xs.set p (x.1, x.2 ++ [e])) := by
  have hp : p < xs.length := (List.getElem?_eq_some_iff.mp hx).1
  have hxe := h.eq p x hx
  refine ⟨by simpa using h.pos, fun k y hy => ?_, ?_, ?_⟩
  · rw [own_append]
    rcases eq_or_ne p k with rfl | hne
    · rw [List.getElem?_set_self hp] at hy
      obtain rfl := Option.some.inj hy
      simp [hxe]
    · rw [List.getElem?_set_ne hne] at hy
      simp [h.eq k y hy, hne]
  · intro a ha'
    rcases List.mem_append.mp ha' with ha' | ha'
    · simpa using h.lt a ha'
    · simpa [List.mem_singleton.mp ha'] using hp
  · intro a ha'
    rcases List.mem_append.mp ha' with ha' | ha'
    · exact h.allowed a ha'
    · rw [List.mem_singleton.mp ha']
      rw [hxe] at ha
      exact ha

/-- A new process is the last one and has no events. -/
theorem OwnLogs.fork {log : List (ℕ × Event cmd rsp out)}
    {xs : List (Bool × List (Event cmd rsp out))} (h : OwnLogs allow log xs) :
    OwnLogs allow log (xs ++ [(false, [])]) := by
  refine ⟨by simp, fun k y hy => ?_, fun e he => ?_, h.allowed⟩
  · rcases Nat.lt_or_ge k xs.length with hlt | hge
    · rw [List.getElem?_append_left hlt] at hy
      exact h.eq k y hy
    · have hk : k = xs.length := by
        have hlt := (List.getElem?_eq_some_iff.mp hy).1
        simp at hlt
        omega
      obtain rfl : y = (false, []) := by simpa [hk] using hy.symm
      have h0 : (k == 0) = false := by
        have hpos := h.pos
        simp
        omega
      rw [own_eq_nil (fun e he => hk ▸ h.lt e he), h0]
  · have hlt := h.lt e he
    simp
    omega

theorem ownLogs_tracks : Tracks (Ghost.own ok allow) (OwnLogs allow) where
  event := by
    rintro log xs p x e x' h hx ⟨ha, rfl⟩
    exact h.event hx ha
  fork := by
    rintro log xs p x xc xp h hx ⟨rfl, rfl⟩
    obtain ⟨hp, rfl⟩ := List.getElem?_eq_some_iff.mp hx
    rw [List.set_getElem_self]
    exact h.fork

/-- What every process does on its own, in a reachable machine with expected answers:
events are allowed, and once all processes ended their logs are in `E`. -/
theorem own_reachable {serve : σ → cmd → rsp → σ → Prop} {S : Machine σ cmd rsp out α} {s : σ}
    {p : ForkProgram cmd rsp out α} {E : Bool × List (Event cmd rsp out) → Prop}
    (hp : p.Wp (Ghost.own ok allow) E (fun _ => E) (true, []))
    (h : Reachable serve (initial s p) S) (hok : S.Answered ok) :
    (∀ e ∈ S.log, allow (e.1 == 0) e.2) ∧
      (S.Finished → E (true, own S.log 0) ∧ ∀ e ∈ S.log, E (e.1 == 0, own S.log e.1)) := by
  obtain ⟨xs, hxs, hlogs⟩ := owns_reachable ownLogs_tracks hp
    ⟨by simp, fun k x hx => by
      obtain ⟨rfl, rfl⟩ : k = 0 ∧ x = (true, []) := by
        rcases k with _ | k
        · simpa using hx.symm
        · simp at hx
      rfl, by simp, by simp⟩ h hok
  have hE (hS : S.Finished) (k : ℕ) (hk : k < xs.length) : E (k == 0, own S.log k) := by
    have hx := hlogs.eq k xs[k] (List.getElem?_eq_getElem hk)
    exact hx ▸ hxs.finished hS _ (List.getElem_mem hk)
  exact ⟨hlogs.allowed, fun hS => ⟨hE hS 0 hlogs.pos, fun e he => hE hS e.1 (hlogs.lt e he)⟩⟩

end Own

/-! ## The requests of all processes together -/

section Budget

def calls (log : List (ℕ × Event cmd rsp out)) : List (ℕ × cmd × rsp) :=
  log.filterMap fun e => match e.2 with
    | .call c r => some (e.1, c, r)
    | _ => none

theorem mem_calls {log : List (ℕ × Event cmd rsp out)} {p : ℕ} {c : cmd} {r : rsp} :
    (p, c, r) ∈ calls log ↔ (p, Event.call c r) ∈ log := by
  rw [calls, List.mem_filterMap]
  constructor
  · rintro ⟨⟨q, e⟩, hm, he⟩
    cases e <;> simp_all
  · exact fun hm => ⟨_, hm, rfl⟩

def submitted (log : List (ℕ × Event cmd rsp out)) : Multiset cmd :=
  ↑((calls log).map fun e => e.2.1)

variable {ok : rsp → Prop}

theorem coe_set_add {l : List X} {p : ℕ} {a : X} (h : l[p]? = some a) (b : X) :
    (↑(l.set p b) : Multiset X) + {a} = ↑l + {b} := by
  induction l generalizing p with
  | nil => simp at h
  | cons c l ih =>
    rcases p with _ | p
    · obtain rfl : c = a := by simpa using h
      simp only [List.set_cons_zero, ← Multiset.cons_coe, ← Multiset.singleton_add]
      abel
    · have hl := ih (p := p) (by simpa using h)
      simp only [List.set_cons_succ, ← Multiset.cons_coe, Multiset.cons_add, hl]

theorem sum_set_add {l : List (Multiset X)} {p : ℕ} {a : Multiset X} (h : l[p]? = some a)
    (b : Multiset X) : (l.set p b).sum + a = l.sum + b := by
  have hm := congrArg Multiset.sum (coe_set_add h b)
  simpa using hm

theorem submitted_append (log : List (ℕ × Event cmd rsp out)) (p : ℕ) (e : Event cmd rsp out) :
    submitted (log ++ [(p, e)]) = submitted log + submitted [(p, e)] := by
  simp only [submitted, calls, List.filterMap_append, List.map_append, Multiset.coe_add]

theorem budget_tracks (m : Multiset cmd) : Tracks (Ghost.budget ok : Ghost cmd rsp out _)
    (fun log xs => submitted log + xs.sum = m) where
  event := by
    intro log xs p x e x' h hx he
    have hsum := sum_set_add hx x'
    have hx' : submitted [(p, e)] + x' = x := by
      cases e with
      | call c r => exact he.symm
      | print o => exact (zero_add x').trans he
      | wait => exact (zero_add x').trans he
    have hleft : submitted [(p, e)] + (xs.set p x').sum = xs.sum := by
      rw [← hx', ← add_assoc, add_comm (xs.set p x').sum] at hsum
      exact add_right_cancel hsum
    rw [submitted_append, add_assoc, hleft, h]
  fork := by
    intro log xs p x xc xp h hx he
    have hsum := sum_set_add hx xp
    have hleft : (xs.set p xp).sum + xc = xs.sum := by
      rw [he, ← add_assoc] at hsum
      exact add_right_cancel hsum
    rw [List.sum_append, List.sum_singleton, hleft, h]

/-- The requests of a finished machine are the budget of the original process; on the way
they are part of it. -/
theorem submitted_reachable {serve : σ → cmd → rsp → σ → Prop} {S : Machine σ cmd rsp out α} {s : σ}
    {p : ForkProgram cmd rsp out α} {m : Multiset cmd} (hp : p.Consumes ok m)
    (h : Reachable serve (initial s p) S) (hok : S.Answered ok) :
    (∃ rest, submitted S.log + rest = m) ∧ (S.Finished → submitted S.log = m) := by
  have hw := hp.wp (fun _ x => x = 0) 0 fun _ => rfl
  rw [add_zero] at hw
  obtain ⟨xs, hxs, hsum⟩ := owns_reachable (budget_tracks m) hw (by simp [submitted, calls]) h hok
  refine ⟨⟨_, hsum⟩, fun hS => ?_⟩
  rw [← hsum, List.sum_eq_zero (hxs.finished hS), add_zero]

end Budget

/-! ## Runs come to an end -/

section Termination
variable {serve : σ → cmd → rsp → σ → Prop} {S S' : Machine σ cmd rsp out α}

def codes (S : Machine σ cmd rsp out α) : Multiset (ForkProgram cmd rsp out α) :=
  ↑(S.procs.map Process.code)

theorem codes_set {p : ℕ} {q : Process cmd rsp out α} (hp : S.procs[p]? = some q)
    (q' : Process cmd rsp out α) (s : σ) (log : List (ℕ × Event cmd rsp out)) :
    (⟨s, S.procs.set p q', log⟩ : Machine σ cmd rsp out α).codes + {q.code} =
      S.codes + {q'.code} := by
  rw [codes, codes, List.map_set]
  exact coe_set_add (by simp [hp]) _

/-- Every step replaces a program by what follows in it. -/
theorem codes_step (h : Step serve S S') :
    Relation.CutExpand ForkProgram.Next S'.codes S.codes := by
  cases h with
  | call hp hs => exact ⟨_, _, by simpa using .call _ _ _, codes_set hp _ _ _⟩
  | print hp => exact ⟨_, _, by simpa using .print _ _, codes_set hp _ _ _⟩
  | @fork p par next hp =>
    refine ⟨{next false} + {next true}, .fork next, ?_, ?_⟩
    · simpa using ⟨.fork next false, .fork next true⟩
    · have hset := codes_set hp ⟨par, next false⟩ S.server S.log
      simp only [codes, List.map_append, List.map_cons, List.map_nil, ← Multiset.coe_add,
        Multiset.coe_singleton] at hset ⊢
      rw [add_right_comm, hset, add_assoc]
  | wait hp hc => exact ⟨_, _, by simpa using .wait _, codes_set hp _ _ _⟩

def Ordered (S : Machine σ cmd rsp out α) : Prop :=
  ∀ (k : ℕ) (q : Process cmd rsp out α) (p : ℕ), S.procs[k]? = some q → q.parent = some p → p < k

theorem Ordered.initial (s : σ) (p : ForkProgram cmd rsp out α) : (initial s p).Ordered := by
  intro k q r hq hr
  obtain rfl : q = ⟨none, p⟩ := by simpa [Machine.initial] using List.mem_of_getElem? hq
  cases hr

theorem Ordered.set (h : S.Ordered) {p : ℕ} {par : Option ℕ} {code : ForkProgram cmd rsp out α}
    (hp : S.procs[p]? = some ⟨par, code⟩) (code' : ForkProgram cmd rsp out α) (s : σ)
    (log : List (ℕ × Event cmd rsp out)) :
    (⟨s, S.procs.set p ⟨par, code'⟩, log⟩ : Machine σ cmd rsp out α).Ordered := by
  intro k q r hq hr
  rcases eq_or_ne p k with rfl | hne
  · rw [List.getElem?_set_self (List.getElem?_eq_some_iff.mp hp).1] at hq
    obtain rfl := Option.some.inj hq
    exact h p _ r hp hr
  · rw [List.getElem?_set_ne hne] at hq
    exact h k q r hq hr

theorem Ordered.step (h : S.Ordered) (hstep : Step serve S S') : S'.Ordered := by
  cases hstep with
  | call hp hs => exact h.set hp _ _ _
  | print hp => exact h.set hp _ _ _
  | wait hp hc => exact h.set hp _ _ _
  | @fork p par next hp =>
    have hset := h.set hp (next false) S.server S.log
    have hlt := (List.getElem?_eq_some_iff.mp hp).1
    intro k q r hq hr
    rcases Nat.lt_or_ge k S.procs.length with hk | hk
    · rw [List.getElem?_append_left (by simpa using hk)] at hq
      exact hset k q r hq hr
    · rw [List.getElem?_append_right (by simpa using hk)] at hq
      obtain rfl : q = ⟨some p, next true⟩ := by simpa using List.mem_of_getElem? hq
      obtain rfl := Option.some.inj hr
      omega

/-- The youngest process that has not ended can go on: all its children have ended. -/
theorem Ordered.progress (h : S.Ordered) (hserve : ∀ s c, ∃ r s', serve s c r s')
    (hS : ¬ S.Finished) : ∃ S', Step serve S S' := by
  classical
  let Live (k : ℕ) : Prop := ∃ q, S.procs[k]? = some q ∧ ¬ q.code.Ended
  obtain ⟨k₀, hk₀⟩ : ∃ k, Live k := by
    simp only [Finished, not_forall] at hS
    obtain ⟨q, hq, hlive⟩ := hS
    obtain ⟨k, hk⟩ := List.getElem?_of_mem hq
    exact ⟨k, q, hk, hlive⟩
  have hbound : ∀ k, Live k → k ≤ S.procs.length := by
    rintro k ⟨q, hq, -⟩
    exact (List.getElem?_eq_some_iff.mp hq).1.le
  obtain ⟨⟨par, code⟩, hk, hlive⟩ := Nat.findGreatest_spec (P := Live) (hbound k₀ hk₀) hk₀
  set k := Nat.findGreatest Live S.procs.length with hkdef
  cases code with
  | done a => exact absurd trivial hlive
  | exit => exact absurd trivial hlive
  | call c next =>
    obtain ⟨r, s, hs⟩ := hserve S.server c
    exact ⟨_, .call hk hs⟩
  | print o next => exact ⟨_, .print hk⟩
  | fork next => exact ⟨_, .fork hk⟩
  | wait next =>
    refine ⟨_, .wait hk fun q hq hpar => ?_⟩
    obtain ⟨j, hj⟩ := List.getElem?_of_mem hq
    by_contra hend
    have hlt := h j q k hj hpar
    have hj' : Live j := ⟨q, hj, hend⟩
    exact Nat.findGreatest_is_greatest hlt (hbound j hj') hj'

/-- No run goes on for ever. -/
theorem step_wf (serve : σ → cmd → rsp → σ → Prop) :
    WellFounded fun S' S : Machine σ cmd rsp out α => Step serve S S' :=
  Subrelation.wf codes_step (InvImage.wf codes ForkProgram.next_wf.cutExpand)

/-- Every run can be completed. -/
theorem Ordered.exists_finished (h : S.Ordered) (hserve : ∀ s c, ∃ r s', serve s c r s') :
    ∃ S', Reachable serve S S' ∧ S'.Finished := by
  induction S using (step_wf serve).induction with
  | _ S ih =>
    by_cases hS : S.Finished
    · exact ⟨S, .refl, hS⟩
    · obtain ⟨S₁, hstep⟩ := h.progress hserve hS
      obtain ⟨S', hreach, hfin⟩ := ih S₁ hstep (h.step hstep)
      exact ⟨S', .head hstep hreach, hfin⟩

theorem Reachable.exists_finished {s : σ} {p : ForkProgram cmd rsp out α}
    (h : Reachable serve (Machine.initial s p) S) (hserve : ∀ s c, ∃ r s', serve s c r s') :
    ∃ S', Reachable serve S S' ∧ S'.Finished := by
  have hord : S.Ordered := by
    induction h with
    | refl => exact Ordered.initial s p
    | tail _ hstep ih => exact ih.step hstep
  exact hord.exists_finished hserve

end Termination

end Machine

end EbpfIsp.Library
