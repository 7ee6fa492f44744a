import Mathlib.Logic.Function.Basic
import Mathlib.Tactic

/-! # Host programs as trees of requests

A program returns, prints, issues a request and continues with the response,
or is killed by a signal. The tree fixes the control flow alone. What a request
does is a parameter of the execution, so one program runs alone against a
server, follows a prescribed list of responses, or interleaves with others.
-/

namespace EbpfIsp.Library

/-- A program that issues requests `cmd`, receives responses `rsp` and prints `out`. -/
inductive HostProgram (cmd rsp out α : Type) where
  | done (a : α)
  | call (c : cmd) (next : rsp → HostProgram cmd rsp out α)
  | print (o : out) (next : HostProgram cmd rsp out α)
  | killed

namespace HostProgram

variable {cmd rsp out α β τ : Type}

def bind : HostProgram cmd rsp out α → (α → HostProgram cmd rsp out β) →
    HostProgram cmd rsp out β
  | .done a, f => f a
  | .call c next, f => .call c fun r => (next r).bind f
  | .print o next, f => .print o (next.bind f)
  | .killed, _ => .killed

instance : Monad (HostProgram cmd rsp out) where
  pure := .done
  bind := bind

def issue (c : cmd) : HostProgram cmd rsp out rsp := .call c .done

def say (o : out) : HostProgram cmd rsp out Unit := .print o (.done ())

/-- Evaluate an expression; one without a value raises a signal. -/
def ofOption : Option α → HostProgram cmd rsp out α
  | some a => .done a
  | none => .killed

/-- `for (i = 0; i < n; i++)` with the loop-carried variables `t`. -/
def loop : ℕ → (ℕ → τ → HostProgram cmd rsp out τ) → τ → HostProgram cmd rsp out τ
  | 0, _, t => .done t
  | n + 1, body, t => (loop n body t).bind (body n)

theorem bind_eq (p : HostProgram cmd rsp out α) (f : α → HostProgram cmd rsp out β) :
    (p >>= f) = p.bind f := rfl

theorem loop_one (body : ℕ → τ → HostProgram cmd rsp out τ) (t : τ) :
    loop 1 body t = body 0 t := rfl

section Run
variable {σ : Type} (exec : σ → cmd → Option (σ × rsp))

/-- Sequential execution: the final server state, the printed items and the value.
A request without a result leaves the run without one, and so does a signal. -/
def run : HostProgram cmd rsp out α → σ → Option (σ × List out × α)
  | .done a, s => some (s, [], a)
  | .call c next, s => (exec s c).bind fun p => (next p.2).run p.1
  | .print o next, s => (next.run s).map fun p => (p.1, o :: p.2.1, p.2.2)
  | .killed, _ => none

@[simp] theorem run_done (a : α) (s : σ) :
    (done a : HostProgram cmd rsp out α).run exec s = some (s, [], a) := rfl

theorem run_call {c : cmd} {next : rsp → HostProgram cmd rsp out α} {s s' : σ} {r : rsp}
    (h : exec s c = some (s', r)) : (call c next).run exec s = (next r).run exec s' := by
  simp [run, h]

theorem run_issue_bind {c : cmd} {f : rsp → HostProgram cmd rsp out α} {s s' : σ} {r : rsp}
    (h : exec s c = some (s', r)) : (issue c >>= f).run exec s = (f r).run exec s' :=
  run_call exec h

theorem run_say (o : out) (s : σ) :
    (say o : HostProgram cmd rsp out Unit).run exec s = some (s, [o], ()) := rfl

/-- Sequential composition runs the parts one after the other. -/
theorem run_bind {p : HostProgram cmd rsp out α} {f : α → HostProgram cmd rsp out β}
    {s s₁ : σ} {o₁ : List out} {a : α} (hp : p.run exec s = some (s₁, o₁, a)) :
    (p.bind f).run exec s =
      ((f a).run exec s₁).map fun q => (q.1, o₁ ++ q.2.1, q.2.2) := by
  induction p generalizing s o₁ with
  | done b =>
    obtain ⟨rfl, rfl, rfl⟩ : s = s₁ ∧ [] = o₁ ∧ b = a := by simpa [run] using hp
    cases h : (f b).run exec s <;> simp [bind, h]
  | call c next ih =>
    cases hc : exec s c with
    | none => simp [run, hc] at hp
    | some q =>
      simp only [run, hc, Option.bind_some] at hp
      simpa only [bind, run, hc, Option.bind_some] using ih q.2 hp
  | print o next ih =>
    cases hn : next.run exec s with
    | none => simp [run, hn] at hp
    | some q =>
      obtain ⟨rfl, rfl, rfl⟩ : q.1 = s₁ ∧ o :: q.2.1 = o₁ ∧ q.2.2 = a := by
        simpa [run, hn] using hp
      rw [bind, run, ih hn, Option.map_map]
      rfl
  | killed => simp [run] at hp

theorem run_bind_of {p : HostProgram cmd rsp out α} {f : α → HostProgram cmd rsp out β}
    {s s₁ s₂ : σ} {o₁ o₂ : List out} {a : α} {b : β}
    (hp : p.run exec s = some (s₁, o₁, a)) (hf : (f a).run exec s₁ = some (s₂, o₂, b)) :
    (p >>= f).run exec s = some (s₂, o₁ ++ o₂, b) := by
  rw [bind_eq, run_bind exec hp, hf]
  rfl

/-- Total loop rule for the server state, the output so far and the loop variables. -/
theorem run_loop (I : ℕ → σ → List out → τ → Prop) (n : ℕ)
    (body : ℕ → τ → HostProgram cmd rsp out τ) (s : σ) (t : τ) (hinit : I 0 s [] t)
    (hstep : ∀ i < n, ∀ s os t, I i s os t →
      ∃ s' os' t', (body i t).run exec s = some (s', os', t') ∧ I (i + 1) s' (os ++ os') t') :
    ∃ s' os t', (loop n body t).run exec s = some (s', os, t') ∧ I n s' os t' := by
  induction n with
  | zero => exact ⟨s, [], t, rfl, hinit⟩
  | succ n ih =>
    obtain ⟨s₁, o₁, t₁, h₁, hI⟩ := ih (fun i hi => hstep i (Nat.lt_succ_of_lt hi))
    obtain ⟨s₂, o₂, t₂, h₂, hI'⟩ := hstep n (Nat.lt_succ_self n) s₁ o₁ t₁ hI
    exact ⟨s₂, o₁ ++ o₂, t₂, run_bind_of exec h₁ h₂, hI'⟩

/-- A loop whose iterations leave the server as it was and print `f i`. -/
theorem run_loop_outputs (J : τ → Prop) (n : ℕ) (body : ℕ → τ → HostProgram cmd rsp out τ) (s : σ)
    (t : τ) (f : ℕ → List out) (hinit : J t)
    (hstep : ∀ i < n, ∀ t, J t → ∃ t', (body i t).run exec s = some (s, f i, t') ∧ J t') :
    ∃ t', (loop n body t).run exec s = some (s, (List.range n).flatMap f, t') ∧ J t' := by
  obtain ⟨s', os, t', hrun, rfl, rfl, hJ⟩ := run_loop exec
    (fun i s' os t => s' = s ∧ os = (List.range i).flatMap f ∧ J t) n body s t ⟨rfl, rfl, hinit⟩ (by
      rintro i hi _ _ t ⟨rfl, rfl, hJ⟩
      obtain ⟨t', hrun, hJ'⟩ := hstep i hi t hJ
      exact ⟨_, _, t', hrun, rfl, by simp [List.range_succ], hJ'⟩)
  exact ⟨t', hrun, hJ⟩

end Run

section Path

/-- `Path p log a`: with the responses of `log` the program issues exactly the requests
of `log` and returns `a`. Every execution, against any server, follows a path. -/
inductive Path : HostProgram cmd rsp out α → List (cmd × rsp) → α → Prop
  | done (a : α) : Path (.done a) [] a
  | call {c : cmd} {next : rsp → HostProgram cmd rsp out α} {r : rsp} {log : List (cmd × rsp)}
      {a : α} (h : Path (next r) log a) : Path (.call c next) ((c, r) :: log) a
  | print {o : out} {next : HostProgram cmd rsp out α} {log : List (cmd × rsp)} {a : α}
      (h : Path next log a) : Path (.print o next) log a

/-- A path through a composition consists of paths through its parts. -/
theorem Path.of_bind {p : HostProgram cmd rsp out α} {f : α → HostProgram cmd rsp out β}
    {log : List (cmd × rsp)} {b : β} (h : Path (p.bind f) log b) :
    ∃ a log₁ log₂, Path p log₁ a ∧ Path (f a) log₂ b ∧ log = log₁ ++ log₂ := by
  induction p generalizing log with
  | done a => exact ⟨a, [], log, .done a, h, rfl⟩
  | call c next ih =>
    cases h with
    | call h =>
      obtain ⟨a, log₁, log₂, h₁, h₂, rfl⟩ := ih _ h
      exact ⟨a, _, log₂, .call h₁, h₂, rfl⟩
  | print o next ih =>
    cases h with
    | print h =>
      obtain ⟨a, log₁, log₂, h₁, h₂, rfl⟩ := ih h
      exact ⟨a, log₁, log₂, .print h₁, h₂, rfl⟩
  | killed => cases h

/-- Loop rule for paths: an invariant of the loop variables and the requests of each iteration. -/
theorem Path.of_loop (I : ℕ → τ → Prop) (c : ℕ → cmd) {n : ℕ}
    {body : ℕ → τ → HostProgram cmd rsp out τ} {t t' : τ} {log : List (cmd × rsp)}
    (hinit : I 0 t) (hstep : ∀ i < n, ∀ t t' log, I i t → Path (body i t) log t' →
      I (i + 1) t' ∧ log.map Prod.fst = [c i])
    (h : Path (loop n body t) log t') : I n t' ∧ log.map Prod.fst = (List.range n).map c := by
  induction n generalizing t' log with
  | zero =>
    cases h
    exact ⟨hinit, rfl⟩
  | succ n ih =>
    obtain ⟨t₁, log₁, log₂, h₁, h₂, rfl⟩ := Path.of_bind h
    obtain ⟨hI, hlog₁⟩ := ih (fun i hi => hstep i (Nat.lt_succ_of_lt hi)) h₁
    obtain ⟨hI', hlog₂⟩ := hstep n (Nat.lt_succ_self n) t₁ t' log₂ hI h₂
    refine ⟨hI', ?_⟩
    rw [List.map_append, hlog₁, hlog₂, List.range_succ, List.map_append]
    rfl

/-- `Returns p`: no response leads to a signal. -/
inductive Returns : HostProgram cmd rsp out α → Prop
  | done (a : α) : Returns (.done a)
  | call {c : cmd} {next : rsp → HostProgram cmd rsp out α} (h : ∀ r, Returns (next r)) :
      Returns (.call c next)
  | print {o : out} {next : HostProgram cmd rsp out α} (h : Returns next) : Returns (.print o next)

theorem Returns.bind {p : HostProgram cmd rsp out α} {f : α → HostProgram cmd rsp out β}
    (hp : Returns p) (hf : ∀ a, Returns (f a)) : Returns (p.bind f) := by
  induction hp with
  | done a => exact hf a
  | call _ ih => exact .call ih
  | print _ ih => exact .print ih

theorem Returns.issue (c : cmd) : Returns (issue c : HostProgram cmd rsp out rsp) :=
  .call fun r => .done r

theorem Returns.loop {body : ℕ → τ → HostProgram cmd rsp out τ} (n : ℕ) (t : τ)
    (h : ∀ i t, Returns (body i t)) : Returns (loop n body t) := by
  induction n with
  | zero => exact .done t
  | succ n ih => exact ih.bind (h n)

/-- Whatever a server answers, there is a path along its answers. -/
theorem Returns.exists_path (answer : cmd → rsp) {p : HostProgram cmd rsp out α} (h : Returns p) :
    ∃ log a, Path p log a ∧ ∀ e ∈ log, e.2 = answer e.1 := by
  induction h with
  | done a => exact ⟨[], a, .done a, by simp⟩
  | @call c next _ ih =>
    obtain ⟨log, a, hp, hl⟩ := ih (answer c)
    exact ⟨(c, answer c) :: log, a, .call hp, by simpa using hl⟩
  | print _ ih =>
    obtain ⟨log, a, hp, hl⟩ := ih
    exact ⟨log, a, .print hp, hl⟩

/-- `Emits p cs`: `p` returns and its requests are `cs`, whatever the responses. -/
inductive Emits : HostProgram cmd rsp out α → List cmd → Prop
  | done (a : α) : Emits (.done a) []
  | call {c : cmd} {next : rsp → HostProgram cmd rsp out α} {cs : List cmd}
      (h : ∀ r, Emits (next r) cs) : Emits (.call c next) (c :: cs)
  | print {o : out} {next : HostProgram cmd rsp out α} {cs : List cmd}
      (h : Emits next cs) : Emits (.print o next) cs

theorem Emits.returns {p : HostProgram cmd rsp out α} {cs : List cmd} (h : Emits p cs) :
    Returns p := by
  induction h with
  | done a => exact .done a
  | call _ ih => exact .call ih
  | print _ ih => exact .print ih

theorem Emits.say (o : out) : Emits (say o : HostProgram cmd rsp out Unit) [] :=
  .print (.done ())

theorem Emits.bind {p : HostProgram cmd rsp out α} {f : α → HostProgram cmd rsp out β}
    {cs ds : List cmd} (hp : Emits p cs) (hf : ∀ a, Emits (f a) ds) :
    Emits (p.bind f) (cs ++ ds) := by
  induction hp with
  | done a => exact hf a
  | call _ ih => exact .call ih
  | print _ ih => exact .print ih

theorem Emits.issue_bind {c : cmd} {f : rsp → HostProgram cmd rsp out α} {cs : List cmd}
    (h : ∀ r, Emits (f r) cs) : Emits ((issue c).bind f) (c :: cs) := .call h

theorem Emits.silent_bind {p : HostProgram cmd rsp out α} {f : α → HostProgram cmd rsp out β}
    {cs : List cmd} (hp : Emits p []) (hf : ∀ a, Emits (f a) cs) : Emits (p.bind f) cs :=
  hp.bind hf

theorem Emits.loop {body : ℕ → τ → HostProgram cmd rsp out τ} (c : ℕ → cmd) (n : ℕ) (t : τ)
    (h : ∀ i t, Emits (body i t) [c i]) : Emits (loop n body t) ((List.range n).map c) := by
  induction n with
  | zero => exact .done t
  | succ n ih =>
    rw [List.range_succ, List.map_append]
    exact ih.bind (h n)

theorem Emits.call_inv {c : cmd} {next : rsp → HostProgram cmd rsp out α} {cs : List cmd}
    (h : Emits (.call c next) cs) : ∃ ds, cs = c :: ds ∧ ∀ r, Emits (next r) ds := by
  cases h with
  | call h => exact ⟨_, rfl, h⟩

theorem Emits.print_inv {o : out} {next : HostProgram cmd rsp out α} {cs : List cmd}
    (h : Emits (.print o next) cs) : Emits next cs := by
  cases h with
  | print h => exact h

theorem Emits.done_inv {a : α} {cs : List cmd}
    (h : Emits (.done a : HostProgram cmd rsp out α) cs) : cs = [] := by
  cases h
  rfl

theorem Emits.path {p : HostProgram cmd rsp out α} {cs : List cmd} {log : List (cmd × rsp)} {a : α}
    (h : Emits p cs) (hp : Path p log a) : log.map Prod.fst = cs := by
  induction hp generalizing cs with
  | done a => simp [h.done_inv]
  | call _ ih =>
    obtain ⟨ds, rfl, hn⟩ := h.call_inv
    simp [ih (hn _)]
  | print _ ih => exact ih h.print_inv

end Path

end HostProgram

end EbpfIsp.Library
