import EbpfIsp.Library.HostProgram
import Mathlib.Logic.Relation

/-! # Interleaved host programs over one server

Each worker runs its jobs one after the other; every job is a host program.
One step of the system is one step of one worker, and requests are atomic at
the server, so a run is an arbitrary interleaving of the workers' requests.

The rule at the end is local. Each worker sees its own part of the server; a
step of one worker must leave the parts of the others alone. An invariant of
one program, its log and its part then holds in every reachable state.
-/

namespace EbpfIsp.Library

variable {κ J σ cmd rsp out α V : Type}

structure Task (J cmd rsp out α : Type) where
  job : J
  prog : HostProgram cmd rsp out α
  log : List (cmd × rsp)

structure Worker (J cmd rsp out α : Type) where
  todo : List J
  current : Option (Task J cmd rsp out α)
  finished : List (J × List (cmd × rsp))

structure System (κ J σ cmd rsp out α : Type) where
  server : σ
  worker : κ → Worker J cmd rsp out α

/-- The jobs a worker has entered, each with its log; the unfinished one comes last. -/
def Worker.history (w : Worker J cmd rsp out α) : List (J × List (cmd × rsp)) :=
  w.finished ++ w.current.toList.map fun t => (t.job, t.log)

def System.initial (s : σ) (jobs : κ → List J) : System κ J σ cmd rsp out α where
  server := s
  worker k := ⟨jobs k, none, []⟩

variable [DecidableEq κ]

def System.set (S : System κ J σ cmd rsp out α) (s : σ) (k : κ) (w : Worker J cmd rsp out α) :
    System κ J σ cmd rsp out α where
  server := s
  worker := Function.update S.worker k w

/-- One step of worker `k`. The server answers a request by `serve`; `start` relates a
job to the programs that may be run for it. -/
inductive Step (serve : σ → cmd → rsp → σ → Prop)
    (start : κ → J → HostProgram cmd rsp out α → Prop) :
    System κ J σ cmd rsp out α → System κ J σ cmd rsp out α → Prop
  | begin {S} {k : κ} {j : J} {js : List J} {fin : List (J × List (cmd × rsp))}
      {p : HostProgram cmd rsp out α} (hw : S.worker k = ⟨j :: js, none, fin⟩)
      (hp : start k j p) : Step serve start S (S.set S.server k ⟨js, some ⟨j, p, []⟩, fin⟩)
  | call {S} {k : κ} {j : J} {js : List J} {fin : List (J × List (cmd × rsp))}
      {c : cmd} {next : rsp → HostProgram cmd rsp out α} {log : List (cmd × rsp)} {r : rsp} {s : σ}
      (hw : S.worker k = ⟨js, some ⟨j, .call c next, log⟩, fin⟩) (hs : serve S.server c r s) :
      Step serve start S (S.set s k ⟨js, some ⟨j, next r, log ++ [(c, r)]⟩, fin⟩)
  | print {S} {k : κ} {j : J} {js : List J} {fin : List (J × List (cmd × rsp))}
      {o : out} {next : HostProgram cmd rsp out α} {log : List (cmd × rsp)}
      (hw : S.worker k = ⟨js, some ⟨j, .print o next, log⟩, fin⟩) :
      Step serve start S (S.set S.server k ⟨js, some ⟨j, next, log⟩, fin⟩)
  | finish {S} {k : κ} {j : J} {js : List J} {fin : List (J × List (cmd × rsp))}
      {a : α} {log : List (cmd × rsp)}
      (hw : S.worker k = ⟨js, some ⟨j, .done a, log⟩, fin⟩) :
      Step serve start S (S.set S.server k ⟨js, none, fin ++ [(j, log)]⟩)

def Reachable (serve : σ → cmd → rsp → σ → Prop)
    (start : κ → J → HostProgram cmd rsp out α → Prop)
    (S₀ S : System κ J σ cmd rsp out α) : Prop :=
  Relation.ReflTransGen (Step serve start) S₀ S

/-- A specification of one worker's programs against its own part `V` of the server.
`Idle` constrains the part between jobs; `Busy` relates the rest of a running program, its
log and the part; `Good` is what is promised of every log, for the jobs in `Allowed`. -/
structure LocalSpec (serve : σ → cmd → rsp → σ → Prop)
    (start : κ → J → HostProgram cmd rsp out α → Prop) (view : σ → κ → V) where
  Idle : κ → V → Prop
  Busy : κ → J → HostProgram cmd rsp out α → List (cmd × rsp) → V → Prop
  Good : κ → J → List (cmd × rsp) → Prop
  Allowed : κ → J → Prop
  begin : ∀ {k j p v}, Allowed k j → Idle k v → start k j p → Busy k j p [] v
  call : ∀ {k j c next log s r s'}, Busy k j (.call c next) log (view s k) → serve s c r s' →
    Busy k j (next r) (log ++ [(c, r)]) (view s' k)
  frame : ∀ {k j c next log s r s' k'}, Busy k j (.call c next) log (view s k) →
    serve s c r s' → k' ≠ k → view s' k' = view s k'
  print : ∀ {k j o next log v}, Busy k j (.print o next) log v → Busy k j next log v
  finish : ∀ {k j a log v}, Busy k j (.done a) log v → Idle k v
  good : ∀ {k j p log v}, Busy k j p log v → Good k j log

namespace LocalSpec

variable {serve : σ → cmd → rsp → σ → Prop}
  {start : κ → J → HostProgram cmd rsp out α → Prop} {view : σ → κ → V}

structure Holds (L : LocalSpec serve start view) (k : κ) (w : Worker J cmd rsp out α)
    (v : V) : Prop where
  todo : ∀ j ∈ w.todo, L.Allowed k j
  idle : w.current = none → L.Idle k v
  busy : ∀ t, w.current = some t → L.Busy k t.job t.prog t.log v
  done : ∀ e ∈ w.finished, L.Good k e.1 e.2

/-- One worker moves and the parts of the others stay. -/
theorem Holds.set {L : LocalSpec serve start view} {S : System κ J σ cmd rsp out α} {s : σ} {k : κ}
    {w : Worker J cmd rsp out α} (hS : ∀ k, L.Holds k (S.worker k) (view S.server k))
    (hw : L.Holds k w (view s k)) (hframe : ∀ k' ≠ k, view s k' = view S.server k') :
    ∀ k', L.Holds k' ((S.set s k w).worker k') (view (S.set s k w).server k') := by
  intro k'
  by_cases hk : k' = k
  · subst hk
    simpa [System.set] using hw
  · simpa [System.set, hk, hframe k' hk] using hS k'

omit [DecidableEq κ] in
theorem Holds.of_busy {L : LocalSpec serve start view} {k : κ} {js : List J}
    {t : Task J cmd rsp out α} {fin : List (J × List (cmd × rsp))} {v : V}
    (htodo : ∀ j ∈ js, L.Allowed k j) (hbusy : L.Busy k t.job t.prog t.log v)
    (hdone : ∀ e ∈ fin, L.Good k e.1 e.2) : L.Holds k ⟨js, some t, fin⟩ v where
  todo := htodo
  idle h := absurd h (Option.some_ne_none t)
  busy t' ht' := by
    cases ht'
    exact hbusy
  done := hdone

theorem step (L : LocalSpec serve start view) {S S' : System κ J σ cmd rsp out α}
    (hS : ∀ k, L.Holds k (S.worker k) (view S.server k)) (h : Step serve start S S') :
    ∀ k, L.Holds k (S'.worker k) (view S'.server k) := by
  cases h with
  | @begin k j js fin p hw hp =>
    have hI := hS k
    rw [hw] at hI
    have hb := L.begin (hI.todo j List.mem_cons_self) (hI.idle rfl) hp
    apply Holds.set hS
    · exact .of_busy (fun i hi => hI.todo i (List.mem_cons_of_mem _ hi)) hb hI.done
    · exact fun _ _ => rfl
  | @call k j js fin c next log r s hw hs =>
    have hI := hS k
    rw [hw] at hI
    have hb := L.call (hI.busy _ rfl) hs
    apply Holds.set hS
    · exact .of_busy hI.todo hb hI.done
    · exact fun k' hk => L.frame (hI.busy _ rfl) hs hk
  | @print k j js fin o next log hw =>
    have hI := hS k
    rw [hw] at hI
    have hb := L.print (hI.busy _ rfl)
    apply Holds.set hS
    · exact .of_busy hI.todo hb hI.done
    · exact fun _ _ => rfl
  | @finish k j js fin a log hw =>
    have hI := hS k
    rw [hw] at hI
    have hbusy := hI.busy _ rfl
    have hdone : ∀ e ∈ fin ++ [(j, log)], L.Good k e.1 e.2 := by
      intro e he
      rcases List.mem_append.mp he with he | he
      · exact hI.done e he
      · rw [List.mem_singleton.mp he]
        exact L.good hbusy
    apply Holds.set hS
    · exact ⟨hI.todo, fun _ => L.finish hbusy, by simp, hdone⟩
    · exact fun _ _ => rfl

/-- The specification holds of every worker in every reachable state. -/
theorem reachable (L : LocalSpec serve start view) {s : σ} {jobs : κ → List J}
    (hjobs : ∀ k, ∀ j ∈ jobs k, L.Allowed k j) (hidle : ∀ k, L.Idle k (view s k))
    {S : System κ J σ cmd rsp out α}
    (h : Reachable serve start (System.initial s jobs) S) (k : κ) :
    L.Holds k (S.worker k) (view S.server k) := by
  have hall : ∀ k, L.Holds k (S.worker k) (view S.server k) := by
    induction h with
    | refl => exact fun k => ⟨hjobs k, fun _ => hidle k, by simp [System.initial], by
        simp [System.initial]⟩
    | tail _ hstep ih => exact L.step ih hstep
  exact hall k

/-- Every job entered so far, in any interleaving, has a good log. -/
theorem history_good (L : LocalSpec serve start view) {s : σ} {jobs : κ → List J}
    (hjobs : ∀ k, ∀ j ∈ jobs k, L.Allowed k j) (hidle : ∀ k, L.Idle k (view s k))
    {S : System κ J σ cmd rsp out α}
    (h : Reachable serve start (System.initial s jobs) S) {k : κ} {j : J}
    {log : List (cmd × rsp)} (hlog : (j, log) ∈ (S.worker k).history) : L.Good k j log := by
  have hw := L.reachable hjobs hidle h k
  rcases List.mem_append.mp hlog with hl | hl
  · exact hw.done _ hl
  · obtain ⟨t, ht, he⟩ := List.mem_map.mp hl
    have hb := L.good (hw.busy t (Option.mem_toList.mp ht))
    cases he
    exact hb

end LocalSpec

end EbpfIsp.Library
