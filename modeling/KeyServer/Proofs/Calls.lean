import KeyServer.Fault

/-! # Calls in turn

A data structure is used by one call after another; each may fail, answers something and leaves
another structure (`run`).  Some calls must not be made in some states, so whether calls are
`Admissible` depends on the states that they lead through.

What a call may answer and leave is told by a relation `step` on plainer states.  Calls in turn
follow it (`Follows`) if each of them does, and the structure shows the plainer state before
and after each call.

* **`run_simulates`**: if every allowed call succeeds and follows the relation (`Simulates`),
  then so do all admissible calls in turn.
* **`run_eq_of_call_eq`**: two ways to make a call that agree on each allowed one agree on all
  admissible ones in turn.
-/

namespace KeyServer.Calls

variable {σ τ ι ω : Type}

/-- Makes some calls in turn. -/
def run (call : σ → ι → Except Fault (ω × σ)) (s : σ) : List ι → Except Fault (List ω × σ)
  | [] => .ok ([], s)
  | c :: cs => do
    let (answer, s) ← call s c
    let (answers, s) ← run call s cs
    return (answer :: answers, s)

/-- Whether each of some calls in turn is allowed in the state that it is made in. -/
def Admissible (call : σ → ι → Except Fault (ω × σ)) (allows : σ → ι → Prop) :
    σ → List ι → Prop
  | _, [] => True
  | s, c :: cs =>
    allows s c ∧ ∀ answer s', call s c = .ok (answer, s') → Admissible call allows s' cs

/-- Calls in turn that answer and leave what `step` tells, and lead through states that all show
the plainer ones. -/
inductive Follows (call : σ → ι → Except Fault (ω × σ)) (step : τ → ι → ω → τ → Prop)
    (shows : σ → τ → Prop) : σ → τ → List ι → List ω → σ → τ → Prop where
  | nil {s : σ} {m : τ} (hshows : shows s m) : Follows call step shows s m [] [] s m
  | cons {s s₁ s' : σ} {m m₁ m' : τ} {c : ι} {answer : ω} {cs : List ι} {answers : List ω}
      (hshows : shows s m) (hcall : call s c = .ok (answer, s₁)) (hstep : step m c answer m₁)
      (hrest : Follows call step shows s₁ m₁ cs answers s' m') :
      Follows call step shows s m (c :: cs) (answer :: answers) s' m'

/-- Whether every allowed call on a state succeeds and follows a relation on the states that it
is read as. -/
def Simulates (call : σ → ι → Except Fault (ω × σ)) (allows : σ → ι → Prop)
    (step : τ → ι → ω → τ → Prop) (R : σ → τ → Prop) : Prop :=
  ∀ s m c, R s m → allows s c →
    ∃ answer s' m', call s c = .ok (answer, s') ∧ step m c answer m' ∧ R s' m'

variable {call : σ → ι → Except Fault (ω × σ)} {allows : σ → ι → Prop}

/-- Calls are admissible if the first one is allowed and the others are admissible after it. -/
theorem Admissible.cons {s : σ} {c : ι} {cs : List ι} (answer : ω) (s' : σ) (hc : allows s c)
    (hcall : call s c = .ok (answer, s')) (hcs : Admissible call allows s' cs) :
    Admissible call allows s (c :: cs) := by
  refine ⟨hc, fun answer' s'' h => ?_⟩
  cases hcall.symm.trans h
  exact hcs

/-- All calls are admissible where every call is allowed. -/
theorem admissible_of_forall (h : ∀ s c, allows s c) : ∀ {s : σ} (calls : List ι),
    Admissible call allows s calls
  | _, [] => trivial
  | s, c :: cs => ⟨h s c, fun _ _ _ => admissible_of_forall h cs⟩

/-- Calls that are admissible in two ways. -/
theorem Admissible.and {allows' : σ → ι → Prop} : ∀ {s : σ} {cs : List ι},
    Admissible call allows s cs → Admissible call allows' s cs →
      Admissible call (fun s c => allows s c ∧ allows' s c) s cs
  | _, [], _, _ => trivial
  | _, _ :: _, h, h' =>
    ⟨⟨h.1, h'.1⟩, fun answer s' hcall => (h.2 answer s' hcall).and (h'.2 answer s' hcall)⟩

/-- The first of some admissible calls are admissible. -/
theorem Admissible.of_append {cs cs' : List ι} : ∀ {s : σ}, Admissible call allows s (cs ++ cs') →
    Admissible call allows s cs := by
  induction cs with
  | nil => exact fun _ => trivial
  | cons c cs ih => exact fun h => ⟨h.1, fun answer s' hcall => ih (h.2 answer s' hcall)⟩

/-- Calls may follow others that lead to a state in which they are admissible. -/
theorem Admissible.append {cs cs' : List ι} : ∀ {s : σ}, Admissible call allows s cs →
    (∀ answers s', run call s cs = .ok (answers, s') → Admissible call allows s' cs') →
    Admissible call allows s (cs ++ cs') := by
  induction cs with
  | nil => exact fun _ h' => h' [] _ rfl
  | cons c cs ih =>
    refine fun h h' => ⟨h.1, fun answer s₁ hcall => ih (h.2 answer s₁ hcall) ?_⟩
    intro answers s' hrun
    exact h' (answer :: answers) s' (by simp [run, hcall, hrun])

/-- Calls in turn are one run after the other. -/
theorem run_append (first second : List ι) : ∀ s : σ, run call s (first ++ second) = do
    let (answers, s) ← run call s first
    let (answers', s) ← run call s second
    return (answers ++ answers', s) := by
  induction first with
  | nil =>
    intro s
    dsimp only [List.nil_append, run, ok_bind]
    cases run call s second <;> rfl
  | cons c first ih =>
    intro s
    simp only [List.cons_append, run, ih, bind_assoc, pure_bind]

/-- **Simulation** of single calls is simulation of calls in turn. -/
theorem run_simulates {R shows : σ → τ → Prop} {step : τ → ι → ω → τ → Prop}
    (hcall : Simulates call allows step R) (hshows : ∀ s m, R s m → shows s m) {s : σ} {m : τ}
    (h : R s m) {calls : List ι} (hcalls : Admissible call allows s calls) :
    ∃ answers s' m', run call s calls = .ok (answers, s') ∧
      Follows call step shows s m calls answers s' m' := by
  induction calls generalizing s m with
  | nil => exact ⟨[], s, m, rfl, .nil (hshows s m h)⟩
  | cons c cs ih =>
    obtain ⟨hc, hcs⟩ := hcalls
    obtain ⟨answer, s₁, m₁, hfirst, hstep, h₁⟩ := hcall s m c h hc
    obtain ⟨answers, s', m', hrun, hfollows⟩ := ih h₁ (hcs answer s₁ hfirst)
    exact ⟨answer :: answers, s', m', by simp [run, hfirst, hrun],
      .cons (hshows s m h) hfirst hstep hfollows⟩

/-- **Another way to make a call** that has the same outcome wherever the calls lead has the same
outcome for all of them. -/
theorem run_eq_of_call_eq {call' : σ → ι → Except Fault (ω × σ)} {P : σ → Prop}
    (hcall : ∀ s c answer s', P s → allows s c → call s c = .ok (answer, s') →
      call' s c = .ok (answer, s') ∧ P s')
    {s s' : σ} (h : P s) {calls : List ι} {answers : List ω}
    (hcalls : Admissible call allows s calls) (hrun : run call s calls = .ok (answers, s')) :
    run call' s calls = .ok (answers, s') := by
  induction calls generalizing s answers with
  | nil => exact hrun
  | cons c cs ih =>
    obtain ⟨hc, hcs⟩ := hcalls
    simp only [run, bind_eq_ok_iff] at hrun
    obtain ⟨⟨answer, s₁⟩, hfirst, ⟨answers', s₂⟩, hrest, heq⟩ := hrun
    cases heq
    obtain ⟨hfirst', h₁⟩ := hcall s c answer s₁ h hc hfirst
    simp [run, hfirst', ih h₁ (hcs answer s₁ hfirst) hrest]

end KeyServer.Calls
