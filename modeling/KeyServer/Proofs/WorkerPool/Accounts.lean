import KeyServer.WorkerPool
import Mathlib.Data.List.Perm.Basic

/-! # A pool loses no task before its last worker is lost

Wherever the participants' steps lead, every submitted task has ended, is being run, waits, or was
thrown away with the last worker (`Accounts`), and a task that was thrown away is counted as pending
for ever.  So a pool keeps what one expects of it (`LosesNothing`) just as long as no task makes the
last worker fail while others wait (`Strands`).

* **`Step`**: all that a step can do.
* **`Accounts.step`**, **`Accounts.run`**: no step, and no run, loses count of a task.
* **`losesNothing_iff_not_strands`**: a pool that is not stranded runs every task once, is waited
  for just until all tasks have ended, and is not waited for in vain.
-/

namespace KeyServer

variable {τ : Type}

/-- The task that a worker is busy with. -/
def Worker.task? : Worker τ → Option τ
  | .running task => some task
  | .idle | .lost | .gone => none

/-- The task that a step brings. -/
def PoolEvent.task? : PoolEvent τ → Option τ
  | .submit task => some task
  | _ => none

/-- Whether a worker goes on with the tasks in a step. -/
def PoolEvent.works : PoolEvent τ → Bool
  | .take _ | .finish _ | .fail _ => true
  | .submit _ | .close | .leave _ => false

/-- The tasks submitted in some steps. -/
def submitted (es : List (PoolEvent τ)) : List τ := es.filterMap PoolEvent.task?

namespace WorkerPool

/-- The tasks that workers are busy with. -/
def running (p : WorkerPool τ) : List τ := p.workers.filterMap Worker.task?

/-- Whether the pool was closed and every worker is through. -/
def Dropped (p : WorkerPool τ) : Prop := p.closed = true ∧ p.hasReceiver = false

/-- How many steps workers can still make if nothing else is submitted: a task that waits is taken
and ends, and every worker leaves. -/
def work (p : WorkerPool τ) : Nat :=
  2 * p.queue.length + p.running.length + p.workers.countP Worker.receives

/-- Whether at some point a task makes the last worker fail while others wait. -/
def Strands (p : WorkerPool τ) (es : List (PoolEvent τ)) : Prop :=
  ∃ before worker after q, es = before ++ .fail worker :: after ∧ p.run? before = some q ∧
    q.queue ≠ [] ∧ ∀ other ≠ worker, ∀ w ∈ q.workers[other]?, w.receives = false

/-- What is expected of a pool that some tasks were submitted to. -/
structure LosesNothing (p : WorkerPool τ) (submitted : List τ) : Prop where
  /-- Every task has ended, is being run or waits, and only one of these, once. -/
  tasks : submitted.Perm (p.ended ++ (p.running ++ p.queue))
  pending : p.pending + p.ended.length = submitted.length
  /-- Waiting for the pool to be idle is over just when nothing is run or waits. -/
  idle : p.pending = 0 ↔ p.running = [] ∧ p.queue = []
  /-- As long as it is not over some worker can go on. -/
  progress : p.pending ≠ 0 → ∃ e : PoolEvent τ, e.works = true ∧ (p.step? e).isSome
  /-- A closed pool can go on until it is dropped. -/
  leaving : p.closed = true → p.Dropped ∨ ∃ e, (p.step? e).isSome
  /-- This comes to an end. -/
  settles : ∀ e q, p.step? e = some q → e.task? = none → e ≠ .close → q.work < p.work
  /-- A dropped pool has run every task. -/
  dropped : p.Dropped → submitted.Perm p.ended

/-! ## Steps -/

/-- All that a step can do.  The worker that makes it is the one behind `front`. -/
inductive Step : WorkerPool τ → PoolEvent τ → WorkerPool τ → Prop where
  | queued {workers queue pending ended} {task : τ} (h : workers.any Worker.receives = true) :
      Step ⟨workers, queue, pending, ended, false⟩ (.submit task)
        ⟨workers, queue ++ [task], pending + 1, ended, false⟩
  | inline {workers queue pending ended} {task : τ} (h : workers.any Worker.receives = false) :
      Step ⟨workers, queue, pending, ended, false⟩ (.submit task)
        ⟨workers, queue, pending, task :: ended, false⟩
  | take {front back rest pending ended closed} {task : τ} :
      Step ⟨front ++ .idle :: back, task :: rest, pending, ended, closed⟩ (.take front.length)
        ⟨front ++ .running task :: back, rest, pending, ended, closed⟩
  | finish {front back queue pending ended closed} {task : τ} :
      Step ⟨front ++ .running task :: back, queue, pending, ended, closed⟩ (.finish front.length)
        ⟨front ++ .idle :: back, queue, pending - 1, task :: ended, closed⟩
  | fail {front back queue pending ended closed} {task : τ} :
      Step ⟨front ++ .running task :: back, queue, pending, ended, closed⟩ (.fail front.length)
        ⟨front ++ .lost :: back, if (front ++ back).any Worker.receives then queue else [],
          pending - 1, task :: ended, closed⟩
  | close {workers queue pending ended} :
      Step ⟨workers, queue, pending, ended, false⟩ .close ⟨workers, queue, pending, ended, true⟩
  | leave {front back pending ended} :
      Step ⟨front ++ .idle :: back, [], pending, ended, true⟩ (.leave front.length)
        ⟨front ++ .gone :: back, [], pending, ended, true⟩

/-- The workers before and behind one of them, who may go on to something else. -/
theorem exists_around {workers : List (Worker τ)} {i : Nat} {w : Worker τ}
    (h : workers[i]? = some w) :
    ∃ front back, workers = front ++ w :: back ∧ front.length = i ∧
      ∀ w', workers.set i w' = front ++ w' :: back := by
  obtain ⟨hi, rfl⟩ := List.getElem?_eq_some_iff.mp h
  refine ⟨workers.take i, workers.drop (i + 1), ?_, ?_, fun w' => ?_⟩
  · rw [List.getElem_cons_drop, List.take_append_drop]
  · exact List.length_take_of_le (Nat.le_of_lt hi)
  · rw [List.set_eq_take_append_cons_drop, if_pos hi]

theorem Step.of_step? {p q : WorkerPool τ} {e : PoolEvent τ} (h : p.step? e = some q) :
    Step p e q := by
  obtain ⟨workers, queue, pending, ended, closed⟩ := p
  cases e with
  | submit task =>
    cases closed with
    | true => cases h
    | false =>
      rw [step?, if_neg Bool.false_ne_true, submit] at h
      split at h
      · next hany => cases h; exact .queued hany
      · next hany => cases h; exact .inline (Bool.eq_false_iff.mpr hany)
  | take i =>
    simp only [step?] at h
    split at h
    · next task rest hi =>
      obtain ⟨front, back, rfl, rfl, hset⟩ := exists_around hi
      simp only [setWorker, hset, List.any_append, List.any_cons, Worker.receives, Bool.true_or,
        Bool.or_true, if_true, Option.some.injEq] at h
      exact h ▸ .take
    · cases h
  | finish i =>
    simp only [step?] at h
    split at h
    · next task hi =>
      obtain ⟨front, back, rfl, rfl, hset⟩ := exists_around hi
      simp only [setWorker, hset, List.any_append, List.any_cons, Worker.receives, Bool.true_or,
        Bool.or_true, if_true, Option.some.injEq] at h
      exact h ▸ .finish
    · cases h
  | fail i =>
    simp only [step?] at h
    split at h
    · next task hi =>
      obtain ⟨front, back, rfl, rfl, hset⟩ := exists_around hi
      simp only [setWorker, hset, List.any_append, List.any_cons, Worker.receives, Bool.false_or,
        Option.some.injEq] at h
      rw [← List.any_append] at h
      exact h ▸ .fail
    · cases h
  | close =>
    cases closed with
    | true => cases h
    | false => cases h; exact .close
  | leave i =>
    simp only [step?] at h
    split at h
    · next hi =>
      obtain ⟨front, back, rfl, rfl, hset⟩ := exists_around hi
      split at h
      · next hclosed =>
        obtain rfl : closed = true := hclosed
        simp only [setWorker, hset, ite_self, Option.some.injEq] at h
        exact h ▸ .leave
      · cases h
    · cases h

theorem running_around (front back : List (Worker τ)) (w : Worker τ) (queue : List τ)
    (pending : Nat) (ended : List τ) (closed : Bool) :
    running ⟨front ++ w :: back, queue, pending, ended, closed⟩
      = front.filterMap Worker.task? ++ (w.task?.toList ++ back.filterMap Worker.task?) := by
  rw [running, List.filterMap_append, List.filterMap_cons]
  cases w.task? <;> rfl

/-- Every step that is not made from outside leaves less to do. -/
theorem Step.work_lt {p q : WorkerPool τ} {e : PoolEvent τ} (h : Step p e q)
    (htask : e.task? = none) (hclose : e ≠ .close) : q.work < p.work := by
  cases h with
  | queued | inline => cases htask
  | close => exact absurd rfl hclose
  | take | finish | leave =>
    simp only [work, running_around, Worker.task?, Worker.receives, Option.toList, if_true,
      if_false, Bool.false_eq_true, List.countP_append, List.countP_cons, List.length_append,
      List.length_cons, List.length_nil]
    omega
  | @fail front back queue =>
    have hqueue : (if (front ++ back).any Worker.receives then queue else []).length
        ≤ queue.length := by
      split
      · exact Nat.le_refl _
      · exact Nat.zero_le _
    simp only [work, running_around, Worker.task?, Worker.receives, Option.toList, if_true,
      if_false, Bool.false_eq_true, List.countP_append, List.countP_cons, List.length_append,
      List.length_cons, List.length_nil]
    omega

/-! ## Where the tasks are -/

/-- The tasks that are thrown away in a step, with the last worker. -/
def abandons (p : WorkerPool τ) : PoolEvent τ → List τ
  | .fail worker => if (p.workers.set worker .lost).any Worker.receives then [] else p.queue
  | _ => []

theorem abandons_fail_around (front back : List (Worker τ)) (w : Worker τ) (queue : List τ)
    (pending : Nat) (ended : List τ) (closed : Bool) :
    abandons ⟨front ++ w :: back, queue, pending, ended, closed⟩ (.fail front.length)
      = if (front ++ back).any Worker.receives then [] else queue := by
  simp only [abandons, List.set_append_right _ _ (Nat.le_refl _), Nat.sub_self, List.set_cons_zero,
    List.any_append, List.any_cons, Worker.receives, Bool.false_or]

/-- The tasks that are thrown away in some steps. -/
def abandoned (p : WorkerPool τ) : List (PoolEvent τ) → List τ
  | [] => []
  | e :: es => p.abandons e ++ (p.step? e).elim [] (·.abandoned es)

/-- Every task that was submitted has ended, is being run, waits or was thrown away. -/
structure Accounts (submitted abandoned : List τ) (p : WorkerPool τ) : Prop where
  tasks : submitted.Perm (p.ended ++ (p.running ++ (p.queue ++ abandoned)))
  pending : p.pending + p.ended.length = submitted.length
  /-- Only workers have tasks wait. -/
  waiting : p.hasReceiver = false → p.queue = []

namespace Accounts

variable {subs lost : List τ} {p q : WorkerPool τ} {e : PoolEvent τ}

theorem ofSize (n : Nat) : Accounts (τ := τ) [] [] (ofSize n) where
  tasks := by simp [WorkerPool.ofSize, running, Worker.task?]
  pending := rfl
  waiting _ := rfl

/-- **No step loses count of a task.** -/
theorem step (h : Accounts subs lost p) (hstep : Step p e q) :
    Accounts (subs ++ e.task?.toList) (lost ++ p.abandons e) q := by
  classical
  obtain ⟨htasks, hpending, hwaiting⟩ := h
  have hlength := htasks.length_eq
  rw [List.perm_iff_count] at htasks
  cases hstep with
  | queued hany =>
    refine ⟨List.perm_iff_count.mpr fun t => ?_, ?_, fun hnone => ?_⟩
    · have hcount := htasks t
      simp only [running, abandons, PoolEvent.task?, Option.toList, List.append_nil,
        List.count_append] at hcount ⊢
      omega
    · simp only [PoolEvent.task?, Option.toList, List.length_append, List.length_singleton]
      dsimp only at hpending
      omega
    · exact absurd (hany.symm.trans hnone) (by decide)
  | inline hany =>
    refine ⟨List.perm_iff_count.mpr fun t => ?_, ?_, hwaiting⟩
    · have hcount := htasks t
      simp only [running, abandons, PoolEvent.task?, Option.toList, List.append_nil,
        List.count_append, List.count_cons, List.count_nil] at hcount ⊢
      omega
    · simp only [PoolEvent.task?, Option.toList, List.length_append, List.length_cons,
        List.length_nil]
      dsimp only at hpending
      omega
  | take =>
    refine ⟨List.perm_iff_count.mpr fun t => ?_, ?_, fun hnone => ?_⟩
    · have hcount := htasks t
      simp only [running_around, abandons, Worker.task?, PoolEvent.task?, Option.toList,
        List.append_nil, List.count_append, List.count_cons, List.count_nil] at hcount ⊢
      omega
    · simpa [PoolEvent.task?] using hpending
    · simp [hasReceiver, Worker.receives] at hnone
  | finish =>
    refine ⟨List.perm_iff_count.mpr fun t => ?_, ?_, fun hnone => ?_⟩
    · have hcount := htasks t
      simp only [running_around, abandons, Worker.task?, PoolEvent.task?, Option.toList,
        List.append_nil, List.count_append, List.count_cons, List.count_nil] at hcount ⊢
      omega
    · -- The task was counted, so the count does not go below zero.
      simp only [running_around, Worker.task?, PoolEvent.task?, Option.toList, List.append_nil,
        List.length_append, List.length_cons] at hlength ⊢
      dsimp only at hpending
      omega
    · simp [hasReceiver, Worker.receives] at hnone
  | @fail front back =>
    refine ⟨List.perm_iff_count.mpr fun t => ?_, ?_, fun hnone => ?_⟩
    · have hcount := htasks t
      rw [abandons_fail_around]
      simp only [running_around, Worker.task?, PoolEvent.task?, Option.toList, List.append_nil,
        List.count_append, List.count_cons, List.count_nil] at hcount ⊢
      -- Either the queue is kept, or all of it is thrown away.
      cases (front ++ back).any Worker.receives
      · simp only [Bool.false_eq_true, if_false, List.count_nil]
        omega
      · simp only [if_true, List.count_nil]
        omega
    · simp only [running_around, Worker.task?, PoolEvent.task?, Option.toList, List.append_nil,
        List.length_append, List.length_cons] at hlength ⊢
      dsimp only at hpending
      omega
    · refine if_neg (Bool.eq_false_iff.mp ?_)
      simpa [hasReceiver, Worker.receives] using hnone
  | close =>
    refine ⟨List.perm_iff_count.mpr fun t => ?_, ?_, hwaiting⟩
    · simpa [abandons, PoolEvent.task?, running] using htasks t
    · simpa [PoolEvent.task?] using hpending
  | leave =>
    refine ⟨List.perm_iff_count.mpr fun t => ?_, ?_, fun _ => rfl⟩
    · simpa [abandons, PoolEvent.task?, running_around, Worker.task?] using htasks t
    · simpa [PoolEvent.task?] using hpending

/-- **No run loses count of a task.** -/
theorem run (h : Accounts subs lost p) {es : List (PoolEvent τ)} (hrun : p.run? es = some q) :
    Accounts (subs ++ submitted es) (lost ++ p.abandoned es) q := by
  induction es generalizing subs lost p with
  | nil =>
    cases hrun
    simpa [submitted, abandoned] using h
  | cons e es ih =>
    obtain ⟨p', hp', hrun⟩ := Option.bind_eq_some_iff.mp hrun
    have hrest := ih (h.step (.of_step? hp')) hrun
    rw [List.append_assoc, List.append_assoc] at hrest
    rw [abandoned, hp', submitted, List.filterMap_cons]
    cases htask : e.task? <;> simpa [htask, submitted] using hrest

end Accounts

/-! ## When tasks are thrown away -/

/-- A worker is the last one if it being lost leaves none. -/
theorem any_receives_set_lost {workers : List (Worker τ)} {i : Nat} :
    (workers.set i .lost).any Worker.receives = false ↔
      ∀ other ≠ i, ∀ w ∈ workers[other]?, w.receives = false := by
  simp only [List.any_eq_false, Bool.not_eq_true, List.mem_iff_getElem?, forall_exists_index,
    Option.mem_def]
  constructor
  · intro h other hne w hw
    exact h w other (by rwa [List.getElem?_set_ne hne.symm])
  · intro h w other hw
    rcases eq_or_ne other i with rfl | hne
    · rw [List.getElem?_set_self'] at hw
      obtain ⟨-, -, rfl⟩ := Option.map_eq_some_iff.mp hw
      rfl
    · exact h other hne w (by rwa [List.getElem?_set_ne hne.symm] at hw)

theorem abandons_ne_nil_iff {p : WorkerPool τ} {e : PoolEvent τ} :
    p.abandons e ≠ [] ↔ ∃ worker, e = .fail worker ∧ p.queue ≠ [] ∧
      ∀ other ≠ worker, ∀ w ∈ p.workers[other]?, w.receives = false := by
  cases e with
  | fail i =>
    rw [abandons]
    split
    · next h =>
      rw [← Bool.not_eq_false, any_receives_set_lost] at h
      simp only [ne_eq, not_true_eq_false, false_iff]
      rintro ⟨worker, heq, -, hlast⟩
      cases heq
      exact h hlast
    · next h =>
      rw [Bool.not_eq_true, any_receives_set_lost] at h
      exact ⟨fun hqueue => ⟨i, rfl, hqueue, h⟩, fun ⟨_, _, hqueue, _⟩ => hqueue⟩
  | _ => simp [abandons]

theorem abandoned_ne_nil_iff {p q : WorkerPool τ} {es : List (PoolEvent τ)}
    (hrun : p.run? es = some q) : p.abandoned es ≠ [] ↔ p.Strands es := by
  induction es generalizing p with
  | nil => simp [abandoned, Strands]
  | cons e es ih =>
    obtain ⟨p', hp', hrun⟩ := Option.bind_eq_some_iff.mp hrun
    have hsplit : p.abandoned (e :: es) ≠ [] ↔ p.abandons e ≠ [] ∨ p'.abandoned es ≠ [] := by
      rw [abandoned, hp', Option.elim_some, ne_eq, List.append_eq_nil_iff, not_and_or]
    rw [hsplit, abandons_ne_nil_iff, ih hrun]
    constructor
    · rintro (⟨worker, rfl, hqueue, hlast⟩ | ⟨before, worker, after, q', rfl, hq', hlast⟩)
      · exact ⟨[], worker, es, p, rfl, rfl, hqueue, hlast⟩
      · exact ⟨e :: before, worker, after, q', rfl, by rw [run?, hp', Option.bind_some, hq'], hlast⟩
    · rintro ⟨before, worker, after, q', heq, hq', hlast⟩
      cases before with
      | nil =>
        cases heq
        cases hq'
        exact .inl ⟨worker, rfl, hlast⟩
      | cons e before =>
        cases heq
        rw [run?, hp', Option.bind_some] at hq'
        exact .inr ⟨before, worker, after, q', rfl, hq', hlast⟩

/-! ## What is expected of a pool -/

section Expectations

variable {p q : WorkerPool τ} {subs : List τ}

/-- A worker that is busy can end its task. -/
theorem exists_works_of_running (h : p.running ≠ []) :
    ∃ e : PoolEvent τ, e.works = true ∧ (p.step? e).isSome := by
  obtain ⟨task, htask⟩ := List.exists_mem_of_ne_nil _ h
  obtain ⟨w, hw, hbusy⟩ := List.mem_filterMap.mp htask
  obtain ⟨i, hi⟩ := List.mem_iff_getElem?.mp hw
  refine ⟨.finish i, rfl, ?_⟩
  cases w with
  | running task => simp [step?, hi]
  | idle | lost | gone => cases hbusy

/-- A worker that is there can go on with the tasks, or has none to take. -/
theorem exists_works_or_idle (h : p.hasReceiver = true) :
    (∃ e : PoolEvent τ, e.works = true ∧ (p.step? e).isSome) ∨
      p.queue = [] ∧ ∃ i : Nat, p.workers[i]? = some Worker.idle := by
  obtain ⟨w, hw, hreceives⟩ := List.any_eq_true.mp h
  obtain ⟨i, hi⟩ := List.mem_iff_getElem?.mp hw
  cases w with
  | lost | gone => cases hreceives
  | running task => exact .inl ⟨.finish i, rfl, by simp [step?, hi]⟩
  | idle =>
    cases hqueue : p.queue with
    | nil => exact .inr ⟨rfl, i, hi⟩
    | cons task rest => exact .inl ⟨.take i, rfl, by simp [step?, hi, hqueue]⟩

theorem running_eq_nil (h : p.hasReceiver = false) : p.running = [] := by
  refine List.filterMap_eq_nil_iff.mpr fun w hw => ?_
  have hnot := List.any_eq_false.mp h w hw
  cases w with
  | idle | running => exact absurd rfl hnot
  | lost | gone => rfl

/-- A pool that threw no task away keeps what is expected of it. -/
theorem Accounts.losesNothing (h : Accounts subs [] p) : p.LosesNothing subs := by
  have htasks : subs.Perm (p.ended ++ (p.running ++ p.queue)) := by simpa using h.tasks
  have hpending : p.pending = p.running.length + p.queue.length := by
    have hlength := htasks.length_eq
    rw [List.length_append, List.length_append] at hlength
    have := h.pending
    omega
  refine ⟨htasks, h.pending, ?_, fun hne => ?_, fun hclosed => ?_, ?_, ?_⟩
  · rw [hpending, Nat.add_eq_zero_iff, List.length_eq_zero_iff, List.length_eq_zero_iff]
  · by_cases hrunning : p.running = []
    · have hqueue : p.queue ≠ [] := by
        rintro hqueue
        exact hne (by rw [hpending, hrunning, hqueue]; rfl)
      have hreceiver : p.hasReceiver = true :=
        Bool.not_eq_false _ |>.mp fun hnone => hqueue (h.waiting hnone)
      exact (exists_works_or_idle hreceiver).resolve_right fun hidle => hqueue hidle.1
    · exact exists_works_of_running hrunning
  · cases hreceiver : p.hasReceiver with
    | false => exact .inl ⟨hclosed, hreceiver⟩
    | true =>
      refine .inr ?_
      obtain ⟨e, -, he⟩ | ⟨hqueue, i, hi⟩ := exists_works_or_idle hreceiver
      · exact ⟨e, he⟩
      · exact ⟨.leave i, by simp [step?, hi, hqueue, hclosed]⟩
  · intro e q hq htask hclose
    exact (Step.of_step? hq).work_lt htask hclose
  · rintro ⟨-, hnone⟩
    rwa [running_eq_nil hnone, h.waiting hnone, List.append_nil, List.append_nil] at htasks

/-- **A pool loses no task before its last worker is lost.**  Whatever the participants do, every
task runs once, waiting for the pool is over when all tasks have ended and is never in vain, and the
pool is not dropped before: unless some task makes the last worker fail while others wait. -/
theorem losesNothing_iff_not_strands {n : Nat} {es : List (PoolEvent τ)}
    (hrun : (ofSize n).run? es = some p) :
    p.LosesNothing (submitted es) ↔ ¬ (ofSize n).Strands es := by
  have haccounts := (Accounts.ofSize n).run hrun
  rw [List.nil_append, List.nil_append] at haccounts
  rw [← abandoned_ne_nil_iff hrun, not_not]
  constructor
  · intro h
    have hlength := haccounts.tasks.symm.trans h.tasks |>.length_eq
    simp only [List.length_append] at hlength
    exact List.length_eq_zero_iff.mp (by omega)
  · intro hnil
    rw [hnil] at haccounts
    exact haccounts.losesNothing

/-- One task of three fails, on one of two workers. -/
theorem losesNothing_despite_failure :
    (ofSize 2).run? [.submit 1, .submit 2, .submit 3, .take 0, .take 1, .fail 0, .finish 1, .take 1,
        .close, .finish 1, .leave 1] = some ⟨[.lost, .gone], [], 0, [3, 2, 1], true⟩ ∧
      LosesNothing ⟨[.lost, .gone], [], 0, [3, 2, 1], true⟩ [1, 2, 3] := by
  have hrun : (ofSize 2).run? [.submit 1, .submit 2, .submit 3, .take 0, .take 1, .fail 0,
      .finish 1, .take 1, .close, .finish 1, .leave 1]
        = some ⟨[.lost, .gone], [], 0, [3, 2, 1], true⟩ := rfl
  refine ⟨hrun, (losesNothing_iff_not_strands hrun).mpr ?_⟩
  rw [← abandoned_ne_nil_iff hrun, not_not]
  rfl

/-- The first of two tasks fails on the only worker.  The other is never run, and the pool is
dropped without it; whoever waits for the pool to be idle waits for ever. -/
theorem stranded_task_lost : ∃ p : WorkerPool Nat,
    (ofSize 1).run? [.submit 1, .submit 2, .take 0, .fail 0, .close] = some p ∧
      p.Dropped ∧ p.ended = [1] ∧ p.pending = 1 ∧ ¬ p.LosesNothing [1, 2] := by
  refine ⟨⟨[.lost], [], 1, [1], true⟩, rfl, ⟨rfl, rfl⟩, rfl, rfl, fun h => ?_⟩
  have hended := (h.dropped ⟨rfl, rfl⟩).length_eq
  cases hended

end Expectations

end WorkerPool

end KeyServer
