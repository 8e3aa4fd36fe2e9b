/-!
# Worker pools

A fixed number of workers drain one queue of tasks, first in, first out.  A pool counts
the tasks that were submitted and have not ended; waiting for the pool to be idle means
waiting for that count to reach zero.

A worker whose task fails is lost, but the task counts as ended.  When the last worker is
lost, what is left in the queue is thrown away, and from then on whoever submits a task
runs it.  `WorkerPool.step?` is one step of one participant; which step comes next is left
open, except in `WorkerPool.drain`, where the first worker takes all of them.
-/

namespace KeyServer

/-- What a worker is doing. -/
inductive Worker (τ : Type) where
  | idle
  | running (task : τ)
  /-- Its task failed. -/
  | lost
  /-- It left because the pool was closed and the queue empty. -/
  | gone
  deriving DecidableEq, Repr

/-- Whether a worker can still take tasks. -/
def Worker.receives {τ : Type} : Worker τ → Bool
  | .idle | .running _ => true
  | .lost | .gone => false

/-- A pool of workers. -/
structure WorkerPool (τ : Type) where
  workers : List (Worker τ)
  /-- The tasks that wait, the next one first. -/
  queue : List τ
  /-- How many tasks were submitted and have not ended. -/
  pending : Nat
  /-- The tasks that ended, the latest first. -/
  ended : List τ
  /-- Whether the pool is being dropped. -/
  closed : Bool
  deriving DecidableEq, Repr

/-- A step of a participant. -/
inductive PoolEvent (τ : Type) where
  /-- Someone submits a task. -/
  | submit (task : τ)
  /-- A worker takes the next task. -/
  | take (worker : Nat)
  /-- The task of a worker ends well. -/
  | finish (worker : Nat)
  /-- The task of a worker fails. -/
  | fail (worker : Nat)
  /-- The pool is to be dropped. -/
  | close
  /-- A worker leaves a closed pool. -/
  | leave (worker : Nat)
  deriving DecidableEq, Repr

namespace WorkerPool

variable {τ : Type}

/-- A pool of some idle workers, at least one. -/
def ofSize (workers : Nat) : WorkerPool τ :=
  ⟨List.replicate (max workers 1) .idle, [], 0, [], false⟩

/-- The number of workers. -/
def size (p : WorkerPool τ) : Nat := p.workers.length

/-- Whether some worker can still take tasks. -/
def hasReceiver (p : WorkerPool τ) : Bool := p.workers.any Worker.receives

/-- Queues a task, or runs it at once if no worker is left to take it. -/
def submit (p : WorkerPool τ) (task : τ) : WorkerPool τ :=
  if p.hasReceiver then { p with queue := p.queue ++ [task], pending := p.pending + 1 }
  else { p with ended := task :: p.ended }

/-- Replaces what a worker is doing; the queue is lost with the last worker. -/
def setWorker (p : WorkerPool τ) (worker : Nat) (w : Worker τ) : WorkerPool τ :=
  let workers := p.workers.set worker w
  { p with workers, queue := if workers.any Worker.receives then p.queue else [] }

/-- One step, if it is possible. -/
def step? (p : WorkerPool τ) : PoolEvent τ → Option (WorkerPool τ)
  | .submit task => if p.closed then none else some (p.submit task)
  | .take worker =>
    match p.workers[worker]?, p.queue with
    | some .idle, task :: rest => some ({ p with queue := rest }.setWorker worker (.running task))
    | _, _ => none
  | .finish worker =>
    match p.workers[worker]? with
    | some (.running task) =>
      some ({ p with pending := p.pending - 1, ended := task :: p.ended }.setWorker worker .idle)
    | _ => none
  | .fail worker =>
    match p.workers[worker]? with
    | some (.running task) =>
      some ({ p with pending := p.pending - 1, ended := task :: p.ended }.setWorker worker .lost)
    | _ => none
  | .close => if p.closed then none else some { p with closed := true }
  | .leave worker =>
    match p.workers[worker]?, p.queue with
    | some .idle, [] => if p.closed then some (p.setWorker worker .gone) else none
    | _, _ => none

/-- Some steps in a row, if all of them are possible. -/
def run? (p : WorkerPool τ) : List (PoolEvent τ) → Option (WorkerPool τ)
  | [] => some p
  | e :: es => (p.step? e).bind (·.run? es)

/-- Runs everything that waits, in order, if there is a worker to do it. -/
def drain (p : WorkerPool τ) : WorkerPool τ :=
  if p.hasReceiver then
    { p with
      queue := []
      pending := p.pending - p.queue.length
      ended := p.queue.reverse ++ p.ended }
  else p

end WorkerPool

end KeyServer
