import ChaosCache.ThreadPool

/-!
# Clients in the same process

`client_routine`, `reader_routine` and `writer_routine` of `local/main.cpp`. A client gives
its task to the pool and waits on its own condition variable; the worker that runs the task
does the cache operation and signals. The mutex of that condition variable is never locked,
and nothing is tested before the wait or after it.

Every client is the submitter of the same number in the pool. The pool carries the client's
buffer as the data of its task. `serial` and `signalled` are no part of the program: they
number the tasks of a client, and record the tasks for which a signal was sent. What the
cache does between the start of a routine and its signal has no part in the handshake.
-/

namespace ChaosCache

/-- The `arg` of a task: the buffer of a client, and the number of the task. -/
structure Request where
  client : ℕ
  serial : ℕ
  deriving DecidableEq

inductive ClientRoutine where
  | writerRoutine
  | readerRoutine
  deriving DecidableEq

/-- Where a client is in `client_routine`. -/
inductive ClientPlace where
  /-- Before `add_task` -/
  | calling
  /-- In `add_task`, or between it and `pthread_cond_wait` -/
  | submitting
  /-- Blocked in `pthread_cond_wait`, and not notified -/
  | waiting
  deriving DecidableEq

/-- Where a worker is in the routine that it runs. -/
inductive RoutinePlace where
  | atCache
  | atSignal
  | signalled
  deriving DecidableEq

structure LocalClients where
  pool : ThreadPool ClientRoutine Request
  client : ℕ → ClientPlace
  progress : Thread → RoutinePlace
  serial : ℕ → ℕ
  signalled : List Request

namespace LocalClients

/-- `main` has created the pool and the clients. -/
def create (nworkers : ℕ) : LocalClients where
  pool := ThreadPool.create nworkers
  client _ := .calling
  progress _ := .atCache
  serial _ := 0
  signalled := []

inductive Action where
  /-- The client calls `add_task`. -/
  | submit (i : ℕ)
  | advance (t : Thread)
  | wake (t : Thread)
  /-- The routine calls `getItem` or `storeItem`. -/
  | operate (t : Thread)
  /-- The routine calls `pthread_cond_signal(&buffer->cond)`. -/
  | signal (t : Thread)
  /-- The client calls `pthread_cond_wait(&buffer->cond, &buffer->mutex)`. -/
  | wait (i : ℕ)
  /-- The client wakes up without a signal. -/
  | wakeClient (i : ℕ)

variable (s : LocalClients)

/-- The slot whose routine the thread runs. -/
def runs (t : Thread) : Option ℕ :=
  match s.pool.place t with
  | .running slot => some slot
  | _ => none

/-- The task of a client, with the number it gets. -/
def task (i : ℕ) : PoolTask ClientRoutine Request where
  routine := some (if i = 0 then .writerRoutine else .readerRoutine)
  data := some { client := i, serial := s.serial i + 1 }

/-- The state after a step of the pool. A routine begins before its cache operation. -/
def withPool (t : Thread) (pool : ThreadPool ClientRoutine Request) : LocalClients :=
  { s with pool, progress := Function.update s.progress t .atCache }

def step : Action → Option LocalClients
  | .submit i =>
      if s.client i = .calling then
        (s.pool.addTask (.submitter i) (s.task i)).map fun pool =>
          { s with
            pool
            client := Function.update s.client i .submitting
            serial := Function.update s.serial i (s.serial i + 1) }
      else none
  | .advance t =>
      -- a routine returns after its signal
      if (s.runs t).isSome ∧ s.progress t ≠ .signalled then none
      else (s.pool.advance t).map (s.withPool t)
  | .wake t => (s.pool.wake t).map (s.withPool t)
  | .operate t =>
      if (s.runs t).isSome ∧ s.progress t = .atCache then
        some { s with progress := Function.update s.progress t .atSignal }
      else none
  | .signal t =>
      match s.runs t, s.progress t with
      | some slot, .atSignal =>
          (s.pool.tasks slot).data.map fun request =>
            { s with
              progress := Function.update s.progress t .signalled
              client :=
                if s.client request.client = .waiting then
                  Function.update s.client request.client .calling
                else s.client
              signalled := request :: s.signalled }
      | _, _ => none
  | .wait i =>
      match s.client i, s.pool.place (.submitter i) with
      | .submitting, .outside =>
          some { s with client := Function.update s.client i .waiting }
      | _, _ => none
  | .wakeClient i =>
      if s.client i = .waiting then
        some { s with client := Function.update s.client i .calling }
      else none

/-- The state after some actions, if each of them is possible. -/
def exec (s : LocalClients) : List Action → Option LocalClients
  | [] => some s
  | action :: rest => (s.step action).bind (exec · rest)

end LocalClients

end ChaosCache
