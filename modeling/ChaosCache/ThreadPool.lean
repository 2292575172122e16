import Mathlib.Algebra.Ring.Nat
import Mathlib.Logic.Function.Basic
import Mathlib.Logic.Relation

/-!
# The thread pool

`threadpool` of `threadpool.hpp` and `threadpool.cpp`: threads that call `add_task`, worker
threads in `worker_routine`, and one thread that runs the destructor. A thread stands at a
place in its code, and a step takes it to the next one. Everything it does to shared memory
between two steps is one access: a lock or an unlock, a test, one queue operation, or one
write to a slot. `pthread_cond_wait` releases the mutex and blocks in one step, and a blocked
thread may wake up at any time.

Slots are the indices of the array `tasks`. A routine and its data are pointers, so that
`none` is `NULL`; what they point to does not matter here. `pushed`, `taken` and `ran` are no
part of the program. They record the tasks given to `tasks_queue`, the tasks that the workers
took out of it, and the calls of routines, the first one first.
-/

namespace ChaosCache

def queueSize : ℕ := 10000

/-- `struct threadpool_task` -/
structure PoolTask (ρ δ : Type) where
  routine : Option ρ
  data : Option δ

inductive Thread where
  | submitter (i : ℕ)
  | worker (i : ℕ)
  | destructor
  deriving DecidableEq

/-- Where a thread is in its code. -/
inductive Place (ρ δ : Type) where
  /-- Outside `add_task` -/
  | outside
  | lockFtq (task : PoolTask ρ δ)
  | testFree (task : PoolTask ρ δ)
  /-- The free queue was empty, and `pthread_cond_wait` comes next. -/
  | sleepFree (task : PoolTask ρ δ)
  | waitFree (task : PoolTask ρ δ)
  | popFree (task : PoolTask ρ δ)
  | unlockFtq (task : PoolTask ρ δ) (newtask : ℕ)
  | writeRoutine (task : PoolTask ρ δ) (newtask : ℕ)
  | writeData (task : PoolTask ρ δ) (newtask : ℕ)
  | lockTq (task : PoolTask ρ δ) (newtask : ℕ)
  | pushTask (task : PoolTask ρ δ) (newtask : ℕ)
  | signalTask
  | unlockTq
  /-- The first test of `stop_flag` in `get_task_to_do` -/
  | testStop
  | lockTasks
  | testTasks
  /-- There was no task and no stop, and `pthread_cond_wait` comes next. -/
  | sleepTasks
  | waitTasks
  /-- The test of `stop_flag` behind the loop -/
  | retestStop
  | popTask
  | unlockTasks (newtask : Option ℕ)
  /-- `to_do == NULL && this->stop_flag` -/
  | testToDo (toDo : Option ℕ)
  /-- `to_do->routine` -/
  | testRoutine (toDo : Option ℕ)
  | callRoutine (toDo : ℕ)
  /-- In the routine -/
  | running (toDo : ℕ)
  | initRoutine (toDo : ℕ)
  | initData (toDo : ℕ)
  | lockRelease (toDo : ℕ)
  | pushFree (toDo : ℕ)
  | signalFree
  | unlockRelease
  /-- `worker_routine` has returned, or the thread does not exist. -/
  | exited
  /-- A `NULL` task was dereferenced, or an empty queue was popped. -/
  | crashed
  /-- Before the destructor -/
  | alive
  | lockStop
  | broadcastStop
  | unlockStop
  /-- The destructor has broadcast and waits for the workers. -/
  | joining

structure ThreadPool (ρ δ : Type) where
  tasks : ℕ → PoolTask ρ δ
  freeTasksQueue : List ℕ
  tasksQueue : List ℕ
  stopFlag : Bool
  freeTasksMutex : Option Thread
  mutex : Option Thread
  place : Thread → Place ρ δ
  pushed : List (PoolTask ρ δ)
  taken : List (Thread × PoolTask ρ δ)
  ran : List (Thread × PoolTask ρ δ)

namespace ThreadPool

variable {ρ δ : Type}

/-- The constructor, with every worker before its first step. -/
def create (nthreads : ℕ) : ThreadPool ρ δ where
  tasks _ := { routine := none, data := none }
  freeTasksQueue := List.range queueSize
  tasksQueue := []
  stopFlag := false
  freeTasksMutex := none
  mutex := none
  place
    | .submitter _ => .outside
    | .worker i => if i < nthreads then .testStop else .exited
    | .destructor => .alive
  pushed := []
  taken := []
  ran := []

/-- The slots are in the free queue, the first one in front. -/
theorem create_front {nthreads : ℕ} : (create nthreads : ThreadPool ρ δ) =
    { create nthreads with freeTasksQueue := 0 :: (List.range 9999).map Nat.succ } := by
  have front : List.range queueSize = 0 :: (List.range 9999).map Nat.succ :=
    List.range_succ_eq_map
  rw [← front]
  rfl

variable (s : ThreadPool ρ δ) (t : Thread)

/-- The state after a step of a thread to a place. -/
def go (place : Place ρ δ) : ThreadPool ρ δ :=
  { s with place := Function.update s.place t place }

/-- `pthread_cond_broadcast(&this->free_tasks_cond)` -/
def broadcastFree : ThreadPool ρ δ :=
  { s with
    place := fun u =>
      match s.place u with
      | .waitFree task => .lockFtq task
      | place => place }

/-- `pthread_cond_broadcast(&this->cond)` -/
def broadcastTasks : ThreadPool ρ δ :=
  { s with
    place := fun u =>
      match s.place u with
      | .waitTasks => .lockTasks
      | place => place }

/-- `pthread_mutex_lock(&this->free_tasks_mutex)`, if the mutex is free -/
def acquireFree (place : Place ρ δ) : Option (ThreadPool ρ δ) :=
  match s.freeTasksMutex with
  | none => some { s.go t place with freeTasksMutex := some t }
  | some _ => none

/-- `pthread_mutex_lock(&this->mutex)`, if the mutex is free -/
def acquireTasks (place : Place ρ δ) : Option (ThreadPool ρ δ) :=
  match s.mutex with
  | none => some { s.go t place with mutex := some t }
  | some _ => none

/-- The next step of a thread in its code. -/
def advance : Option (ThreadPool ρ δ) :=
  match s.place t with
  -- `add_task`
  | .outside => none
  | .lockFtq task => s.acquireFree t (.testFree task)
  | .testFree task =>
      some (s.go t (if s.freeTasksQueue.isEmpty then .sleepFree task else .popFree task))
  | .sleepFree task => some { s.go t (.waitFree task) with freeTasksMutex := none }
  | .waitFree _ => none
  | .popFree task =>
      match s.freeTasksQueue with
      | [] => some (s.go t .crashed)
      | newtask :: rest =>
          some { s.go t (.unlockFtq task newtask) with freeTasksQueue := rest }
  | .unlockFtq task newtask =>
      some { s.go t (.writeRoutine task newtask) with freeTasksMutex := none }
  | .writeRoutine task newtask =>
      some { s.go t (.writeData task newtask) with
        tasks := Function.update s.tasks newtask
          { s.tasks newtask with routine := task.routine } }
  | .writeData task newtask =>
      some { s.go t (.lockTq task newtask) with
        tasks := Function.update s.tasks newtask { s.tasks newtask with data := task.data } }
  | .lockTq task newtask => s.acquireTasks t (.pushTask task newtask)
  | .pushTask task newtask =>
      some { s.go t .signalTask with
        tasksQueue := s.tasksQueue ++ [newtask]
        pushed := s.pushed ++ [task] }
  | .signalTask =>
      some ((if s.tasksQueue.length = 1 then s.broadcastTasks else s).go t .unlockTq)
  | .unlockTq => some { s.go t .outside with mutex := none }
  -- `get_task_to_do`
  | .testStop => some (s.go t (if s.stopFlag then .testToDo none else .lockTasks))
  | .lockTasks => s.acquireTasks t .testTasks
  | .testTasks =>
      some (s.go t (if s.tasksQueue.isEmpty && !s.stopFlag then .sleepTasks else .retestStop))
  | .sleepTasks => some { s.go t .waitTasks with mutex := none }
  | .waitTasks => none
  | .retestStop => some (s.go t (if s.stopFlag then .unlockTasks none else .popTask))
  | .popTask =>
      match s.tasksQueue with
      | [] => some (s.go t .crashed)
      | newtask :: rest =>
          some { s.go t (.unlockTasks (some newtask)) with
            tasksQueue := rest
            taken := s.taken ++ [(t, s.tasks newtask)] }
  | .unlockTasks newtask => some { s.go t (.testToDo newtask) with mutex := none }
  -- `worker_routine`
  | .testToDo toDo =>
      some (s.go t (if toDo.isNone && s.stopFlag then .exited else .testRoutine toDo))
  | .testRoutine none => some (s.go t .crashed)
  | .testRoutine (some toDo) =>
      some (s.go t (if (s.tasks toDo).routine.isSome then .callRoutine toDo else .testStop))
  | .callRoutine toDo =>
      some { s.go t (.running toDo) with ran := s.ran ++ [(t, s.tasks toDo)] }
  | .running toDo => some (s.go t (.initRoutine toDo))
  | .initRoutine toDo =>
      some { s.go t (.initData toDo) with
        tasks := Function.update s.tasks toDo { s.tasks toDo with routine := none } }
  | .initData toDo =>
      some { s.go t (.lockRelease toDo) with
        tasks := Function.update s.tasks toDo { s.tasks toDo with data := none } }
  | .lockRelease toDo => s.acquireFree t (.pushFree toDo)
  | .pushFree toDo =>
      some { s.go t .signalFree with freeTasksQueue := s.freeTasksQueue ++ [toDo] }
  | .signalFree =>
      some ((if s.freeTasksQueue.length = 1 then s.broadcastFree else s).go t .unlockRelease)
  | .unlockRelease => some { s.go t .testStop with freeTasksMutex := none }
  | .exited => none
  | .crashed => none
  -- `~threadpool`
  | .alive => some { s.go t .lockStop with stopFlag := true }
  | .lockStop => s.acquireTasks t .broadcastStop
  | .broadcastStop => some (s.broadcastTasks.go t .unlockStop)
  | .unlockStop => some { s.go t .joining with mutex := none }
  | .joining => none

/-- A thread wakes up without a notification. -/
def wake : Option (ThreadPool ρ δ) :=
  match s.place t with
  | .waitFree task => some (s.go t (.lockFtq task))
  | .waitTasks => some (s.go t .lockTasks)
  | _ => none

/-- A thread calls `add_task`. -/
def addTask (task : PoolTask ρ δ) : Option (ThreadPool ρ δ) :=
  match s.place t with
  | .outside => some (s.go t (.lockFtq task))
  | _ => none

inductive Action (ρ δ : Type) where
  | addTask (t : Thread) (task : PoolTask ρ δ)
  | advance (t : Thread)
  | wake (t : Thread)

def step : Action ρ δ → Option (ThreadPool ρ δ)
  | .addTask t task => s.addTask t task
  | .advance t => s.advance t
  | .wake t => s.wake t

/-- The state after some actions, if each of them is possible. -/
def exec (s : ThreadPool ρ δ) : List (Action ρ δ) → Option (ThreadPool ρ δ)
  | [] => some s
  | action :: rest => (s.step action).bind (exec · rest)

def Step (s s' : ThreadPool ρ δ) : Prop := ∃ action, s.step action = some s'

variable {s s' : ThreadPool ρ δ}

theorem exec_cons {action : Action ρ δ} {rest : List (Action ρ δ)} :
    s.exec (action :: rest) = some s' ↔ ∃ next, s.step action = some next ∧
      next.exec rest = some s' := by
  simp [exec, Option.bind_eq_some_iff]

theorem run_of_exec {steps : ThreadPool ρ δ → ThreadPool ρ δ → Prop} :
    ∀ (actions : List (Action ρ δ)) (s : ThreadPool ρ δ),
      (∀ action ∈ actions, ∀ s s', s.step action = some s' → steps s s') →
        s.exec actions = some s' → Relation.ReflTransGen steps s s'
  | [], s, _, run => by
      cases run
      exact .refl
  | action :: rest, s, isStep, run => by
      rcases exec_cons.mp run with ⟨next, moved, others⟩
      have first := isStep action List.mem_cons_self s next moved
      have later : ∀ action ∈ rest, ∀ s s', s.step action = some s' → steps s s' :=
        fun action mem => isStep action (List.mem_cons_of_mem _ mem)
      exact .head first (run_of_exec rest next later others)

end ThreadPool

end ChaosCache
