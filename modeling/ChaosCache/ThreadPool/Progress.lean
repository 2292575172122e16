import Mathlib.Algebra.BigOperators.Group.Finset.Basic
import Mathlib.Algebra.Order.BigOperators.Group.Finset
import ChaosCache.ThreadPool.Capacity

/-!
# Threads that can go on come to rest

A thread of the pool that is left to itself does a bounded amount of work before it waits or is
done: every step takes something away from what is left to do, even where a broadcast gives work
to the threads that it wakes. When no thread can go on, nothing is left to do.
-/

namespace ChaosCache

open Relation

variable {ρ δ : Type}

/-- A sum in which one thing has changed. -/
theorem sum_update {α β : Type} [DecidableEq α] {members : Finset α} {a : α} (isIn : a ∈ members)
    (of : α → β) (cost : β → ℕ) (b : β) :
    ∑ x ∈ members, cost (Function.update of a b x) + cost (of a) =
      ∑ x ∈ members, cost (of x) + cost b := by
  rw [← Finset.add_sum_erase members _ isIn, ← Finset.add_sum_erase members _ isIn,
    Function.update_self]
  have others : ∑ x ∈ members.erase a, cost (Function.update of a b x) =
      ∑ x ∈ members.erase a, cost (of x) :=
    Finset.sum_congr rfl fun x isOther => by
      rw [Function.update_of_ne (Finset.ne_of_mem_erase isOther)]
  omega

/-! ## Places -/

inductive Role where
  | submitter
  | worker
  | destructor
  deriving DecidableEq

def Thread.role : Thread → Role
  | submitter _ => .submitter
  | worker _ => .worker
  | destructor => .destructor

namespace Place

/-- Whose code a place is in. -/
def role : Place ρ δ → Role
  | outside => .submitter
  | lockFtq _ => .submitter
  | testFree _ => .submitter
  | sleepFree _ => .submitter
  | waitFree _ => .submitter
  | popFree _ => .submitter
  | unlockFtq _ _ => .submitter
  | writeRoutine _ _ => .submitter
  | writeData _ _ => .submitter
  | lockTq _ _ => .submitter
  | pushTask _ _ => .submitter
  | signalTask => .submitter
  | unlockTq => .submitter
  | alive => .destructor
  | lockStop => .destructor
  | broadcastStop => .destructor
  | unlockStop => .destructor
  | joining => .destructor
  | _ => .worker

/-- A thread at such a place goes on by itself never. -/
def Rests : Place ρ δ → Prop
  | outside => True
  | waitFree _ => True
  | waitTasks => True
  | exited => True
  | joining => True
  | _ => False

/-- Where threads rest, and where one waits that has not started. -/
theorem rests_cases {place : Place ρ δ} (rests : place.Rests ∨ place = .alive) :
    place = .outside ∨ (∃ task, place = .waitFree task) ∨ place = .waitTasks ∨ place = .exited ∨
      place = .joining ∨ place = .alive := by
  rcases rests with rests | rfl
  · cases place
    case outside => exact Or.inl rfl
    case waitFree task => exact Or.inr (Or.inl ⟨task, rfl⟩)
    case waitTasks => simp
    case exited => simp
    case joining => simp
    all_goals exact rests.elim
  · simp

theorem outside_or_waitFree {place : Place ρ δ} (rests : place.Rests ∨ place = .alive)
    (role : place.role = .submitter) : place = .outside ∨ ∃ task, place = .waitFree task := by
  rcases rests_cases rests with rfl | ⟨task, rfl⟩ | rfl | rfl | rfl | rfl
  · exact Or.inl rfl
  · exact Or.inr ⟨task, rfl⟩
  all_goals cases role

theorem waitTasks_or_exited {place : Place ρ δ} (rests : place.Rests ∨ place = .alive)
    (role : place.role = .worker) : place = .waitTasks ∨ place = .exited := by
  rcases rests_cases rests with rfl | ⟨task, rfl⟩ | rfl | rfl | rfl | rfl
  case inr.inr.inl => exact Or.inl rfl
  case inr.inr.inr.inl => exact Or.inr rfl
  all_goals cases role

theorem joining_or_alive {place : Place ρ δ} (rests : place.Rests ∨ place = .alive)
    (role : place.role = .destructor) : place = .joining ∨ place = .alive := by
  rcases rests_cases rests with rfl | ⟨task, rfl⟩ | rfl | rfl | rfl | rfl
  case inr.inr.inr.inr.inl => exact Or.inl rfl
  case inr.inr.inr.inr.inr => exact Or.inr rfl
  all_goals cases role

/-- The most steps that a thread takes before it rests, if a broadcast wakes at most `n` threads.
A thread that wakes others is charged for what they will do. -/
def effort (n : ℕ) : Place ρ δ → ℕ
  | outside => 0
  | lockFtq _ => 26 + 9 * n
  | testFree _ => 25 + 9 * n
  | sleepFree _ => 24 + 9 * n
  | waitFree _ => 23 + 9 * n
  | popFree _ => 24 + 9 * n
  | unlockFtq _ _ => 23 + 9 * n
  | writeRoutine _ _ => 22 + 9 * n
  | writeData _ _ => 21 + 9 * n
  | lockTq _ _ => 20 + 9 * n
  | pushTask _ _ => 19 + 9 * n
  | signalTask => 2 + 6 * n
  | unlockTq => 1
  | testStop => 7
  | lockTasks => 6
  | testTasks => 5
  | retestStop => 4
  | popTask => 3
  | sleepTasks => 1
  | waitTasks => 0
  | unlockTasks none => 3
  | unlockTasks (some _) => 18 + 3 * n
  | testToDo none => 2
  | testToDo (some _) => 17 + 3 * n
  | testRoutine none => 1
  | testRoutine (some _) => 16 + 3 * n
  | callRoutine _ => 15 + 3 * n
  | running _ => 14 + 3 * n
  | initRoutine _ => 13 + 3 * n
  | initData _ => 12 + 3 * n
  | lockRelease _ => 11 + 3 * n
  | pushFree _ => 10 + 3 * n
  | signalFree => 9 + 3 * n
  | unlockRelease => 8
  | exited => 0
  | crashed => 0
  | alive => 4 + 6 * n
  | lockStop => 3 + 6 * n
  | broadcastStop => 2 + 6 * n
  | unlockStop => 1
  | joining => 0

/-- A thread outside the pool. -/
def Away : Place ρ δ → Prop
  | outside => True
  | exited => True
  | _ => False

end Place

namespace ThreadPool

/-! ## What is left to do -/

variable {s s' : ThreadPool ρ δ} {t u : Thread} {place : Place ρ δ} {threads : Finset Thread}

/-- What the threads have left to do where they are. -/
def effortOf (threads : Finset Thread) (place : Thread → Place ρ δ) : ℕ :=
  ∑ t ∈ threads, (place t).effort threads.card

/-- What is left to do: by the threads, and by a worker for each task in the queue. -/
def effort (s : ThreadPool ρ δ) (threads : Finset Thread) : ℕ :=
  effortOf threads s.place + (16 + 3 * threads.card) * s.tasksQueue.length

theorem effortOf_update (isThread : t ∈ threads) (places : Thread → Place ρ δ)
    (place : Place ρ δ) :
    effortOf threads (Function.update places t place) + (places t).effort threads.card =
      effortOf threads places + place.effort threads.card :=
  sum_update isThread places (·.effort threads.card) place

/-- A broadcast gives work to the threads that it wakes. -/
theorem effortOf_le {c : ℕ} {places places' : Thread → Place ρ δ}
    (more : ∀ u, (places' u).effort threads.card ≤ (places u).effort threads.card + c) :
    effortOf threads places' ≤ effortOf threads places + c * threads.card := by
  have bound := Finset.sum_le_sum fun u (_ : u ∈ threads) => more u
  rwa [Finset.sum_add_distrib, Finset.sum_const_nat fun _ _ => rfl, Nat.mul_comm] at bound

theorem effortOf_broadcastTasks :
    effortOf threads s.broadcastTasks.place ≤ effortOf threads s.place + 6 * threads.card := by
  apply effortOf_le
  intro u
  simp only [broadcastTasks]
  cases s.place u <;> simp [Place.effort]

theorem effortOf_broadcastFree :
    effortOf threads s.broadcastFree.place ≤ effortOf threads s.place + 3 * threads.card := by
  apply effortOf_le
  intro u
  simp only [broadcastFree]
  cases s.place u <;> simp only [Place.effort, Nat.le_add_right]
  omega

/-- A thread goes on, and perhaps wakes others and changes the queue. -/
theorem effort_lt {places : Thread → Place ρ δ} {c : ℕ} (isThread : t ∈ threads)
    (goes : s'.place = Function.update places t place) (own : places t = s.place t)
    (woken : effortOf threads places ≤ effortOf threads s.place + c * threads.card)
    (less : place.effort threads.card + c * threads.card +
        (16 + 3 * threads.card) * s'.tasksQueue.length <
      (s.place t).effort threads.card + (16 + 3 * threads.card) * s.tasksQueue.length) :
    s'.effort threads < s.effort threads := by
  have update := effortOf_update isThread places place
  rw [own, ← goes] at update
  simp only [effort]
  omega

/-- A thread goes on by itself. -/
theorem effort_lt_of_go (isThread : t ∈ threads)
    (goes : s'.place = Function.update s.place t place) (queue : s'.tasksQueue = s.tasksQueue)
    (less : place.effort threads.card < (s.place t).effort threads.card) :
    s'.effort threads < s.effort threads := by
  refine effort_lt (c := 0) isThread goes rfl (Nat.le_add_right _ _) ?_
  rw [queue]
  omega

/-- Every step of a thread leaves less to do. -/
theorem effort_of_advance (isThread : t ∈ threads) (moved : s.advance t = some s') :
    s'.effort threads < s.effort threads := by
  cases here : s.place t <;> simp only [advance, here] at moved
  case outside | waitFree | waitTasks | exited | crashed | joining => cases moved
  case lockFtq | lockRelease =>
    rcases acquireFree_eq_some.mp moved with ⟨-, rfl⟩
    exact effort_lt_of_go isThread rfl rfl (by simp [here, Place.effort])
  case lockTq | lockTasks | lockStop =>
    rcases acquireTasks_eq_some.mp moved with ⟨-, rfl⟩
    exact effort_lt_of_go isThread rfl rfl (by simp [here, Place.effort])
  case popFree =>
    cases items : s.freeTasksQueue <;> simp only [items, Option.some.injEq] at moved <;>
      subst moved <;> exact effort_lt_of_go isThread rfl rfl (by simp [here, Place.effort])
  case popTask =>
    cases items : s.tasksQueue with
    | nil =>
        simp only [items, Option.some.injEq] at moved
        subst moved
        exact effort_lt_of_go isThread rfl rfl (by simp [here, Place.effort])
    | cons newtask rest =>
        simp only [items, Option.some.injEq] at moved
        subst moved
        refine effort_lt (c := 0) isThread rfl rfl (Nat.le_add_right _ _) ?_
        simp only [here, items, Place.effort, List.length_cons, Nat.mul_succ]
        omega
  case pushTask =>
    cases moved
    refine effort_lt (c := 0) isThread rfl rfl (Nat.le_add_right _ _) ?_
    simp only [here, Place.effort, List.length_append, List.length_singleton, Nat.mul_succ]
    omega
  case signalTask =>
    cases moved
    split
    · refine effort_lt isThread rfl (by simp [broadcastTasks, here]) effortOf_broadcastTasks ?_
      simp only [here, Place.effort, go, broadcastTasks]
      omega
    · exact effort_lt_of_go isThread rfl rfl (by simp [here, Place.effort]; omega)
  case broadcastStop =>
    cases moved
    refine effort_lt isThread rfl (by simp [broadcastTasks, here]) effortOf_broadcastTasks ?_
    simp only [here, Place.effort, go, broadcastTasks]
    omega
  case signalFree =>
    cases moved
    split
    · refine effort_lt isThread rfl (by simp [broadcastFree, here]) effortOf_broadcastFree ?_
      simp only [here, Place.effort, go, broadcastFree]
      omega
    · exact effort_lt_of_go isThread rfl rfl (by simp [here, Place.effort]; omega)
  case testRoutine toDo =>
    cases toDo <;> simp only [Option.some.injEq] at moved <;> subst moved
    · exact effort_lt_of_go isThread rfl rfl (by simp [here, Place.effort])
    · refine effort_lt_of_go isThread rfl rfl ?_
      simp only [here]
      split
      · simp [Place.effort]
      · simp only [Place.effort]
        omega
  case unlockTasks toDo =>
    cases moved
    cases toDo <;> exact effort_lt_of_go isThread rfl rfl (by simp [here, Place.effort])
  case testToDo toDo =>
    cases moved
    cases toDo <;> refine effort_lt_of_go isThread rfl rfl ?_ <;> simp only [here] <;>
      split <;> simp [Place.effort]
  case testFree | testStop | testTasks | retestStop =>
    cases moved
    refine effort_lt_of_go isThread rfl rfl ?_
    simp only [here]
    split <;> simp [Place.effort]
  case sleepFree | unlockFtq | writeRoutine | writeData | unlockTq | sleepTasks | callRoutine |
      running | initRoutine | initData | pushFree | unlockRelease | alive | unlockStop =>
    cases moved
    exact effort_lt_of_go isThread rfl rfl (by simp [here, Place.effort])

/-- A thread that wakes up for no reason has a few steps to do until it waits again. -/
theorem effort_of_wake (isThread : t ∈ threads) (moved : s.wake t = some s') :
    s'.effort threads ≤ s.effort threads + 6 := by
  have update (place : Place ρ δ) := effortOf_update isThread s.place place
  cases here : s.place t <;> simp only [wake, here, reduceCtorEq] at moved
  case waitFree task =>
    cases moved
    have after := update (.lockFtq task)
    simp only [here, Place.effort] at after
    simp only [effort, go]
    omega
  case waitTasks =>
    cases moved
    have after := update .lockTasks
    simp only [here, Place.effort] at after
    simp only [effort, go]
    omega

/-! ## Who can go on -/

/-- Only the given threads are inside the pool. -/
def Within (s : ThreadPool ρ δ) (threads : Finset Thread) : Prop :=
  ∀ t, t ∉ threads → (s.place t).Away

theorem advance_of_away (away : (s.place t).Away) : s.advance t = none := by
  cases here : s.place t <;> simp_all [Place.Away, advance]

theorem wake_of_away (away : (s.place t).Away) : s.wake t = none := by
  cases here : s.place t <;> simp_all [Place.Away, wake]

theorem Within.advance (within : s.Within threads) (moved : s.advance t = some s') :
    t ∈ threads ∧ s'.Within threads := by
  have isThread : t ∈ threads := by
    by_contra other
    rw [advance_of_away (within t other)] at moved
    cases moved
  refine ⟨isThread, fun u other => ?_⟩
  have away := within u other
  rcases place_of_advance moved (ne_of_mem_of_not_mem isThread other).symm with
    stays | ⟨task, waits, -⟩ | ⟨waits, -⟩
  · rwa [stays]
  · rw [waits] at away
    exact away.elim
  · rw [waits] at away
    exact away.elim

theorem place_of_wake (moved : s.wake t = some s') (other : u ≠ t) : s'.place u = s.place u := by
  cases here : s.place t <;> simp only [wake, here, reduceCtorEq] at moved
  case waitFree | waitTasks =>
    cases moved
    simp [go, other]

theorem Within.wake (within : s.Within threads) (moved : s.wake t = some s') :
    t ∈ threads ∧ s'.Within threads := by
  have isThread : t ∈ threads := by
    by_contra other
    rw [wake_of_away (within t other)] at moved
    cases moved
  refine ⟨isThread, fun u other => ?_⟩
  rw [place_of_wake moved (ne_of_mem_of_not_mem isThread other).symm]
  exact within u other

theorem Within.addTask (within : s.Within threads) {task : PoolTask ρ δ}
    (moved : s.addTask t task = some s') : s'.Within (insert t threads) := by
  intro u other
  rw [Finset.mem_insert, not_or] at other
  cases here : s.place t <;> simp only [ThreadPool.addTask, here, reduceCtorEq] at moved
  case outside =>
    cases moved
    simpa [go, other.1] using within u other.2

/-- In every run only finitely many threads are inside the pool. -/
theorem within_of_run {nthreads : ℕ} (run : ReflTransGen Step (create nthreads) s) :
    ∃ threads, s.Within threads := by
  induction run with
  | refl =>
      refine ⟨insert .destructor ((Finset.range nthreads).image .worker), fun t other => ?_⟩
      cases t with
      | submitter i => trivial
      | worker i =>
          have missing : ¬i < nthreads := by simpa using other
          simp [create, missing, Place.Away]
      | destructor => simp at other
  | tail _ last ih =>
      rcases ih with ⟨threads, within⟩
      rcases last with ⟨action, moved⟩
      cases action with
      | addTask t task => exact ⟨_, within.addTask moved⟩
      | advance t => exact ⟨threads, (within.advance moved).2⟩
      | wake t => exact ⟨threads, (within.wake moved).2⟩

/-- No thread calls `add_task`. -/
def Action.Goes : Action ρ δ → Prop
  | .addTask _ _ => False
  | .advance _ => True
  | .wake _ => True

/-- How often a thread wakes up for no reason. -/
def wakeUps (actions : List (Action ρ δ)) : ℕ :=
  actions.countP fun action => action matches .wake _

/-- Runs without new calls are bounded, but for the wake-ups that nobody has caused. -/
theorem length_of_exec {rest : List (Action ρ δ)} (within : s.Within threads)
    (goes : ∀ action ∈ rest, action.Goes) (run : s.exec rest = some s') :
    rest.length + s'.effort threads ≤ s.effort threads + 7 * wakeUps rest ∧
      s'.Within threads := by
  induction rest generalizing s with
  | nil =>
      cases run
      exact ⟨by simp [wakeUps], within⟩
  | cons action rest ih =>
      rcases exec_cons.mp run with ⟨next, moved, others⟩
      have goesOn : ∀ action ∈ rest, action.Goes :=
        fun action mem => goes action (List.mem_cons_of_mem _ mem)
      cases action with
      | addTask t task => exact (goes _ List.mem_cons_self).elim
      | advance t =>
          rcases within.advance moved with ⟨isThread, within'⟩
          rcases ih within' goesOn others with ⟨bound, after⟩
          have less := effort_of_advance isThread moved
          refine ⟨?_, after⟩
          simp only [wakeUps, List.countP_cons, List.length_cons] at bound ⊢
          simp
          omega
      | wake t =>
          rcases within.wake moved with ⟨isThread, within'⟩
          rcases ih within' goesOn others with ⟨bound, after⟩
          have more := effort_of_wake isThread moved
          refine ⟨?_, after⟩
          simp only [wakeUps, List.countP_cons, List.length_cons] at bound ⊢
          simp
          omega

/-! ## Who does what -/

/-- A step keeps a thread in its own code, a worker leaves it after the stop only, and nobody but
the destructor stops the pool. -/
theorem role_of_advance (moved : s.advance t = some s') (safe : ¬(s'.place t).Fails) :
    (s'.place t).role = (s.place t).role ∧ (s'.place t = .exited → s'.stopFlag = true) ∧
      (s.place t ≠ .alive → s'.stopFlag = s.stopFlag) ∧ s'.place t ≠ .alive := by
  cases here : s.place t <;> simp only [advance, here] at moved
  case outside | waitFree | waitTasks | exited | crashed | joining => cases moved
  case lockFtq | lockRelease =>
    rcases acquireFree_eq_some.mp moved with ⟨-, rfl⟩
    simp [go, Place.role]
  case lockTq | lockTasks | lockStop =>
    rcases acquireTasks_eq_some.mp moved with ⟨-, rfl⟩
    simp [go, Place.role]
  case popFree =>
    cases items : s.freeTasksQueue <;> simp only [items, Option.some.injEq] at moved <;>
      subst moved
    · simp [go, Place.Fails] at safe
    · simp [go, Place.role]
  case popTask =>
    cases items : s.tasksQueue <;> simp only [items, Option.some.injEq] at moved <;>
      subst moved <;> simp [go, Place.role]
  case testRoutine toDo =>
    cases toDo <;> cases moved <;> simp only [go, Function.update_self]
    · simp [Place.role]
    · split <;> simp [Place.role]
  case testToDo toDo =>
    cases moved
    simp only [go, Function.update_self]
    split
    case isTrue stops =>
      rw [Bool.and_eq_true] at stops
      simp [Place.role, stops.2]
    case isFalse => simp [Place.role]
  case testFree | testStop | testTasks | retestStop =>
    cases moved
    simp only [go, Function.update_self]
    split <;> simp [Place.role]
  case signalTask | signalFree =>
    cases moved
    split <;> simp [go, broadcastTasks, broadcastFree, Place.role]
  case alive | broadcastStop | sleepFree | unlockFtq | writeRoutine | writeData | pushTask |
      unlockTq | sleepTasks | unlockTasks | callRoutine | running | initRoutine | initData |
      pushFree | unlockRelease | unlockStop =>
    cases moved
    simp [go, broadcastTasks, Place.role]

/-- Every thread is in its own code. The workers that exist leave it after the stop only, and the
pool stops when the destructor runs. -/
structure RoleInv (nthreads : ℕ) (s : ThreadPool ρ δ) : Prop where
  role : ∀ t, (s.place t).role = t.role
  exited : ∀ i, i < nthreads → s.place (.worker i) = .exited → s.stopFlag = true
  stopped : s.stopFlag = true → s.place .destructor ≠ .alive

namespace RoleInv

variable {nthreads : ℕ}

theorem create (nthreads : ℕ) : (ThreadPool.create nthreads : ThreadPool ρ δ).RoleInv nthreads where
  role t := by
    cases t <;> simp only [ThreadPool.create]
    · rfl
    · split <;> rfl
    · rfl
  exited i isWorker isExited := by simp [ThreadPool.create, isWorker] at isExited
  stopped isStopped := by simp [ThreadPool.create] at isStopped

theorem advance (inv : s.RoleInv nthreads) (moved : s.advance t = some s')
    (safe : ¬(s'.place t).Fails) : s'.RoleInv nthreads := by
  rcases role_of_advance moved safe with ⟨role, exits, flag, notAlive⟩
  have others {u : Thread} (other : u ≠ t) : s'.place u = s.place u ∨
      ((s'.place u).role = (s.place u).role ∧ s'.place u ≠ .exited ∧ s'.place u ≠ .alive) := by
    rcases place_of_advance moved other with stays | ⟨task, waits, woken⟩ | ⟨waits, woken⟩
    · exact Or.inl stays
    · exact Or.inr (by simp [waits, woken, Place.role])
    · exact Or.inr (by simp [waits, woken, Place.role])
  refine ⟨fun u => ?_, fun i isWorker isExited => ?_, fun isStopped isAlive => ?_⟩
  · by_cases same : u = t
    · rw [same, role, inv.role]
    · rcases others same with stays | ⟨sameRole, -⟩
      · rw [stays, inv.role]
      · rw [sameRole, inv.role]
  · by_cases same : .worker i = t
    · exact exits (same ▸ isExited)
    · rcases others same with stays | ⟨-, notExited, -⟩
      · have stopped := inv.exited i isWorker (stays ▸ isExited)
        exact (stops_of_advance (fun _ => stopped) moved).1 stopped
      · exact absurd isExited notExited
  · by_cases same : .destructor = t
    · exact notAlive (same ▸ isAlive)
    · rcases others same with stays | ⟨-, -, never⟩
      · have notDestructor : s.place t ≠ .alive := by
          intro isAlive'
          have isRole := inv.role t
          rw [isAlive'] at isRole
          cases t with
          | submitter i => cases isRole
          | worker i => cases isRole
          | destructor => exact same rfl
        exact inv.stopped (flag notDestructor ▸ isStopped) (stays ▸ isAlive)
      · exact never isAlive

theorem of_place (inv : s.RoleInv nthreads) (others : ∀ u, u ≠ t → s'.place u = s.place u)
    (role : (s'.place t).role = (s.place t).role) (notExited : s'.place t ≠ .exited)
    (notAlive : s'.place t ≠ .alive) (flag : s'.stopFlag = s.stopFlag) : s'.RoleInv nthreads := by
  refine ⟨fun u => ?_, fun i isWorker isExited => ?_, fun isStopped isAlive => ?_⟩
  · by_cases same : u = t
    · rw [same, role, inv.role]
    · rw [others u same, inv.role]
  · by_cases same : .worker i = t
    · exact absurd (same ▸ isExited) notExited
    · rw [flag]
      exact inv.exited i isWorker (others _ same ▸ isExited)
  · by_cases same : .destructor = t
    · exact notAlive (same ▸ isAlive)
    · exact inv.stopped (flag ▸ isStopped) (others _ same ▸ isAlive)

theorem step (inv : s.RoleInv nthreads) (safe : s'.SafeInv) (step : Step s s') :
    s'.RoleInv nthreads := by
  rcases step with ⟨action, moved⟩
  cases action with
  | advance t => exact inv.advance moved (safe.safe t)
  | addTask t task =>
      cases here : s.place t <;>
        simp only [ThreadPool.step, ThreadPool.addTask, here, reduceCtorEq] at moved
      case outside =>
        cases moved
        refine inv.of_place (t := t) (fun u other => by simp [go, other]) ?_ ?_ ?_ rfl <;>
          simp [go, here, Place.role]
  | wake t =>
      cases here : s.place t <;>
        simp only [ThreadPool.step, ThreadPool.wake, here, reduceCtorEq] at moved
      case waitFree | waitTasks =>
        cases moved
        refine inv.of_place (t := t) (fun u other => by simp [go, other]) ?_ ?_ ?_ rfl <;>
          simp [go, here, Place.role]

theorem of_run (run : ReflTransGen Step (ThreadPool.create nthreads) s) :
    s.SafeInv ∧ s.RoleInv nthreads := by
  induction run with
  | refl => exact ⟨.create nthreads, create nthreads⟩
  | tail _ last ih =>
      have safe := ih.1.step last
      exact ⟨safe, ih.2.step safe last⟩

end RoleInv

/-! ## Threads that cannot go on -/

/-- A thread that holds a mutex goes on. -/
theorem advance_of_holds
    (holds : (s.place t).freePhase.holds = true ∨ (s.place t).tasksPhase.holds = true) :
    s.advance t ≠ none := by
  cases here : s.place t <;>
    simp only [here, Place.freePhase, Place.tasksPhase, BlockingQueue.Phase.holds,
      Bool.false_eq_true, or_self] at holds <;> simp only [advance, here]
  case popFree => cases s.freeTasksQueue <;> simp
  case popTask => cases s.tasksQueue <;> simp
  all_goals simp

/-- When no thread can go on, but for a destructor that has not been called, nobody holds a mutex
and everybody rests. -/
theorem rests_of_stuck (inv : s.SafeInv)
    (stuck : ∀ t, s.place t ≠ .alive → s.advance t = none) :
    s.freeTasksMutex = none ∧ s.mutex = none ∧
      ∀ t, s.place t ≠ .alive → (s.place t).Rests := by
  have free : s.freeTasksMutex = none := by
    by_contra owned
    rcases Option.ne_none_iff_exists'.mp owned with ⟨t, owner⟩
    have holds : (s.place t).freePhase.holds = true := (inv.wake.free.owner t).mp owner
    refine advance_of_holds (Or.inl holds) (stuck t fun isAlive => ?_)
    rw [isAlive] at holds
    cases holds
  have tasks : s.mutex = none := by
    by_contra owned
    rcases Option.ne_none_iff_exists'.mp owned with ⟨t, owner⟩
    rcases inv.wake.tasks with ⟨flushed, -, view⟩
    have holds : (s.place t).tasksPhase.holds = true := (view.owner t).mp owner
    refine advance_of_holds (Or.inr holds) (stuck t fun isAlive => ?_)
    rw [isAlive] at holds
    cases holds
  refine ⟨free, tasks, fun t notAlive => ?_⟩
  have blocked := stuck t notAlive
  cases here : s.place t <;> simp only [advance, here, acquireFree, free, acquireTasks, tasks,
    reduceCtorEq] at blocked
  case outside | waitFree | waitTasks | exited | joining => trivial
  case crashed => exact (inv.safe t (by rw [here]; trivial)).elim
  case popFree => cases items : s.freeTasksQueue <;> simp [items] at blocked
  case popTask => cases items : s.tasksQueue <;> simp [items] at blocked
  case testRoutine toDo => cases toDo <;> cases blocked

/-! ## The tasks that are submitted -/

/-- The tasks of the calls of `add_task`. -/
def submitted : List (Action ρ δ) → List (PoolTask ρ δ)
  | [] => []
  | .addTask _ task :: rest => task :: submitted rest
  | _ :: rest => submitted rest

/-- A submitted task is pushed, or its submitter is about to do it. -/
structure Asks (s : ThreadPool ρ δ) (tasks : List (PoolTask ρ δ))
    (asks : List (Thread × PoolTask ρ δ)) : Prop where
  once : (asks.map (·.1)).Nodup
  mem : ∀ t task, (t, task) ∈ asks ↔ (s.place t).holding.task = some task
  perm : tasks.Perm (s.pushed ++ asks.map (·.2))

/-- A step of a submitter carries its task on, or pushes it. -/
theorem task_of_advance (moved : s.advance t = some s') (safe : ¬(s'.place t).Fails) :
    ((s'.place t).holding.task = (s.place t).holding.task ∧ s'.pushed = s.pushed) ∨
      ∃ task, (s.place t).holding.task = some task ∧ (s'.place t).holding.task = none ∧
        s'.pushed = s.pushed ++ [task] := by
  cases here : s.place t <;> simp only [advance, here] at moved
  case outside | waitFree | waitTasks | exited | crashed | joining => cases moved
  case lockFtq | lockRelease =>
    rcases acquireFree_eq_some.mp moved with ⟨-, rfl⟩
    simp [go, Place.holding, Holding.task]
  case lockTq | lockTasks | lockStop =>
    rcases acquireTasks_eq_some.mp moved with ⟨-, rfl⟩
    simp [go, Place.holding, Holding.task]
  case popFree =>
    cases items : s.freeTasksQueue <;> simp only [items, Option.some.injEq] at moved <;>
      subst moved
    · simp [go, Place.Fails] at safe
    · simp [go, Place.holding, Holding.task]
  case popTask =>
    cases items : s.tasksQueue <;> simp only [items, Option.some.injEq] at moved <;>
      subst moved <;> simp [go, Place.holding, Holding.task]
  case testRoutine toDo =>
    cases toDo <;> cases moved <;> simp only [go, Function.update_self]
    · simp [Place.holding, Holding.task]
    · split <;> simp [Place.holding, Holding.task]
  case testToDo toDo =>
    cases moved
    simp only [go, Function.update_self]
    cases toDo <;> split <;> simp [Place.holding, Holding.task]
  case unlockTasks toDo =>
    cases moved
    cases toDo <;> simp [go, Place.holding, Holding.task]
  case testFree | testStop | testTasks | retestStop =>
    cases moved
    simp only [go, Function.update_self]
    split <;> simp [Place.holding, Holding.task]
  case signalTask | signalFree =>
    cases moved
    split <;> simp [go, broadcastTasks, broadcastFree, Place.holding, Holding.task]
  case alive | broadcastStop | sleepFree | unlockFtq | writeRoutine | writeData | pushTask |
      unlockTq | sleepTasks | callRoutine | running | initRoutine | initData | pushFree |
      unlockRelease | unlockStop =>
    cases moved
    simp [go, broadcastTasks, Place.holding, Holding.task]

namespace Asks

variable {tasks : List (PoolTask ρ δ)} {asks : List (Thread × PoolTask ρ δ)}

theorem congr (isAsked : s.Asks tasks asks)
    (same : ∀ u, (s'.place u).holding.task = (s.place u).holding.task)
    (pushed : s'.pushed = s.pushed) : s'.Asks tasks asks :=
  ⟨isAsked.once, fun u task => by rw [same]; exact isAsked.mem u task,
    pushed ▸ isAsked.perm⟩

/-- A submitter pushes its task. -/
theorem push (isAsked : s.Asks tasks asks) {task : PoolTask ρ δ}
    (others : ∀ u, u ≠ t → (s'.place u).holding.task = (s.place u).holding.task)
    (before : (s.place t).holding.task = some task) (after : (s'.place t).holding.task = none)
    (pushed : s'.pushed = s.pushed ++ [task]) : ∃ asks', s'.Asks tasks asks' := by
  rcases List.append_of_mem ((isAsked.mem t task).mpr before) with ⟨front, back, rfl⟩
  have once := isAsked.once
  simp only [List.map_append, List.map_cons, List.nodup_middle, List.nodup_cons] at once
  refine ⟨front ++ back, by simpa using once.2, fun u task' => ?_, ?_⟩
  · by_cases same : u = t
    · subst same
      rw [after]
      refine iff_of_false (fun isIn => once.1 ?_) (by simp)
      rw [← List.map_append]
      exact List.mem_map_of_mem (f := Prod.fst) isIn
    · rw [others u same, ← isAsked.mem u task']
      simp [same]
  · refine isAsked.perm.trans ?_
    rw [pushed]
    simp only [List.map_append, List.map_cons, List.append_assoc, List.singleton_append]
    exact List.perm_middle.append_left _

/-- A thread calls `add_task`. -/
theorem ask (isAsked : s.Asks tasks asks) {task : PoolTask ρ δ}
    (others : ∀ u, u ≠ t → (s'.place u).holding.task = (s.place u).holding.task)
    (before : (s.place t).holding.task = none) (after : (s'.place t).holding.task = some task)
    (pushed : s'.pushed = s.pushed) : s'.Asks (task :: tasks) ((t, task) :: asks) := by
  refine ⟨?_, fun u task' => ?_, ?_⟩
  · simp only [List.map_cons, List.nodup_cons]
    refine ⟨fun isIn => ?_, isAsked.once⟩
    rcases List.mem_map.mp isIn with ⟨⟨u, task'⟩, inAsks, rfl⟩
    rw [(isAsked.mem u task').mp inAsks] at before
    cases before
  · by_cases same : u = t
    · subst same
      have notIn : (u, task') ∉ asks := fun isIn => by
        rw [(isAsked.mem u task').mp isIn] at before
        cases before
      rw [after]
      simp [notIn, eq_comm]
    · rw [others u same, ← isAsked.mem u task']
      simp [same]
  · rw [pushed]
    exact (isAsked.perm.cons task).trans List.perm_middle.symm

theorem step (isAsked : s.Asks tasks asks) {action : Action ρ δ} (safe : s'.SafeInv)
    (moved : s.step action = some s') : ∃ asks', s'.Asks (submitted [action] ++ tasks) asks' := by
  cases action with
  | advance t =>
      have others (u : Thread) (other : u ≠ t) :
          (s'.place u).holding.task = (s.place u).holding.task := by
        rcases place_of_advance moved other with stays | ⟨task, waits, woken⟩ | ⟨waits, woken⟩
        · rw [stays]
        · rw [waits, woken]
          rfl
        · rw [waits, woken]
          rfl
      rcases task_of_advance moved (safe.safe t) with ⟨same, pushed⟩ | ⟨task, before, after, pushed⟩
      · refine ⟨asks, isAsked.congr (fun u => ?_) pushed⟩
        by_cases own : u = t
        · rw [own, same]
        · exact others u own
      · exact isAsked.push others before after pushed
  | addTask t task =>
      cases here : s.place t <;>
        simp only [ThreadPool.step, ThreadPool.addTask, here, reduceCtorEq] at moved
      case outside =>
        cases moved
        refine ⟨_, isAsked.ask (t := t) (fun u other => by simp [go, other]) ?_ ?_ rfl⟩
        · rw [here]
          rfl
        · simp [go, Place.holding, Holding.task]
  | wake t =>
      have same := slotsView_of_wake (t := t) moved
      refine ⟨asks, isAsked.congr (fun u => ?_) (congrArg Slots.pushed same)⟩
      exact congrArg Holding.task (congrFun (congrArg Slots.holding same) u)

theorem of_exec {calls : List (Action ρ δ)} (isAsked : s.Asks tasks asks) (safe : s.SafeInv)
    (run : s.exec calls = some s') : ∃ tasks' asks', s'.Asks tasks' asks' ∧
      tasks'.Perm (submitted calls ++ tasks) := by
  induction calls generalizing s tasks asks with
  | nil =>
      cases run
      exact ⟨tasks, asks, isAsked, .refl _⟩
  | cons action rest ih =>
      rcases exec_cons.mp run with ⟨next, moved, others⟩
      have safe' := safe.step ⟨action, moved⟩
      rcases isAsked.step safe' moved with ⟨asks', isAsked'⟩
      rcases ih isAsked' safe' others with ⟨tasks', asks'', after, perm⟩
      refine ⟨tasks', asks'', after, perm.trans ?_⟩
      cases action with
      | addTask t task => exact List.perm_middle
      | advance t => exact .refl _
      | wake t => exact .refl _

end Asks

theorem count_logOf {α : Type} [DecidableEq α] (log : List (Thread × α)) (t : Thread) (x : α) :
    (logOf log t).count x = log.count (t, x) := by
  induction log with
  | nil => rfl
  | cons entry log ih =>
      rcases entry with ⟨u, y⟩
      by_cases same : u = t
      · subst same
        simpa [logOf, List.count_cons] using ih
      · simpa [logOf, List.count_cons, same] using ih

/-- Logs that agree thread by thread hold the same entries. -/
theorem perm_of_logOf {α : Type} {log log' : List (Thread × α)}
    (same : ∀ t, logOf log t = logOf log' t) : log.Perm log' := by
  classical
  refine List.perm_iff_count.mpr ?_
  rintro ⟨t, x⟩
  rw [← count_logOf, ← count_logOf, same]

/-! ## What is reached in the end -/

/-- Every call of `add_task` has returned, all workers wait, all slots are free, and the routines
that were called are those that were submitted, each as often as it was. -/
structure Settled (nthreads : ℕ) (tasks : List (PoolTask ρ δ)) (s : ThreadPool ρ δ) : Prop where
  submitters : ∀ i, s.place (.submitter i) = .outside
  workers : ∀ i, i < nthreads → s.place (.worker i) = .waitTasks
  slots : s.freeTasksQueue.Perm (List.range queueSize)
  ran : (s.ran.map (·.2)).Perm tasks

variable {nthreads : ℕ} {calls : List (Action ρ δ)}

/-- Who rests has neither a slot nor a task to push, unless it waits for a slot. -/
theorem holding_of_rests {place : Place ρ δ} (rests : place.Rests ∨ place = .alive) :
    place.holding.slot = none ∧ Slots.pending s.tasks place.holding = [] ∧
      ((∀ task, place ≠ .waitFree task) → place.holding = .nothing) := by
  rcases Place.rests_cases rests with rfl | ⟨task, rfl⟩ | rfl | rfl | rfl | rfl <;>
    simp [Place.holding, Holding.slot, Slots.pending]

theorem settled_of_stuck (workers : 0 < nthreads) (inv : s.TaskInv) (roles : s.RoleInv nthreads)
    {tasks : List (PoolTask ρ δ)} {asks : List (Thread × PoolTask ρ δ)}
    (isAsked : s.Asks tasks asks) (isAlive : s.place .destructor = .alive)
    (stuck : ∀ t, t ≠ .destructor → s.advance t = none) : s.Settled nthreads tasks := by
  have notStopped : s.stopFlag = false := by
    by_contra stopped
    exact roles.stopped (by simpa using stopped) isAlive
  rcases rests_of_stuck inv.safeInv fun t notAlive => stuck t fun same => notAlive (same ▸ isAlive)
    with ⟨free, tasksFree, rest⟩
  have rests (t : Thread) : (s.place t).Rests ∨ s.place t = .alive := by
    by_cases alive : s.place t = .alive
    · exact Or.inr alive
    · exact Or.inl (rest t alive)
  have waits (i : ℕ) (isWorker : i < nthreads) : s.place (.worker i) = .waitTasks := by
    rcases Place.waitTasks_or_exited (rests _) (roles.role (.worker i)) with waits | isExited
    · exact waits
    · rw [roles.exited i isWorker isExited] at notStopped
      cases notStopped
  have queue : s.tasksQueue = [] := by
    by_contra some
    rcases inv.wake.tasks with ⟨flushed, -, view⟩
    exact view.nobodyWaits_of_free tasksFree some (.worker 0)
      (congrArg Place.tasksPhase (waits 0 workers))
  have someFree : s.freeTasksQueue ≠ [] := by
    intro none
    rcases inv.slots.parts.covered 0 (by decide) with ⟨location, isAt⟩
    cases location with
    | free =>
        change 0 ∈ s.freeTasksQueue at isAt
        simp [none] at isAt
    | queued =>
        change 0 ∈ s.tasksQueue at isAt
        simp [queue] at isAt
    | held t =>
        change (s.place t).holding.slot = some 0 at isAt
        rw [(holding_of_rests (s := s) (rests t)).1] at isAt
        cases isAt
  have nobody (t : Thread) (task : PoolTask ρ δ) : s.place t ≠ .waitFree task := fun isWaiting =>
    inv.wake.free.nobodyWaits_of_free free someFree t (congrArg Place.freePhase isWaiting)
  have outside (i : ℕ) : s.place (.submitter i) = .outside := by
    rcases Place.outside_or_waitFree (rests _) (roles.role (.submitter i)) with
      isOut | ⟨task, waits⟩
    · exact isOut
    · exact absurd waits (nobody _ task)
  have idle (i : ℕ) : (s.place (.worker i)).Idle := by
    rcases Place.waitTasks_or_exited (rests _) (roles.role (.worker i)) with here | here <;>
      simp [here, Place.Idle]
  have quiet : s.Quiescent := ⟨outside, queue, idle⟩
  have ends : (s.place .destructor).OfDestructor := by
    rw [isAlive]
    trivial
  refine ⟨outside, waits, ?_, ?_⟩
  · have flow : s.slotsView.Flow [] := by
      refine ⟨?_, inv.slots.carries, inv.slots.fifo⟩
      exact inv.slots.parts.congr (List.append_nil _) rfl fun _ => rfl
    simpa using quiet.perm ends flow
  · have nothing : asks = [] := by
      refine List.eq_nil_iff_forall_not_mem.mpr ?_
      rintro ⟨t, task⟩ isIn
      rw [isAsked.mem t task, quiet.holding ends t] at isIn
      cases isIn
    have pushed : s.pushed = s.taken.map (·.2) := by
      have fifo : s.pushed = s.taken.map (·.2) ++ s.tasksQueue.map s.tasks := inv.slots.fifo
      simpa [queue] using fifo
    have logs : s.ran.Perm s.taken := by
      refine perm_of_logOf fun t => ?_
      refine (inv.slots.noTask ?_).symm
      exact (holding_of_rests (rests t)).2.1
    have all := isAsked.perm
    rw [nothing, List.map_nil, List.append_nil, pushed] at all
    exact (logs.map _).trans all.symm

/-- No thread calls `add_task` or the destructor. -/
def Action.Carries : Action ρ δ → Prop
  | .addTask _ _ => False
  | .advance t => t ≠ .destructor
  | .wake _ => True

theorem goes_of_carries {action : Action ρ δ} (carries : action.Carries) : action.Goes := by
  cases action with
  | addTask t task => exact carries
  | advance t => trivial
  | wake t => trivial

/-- The destructor stays where it is in a step of another thread. -/
theorem destructor_of_carries {action : Action ρ δ} (carries : action.Carries)
    (isAlive : s.place .destructor = .alive) (moved : s.step action = some s') :
    s'.place .destructor = .alive := by
  cases action with
  | addTask t task => exact carries.elim
  | advance t =>
      rcases place_of_advance moved (Ne.symm carries) with stays | ⟨task, waits, -⟩ | ⟨waits, -⟩
      · rw [stays, isAlive]
      · rw [isAlive] at waits
        cases waits
      · rw [isAlive] at waits
        cases waits
  | wake t =>
      have other : .destructor ≠ t := by
        rintro rfl
        simp [ThreadPool.step, ThreadPool.wake, isAlive] at moved
      rw [place_of_wake moved other, isAlive]

theorem destructor_of_exec {rest : List (Action ρ δ)} (carries : ∀ action ∈ rest, action.Carries)
    (isAlive : s.place .destructor = .alive) (run : s.exec rest = some s') :
    s'.place .destructor = .alive := by
  induction rest generalizing s with
  | nil =>
      cases run
      exact isAlive
  | cons action rest ih =>
      rcases exec_cons.mp run with ⟨next, moved, others⟩
      exact ih (fun action mem => carries action (List.mem_cons_of_mem _ mem))
        (destructor_of_carries (carries _ List.mem_cons_self) isAlive moved) others

theorem exec_append {first rest : List (Action ρ δ)} {s'' : ThreadPool ρ δ}
    (run : s.exec first = some s') (run' : s'.exec rest = some s'') :
    s.exec (first ++ rest) = some s'' := by
  induction first generalizing s with
  | nil =>
      cases run
      exact run'
  | cons action first ih =>
      rcases exec_cons.mp run with ⟨next, moved, others⟩
      exact exec_cons.mpr ⟨next, moved, ih others⟩

theorem submitted_append (first rest : List (Action ρ δ)) :
    submitted (first ++ rest) = submitted first ++ submitted rest := by
  induction first with
  | nil => rfl
  | cons action first ih =>
      cases action with
      | addTask t task => exact congrArg (task :: ·) ih
      | advance t => exact ih
      | wake t => exact ih

theorem submitted_of_carries {rest : List (Action ρ δ)}
    (carries : ∀ action ∈ rest, action.Carries) : submitted rest = [] := by
  induction rest with
  | nil => rfl
  | cons action rest ih =>
      have others := ih fun action mem => carries action (List.mem_cons_of_mem _ mem)
      cases action with
      | addTask t task => exact (carries _ List.mem_cons_self).elim
      | advance t => exact others
      | wake t => exact others

/-- Once `add_task` is not called any more the pool takes a bounded number of steps, and where it
can take none, every task has been run, exactly as often as it was submitted, and all calls have
returned. This needs a worker, tasks with routines and routines that return. Each wake-up that
nobody has caused costs a few steps more. -/
theorem settles_of_run (workers : 0 < nthreads)
    (hasRoutine : ∀ action ∈ calls, action.HasRoutine)
    (run : (create nthreads).exec calls = some s) (isAlive : s.place .destructor = .alive) :
    ∃ bound, ∀ rest s', (∀ action ∈ rest, action.Carries) → s.exec rest = some s' →
      rest.length ≤ bound + 7 * wakeUps rest ∧
        ((∀ t, t ≠ .destructor → s'.advance t = none) →
          s'.Settled nthreads (submitted calls)) := by
  have steps : ReflTransGen Step (create nthreads) s :=
    run_of_exec _ _ (fun action _ _ _ moved => ⟨action, moved⟩) run
  rcases within_of_run steps with ⟨threads, within⟩
  refine ⟨s.effort threads, fun rest s' carries goesOn => ⟨?_, fun stuck => ?_⟩⟩
  · have bound := (length_of_exec within
      (fun action mem => goes_of_carries (carries action mem)) goesOn).1
    omega
  · have whole := exec_append run goesOn
    have routines : ∀ action ∈ calls ++ rest, action.HasRoutine := by
      intro action mem
      rcases List.mem_append.mp mem with isCall | later
      · exact hasRoutine action isCall
      · cases action with
        | addTask t task => exact (carries _ later).elim
        | advance t => trivial
        | wake t => trivial
    have taskInv : s'.TaskInv := TaskInv.of_run
      (run_of_exec _ _ (fun action mem _ _ moved => ⟨action, routines action mem, moved⟩) whole)
    have roles := (RoleInv.of_run
      (run_of_exec _ _ (fun action _ _ _ moved => ⟨action, moved⟩) whole)).2
    have nothing : (create nthreads : ThreadPool ρ δ).Asks [] [] := by
      refine ⟨List.nodup_nil, fun t task => ?_, .refl _⟩
      have holding : (create nthreads : ThreadPool ρ δ).slotsView.holding t = .nothing :=
        holding_create nthreads t
      change (t, task) ∈ [] ↔
        ((create nthreads : ThreadPool ρ δ).slotsView.holding t).task = some task
      simp [holding, Holding.task]
    rcases nothing.of_exec (.create nthreads) whole with ⟨tasks, asks, isAsked, perm⟩
    rw [submitted_append, submitted_of_carries carries, List.append_nil, List.append_nil] at perm
    have settled := settled_of_stuck workers taskInv roles isAsked
      (destructor_of_exec carries isAlive goesOn) stuck
    exact ⟨settled.submitters, settled.workers, settled.slots, settled.ran.trans perm⟩

/-- One call of `add_task` -/
theorem settles_of_run_addTask : ∃ s : ThreadPool Unit Unit,
    (s.place (.submitter 0)).holding = .wants { routine := some (), data := none } ∧
      ∃ bound, ∀ rest s', (∀ action ∈ rest, action.Carries) → s.exec rest = some s' →
        rest.length ≤ bound + 7 * wakeUps rest ∧
          ((∀ t, t ≠ .destructor → s'.advance t = none) →
            s'.Settled 1 [{ routine := some (), data := none }]) := by
  refine ⟨_, ?_, settles_of_run (by decide) ?_
    (rfl : (create 1).exec [.addTask (.submitter 0) { routine := some (), data := none }] = _) rfl⟩
  · rfl
  · simp [Action.HasRoutine]

/-- Whatever the threads are doing when the destructor is called, they take a bounded number of
steps, and where none can take another, every worker has exited, and the destructor is at its joins.
-/
theorem stops_of_run (run : ReflTransGen Step (create nthreads) s) :
    ∃ bound, ∀ rest s', (∀ action ∈ rest, action.Goes) → s.exec rest = some s' →
      rest.length ≤ bound + 7 * wakeUps rest ∧
        ((∀ t, s'.advance t = none) →
          (∀ i, s'.place (.worker i) = .exited) ∧ s'.place .destructor = .joining) := by
  rcases within_of_run run with ⟨threads, within⟩
  refine ⟨s.effort threads, fun rest s' goes goesOn => ⟨?_, fun stuck => ?_⟩⟩
  · have bound := (length_of_exec within goes goesOn).1
    omega
  · have whole : ReflTransGen Step (create nthreads) s' :=
      run.trans (run_of_exec _ _ (fun action _ _ _ moved => ⟨action, moved⟩) goesOn)
    rcases RoleInv.of_run whole with ⟨safe, roles⟩
    rcases rests_of_stuck safe fun t _ => stuck t with ⟨-, -, rest⟩
    have called : s'.place .destructor ≠ .alive := by
      intro isAlive
      have blocked := stuck .destructor
      simp [advance, isAlive] at blocked
    have joins : s'.place .destructor = .joining := by
      rcases Place.joining_or_alive (Or.inl (rest _ called)) (roles.role .destructor) with
        joins | isAlive
      · exact joins
      · exact absurd isAlive called
    refine ⟨fun i => ?_, joins⟩
    have awake : s'.place (.worker i) ≠ .waitTasks := by
      rcases safe.wake.tasks with ⟨flushed, behind, view⟩
      have isFlushed := behind .destructor (by rw [joins]; trivial)
      exact fun waits => (view.flushed isFlushed).2 _ (congrArg Place.tasksPhase waits)
    have inside : s'.place (.worker i) ≠ .alive := by
      intro isAlive
      have role := roles.role (.worker i)
      rw [isAlive] at role
      cases role
    rcases Place.waitTasks_or_exited (Or.inl (rest _ inside)) (roles.role (.worker i)) with
      waits | isExited
    · exact absurd waits awake
    · exact isExited

/-- The destructor is called at once. -/
theorem stops_of_run_alive : ∃ s : ThreadPool Unit Unit, s.place .destructor = .lockStop ∧
    ∃ bound, ∀ rest s', (∀ action ∈ rest, action.Goes) → s.exec rest = some s' →
      rest.length ≤ bound + 7 * wakeUps rest ∧
        ((∀ t, s'.advance t = none) →
          (∀ i, s'.place (.worker i) = .exited) ∧ s'.place .destructor = .joining) := by
  refine ⟨_, ?_, stops_of_run (.single ⟨.advance .destructor, (rfl : (create 1).step _ = _)⟩)⟩
  rfl

end ThreadPool

end ChaosCache
