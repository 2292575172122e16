import ChaosCache.ThreadPool.Slots
import ChaosCache.ThreadPool.Wakeups

/-!
# Every task is executed once

Without its locks the pool is the way of its slots. With them no queue is popped empty and no
worker goes on without a task, so that every step of a thread is a step of a slot or none.
-/

namespace ChaosCache

open BlockingQueue Relation

variable {ρ δ : Type}

namespace Place

/-- What a thread has to do with a slot at its place. -/
def holding : Place ρ δ → Holding ρ δ
  | lockFtq task => .wants task
  | testFree task => .wants task
  | sleepFree task => .wants task
  | waitFree task => .wants task
  | popFree task => .wants task
  | unlockFtq task newtask => .blank task newtask
  | writeRoutine task newtask => .blank task newtask
  | writeData task newtask => .half task newtask
  | lockTq task newtask => .full task newtask
  | pushTask task newtask => .full task newtask
  | unlockTasks (some newtask) => .taken newtask
  | testToDo (some toDo) => .taken toDo
  | testRoutine (some toDo) => .taken toDo
  | callRoutine toDo => .taken toDo
  | running toDo => .used toDo
  | initRoutine toDo => .used toDo
  | initData toDo => .used toDo
  | lockRelease toDo => .used toDo
  | pushFree toDo => .used toDo
  | _ => .nothing

/-- `get_task_to_do` returns `NULL`. -/
def NoTask : Place ρ δ → Prop
  | unlockTasks none => True
  | testToDo none => True
  | _ => False

/-- A `NULL` task is about to be dereferenced, or something worse has happened. -/
def Fails : Place ρ δ → Prop
  | testRoutine none => True
  | crashed => True
  | _ => False

end Place

namespace ThreadPool

variable {s s' : ThreadPool ρ δ} {t : Thread} {place : Place ρ δ}

def slotsView (s : ThreadPool ρ δ) : Slots ρ δ where
  tasks := s.tasks
  free := s.freeTasksQueue
  queue := s.tasksQueue
  holding u := (s.place u).holding
  pushed := s.pushed
  taken := s.taken
  ran := s.ran

/-- The tests have done what they are there for, and nothing has gone wrong. -/
structure SafeInv (s : ThreadPool ρ δ) : Prop where
  wake : s.WakeInv
  null : ∀ t, (s.place t).NoTask → s.stopFlag = true
  safe : ∀ t, ¬(s.place t).Fails

/-- The same, and the threads hold their slots. -/
structure TaskInv (s : ThreadPool ρ δ) : Prop where
  wake : s.WakeInv
  slots : s.slotsView.Inv
  null : ∀ t, (s.place t).NoTask → s.stopFlag = true
  safe : ∀ t, ¬(s.place t).Fails

@[simp]
theorem slotsView_go : (s.go t place).slotsView = s.slotsView.go t place.holding := by
  simp only [slotsView, go, Slots.go, Slots.mk.injEq, true_and, and_true]
  exact Function.comp_update Place.holding s.place t place

theorem slotsView_broadcastTasks : s.broadcastTasks.slotsView = s.slotsView := by
  simp only [slotsView, broadcastTasks, Slots.mk.injEq, true_and, and_true]
  funext u
  cases s.place u <;> rfl

theorem slotsView_broadcastFree : s.broadcastFree.slotsView = s.slotsView := by
  simp only [slotsView, broadcastFree, Slots.mk.injEq, true_and, and_true]
  funext u
  cases s.place u <;> rfl

theorem slotsView_of_stays (same : (s.place t).holding = place.holding) :
    (s.go t place).slotsView = s.slotsView := by
  rw [slotsView_go, ← same]
  simp [Slots.go, slotsView]

/-- A worker lets go of a slot whose task has no routine. -/
def Drops (s s' : ThreadPool ρ δ) (t : Thread) (slot : ℕ) : Prop :=
  s.slotsView.holding t = .taken slot ∧ (s.tasks slot).routine = none ∧
    s'.slotsView = s.slotsView.go t .nothing

namespace WakeInv

theorem freeTasksQueue_ne_nil (inv : s.WakeInv) {task : PoolTask ρ δ}
    (here : s.place t = .popFree task) : s.freeTasksQueue ≠ [] :=
  inv.free.items_ne_nil (congrArg Place.freePhase here)

theorem tasksQueue_ne_nil (inv : s.WakeInv) (here : s.place t = .popTask) :
    s.tasksQueue ≠ [] := by
  rcases inv.tasks with ⟨flushed, -, tasks⟩
  exact tasks.items_ne_nil (congrArg Place.tasksPhase here)

/-- The slot moves as its holder does, or it is dropped. -/
theorem slots_of_advance (inv : s.WakeInv) (safe : ¬(s.place t).Fails)
    (moved : s.advance t = some s') :
    s'.slotsView = s.slotsView ∨ Slots.Step s.slotsView s'.slotsView ∨
      ∃ slot, s.Drops s' t slot := by
  cases here : s.place t <;> simp only [ThreadPool.advance, here] at moved
  case outside | waitFree | waitTasks | exited | crashed | joining => cases moved
  case popFree task =>
    cases items : s.freeTasksQueue with
    | nil => exact absurd items (inv.freeTasksQueue_ne_nil here)
    | cons newtask rest =>
        simp only [items, Option.some.injEq] at moved
        subst moved
        right; left
        change Slots.Step s.slotsView { (s.go t _).slotsView with free := rest }
        rw [slotsView_go]
        exact .obtain t task newtask rest (congrArg Place.holding here) items
  case writeRoutine task newtask =>
    cases moved
    right; left
    change Slots.Step s.slotsView { (s.go t _).slotsView with tasks := _ }
    rw [slotsView_go]
    exact .writeRoutine t task newtask (congrArg Place.holding here)
  case writeData task newtask =>
    cases moved
    right; left
    change Slots.Step s.slotsView { (s.go t _).slotsView with tasks := _ }
    rw [slotsView_go]
    exact .writeData t task newtask (congrArg Place.holding here)
  case pushTask task newtask =>
    cases moved
    right; left
    change Slots.Step s.slotsView { (s.go t _).slotsView with queue := _, pushed := _ }
    rw [slotsView_go]
    exact .push t task newtask (congrArg Place.holding here)
  case popTask =>
    cases items : s.tasksQueue with
    | nil => exact absurd items (inv.tasksQueue_ne_nil here)
    | cons newtask rest =>
        simp only [items, Option.some.injEq] at moved
        subst moved
        right; left
        change Slots.Step s.slotsView { (s.go t _).slotsView with queue := rest, taken := _ }
        rw [slotsView_go]
        exact .take t newtask rest (congrArg Place.holding here) items
  case testRoutine toDo =>
    cases toDo with
    | none => exact absurd (here ▸ trivial) safe
    | some toDo =>
        cases moved
        split
        · exact Or.inl (slotsView_of_stays (by rw [here]; rfl))
        · rename_i noRoutine
          right; right
          exact ⟨toDo, congrArg Place.holding here, by simpa using noRoutine, slotsView_go⟩
  case callRoutine toDo =>
    cases moved
    right; left
    change Slots.Step s.slotsView { (s.go t _).slotsView with ran := _ }
    rw [slotsView_go]
    exact .run t toDo (congrArg Place.holding here)
  case initRoutine toDo =>
    cases moved
    right; left
    change Slots.Step s.slotsView { (s.go t (.initData toDo)).slotsView with tasks := _ }
    rw [slotsView_of_stays (by rw [here]; rfl)]
    exact .clear t toDo _ (congrArg Place.holding here)
  case initData toDo =>
    cases moved
    right; left
    change Slots.Step s.slotsView { (s.go t (.lockRelease toDo)).slotsView with tasks := _ }
    rw [slotsView_of_stays (by rw [here]; rfl)]
    exact .clear t toDo _ (congrArg Place.holding here)
  case pushFree toDo =>
    cases moved
    right; left
    change Slots.Step s.slotsView { (s.go t _).slotsView with free := _ }
    rw [slotsView_go]
    exact .release t toDo (congrArg Place.holding here)
  case lockFtq | lockRelease =>
    rcases acquireFree_eq_some.mp moved with ⟨-, rfl⟩
    left
    change (s.go t _).slotsView = s.slotsView
    exact slotsView_of_stays (by rw [here]; rfl)
  case lockTq | lockTasks | lockStop =>
    rcases acquireTasks_eq_some.mp moved with ⟨-, rfl⟩
    left
    change (s.go t _).slotsView = s.slotsView
    exact slotsView_of_stays (by rw [here]; rfl)
  case signalTask =>
    cases moved
    left
    split
    · rw [slotsView_go, slotsView_broadcastTasks, ← slotsView_go]
      exact slotsView_of_stays (by rw [here]; rfl)
    · exact slotsView_of_stays (by rw [here]; rfl)
  case broadcastStop =>
    cases moved
    left
    rw [slotsView_go, slotsView_broadcastTasks, ← slotsView_go]
    exact slotsView_of_stays (by rw [here]; rfl)
  case signalFree =>
    cases moved
    left
    split
    · rw [slotsView_go, slotsView_broadcastFree, ← slotsView_go]
      exact slotsView_of_stays (by rw [here]; rfl)
    · exact slotsView_of_stays (by rw [here]; rfl)
  case testFree | testStop | testTasks | retestStop =>
    cases moved
    left
    apply slotsView_of_stays
    rw [here]
    split <;> rfl
  case unlockTasks newtask =>
    cases moved
    left
    change (s.go t _).slotsView = s.slotsView
    apply slotsView_of_stays
    rw [here]
    cases newtask <;> rfl
  case testToDo toDo =>
    cases moved
    left
    apply slotsView_of_stays
    rw [here]
    cases toDo <;> split <;> simp_all [Place.holding]
  case sleepFree | unlockFtq | unlockTq | sleepTasks | running | unlockRelease | alive |
      unlockStop =>
    cases moved
    left
    change (s.go t _).slotsView = s.slotsView
    exact slotsView_of_stays (by rw [here]; rfl)

/-- `get_task_to_do` returns `NULL` only after it has seen `stop_flag`, and then the worker
stops. -/
theorem safe_of_advance (inv : s.WakeInv) (noTask : (s.place t).NoTask → s.stopFlag = true)
    (safe : ¬(s.place t).Fails) (moved : s.advance t = some s') :
    ((s'.place t).NoTask → s'.stopFlag = true) ∧ ¬(s'.place t).Fails := by
  cases here : s.place t <;> simp only [ThreadPool.advance, here] at moved
  case outside | waitFree | waitTasks | exited | crashed | joining => cases moved
  case testStop =>
    cases moved
    by_cases stop : s.stopFlag = true
    · simp [ThreadPool.go, stop, Place.Fails]
    · simp [ThreadPool.go, stop, Place.NoTask, Place.Fails]
  case retestStop =>
    cases moved
    by_cases stop : s.stopFlag = true
    · simp [ThreadPool.go, stop, Place.Fails]
    · simp [ThreadPool.go, stop, Place.NoTask, Place.Fails]
  case unlockTasks newtask =>
    cases moved
    rw [here] at noTask
    cases newtask with
    | none => simpa [ThreadPool.go, Place.NoTask, Place.Fails] using noTask
    | some newtask => simp [ThreadPool.go, Place.NoTask, Place.Fails]
  case testToDo toDo =>
    cases moved
    rw [here] at noTask
    cases toDo with
    | none =>
        have stop : s.stopFlag = true := noTask trivial
        simp [ThreadPool.go, stop, Place.NoTask, Place.Fails]
    | some toDo => simp [ThreadPool.go, Place.NoTask, Place.Fails]
  case testRoutine toDo =>
    cases toDo with
    | none => exact absurd (here ▸ trivial) safe
    | some toDo =>
        cases moved
        simp only [ThreadPool.go, Function.update_self]
        split <;> simp [Place.NoTask, Place.Fails]
  case popFree =>
    cases items : s.freeTasksQueue with
    | nil => exact absurd items (inv.freeTasksQueue_ne_nil here)
    | cons newtask rest =>
        simp only [items, Option.some.injEq] at moved
        subst moved
        simp [ThreadPool.go, Place.NoTask, Place.Fails]
  case popTask =>
    cases items : s.tasksQueue with
    | nil => exact absurd items (inv.tasksQueue_ne_nil here)
    | cons newtask rest =>
        simp only [items, Option.some.injEq] at moved
        subst moved
        simp [ThreadPool.go, Place.NoTask, Place.Fails]
  case lockFtq | lockRelease =>
    rcases acquireFree_eq_some.mp moved with ⟨-, rfl⟩
    simp [ThreadPool.go, Place.NoTask, Place.Fails]
  case lockTq | lockTasks | lockStop =>
    rcases acquireTasks_eq_some.mp moved with ⟨-, rfl⟩
    simp [ThreadPool.go, Place.NoTask, Place.Fails]
  case testFree | testTasks =>
    cases moved
    simp only [ThreadPool.go, Function.update_self]
    split <;> simp [Place.NoTask, Place.Fails]
  case signalTask | signalFree =>
    cases moved
    simp [ThreadPool.go, Place.NoTask, Place.Fails]
  case sleepFree | unlockFtq | writeRoutine | writeData | pushTask | unlockTq | sleepTasks |
      callRoutine | running | initRoutine | initData | pushFree | unlockRelease | alive |
      broadcastStop | unlockStop =>
    cases moved
    simp [ThreadPool.go, Place.NoTask, Place.Fails]

end WakeInv

namespace SafeInv

theorem create (nthreads : ℕ) : (ThreadPool.create nthreads : ThreadPool ρ δ).SafeInv where
  wake := .create nthreads
  null t := by
    cases t <;> simp only [ThreadPool.create]
    · simp [Place.NoTask]
    · split <;> simp [Place.NoTask]
    · simp [Place.NoTask]
  safe t := by
    cases t <;> simp only [ThreadPool.create]
    · simp [Place.Fails]
    · split <;> simp [Place.Fails]
    · simp [Place.Fails]

theorem advance (inv : s.SafeInv) (moved : s.advance t = some s') : s'.SafeInv := by
  have safe := inv.wake.safe_of_advance (inv.null t) (inv.safe t) moved
  have flag := (stops_of_advance (inv.wake.stops t) moved).1
  refine ⟨inv.wake.advance moved, ?_, ?_⟩
  · intro u noTask
    by_cases same : u = t
    · subst same
      exact safe.1 noTask
    · apply flag
      apply inv.null u
      rcases place_of_advance moved same with stays | ⟨task, -, woken⟩ | ⟨-, woken⟩
      · rwa [← stays]
      · rw [woken] at noTask
        exact noTask.elim
      · rw [woken] at noTask
        exact noTask.elim
  · intro u fails
    by_cases same : u = t
    · subst same
      exact safe.2 fails
    · apply inv.safe u
      rcases place_of_advance moved same with stays | ⟨task, -, woken⟩ | ⟨-, woken⟩
      · rwa [← stays]
      · rw [woken] at fails
        exact fails.elim
      · rw [woken] at fails
        exact fails.elim

theorem go (inv : s.SafeInv) (wake : (s.go t place).WakeInv) (hasTask : ¬place.NoTask)
    (safe : ¬place.Fails) : (s.go t place).SafeInv := by
  refine ⟨wake, ?_, ?_⟩
  · intro u noTask
    by_cases same : u = t
    · simp [ThreadPool.go, same, hasTask] at noTask
    · exact inv.null u (by simpa [ThreadPool.go, same] using noTask)
  · intro u fails
    by_cases same : u = t
    · simp [ThreadPool.go, same, safe] at fails
    · exact inv.safe u (by simpa [ThreadPool.go, same] using fails)

theorem wakeUp (inv : s.SafeInv) (moved : s.wake t = some s') : s'.SafeInv := by
  have wake := inv.wake.wake moved
  cases here : s.place t <;> simp only [ThreadPool.wake, here, reduceCtorEq] at moved
  case waitFree | waitTasks =>
    cases moved
    apply inv.go wake
    · simp [Place.NoTask]
    · simp [Place.Fails]

theorem addTask (inv : s.SafeInv) {task : PoolTask ρ δ} (moved : s.addTask t task = some s') :
    s'.SafeInv := by
  have wake := inv.wake.addTask moved
  cases here : s.place t <;> simp only [ThreadPool.addTask, here, reduceCtorEq] at moved
  case outside =>
    cases moved
    apply inv.go wake
    · simp [Place.NoTask]
    · simp [Place.Fails]

theorem step (inv : s.SafeInv) (step : Step s s') : s'.SafeInv := by
  rcases step with ⟨action, moved⟩
  cases action with
  | addTask t task => exact inv.addTask moved
  | advance t => exact inv.advance moved
  | wake t => exact inv.wakeUp moved

end SafeInv

/-- A thread that wakes up holds what it held. -/
theorem slotsView_of_wake (moved : s.wake t = some s') : s'.slotsView = s.slotsView := by
  cases here : s.place t <;> simp only [ThreadPool.wake, here, reduceCtorEq] at moved
  case waitFree | waitTasks =>
    cases moved
    exact slotsView_of_stays (by rw [here]; rfl)

/-- A thread that calls `add_task` wants a slot. -/
theorem slotsView_of_addTask {task : PoolTask ρ δ} (moved : s.addTask t task = some s') :
    s.slotsView.holding t = .nothing ∧ s'.slotsView = s.slotsView.go t (.wants task) := by
  cases here : s.place t <;> simp only [ThreadPool.addTask, here, reduceCtorEq] at moved
  case outside =>
    cases moved
    exact ⟨congrArg Place.holding here, slotsView_go⟩

/-- Before the first step nothing is held. -/
theorem holding_create (nthreads : ℕ) (t : Thread) :
    ((ThreadPool.create nthreads : ThreadPool ρ δ).place t).holding = .nothing := by
  cases t <;> simp only [ThreadPool.create]
  · rfl
  · split <;> rfl
  · rfl

/-- At first every slot is free. -/
theorem partitioned_create (nthreads : ℕ) :
    (ThreadPool.create nthreads : ThreadPool ρ δ).slotsView.Partitioned := by
  have only : ∀ slot location,
      (ThreadPool.create nthreads : ThreadPool ρ δ).slotsView.At slot location →
        location = .free ∧ slot < queueSize := by
    intro slot location isAt
    cases location with
    | free =>
        simp only [Slots.At, slotsView, ThreadPool.create, List.mem_range] at isAt
        exact ⟨rfl, isAt⟩
    | queued => cases isAt
    | held t => simp [Slots.At, slotsView, holding_create] at isAt
  refine ⟨?_, List.nodup_nil, ?_, ?_, ?_⟩
  · simp only [slotsView, ThreadPool.create]
    exact List.nodup_range
  · intro slot location location' isAt isAt'
    rw [(only _ _ isAt).1, (only _ _ isAt').1]
  · intro slot location isAt
    exact (only _ _ isAt).2
  · intro slot inRange
    refine ⟨.free, ?_⟩
    simpa only [Slots.At, slotsView, ThreadPool.create, List.mem_range] using inRange

namespace TaskInv

theorem of_safeInv (safe : s.SafeInv) (slots : s.slotsView.Inv) : s.TaskInv :=
  ⟨safe.wake, slots, safe.null, safe.safe⟩

theorem safeInv (inv : s.TaskInv) : s.SafeInv := ⟨inv.wake, inv.null, inv.safe⟩

theorem create (nthreads : ℕ) : (ThreadPool.create nthreads : ThreadPool ρ δ).TaskInv := by
  apply of_safeInv (.create nthreads)
  refine ⟨partitioned_create nthreads, ?_, ?_, ?_, rfl, ?_⟩
  · intro t
    simp [slotsView, holding_create, Slots.Carries]
  · intro t task isTask
    simp [slotsView, holding_create, Holding.task] at isTask
  · intro task mem
    cases mem
  · intro t
    simp only [slotsView, holding_create, Slots.pending]
    rfl

/-- A task without a routine is never submitted, so none is dropped. -/
theorem slots_of_advance (inv : s.TaskInv) (moved : s.advance t = some s') :
    s'.slotsView.Inv := by
  rcases inv.wake.slots_of_advance (inv.safe t) moved with same | step | ⟨slot, taken, none, -⟩
  · exact same ▸ inv.slots
  · exact inv.slots.step step
  · exact absurd none (inv.slots.routine_ne_none taken)

theorem advance (inv : s.TaskInv) (moved : s.advance t = some s') : s'.TaskInv :=
  of_safeInv (inv.safeInv.advance moved) (inv.slots_of_advance moved)

theorem wakeUp (inv : s.TaskInv) (moved : s.wake t = some s') : s'.TaskInv := by
  apply of_safeInv (inv.safeInv.wakeUp moved)
  rw [slotsView_of_wake moved]
  exact inv.slots

theorem addTask (inv : s.TaskInv) {task : PoolTask ρ δ} (runs : task.routine ≠ none)
    (moved : s.addTask t task = some s') : s'.TaskInv := by
  rcases slotsView_of_addTask moved with ⟨nothing, wants⟩
  apply of_safeInv (inv.safeInv.addTask moved)
  rw [wants]
  exact inv.slots.step (.ask t task nothing runs)

end TaskInv

/-! ## Runs -/

/-- `add_task` is called with a routine. -/
def Action.HasRoutine : Action ρ δ → Prop
  | .addTask _ task => task.routine ≠ none
  | _ => True

/-- A step of a run in which all tasks have routines. -/
def TaskStep (s s' : ThreadPool ρ δ) : Prop :=
  ∃ action : Action ρ δ, action.HasRoutine ∧ s.step action = some s'

theorem TaskInv.step (inv : s.TaskInv) (step : TaskStep s s') : s'.TaskInv := by
  rcases step with ⟨action, hasRoutine, moved⟩
  cases action with
  | addTask t task => exact inv.addTask hasRoutine moved
  | advance t => exact inv.advance moved
  | wake t => exact inv.wakeUp moved

theorem TaskInv.of_run {nthreads : ℕ}
    (run : ReflTransGen TaskStep (ThreadPool.create nthreads) s) : s.TaskInv := by
  induction run with
  | refl => exact create nthreads
  | tail _ last ih => exact ih.step last

/-- A step writes at most to the slot of its thread, and never between the queue and the call. -/
theorem tasks_of_advance (moved : s.advance t = some s') {slot : ℕ}
    (notWritten : (s.place t).holding.slot = some slot →
      (s.place t).holding = .taken slot) : s'.tasks slot = s.tasks slot := by
  cases here : s.place t <;> simp only [advance, here] at moved
  case outside | waitFree | waitTasks | exited | crashed | joining => cases moved
  case writeRoutine task newtask =>
    cases moved
    apply Function.update_of_ne
    rintro rfl
    rw [here] at notWritten
    cases notWritten rfl
  case writeData task newtask =>
    cases moved
    apply Function.update_of_ne
    rintro rfl
    rw [here] at notWritten
    cases notWritten rfl
  case initRoutine toDo =>
    cases moved
    apply Function.update_of_ne
    rintro rfl
    rw [here] at notWritten
    cases notWritten rfl
  case initData toDo =>
    cases moved
    apply Function.update_of_ne
    rintro rfl
    rw [here] at notWritten
    cases notWritten rfl
  case lockFtq | lockRelease =>
    rcases acquireFree_eq_some.mp moved with ⟨-, rfl⟩
    rfl
  case lockTq | lockTasks | lockStop =>
    rcases acquireTasks_eq_some.mp moved with ⟨-, rfl⟩
    rfl
  case popFree =>
    cases items : s.freeTasksQueue <;> simp only [items, Option.some.injEq] at moved <;>
      subst moved <;> rfl
  case popTask =>
    cases items : s.tasksQueue <;> simp only [items, Option.some.injEq] at moved <;>
      subst moved <;> rfl
  case testRoutine toDo => cases toDo <;> cases moved <;> rfl
  case signalTask | signalFree =>
    cases moved
    split <;> rfl
  case testFree | sleepFree | unlockFtq | pushTask | unlockTq | testStop | testTasks | sleepTasks |
      retestStop | unlockTasks | testToDo | callRoutine | running | pushFree | unlockRelease |
      alive | broadcastStop | unlockStop =>
    cases moved
    rfl

theorem tasks_of_step (step : Step s s') {slot : ℕ}
    (notWritten : ∀ t, (s.place t).holding.slot = some slot →
      (s.place t).holding = .taken slot) : s'.tasks slot = s.tasks slot := by
  rcases step with ⟨action, moved⟩
  cases action with
  | addTask t task =>
      simp only [ThreadPool.step, ThreadPool.addTask] at moved
      split at moved <;> cases moved
      rfl
  | advance t => exact tasks_of_advance moved (notWritten t)
  | wake t =>
      simp only [ThreadPool.step, ThreadPool.wake] at moved
      split at moved <;> cases moved <;> rfl

/-- A worker holds the slot and has not yet called its routine. -/
def Awaits (s : ThreadPool ρ δ) (slot : ℕ) : Prop :=
  ∃ t, (s.place t).holding = .taken slot

/-- Slots are never shared, and every task is executed once and in order. -/
structure ExactlyOnce (s : ThreadPool ρ δ) : Prop where
  nodupFree : s.freeTasksQueue.Nodup
  nodupTasks : s.tasksQueue.Nodup
  /-- A slot is in the free queue, in the queue of tasks or with one thread. -/
  place : ∀ slot, slot < queueSize → ∃! location, s.slotsView.At slot location
  within : ∀ slot location, s.slotsView.At slot location → slot < queueSize
  inOrder : s.taken.map (·.2) <+: s.pushed
  /-- A worker has called the routines that it has taken, but for one that it is about to call. -/
  once : ∀ t, logOf s.taken t =
    logOf s.ran t ++ Slots.pending s.tasks (s.place t).holding
  ranBefore : ∀ t toDo, s.place t = .pushFree toDo → logOf s.ran t = logOf s.taken t
  unchanged : ∀ s', Step s s' → ∀ slot, slot ∈ s.tasksQueue ∨ s.Awaits slot →
    s'.tasks slot = s.tasks slot
  safe : ∀ t, ¬(s.place t).Fails

/-- Whatever the number of threads and their order, no slot is shared, and every task that
is submitted is executed at most once, in its turn and as it was submitted. -/
theorem exactlyOnce_of_run {nthreads : ℕ}
    (run : ReflTransGen TaskStep (create nthreads) s) : s.ExactlyOnce := by
  have inv := TaskInv.of_run run
  have parts := inv.slots.parts
  refine ⟨parts.nodupFree, parts.nodupQueue, ?_, parts.within, ?_, inv.slots.once, ?_, ?_,
    inv.safe⟩
  · intro slot inRange
    rcases parts.covered slot inRange with ⟨location, isAt⟩
    exact ⟨location, isAt, fun location' isAt' => parts.unique slot location' location isAt' isAt⟩
  · have fifo : s.pushed = s.taken.map (·.2) ++ s.tasksQueue.map s.tasks := inv.slots.fifo
    rw [fifo]
    exact List.prefix_append _ _
  · intro t toDo here
    have used : s.slotsView.holding t = .used toDo := congrArg Place.holding here
    exact (inv.slots.noTask (by simp [used, Slots.pending])).symm
  · intro s' step slot place
    apply tasks_of_step step
    intro t held
    rcases place with isQueued | ⟨u, taken⟩
    · exact absurd isQueued (parts.notMem_queue held)
    · have held' : (s.slotsView.holding u).slot = some slot := by
        simp [slotsView, taken, Holding.slot]
      rw [parts.thread_eq held held']
      exact taken

/-- Worker 0 executes the task that submitter 0 submits, and gives its slot back. -/
def serving : List (Action Unit Unit) :=
  submitting ++ List.replicate 14 (.advance (.worker 0))

theorem exec_serving (rest : List ℕ) : ∃ s,
    ({ create 1 with freeTasksQueue := 0 :: rest } : ThreadPool Unit Unit).exec serving =
      some s ∧ s.place (.worker 0) = .signalFree ∧ s.freeTasksQueue = rest ++ [0] ∧
        s.pushed = [{ routine := some (), data := none }] ∧
          s.ran = [(.worker 0, { routine := some (), data := none })] :=
  ⟨_, rfl, rfl, rfl, rfl, rfl⟩

/-- The slot of the task comes back behind the other ones. -/
theorem exactlyOnce_serving : ∃ s : ThreadPool Unit Unit, s.place (.worker 0) = .signalFree ∧
    s.freeTasksQueue = (List.range 9999).map Nat.succ ++ [0] ∧
      s.pushed = [{ routine := some (), data := none }] ∧
        s.ran = [(.worker 0, { routine := some (), data := none })] ∧ s.ExactlyOnce := by
  rcases exec_serving ((List.range 9999).map Nat.succ) with ⟨s, run, signals, free, pushed, ran⟩
  rw [← create_front] at run
  have hasRoutine : ∀ action ∈ serving, action.HasRoutine := by
    simp [serving, submitting, Action.HasRoutine]
  exact ⟨s, signals, free, pushed, ran, exactlyOnce_of_run
    (run_of_exec _ _ (fun action isIn _ _ moved => ⟨action, hasRoutine action isIn, moved⟩) run)⟩

end ThreadPool

end ChaosCache
