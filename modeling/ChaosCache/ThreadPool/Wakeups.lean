import ChaosCache.Library.BlockingQueue
import ChaosCache.ThreadPool

/-!
# No wake-up is lost

Each of the two queues of the pool, with its mutex and its condition variable, is a blocking
queue: every step of a thread is one step of it or leaves it alone. `free_tasks_queue` is
never closed. `tasks_queue` is closed by `stop_flag`, and flushed by the broadcast of the
destructor.
-/

namespace ChaosCache

open BlockingQueue Relation

variable {ρ δ : Type}

namespace Place

/-- Where a thread is with respect to `free_tasks_queue`. -/
def freePhase : Place ρ δ → Phase
  | testFree _ => .inside
  | sleepFree _ => .dozing
  | waitFree _ => .waiting
  | popFree _ => .ready
  | unlockFtq _ _ => .inside
  | pushFree _ => .inside
  | signalFree => .signalling
  | unlockRelease => .inside
  | _ => .outside

/-- Where a thread is with respect to `tasks_queue`. -/
def tasksPhase : Place ρ δ → Phase
  | pushTask _ _ => .inside
  | signalTask => .signalling
  | unlockTq => .inside
  | testTasks => .inside
  | sleepTasks => .dozing
  | waitTasks => .waiting
  | retestStop => .passed
  | popTask => .ready
  | unlockTasks _ => .inside
  | broadcastStop => .inside
  | unlockStop => .inside
  | _ => .outside

/-- The destructor has set `stop_flag`. -/
def Stops : Place ρ δ → Prop
  | lockStop => True
  | broadcastStop => True
  | unlockStop => True
  | joining => True
  | _ => False

/-- The destructor is about to broadcast. -/
def broadcasts : Place ρ δ → Bool
  | broadcastStop => true
  | _ => false

/-- The destructor has broadcast. -/
def Flushed : Place ρ δ → Prop
  | unlockStop => True
  | joining => True
  | _ => False

end Place

namespace ThreadPool

variable {s s' : ThreadPool ρ δ} {t : Thread} {place : Place ρ δ}

def freeView (s : ThreadPool ρ δ) : Monitor Thread ℕ where
  items := s.freeTasksQueue
  owner := s.freeTasksMutex
  phase u := (s.place u).freePhase
  closed := false
  flushed := false

def tasksView (s : ThreadPool ρ δ) (flushed : Bool) : Monitor Thread ℕ where
  items := s.tasksQueue
  owner := s.mutex
  phase u := (s.place u).tasksPhase
  closed := s.stopFlag
  flushed := flushed

/-! ## One step of a thread -/

theorem acquireFree_eq_some :
    s.acquireFree t place = some s' ↔
      s.freeTasksMutex = none ∧ s' = { s.go t place with freeTasksMutex := some t } := by
  unfold acquireFree
  split <;> simp_all [eq_comm]

theorem acquireTasks_eq_some :
    s.acquireTasks t place = some s' ↔
      s.mutex = none ∧ s' = { s.go t place with mutex := some t } := by
  unfold acquireTasks
  split <;> simp_all [eq_comm]

@[simp]
theorem freeView_go :
    (s.go t place).freeView = s.freeView.go t place.freePhase := by
  simp only [freeView, go, Monitor.go, Monitor.mk.injEq, true_and, and_true]
  exact Function.comp_update Place.freePhase s.place t place

@[simp]
theorem tasksView_go {flushed : Bool} :
    (s.go t place).tasksView flushed = (s.tasksView flushed).go t place.tasksPhase := by
  simp only [tasksView, go, Monitor.go, Monitor.mk.injEq, true_and, and_true]
  exact Function.comp_update Place.tasksPhase s.place t place

theorem freeView_of_stays (same : (s.place t).freePhase = place.freePhase) :
    (s.go t place).freeView = s.freeView := by
  rw [freeView_go, ← same]
  simp [Monitor.go, freeView]

theorem tasksView_of_stays {flushed : Bool} (same : (s.place t).tasksPhase = place.tasksPhase) :
    (s.go t place).tasksView flushed = s.tasksView flushed := by
  rw [tasksView_go, ← same]
  simp [Monitor.go, tasksView]

@[simp]
theorem freeView_broadcastTasks : s.broadcastTasks.freeView = s.freeView := by
  simp only [freeView, broadcastTasks, Monitor.mk.injEq, true_and, and_true]
  funext u
  cases s.place u <;> rfl

@[simp]
theorem tasksView_broadcastFree {flushed : Bool} :
    s.broadcastFree.tasksView flushed = s.tasksView flushed := by
  simp only [tasksView, broadcastFree, Monitor.mk.injEq, true_and, and_true]
  funext u
  cases s.place u <;> rfl

theorem freeView_broadcastFree :
    s.broadcastFree.freeView = { s.freeView with phase := s.freeView.notified } := by
  simp only [freeView, broadcastFree, Monitor.mk.injEq, true_and, and_true]
  funext u
  simp only [Monitor.notified]
  cases s.place u <;> rfl

theorem tasksView_broadcastTasks {flushed : Bool} :
    s.broadcastTasks.tasksView flushed =
      { s.tasksView flushed with phase := (s.tasksView flushed).notified } := by
  simp only [tasksView, broadcastTasks, Monitor.mk.injEq, true_and, and_true]
  funext u
  simp only [Monitor.notified]
  cases s.place u <;> rfl

/-- A step that moves a thread within one phase leaves the queue alone. -/
theorem freeInv_of_stays (inv : s.freeView.Inv)
    (same : (s.place t).freePhase = place.freePhase) : (s.go t place).freeView.Inv := by
  rwa [freeView_of_stays same]

theorem tasksInv_of_stays {flushed : Bool} (inv : (s.tasksView flushed).Inv)
    (same : (s.place t).tasksPhase = place.tasksPhase) :
    ((s.go t place).tasksView flushed).Inv := by
  rwa [tasksView_of_stays same]

theorem freeInv_of_advance (inv : s.freeView.Inv) (moved : s.advance t = some s') :
    s'.freeView.Inv := by
  cases here : s.place t <;> simp only [advance, here] at moved
  case outside | waitFree | waitTasks | exited | crashed | joining => cases moved
  case lockFtq task =>
    rcases acquireFree_eq_some.mp moved with ⟨free, rfl⟩
    change Monitor.Inv { (s.go t _).freeView with owner := some t }
    rw [freeView_go]
    exact inv.step (.enter t free (congrArg Place.freePhase here))
  case testFree task =>
    cases moved
    rw [freeView_go]
    split
    case isTrue empty =>
      exact inv.step (.doze t (congrArg Place.freePhase here) (List.isEmpty_iff.mp empty) rfl)
    case isFalse found =>
      exact inv.step
        (.find t (congrArg Place.freePhase here) (by simpa [freeView] using found))
  case sleepFree task =>
    cases moved
    change Monitor.Inv { (s.go t _).freeView with owner := none }
    rw [freeView_go]
    exact inv.step (.wait t (congrArg Place.freePhase here))
  case popFree task =>
    have ready : s.freeView.phase t = .ready := congrArg Place.freePhase here
    cases items : s.freeTasksQueue with
    | nil => exact absurd items (inv.items_ne_nil ready)
    | cons newtask rest =>
        simp only [items, Option.some.injEq] at moved
        subst moved
        change Monitor.Inv { (s.go t _).freeView with items := rest }
        rw [freeView_go]
        exact inv.step (.pop t newtask rest ready items)
  case unlockFtq task newtask =>
    cases moved
    change Monitor.Inv { (s.go t _).freeView with owner := none }
    rw [freeView_go]
    exact inv.step (.leave t (congrArg Place.freePhase here))
  case lockRelease toDo =>
    rcases acquireFree_eq_some.mp moved with ⟨free, rfl⟩
    change Monitor.Inv { (s.go t _).freeView with owner := some t }
    rw [freeView_go]
    exact inv.step (.enter t free (congrArg Place.freePhase here))
  case pushFree toDo =>
    cases moved
    change Monitor.Inv { (s.go t _).freeView with items := s.freeTasksQueue ++ [toDo] }
    rw [freeView_go]
    exact inv.step (.push t toDo (congrArg Place.freePhase here))
  case signalFree =>
    cases moved
    have signalling : s.freeView.phase t = .signalling := congrArg Place.freePhase here
    rw [freeView_go]
    split
    case isTrue single =>
      rw [freeView_broadcastFree]
      exact inv.step (.broadcast t signalling single)
    case isFalse several => exact inv.step (.keepQuiet t signalling several)
  case unlockRelease =>
    cases moved
    change Monitor.Inv { (s.go t _).freeView with owner := none }
    rw [freeView_go]
    exact inv.step (.leave t (congrArg Place.freePhase here))
  case lockTq | lockTasks | lockStop =>
    rcases acquireTasks_eq_some.mp moved with ⟨-, rfl⟩
    exact freeInv_of_stays inv (by rw [here]; rfl)
  case signalTask =>
    cases moved
    split
    · rw [freeView_go, freeView_broadcastTasks, ← freeView_go]
      exact freeInv_of_stays inv (by rw [here]; rfl)
    · exact freeInv_of_stays inv (by rw [here]; rfl)
  case broadcastStop =>
    cases moved
    rw [freeView_go, freeView_broadcastTasks, ← freeView_go]
    exact freeInv_of_stays inv (by rw [here]; rfl)
  case popTask =>
    cases items : s.tasksQueue <;> simp only [items, Option.some.injEq] at moved <;> subst moved
    · exact freeInv_of_stays inv (by rw [here]; rfl)
    · exact freeInv_of_stays inv (by rw [here]; rfl)
  case testStop | testTasks | retestStop | testToDo =>
    cases moved
    apply freeInv_of_stays inv
    rw [here]
    split <;> rfl
  case testRoutine toDo =>
    cases toDo with
    | none =>
        cases moved
        exact freeInv_of_stays inv (by rw [here]; rfl)
    | some toDo =>
        cases moved
        apply freeInv_of_stays inv
        rw [here]
        split <;> rfl
  case writeRoutine | writeData | pushTask | unlockTq | sleepTasks | unlockTasks | callRoutine |
      running | initRoutine | initData | alive | unlockStop =>
    cases moved
    exact freeInv_of_stays inv (by rw [here]; rfl)

/-- The same for `tasks_queue`. Whoever broadcasts in the destructor has set `stop_flag`. -/
theorem tasksInv_of_advance {flushed : Bool} (inv : (s.tasksView flushed).Inv)
    (stops : (s.place t).Stops → s.stopFlag = true) (moved : s.advance t = some s') :
    (s'.tasksView ((s.place t).broadcasts || flushed)).Inv := by
  cases here : s.place t <;> simp only [advance, here] at moved
  case outside | waitFree | waitTasks | exited | crashed | joining => cases moved
  case lockTq task newtask =>
    rcases acquireTasks_eq_some.mp moved with ⟨free, rfl⟩
    change Monitor.Inv { (s.go t _).tasksView flushed with owner := some t }
    rw [tasksView_go]
    exact inv.step (.enter t free (congrArg Place.tasksPhase here))
  case pushTask task newtask =>
    cases moved
    change Monitor.Inv { (s.go t _).tasksView flushed with items := s.tasksQueue ++ [newtask] }
    rw [tasksView_go]
    exact inv.step (.push t newtask (congrArg Place.tasksPhase here))
  case signalTask =>
    cases moved
    have signalling : (s.tasksView flushed).phase t = .signalling :=
      congrArg Place.tasksPhase here
    change Monitor.Inv ((ThreadPool.go _ t _).tasksView flushed)
    rw [tasksView_go]
    split
    case isTrue single =>
      rw [tasksView_broadcastTasks]
      exact inv.step (.broadcast t signalling single)
    case isFalse several => exact inv.step (.keepQuiet t signalling several)
  case unlockTq =>
    cases moved
    change Monitor.Inv { (s.go t _).tasksView flushed with owner := none }
    rw [tasksView_go]
    exact inv.step (.leave t (congrArg Place.tasksPhase here))
  case lockTasks =>
    rcases acquireTasks_eq_some.mp moved with ⟨free, rfl⟩
    change Monitor.Inv { (s.go t _).tasksView flushed with owner := some t }
    rw [tasksView_go]
    exact inv.step (.enter t free (congrArg Place.tasksPhase here))
  case testTasks =>
    cases moved
    have inside : (s.tasksView flushed).phase t = .inside := congrArg Place.tasksPhase here
    change Monitor.Inv ((s.go t _).tasksView flushed)
    rw [tasksView_go]
    split
    case isTrue none =>
      simp only [Bool.and_eq_true, List.isEmpty_iff, Bool.not_eq_true'] at none
      exact inv.step (.doze t inside none.1 none.2)
    case isFalse goesOn =>
      refine inv.step (.pass t inside ?_)
      by_cases found : s.tasksQueue = []
      · right
        simpa [tasksView, found] using goesOn
      · exact Or.inl found
  case sleepTasks =>
    cases moved
    change Monitor.Inv { (s.go t _).tasksView flushed with owner := none }
    rw [tasksView_go]
    exact inv.step (.wait t (congrArg Place.tasksPhase here))
  case retestStop =>
    cases moved
    have passed : (s.tasksView flushed).phase t = .passed := congrArg Place.tasksPhase here
    change Monitor.Inv ((s.go t _).tasksView flushed)
    rw [tasksView_go]
    split
    case isTrue stop =>
      exact inv.step (.abandon t passed)
    case isFalse isOpen =>
      exact inv.step (.confirm t passed (by simpa [tasksView] using isOpen))
  case popTask =>
    have ready : (s.tasksView flushed).phase t = .ready := congrArg Place.tasksPhase here
    cases items : s.tasksQueue with
    | nil => exact absurd items (inv.items_ne_nil ready)
    | cons newtask rest =>
        simp only [items, Option.some.injEq] at moved
        subst moved
        change Monitor.Inv { (s.go t _).tasksView flushed with items := rest }
        rw [tasksView_go]
        exact inv.step (.pop t newtask rest ready items)
  case unlockTasks newtask =>
    cases moved
    change Monitor.Inv { (s.go t _).tasksView flushed with owner := none }
    rw [tasksView_go]
    exact inv.step (.leave t (congrArg Place.tasksPhase here))
  case alive =>
    cases moved
    change Monitor.Inv { (s.go t _).tasksView flushed with closed := true }
    rw [tasksView_of_stays (by rw [here]; rfl)]
    exact inv.step .close
  case lockStop =>
    rcases acquireTasks_eq_some.mp moved with ⟨free, rfl⟩
    change Monitor.Inv { (s.go t _).tasksView flushed with owner := some t }
    rw [tasksView_go]
    exact inv.step (.enter t free (congrArg Place.tasksPhase here))
  case broadcastStop =>
    cases moved
    have inside : (s.tasksView flushed).phase t = .inside := congrArg Place.tasksPhase here
    have isClosed : s.stopFlag = true := stops (by rw [here]; trivial)
    change Monitor.Inv ((s.broadcastTasks.go t _).tasksView true)
    rw [tasksView_go, tasksView_broadcastTasks]
    have awake : (s.tasksView flushed).notified t = .inside := by
      simp [Monitor.notified, inside]
    have stays := inv.step (.flush t inside isClosed)
    rw [← Function.update_eq_self t (s.tasksView flushed).notified, awake] at stays
    exact stays
  case unlockStop =>
    cases moved
    change Monitor.Inv { (s.go t _).tasksView flushed with owner := none }
    rw [tasksView_go]
    exact inv.step (.leave t (congrArg Place.tasksPhase here))
  case lockFtq | lockRelease =>
    rcases acquireFree_eq_some.mp moved with ⟨-, rfl⟩
    exact tasksInv_of_stays inv (by rw [here]; rfl)
  case popFree =>
    cases items : s.freeTasksQueue <;> simp only [items, Option.some.injEq] at moved <;>
      subst moved
    · exact tasksInv_of_stays inv (by rw [here]; rfl)
    · exact tasksInv_of_stays inv (by rw [here]; rfl)
  case signalFree =>
    cases moved
    change Monitor.Inv ((ThreadPool.go _ t _).tasksView flushed)
    split
    · rw [tasksView_go, tasksView_broadcastFree, ← tasksView_go]
      exact tasksInv_of_stays inv (by rw [here]; rfl)
    · exact tasksInv_of_stays inv (by rw [here]; rfl)
  case testFree | testStop | testToDo =>
    cases moved
    apply tasksInv_of_stays inv
    rw [here]
    split <;> rfl
  case testRoutine toDo =>
    cases toDo with
    | none =>
        cases moved
        exact tasksInv_of_stays inv (by rw [here]; rfl)
    | some toDo =>
        cases moved
        apply tasksInv_of_stays inv
        rw [here]
        split <;> rfl
  case sleepFree | unlockFtq | writeRoutine | writeData | callRoutine | running | initRoutine |
      initData | pushFree | unlockRelease =>
    cases moved
    exact tasksInv_of_stays inv (by rw [here]; rfl)

/-! ## Every step -/

/-- A place at which the destructor has set `stop_flag` is entered with the flag set. -/
theorem stops_of_advance (stops : (s.place t).Stops → s.stopFlag = true)
    (moved : s.advance t = some s') :
    (s.stopFlag = true → s'.stopFlag = true) ∧ ((s'.place t).Stops → s'.stopFlag = true) ∧
      ((s'.place t).Flushed → (s.place t).Flushed ∨ (s.place t).broadcasts = true) := by
  cases here : s.place t <;> simp only [advance, here] at moved
  case outside | waitFree | waitTasks | exited | crashed | joining => cases moved
  case lockFtq | lockRelease =>
    rcases acquireFree_eq_some.mp moved with ⟨-, rfl⟩
    simp [go, Place.Stops, Place.Flushed]
  case lockTq | lockTasks =>
    rcases acquireTasks_eq_some.mp moved with ⟨-, rfl⟩
    simp [go, Place.Stops, Place.Flushed]
  case lockStop =>
    rcases acquireTasks_eq_some.mp moved with ⟨-, rfl⟩
    have isStopped := stops (by rw [here]; trivial)
    simp [go, Place.Flushed, isStopped]
  case alive =>
    cases moved
    simp [go, Place.Flushed]
  case broadcastStop | unlockStop =>
    cases moved
    have isStopped := stops (by rw [here]; trivial)
    simp [go, broadcastTasks, Place.broadcasts, Place.Flushed, isStopped]
  case popFree =>
    cases items : s.freeTasksQueue <;> simp only [items, Option.some.injEq] at moved <;>
      subst moved <;> simp [go, Place.Stops, Place.Flushed]
  case popTask =>
    cases items : s.tasksQueue <;> simp only [items, Option.some.injEq] at moved <;>
      subst moved <;> simp [go, Place.Stops, Place.Flushed]
  case testRoutine toDo =>
    cases toDo <;> cases moved <;> simp only [go, Function.update_self]
    · simp [Place.Stops, Place.Flushed]
    · split <;> simp [Place.Stops, Place.Flushed]
  case testFree | testStop | testTasks | retestStop | testToDo =>
    cases moved
    simp only [go, Function.update_self]
    split <;> simp [Place.Stops, Place.Flushed]
  case signalTask | signalFree =>
    cases moved
    split <;> simp [go, broadcastTasks, broadcastFree, Place.Stops, Place.Flushed]
  case sleepFree | unlockFtq | writeRoutine | writeData | pushTask | unlockTq | sleepTasks |
      unlockTasks | callRoutine | running | initRoutine | initData | pushFree | unlockRelease =>
    cases moved
    simp [go, Place.Stops, Place.Flushed]

theorem place_of_advance (moved : s.advance t = some s') {u : Thread} (other : u ≠ t) :
    s'.place u = s.place u ∨ (∃ task, s.place u = .waitFree task ∧ s'.place u = .lockFtq task) ∨
      s.place u = .waitTasks ∧ s'.place u = .lockTasks := by
  have free : s.broadcastFree.place u = s.place u ∨
      ∃ task, s.place u = .waitFree task ∧ s.broadcastFree.place u = .lockFtq task := by
    simp only [broadcastFree]
    cases s.place u <;> simp
  have tasks : s.broadcastTasks.place u = s.place u ∨
      s.place u = .waitTasks ∧ s.broadcastTasks.place u = .lockTasks := by
    simp only [broadcastTasks]
    cases s.place u <;> simp
  cases here : s.place t <;> simp only [advance, here] at moved
  case outside | waitFree | waitTasks | exited | crashed | joining => cases moved
  case lockFtq | lockRelease =>
    rcases acquireFree_eq_some.mp moved with ⟨-, rfl⟩
    simp [go, other]
  case lockTq | lockTasks | lockStop =>
    rcases acquireTasks_eq_some.mp moved with ⟨-, rfl⟩
    simp [go, other]
  case popFree =>
    cases items : s.freeTasksQueue <;> simp only [items, Option.some.injEq] at moved <;>
      subst moved <;> simp [go, other]
  case popTask =>
    cases items : s.tasksQueue <;> simp only [items, Option.some.injEq] at moved <;>
      subst moved <;> simp [go, other]
  case testRoutine toDo =>
    cases toDo <;> cases moved <;> simp [go, other]
  case signalTask | broadcastStop =>
    cases moved
    simp only [go, Function.update_of_ne other]
    first
      | exact tasks.imp id Or.inr
      | split
        · exact tasks.imp id Or.inr
        · exact Or.inl rfl
  case signalFree =>
    cases moved
    simp only [go, Function.update_of_ne other]
    split
    · exact free.imp id Or.inl
    · exact Or.inl rfl
  case testFree | sleepFree | unlockFtq | writeRoutine | writeData | pushTask | unlockTq |
      testStop | testTasks | sleepTasks | retestStop | unlockTasks | testToDo | callRoutine |
      running | initRoutine | initData | pushFree | unlockRelease | alive | unlockStop =>
    cases moved
    simp [go, other]

/-- The two queues are blocking queues, and the destructor stands behind its store. -/
structure WakeInv (s : ThreadPool ρ δ) : Prop where
  free : s.freeView.Inv
  stops : ∀ t, (s.place t).Stops → s.stopFlag = true
  tasks : ∃ flushed, (∀ t, (s.place t).Flushed → flushed = true) ∧ (s.tasksView flushed).Inv

namespace WakeInv

theorem create (nthreads : ℕ) : (ThreadPool.create nthreads : ThreadPool ρ δ).WakeInv where
  free := by
    apply Monitor.Inv.init
    intro t
    cases t <;> simp only [ThreadPool.create]
    · rfl
    · split <;> rfl
    · rfl
  stops t := by
    cases t <;> simp only [ThreadPool.create]
    · simp [Place.Stops]
    · split <;> simp [Place.Stops]
    · simp [Place.Stops]
  tasks := by
    refine ⟨false, ?_, Monitor.Inv.init ?_⟩
    · intro t
      cases t <;> simp only [ThreadPool.create]
      · simp [Place.Flushed]
      · split <;> simp [Place.Flushed]
      · simp [Place.Flushed]
    · intro t
      cases t <;> simp only [ThreadPool.create]
      · rfl
      · split <;> rfl
      · rfl

theorem advance (inv : s.WakeInv) (moved : s.advance t = some s') : s'.WakeInv := by
  have flag := stops_of_advance (inv.stops t) moved
  rcases inv.tasks with ⟨flushed, behind, tasks⟩
  refine ⟨freeInv_of_advance inv.free moved, ?_, _,
    ?_, tasksInv_of_advance tasks (inv.stops t) moved⟩
  · intro u stops
    by_cases same : u = t
    · subst same
      exact flag.2.1 stops
    · apply flag.1
      apply inv.stops u
      rcases place_of_advance moved same with stays | ⟨task, -, woken⟩ | ⟨-, woken⟩
      · rwa [← stays]
      · rw [woken] at stops
        exact stops.elim
      · rw [woken] at stops
        exact stops.elim
  · intro u isFlushed
    rw [Bool.or_eq_true]
    by_cases same : u = t
    · subst same
      exact (flag.2.2 isFlushed).symm.imp id (behind u)
    · right
      apply behind u
      rcases place_of_advance moved same with stays | ⟨task, -, woken⟩ | ⟨-, woken⟩
      · rwa [← stays]
      · rw [woken] at isFlushed
        exact isFlushed.elim
      · rw [woken] at isFlushed
        exact isFlushed.elim

theorem go (inv : s.WakeInv)
    (free : (s.go t place).freeView.Inv)
    (tasks : ∀ flushed, (s.tasksView flushed).Inv → ((s.go t place).tasksView flushed).Inv)
    (noStop : ¬place.Stops) (noFlush : ¬place.Flushed) : (s.go t place).WakeInv := by
  rcases inv.tasks with ⟨flushed, behind, view⟩
  refine ⟨free, ?_, flushed, ?_, tasks flushed view⟩
  · intro u stops
    by_cases same : u = t
    · simp [ThreadPool.go, same, noStop] at stops
    · exact inv.stops u (by simpa [ThreadPool.go, same] using stops)
  · intro u isFlushed
    by_cases same : u = t
    · simp [ThreadPool.go, same, noFlush] at isFlushed
    · exact behind u (by simpa [ThreadPool.go, same] using isFlushed)

theorem wake (inv : s.WakeInv) (moved : s.wake t = some s') : s'.WakeInv := by
  cases here : s.place t <;> simp only [ThreadPool.wake, here, reduceCtorEq] at moved
  case waitFree task =>
    cases moved
    apply inv.go
    · rw [freeView_go]
      exact inv.free.step (.wake t (congrArg Place.freePhase here))
    · intro flushed view
      exact tasksInv_of_stays view (by rw [here]; rfl)
    · simp [Place.Stops]
    · simp [Place.Flushed]
  case waitTasks =>
    cases moved
    apply inv.go
    · exact freeInv_of_stays inv.free (by rw [here]; rfl)
    · intro flushed view
      rw [tasksView_go]
      exact view.step (.wake t (congrArg Place.tasksPhase here))
    · simp [Place.Stops]
    · simp [Place.Flushed]

theorem addTask (inv : s.WakeInv) {task : PoolTask ρ δ} (moved : s.addTask t task = some s') :
    s'.WakeInv := by
  cases here : s.place t <;> simp only [ThreadPool.addTask, here, reduceCtorEq] at moved
  case outside =>
    cases moved
    apply inv.go
    · exact freeInv_of_stays inv.free (by rw [here]; rfl)
    · intro flushed view
      exact tasksInv_of_stays view (by rw [here]; rfl)
    · simp [Place.Stops]
    · simp [Place.Flushed]

theorem step (inv : s.WakeInv) (step : Step s s') : s'.WakeInv := by
  rcases step with ⟨action, moved⟩
  cases action with
  | addTask t task => exact inv.addTask moved
  | advance t => exact inv.advance moved
  | wake t => exact inv.wake moved

theorem of_run {nthreads : ℕ} (run : ReflTransGen Step (ThreadPool.create nthreads) s) :
    s.WakeInv := by
  induction run with
  | refl => exact create nthreads
  | tail _ last ih => exact ih.step last

end WakeInv

/-- Nobody sleeps on while there is something to wake up for. -/
structure NoLostWakeups (s : ThreadPool ρ δ) : Prop where
  workers : s.mutex = none → s.tasksQueue ≠ [] → ∀ u, s.place u ≠ .waitTasks
  submitters : s.freeTasksMutex = none → s.freeTasksQueue ≠ [] →
    ∀ u task, s.place u ≠ .waitFree task
  stopped : ∀ t, (s.place t).Flushed → ∀ u, s.place u ≠ .waitTasks

/-- No run loses a wake-up, whatever the number of threads and their order. -/
theorem noLostWakeups_of_run {nthreads : ℕ}
    (run : ReflTransGen Step (ThreadPool.create nthreads) s) : s.NoLostWakeups := by
  have inv := WakeInv.of_run run
  rcases inv.tasks with ⟨flushed, behind, tasks⟩
  constructor
  · intro free some u waits
    exact tasks.nobodyWaits_of_free free some u (congrArg Place.tasksPhase waits)
  · intro free some u task waits
    exact inv.free.nobodyWaits_of_free free some u (congrArg Place.freePhase waits)
  · intro t isFlushed u waits
    exact (tasks.flushed (behind t isFlushed)).2 u (congrArg Place.tasksPhase waits)

/-- Worker 0 goes to sleep. -/
def waiting : List (Action Unit Unit) := List.replicate 4 (.advance (.worker 0))

/-- Submitter 0 calls `add_task`, which pushes the task and broadcasts. -/
def submitting : List (Action Unit Unit) :=
  .addTask (.submitter 0) { routine := some (), data := none } ::
    List.replicate 10 (.advance (.submitter 0))

theorem exec_submitting (rest : List ℕ) : ∃ s s',
    ({ create 1 with freeTasksQueue := 0 :: rest } : ThreadPool Unit Unit).exec waiting = some s ∧
      s.place (.worker 0) = .waitTasks ∧ s.exec submitting = some s' ∧
        s'.place (.worker 0) = .lockTasks ∧ s'.mutex = none ∧ s'.tasksQueue = [0] :=
  ⟨_, _, rfl, rfl, rfl, rfl, rfl, rfl⟩

/-- The worker that has gone to sleep is woken up for the task. -/
theorem noLostWakeups_submitting : ∃ s s' : ThreadPool Unit Unit,
    s.place (.worker 0) = .waitTasks ∧ s.NoLostWakeups ∧ s.exec submitting = some s' ∧
      s'.place (.worker 0) = .lockTasks ∧ s'.mutex = none ∧ s'.tasksQueue = [0] ∧
        s'.NoLostWakeups := by
  rcases exec_submitting ((List.range 9999).map Nat.succ) with ⟨s, s', sleeps, facts⟩
  rw [← create_front] at sleeps
  have isStep (action : Action Unit Unit) (s s' : ThreadPool Unit Unit)
      (moved : s.step action = some s') : Step s s' := ⟨action, moved⟩
  have before := run_of_exec _ _ (fun action _ => isStep action) sleeps
  rcases facts with ⟨waits, submits, woken, unlocked, queued⟩
  have after := before.trans (run_of_exec _ _ (fun action _ => isStep action) submits)
  exact ⟨s, s', waits, noLostWakeups_of_run before, submits, woken, unlocked, queued,
    noLostWakeups_of_run after⟩

end ThreadPool

end ChaosCache
