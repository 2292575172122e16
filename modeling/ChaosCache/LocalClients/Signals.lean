import ChaosCache.LocalClients
import ChaosCache.ThreadPool.Tasks

/-!
# Signals between a worker and its client

A client waits for a signal that is still to come as long as no worker signals it between its
`add_task` and its wait. Nothing in the code prevents that.
-/

namespace ChaosCache

open Relation

/-! ## What a step of the pool does to the tasks -/

namespace ThreadPool

variable {ρ δ : Type} {p p' : ThreadPool ρ δ} {t : Thread}

structure Moves (p p' : ThreadPool ρ δ) (t : Thread) : Prop where
  holding : ∀ u, u ≠ t → (p'.place u).holding = (p.place u).holding
  running : ∀ u, u ≠ t → ∀ slot, p'.place u = .running slot ↔ p.place u = .running slot
  task : ∀ task, (p'.place t).holding.task = some task → (p.place t).holding.task = some task
  pushed : ∀ task ∈ p.pushed, task ∈ p'.pushed
  new : ∀ task ∈ p'.pushed, task ∈ p.pushed ∨ (p.place t).holding.task = some task
  given : ∀ task, (p.place t).holding.task = some task → (p'.place t).holding.task = none →
    task ∈ p'.pushed
  ran : (p'.ran = p.ran ∧ ∀ slot, p'.place t ≠ .running slot) ∨
    ∃ slot, p.place t = .callRoutine slot ∧ p'.place t = .running slot ∧
      p'.ran = p.ran ++ [(t, p.tasks slot)] ∧ p'.tasks = p.tasks

theorem Moves.of_quiet
    (others : ∀ u, u ≠ t → p'.place u = p.place u ∨
      (∃ task, p.place u = .waitFree task ∧ p'.place u = .lockFtq task) ∨
        p.place u = .waitTasks ∧ p'.place u = .lockTasks)
    (task : (p'.place t).holding.task = (p.place t).holding.task)
    (pushed : p'.pushed = p.pushed) (ran : p'.ran = p.ran)
    (notRunning : ∀ slot, p'.place t ≠ .running slot) : Moves p p' t := by
  refine ⟨?_, ?_, ?_, ?_, ?_, ?_, Or.inl ⟨ran, notRunning⟩⟩
  · intro u other
    rcases others u other with stays | ⟨task, waits, woken⟩ | ⟨waits, woken⟩
    · rw [stays]
    · rw [waits, woken]
      rfl
    · rw [waits, woken]
      rfl
  · intro u other slot
    rcases others u other with stays | ⟨task, waits, woken⟩ | ⟨waits, woken⟩
    · rw [stays]
    · simp [waits, woken]
    · simp [waits, woken]
  · intro task' isTask
    rwa [← task]
  · intro task' mem
    rwa [pushed]
  · intro task' mem
    rw [pushed] at mem
    exact Or.inl mem
  · intro task' isTask none
    rw [task, isTask] at none
    cases none

theorem moves_of_advance (inv : p.TaskInv) (moved : p.advance t = some p') : Moves p p' t := by
  have others : ∀ u, u ≠ t → p'.place u = p.place u ∨
      (∃ task, p.place u = .waitFree task ∧ p'.place u = .lockFtq task) ∨
        p.place u = .waitTasks ∧ p'.place u = .lockTasks :=
    fun u other => place_of_advance moved other
  cases here : p.place t <;> simp only [advance, here] at moved
  case outside | waitFree | waitTasks | exited | crashed | joining => cases moved
  case pushTask task newtask =>
    cases moved
    constructor
    · intro u other
      simp [go, other]
    · intro u other slot
      simp [go, other]
    · simp [go, Place.holding, Holding.task]
    · intro task' mem
      exact List.mem_append_left _ mem
    · intro task' mem
      rw [here]
      rcases List.mem_append.mp mem with old | new
      · exact Or.inl old
      · right
        rw [List.mem_singleton.mp new]
        rfl
    · intro task' isTask _
      rw [here] at isTask
      cases isTask
      exact List.mem_append_right _ (List.mem_singleton.mpr rfl)
    · left
      simp [go]
  case callRoutine toDo =>
    cases moved
    constructor
    · intro u other
      simp [go, other]
    · intro u other slot
      simp [go, other]
    · simp [go, Place.holding, Holding.task]
    · exact fun _ mem => mem
    · exact fun _ mem => Or.inl mem
    · intro task' isTask
      rw [here] at isTask
      cases isTask
    · right
      exact ⟨toDo, here, by simp [go], rfl, rfl⟩
  case lockFtq | lockRelease =>
    rcases acquireFree_eq_some.mp moved with ⟨-, rfl⟩
    exact .of_quiet others (by simp [go, here, Place.holding, Holding.task]) rfl rfl (by simp [go])
  case lockTq | lockTasks | lockStop =>
    rcases acquireTasks_eq_some.mp moved with ⟨-, rfl⟩
    exact .of_quiet others (by simp [go, here, Place.holding, Holding.task]) rfl rfl (by simp [go])
  case popFree task =>
    cases items : p.freeTasksQueue with
    | nil => exact absurd items (inv.wake.freeTasksQueue_ne_nil here)
    | cons newtask rest =>
        simp only [items, Option.some.injEq] at moved
        subst moved
        exact .of_quiet others (by simp [go, here, Place.holding, Holding.task]) rfl rfl
          (by simp [go])
  case popTask =>
    cases items : p.tasksQueue <;> simp only [items, Option.some.injEq] at moved <;> subst moved
    · exact .of_quiet others (by simp [go, here, Place.holding, Holding.task]) rfl rfl
        (by simp [go])
    · exact .of_quiet others (by simp [go, here, Place.holding, Holding.task]) rfl rfl
        (by simp [go])
  case testFree | testStop | testTasks | retestStop =>
    cases moved
    apply Moves.of_quiet others _ rfl rfl
    · simp only [go, Function.update_self]
      split <;> simp
    · simp only [go, Function.update_self, here]
      split <;> rfl
  case unlockTasks newtask =>
    cases moved
    apply Moves.of_quiet others _ rfl rfl
    · simp [go]
    · simp only [go, Function.update_self, here]
      cases newtask <;> rfl
  case testToDo toDo =>
    cases moved
    apply Moves.of_quiet others _ rfl rfl
    · simp only [go, Function.update_self]
      split <;> simp
    · simp only [go, Function.update_self, here]
      cases toDo <;> split <;> rfl
  case testRoutine toDo =>
    cases toDo with
    | none => exact absurd (here ▸ trivial) (inv.safe t)
    | some toDo =>
        cases moved
        apply Moves.of_quiet others _ rfl rfl
        · simp only [go, Function.update_self]
          split <;> simp
        · simp only [go, Function.update_self, here]
          split <;> rfl
  case signalTask | signalFree =>
    cases moved
    apply Moves.of_quiet others
    · simp [go, here, Place.holding, Holding.task]
    · split <;> rfl
    · split <;> rfl
    · simp [go]
  case sleepFree | unlockFtq | writeRoutine | writeData | unlockTq | sleepTasks |
      running | initRoutine | initData | pushFree | unlockRelease |
      alive | broadcastStop | unlockStop =>
    cases moved
    exact .of_quiet others (by simp [go, here, Place.holding, Holding.task]) rfl rfl (by simp [go])

theorem moves_of_wake (moved : p.wake t = some p') : Moves p p' t := by
  cases here : p.place t <;> simp only [wake, here, reduceCtorEq] at moved
  case waitFree | waitTasks =>
    cases moved
    refine Moves.of_quiet ?_ ?_ rfl rfl ?_
    · intro u other
      simp [go, other]
    · simp [go, here, Place.holding, Holding.task]
    · simp [go]

end ThreadPool

/-! ## The handshake -/

namespace LocalClients

variable {s s' : LocalClients} {i : ℕ} {t : Thread}

/-- The request of a client's last call of `add_task`. -/
def last (s : LocalClients) (i : ℕ) : Request where
  client := i
  serial := s.serial i

/-- The last task of the client is queued, or a worker has it and has not yet signalled. -/
def Outstanding (s : LocalClients) (i : ℕ) : Prop :=
  s.last i ∉ s.signalled ∧
    ∃ slot, (s.pool.tasks slot).data = some (s.last i) ∧
      (slot ∈ s.pool.tasksQueue ∨ s.pool.Awaits slot ∨
        ∃ t, s.pool.place t = .running slot ∧ s.progress t ≠ .signalled)

/-- Every client that is blocked waits for a signal to come. -/
def NeverLost (s : LocalClients) : Prop := ∀ i, s.client i = .waiting → s.Outstanding i

/-- No worker signals the last task of a client that is still on its way to its wait. -/
def Timely (s : LocalClients) : Action → Prop
  | .signal t => ∀ slot i, s.runs t = some slot → (s.pool.tasks slot).data = some (s.last i) →
      s.client i ≠ .submitting
  | _ => True

/-- A step of a run in which no signal comes too early. -/
def TimelyStep (s s' : LocalClients) : Prop :=
  ∃ action, s.Timely action ∧ s.step action = some s'

structure Inv (s : LocalClients) : Prop where
  pool : s.pool.TaskInv
  own : ∀ t task, (s.pool.place t).holding.task = some task →
    ∃ i, t = .submitter i ∧ task.data = some (s.last i)
  pushed : ∀ task ∈ s.pool.pushed, ∃ request, task.data = some request ∧
    request.serial ≤ s.serial request.client
  signalled : ∀ request ∈ s.signalled, request.serial ≤ s.serial request.client
  submitted : ∀ i, s.client i ≠ .calling →
    (s.pool.place (.submitter i)).holding.task = none →
      ∃ task ∈ s.pool.pushed, task.data = some (s.last i)
  unanswered : ∀ i, s.client i ≠ .calling → s.last i ∉ s.signalled
  returned : ∀ i, s.client i = .waiting → (s.pool.place (.submitter i)).holding.task = none
  running : ∀ t slot, s.pool.place t = .running slot → s.pool.tasks slot ∈ s.pool.pushed
  ran : ∀ t, ∀ task ∈ logOf s.pool.ran t,
    (∃ request ∈ s.signalled, task.data = some request) ∨
      ∃ slot, s.pool.place t = .running slot ∧ s.pool.tasks slot = task ∧
        s.progress t ≠ .signalled

theorem runs_eq_some {slot : ℕ} : s.runs t = some slot ↔ s.pool.place t = .running slot := by
  unfold runs
  split <;> simp_all

namespace Inv

/-- The last task of a client that is blocked is where the pool keeps its tasks. -/
theorem outstanding (inv : s.Inv) (waiting : s.client i = .waiting) : s.Outstanding i := by
  have returned := inv.returned i waiting
  have called : s.client i ≠ .calling := by simp [waiting]
  have unanswered := inv.unanswered i called
  rcases inv.submitted i called returned with ⟨task, isPushed, sameData⟩
  refine ⟨unanswered, ?_⟩
  have fifo : s.pool.pushed = s.pool.taken.map (·.2) ++ s.pool.tasksQueue.map s.pool.tasks :=
    inv.pool.slots.fifo
  rw [fifo] at isPushed
  rcases List.mem_append.mp isPushed with isTaken | isQueued
  · rcases List.mem_map.mp isTaken with ⟨⟨t, task'⟩, inLog, rfl⟩
    have byThread : task' ∈ logOf s.pool.taken t :=
      List.mem_map.mpr ⟨(t, task'), List.mem_filter.mpr ⟨inLog, by simp⟩, rfl⟩
    have once : logOf s.pool.taken t = logOf s.pool.ran t ++
      Slots.pending s.pool.tasks (s.pool.place t).holding := inv.pool.slots.once t
    rw [once] at byThread
    rcases List.mem_append.mp byThread with hasRun | isPending
    · rcases inv.ran t task' hasRun with ⟨request, isSignalled, sameData'⟩ |
        ⟨slot, running, same, notYet⟩
      · simp only at sameData
        rw [sameData] at sameData'
        cases sameData'
        exact absurd isSignalled unanswered
      · exact ⟨slot, same ▸ sameData, Or.inr (Or.inr ⟨t, running, notYet⟩)⟩
    · cases holding : (s.pool.place t).holding <;>
        simp only [holding, Slots.pending, List.mem_singleton, List.not_mem_nil] at isPending
      case taken slot =>
        subst isPending
        exact ⟨slot, sameData, Or.inr (Or.inl ⟨t, holding⟩)⟩
  · rcases List.mem_map.mp isQueued with ⟨slot, inQueue, rfl⟩
    exact ⟨slot, sameData, Or.inl inQueue⟩

/-- A step of the pool. A thread that leaves a routine has signalled. -/
theorem withPool (inv : s.Inv) {pool : ThreadPool ClientRoutine Request} (poolInv : pool.TaskInv)
    (moves : s.pool.Moves pool t)
    (kept : ∀ u, u ≠ t → ∀ slot, s.pool.place u = .running slot →
      pool.tasks slot = s.pool.tasks slot)
    (left : ∀ slot, s.pool.place t = .running slot → s.progress t = .signalled) :
    (s.withPool t pool).Inv := by
  refine ⟨poolInv, ?_, ?_, inv.signalled, ?_, inv.unanswered, ?_, ?_, ?_⟩
  · intro u task isTask
    by_cases same : u = t
    · subst same
      exact inv.own u task (moves.task task isTask)
    · apply inv.own u task
      rwa [← moves.holding u same]
  · intro task isPushed
    rcases moves.new task isPushed with old | new
    · exact inv.pushed task old
    · rcases inv.own t task new with ⟨i, -, data⟩
      exact ⟨s.last i, data, Nat.le_refl _⟩
  · intro i called returned
    by_cases same : Thread.submitter i = t
    · subst same
      cases before : (s.pool.place (.submitter i)).holding.task with
      | none =>
          rcases inv.submitted i called before with ⟨task, isPushed, data⟩
          exact ⟨task, moves.pushed task isPushed, data⟩
      | some task =>
          rcases inv.own _ task before with ⟨j, sameThread, data⟩
          cases sameThread
          exact ⟨task, moves.given task before returned, data⟩
    · have before := returned
      simp only [LocalClients.withPool, moves.holding _ same] at before
      rcases inv.submitted i called before with ⟨task, isPushed, data⟩
      exact ⟨task, moves.pushed task isPushed, data⟩
  · intro i waiting
    have before := inv.returned i waiting
    by_cases same : Thread.submitter i = t
    · subst same
      cases after : (pool.place (.submitter i)).holding.task with
      | none => exact after
      | some task =>
          rw [moves.task task after] at before
          cases before
    · simpa only [LocalClients.withPool, moves.holding _ same] using before
  · intro u slot running
    by_cases same : u = t
    · subst same
      rcases moves.ran with ⟨-, notRunning⟩ | ⟨slot', calls, running', -, tasks⟩
      · exact absurd running (notRunning slot)
      · have sameSlot : slot' = slot := by
          simpa using running'.symm.trans running
        subst sameSlot
        apply moves.pushed
        change pool.tasks slot' ∈ s.pool.pushed
        rw [tasks]
        exact inv.pool.slots.mem_pushed (congrArg Place.holding calls)
    · have before := (moves.running u same slot).mp running
      apply moves.pushed
      simp only [LocalClients.withPool, kept u same slot before]
      exact inv.running u slot before
  · intro u task hasRun
    by_cases same : u = t
    · subst same
      rcases moves.ran with ⟨sameRan, notRunning⟩ | ⟨slot, calls, running, ran, tasks⟩
      · simp only [LocalClients.withPool, sameRan] at hasRun
        rcases inv.ran u task hasRun with done | ⟨slot, running, -, notYet⟩
        · exact Or.inl done
        · exact absurd (left slot running) notYet
      · simp only [LocalClients.withPool, ran, logOf_append_self] at hasRun
        rcases List.mem_append.mp hasRun with before | new
        · rcases inv.ran u task before with done | ⟨slot', running', -, -⟩
          · exact Or.inl done
          · rw [calls] at running'
            cases running'
        · right
          refine ⟨slot, running, ?_, by simp [LocalClients.withPool]⟩
          rw [List.mem_singleton.mp new]
          exact congrFun tasks slot
    · have before : task ∈ logOf s.pool.ran u := by
        rcases moves.ran with ⟨sameRan, -⟩ | ⟨slot, -, -, ran, -⟩
        · simpa only [LocalClients.withPool, sameRan] using hasRun
        · simpa only [LocalClients.withPool, ran, logOf_append_of_ne same] using hasRun
      rcases inv.ran u task before with done | ⟨slot, running, sameTask, notYet⟩
      · exact Or.inl done
      · right
        refine ⟨slot, (moves.running u same slot).mpr running, ?_, ?_⟩
        · exact (kept u same slot running).trans sameTask
        · simpa [LocalClients.withPool, same] using notYet

/-- No other thread writes to the slot of a running task. -/
theorem kept_of_step (inv : s.Inv) {pool : ThreadPool ClientRoutine Request}
    (kept : ∀ slot, (∀ u, (s.pool.place u).holding.slot = some slot → u ≠ t) →
      pool.tasks slot = s.pool.tasks slot) :
    ∀ u, u ≠ t → ∀ slot, s.pool.place u = .running slot →
      pool.tasks slot = s.pool.tasks slot := by
  intro u other slot running
  apply kept
  rintro v held rfl
  have held' : (s.pool.slotsView.holding u).slot = some slot := by
    simp [ThreadPool.slotsView, running, Place.holding, Holding.slot]
  exact other (inv.pool.slots.parts.thread_eq held' held)

theorem submit (inv : s.Inv) {pool : ThreadPool ClientRoutine Request}
    (added : s.pool.addTask (.submitter i) (s.task i) = some pool) :
    ({ s with
        pool
        client := Function.update s.client i .submitting
        serial := Function.update s.serial i (s.serial i + 1) } : LocalClients).Inv := by
  have poolInv := inv.pool.addTask (by simp [LocalClients.task]) added
  have grows : ∀ j, s.serial j ≤ Function.update s.serial i (s.serial i + 1) j := by
    intro j
    by_cases same : j = i
    · simp [same]
    · simp [same]
  cases here : s.pool.place (.submitter i) <;>
    simp only [ThreadPool.addTask, here, reduceCtorEq] at added
  case outside =>
    cases added
    have place : ∀ u, u ≠ .submitter i →
        (s.pool.go (.submitter i) (.lockFtq (s.task i))).place u = s.pool.place u := by
      intro u other
      simp [ThreadPool.go, other]
    have running : ∀ u slot,
        (s.pool.go (.submitter i) (.lockFtq (s.task i))).place u = .running slot ↔
          s.pool.place u = .running slot := by
      intro u slot
      by_cases same : u = .submitter i
      · subst same
        simp [ThreadPool.go, here]
      · rw [place u same]
    refine ⟨poolInv, ?_, ?_, ?_, ?_, ?_, ?_, ?_, ?_⟩
    · intro u task isTask
      by_cases same : u = .submitter i
      · subst same
        simp only [ThreadPool.go, Function.update_self, Place.holding, Holding.task,
          Option.some.injEq] at isTask
        subst isTask
        exact ⟨i, rfl, by simp [LocalClients.task, last]⟩
      · simp only [place u same] at isTask
        rcases inv.own u task isTask with ⟨j, rfl, data⟩
        have other : j ≠ i := by
          rintro rfl
          exact same rfl
        exact ⟨j, rfl, by simpa [last, other] using data⟩
    · intro task isPushed
      rcases inv.pushed task isPushed with ⟨request, data, old⟩
      exact ⟨request, data, Nat.le_trans old (grows _)⟩
    · intro request isSignalled
      exact Nat.le_trans (inv.signalled request isSignalled) (grows _)
    · intro j called returned
      by_cases same : j = i
      · subst same
        simp [ThreadPool.go, Place.holding, Holding.task] at returned
      · have other : Thread.submitter j ≠ .submitter i := by simpa using same
        simp only [place _ other] at returned
        have before : s.client j ≠ .calling := by simpa [same] using called
        rcases inv.submitted j before returned with ⟨task, isPushed, data⟩
        exact ⟨task, isPushed, by simpa [last, same] using data⟩
    · intro j called
      by_cases same : j = i
      · subst same
        intro isSignalled
        have old := inv.signalled _ isSignalled
        simp only [last, Function.update_self] at old
        exact Nat.not_succ_le_self _ old
      · have before : s.client j ≠ .calling := by simpa [same] using called
        simpa [last, same] using inv.unanswered j before
    · intro j waiting
      by_cases same : j = i
      · simp [same] at waiting
      · have other : Thread.submitter j ≠ .submitter i := by simpa using same
        simp only [place _ other]
        exact inv.returned j (by simpa [same] using waiting)
    · intro u slot isRunning
      exact inv.running u slot ((running u slot).mp isRunning)
    · intro u task hasRun
      rcases inv.ran u task hasRun with done | ⟨slot, isRunning, sameTask, notYet⟩
      · exact Or.inl done
      · exact Or.inr ⟨slot, (running u slot).mpr isRunning, sameTask, notYet⟩

theorem operate (inv : s.Inv) :
    ({ s with progress := Function.update s.progress t .atSignal } : LocalClients).Inv := by
  refine { inv with ran := ?_ }
  intro u task hasRun
  rcases inv.ran u task hasRun with done | ⟨slot, running, sameTask, notYet⟩
  · exact Or.inl done
  · right
    refine ⟨slot, running, sameTask, ?_⟩
    by_cases same : u = t
    · simp [same]
    · simpa [same] using notYet

/-- A routine signals. The client is blocked, or the request is not its last one, or it has woken
up on its own in the meantime. -/
theorem signal (inv : s.Inv) {slot : ℕ} {request : Request} (running : s.runs t = some slot)
    (data : (s.pool.tasks slot).data = some request)
    (timely : ∀ i, request = s.last i → s.client i ≠ .submitting) :
    ({ s with
        progress := Function.update s.progress t .signalled
        client :=
          if s.client request.client = .waiting then
            Function.update s.client request.client .calling
          else s.client
        signalled := request :: s.signalled } : LocalClients).Inv := by
  have here := runs_eq_some.mp running
  have client : ∀ j, (if s.client request.client = .waiting then
      Function.update s.client request.client .calling else s.client) j ≠ .calling →
        s.client j ≠ .calling ∧ (j = request.client → s.client j ≠ .waiting) := by
    intro j called
    by_cases waits : s.client request.client = .waiting
    · rw [if_pos waits] at called
      by_cases same : j = request.client
      · simp [same] at called
      · exact ⟨by simpa [same] using called, fun isClient => absurd isClient same⟩
    · rw [if_neg waits] at called
      exact ⟨called, by rintro rfl; exact waits⟩
  have unchanged : ∀ j, (if s.client request.client = .waiting then
      Function.update s.client request.client .calling else s.client) j = .waiting →
        s.client j = .waiting := by
    intro j waiting
    split at waiting
    · by_cases same : j = request.client
      · simp [same] at waiting
      · simpa [same] using waiting
    · exact waiting
  refine { inv with signalled := ?_, submitted := ?_, unanswered := ?_, returned := ?_, ran := ?_ }
  · intro request' isSignalled
    rcases List.mem_cons.mp isSignalled with rfl | old
    · rcases inv.pushed _ (inv.running t slot here) with ⟨request'', data', old⟩
      rw [data] at data'
      cases data'
      exact old
    · exact inv.signalled request' old
  · intro j called
    exact inv.submitted j (client j called).1
  · intro j called isSignalled
    rcases client j called with ⟨before, notWaiting⟩
    rcases List.mem_cons.mp isSignalled with isRequest | old
    · have isClient : j = request.client := congrArg Request.client isRequest
      cases place : s.client j with
      | calling => exact before place
      | submitting => exact timely j isRequest.symm place
      | waiting => exact notWaiting isClient place
    · exact inv.unanswered j before old
  · intro j waiting
    exact inv.returned j (unchanged j waiting)
  · intro u task hasRun
    rcases inv.ran u task hasRun with ⟨request', isSignalled, data'⟩ |
      ⟨slot', running', sameTask, notYet⟩
    · exact Or.inl ⟨request', List.mem_cons_of_mem _ isSignalled, data'⟩
    · by_cases same : u = t
      · subst same
        have sameSlot : slot' = slot := by
          simpa using running'.symm.trans here
        subst sameSlot
        exact Or.inl ⟨request, List.mem_cons_self, sameTask ▸ data⟩
      · exact Or.inr ⟨slot', running', sameTask, by simpa [same] using notYet⟩

theorem setClient (inv : s.Inv) {place : ClientPlace}
    (called : place ≠ .calling → s.client i ≠ .calling)
    (returned : place = .waiting → (s.pool.place (.submitter i)).holding.task = none) :
    ({ s with client := Function.update s.client i place } : LocalClients).Inv := by
  have before : ∀ j, Function.update s.client i place j ≠ .calling → s.client j ≠ .calling := by
    intro j isCalled
    by_cases same : j = i
    · subst same
      exact called (by simpa using isCalled)
    · simpa [same] using isCalled
  refine { inv with submitted := ?_, unanswered := ?_, returned := ?_ }
  · intro j isCalled
    exact inv.submitted j (before j isCalled)
  · intro j isCalled
    exact inv.unanswered j (before j isCalled)
  · intro j waiting
    by_cases same : j = i
    · subst same
      exact returned (by simpa using waiting)
    · exact inv.returned j (by simpa [same] using waiting)

theorem step (inv : s.Inv) (step : TimelyStep s s') : s'.Inv := by
  rcases step with ⟨action, timely, moved⟩
  cases action with
  | submit i =>
      simp only [LocalClients.step] at moved
      split at moved
      case isTrue =>
        rcases Option.map_eq_some_iff.mp moved with ⟨pool, added, rfl⟩
        exact inv.submit added
      case isFalse => cases moved
  | advance t =>
      simp only [LocalClients.step] at moved
      split at moved
      case isTrue => cases moved
      case isFalse returned =>
        rcases Option.map_eq_some_iff.mp moved with ⟨pool, advanced, rfl⟩
        apply inv.withPool (inv.pool.advance advanced)
          (ThreadPool.moves_of_advance inv.pool advanced)
        · apply inv.kept_of_step
          intro slot notHeld
          apply ThreadPool.tasks_of_advance advanced
          intro held
          exact absurd rfl (notHeld t held)
        · intro slot running
          by_contra notYet
          exact returned ⟨by simp [runs_eq_some.mpr running], notYet⟩
  | wake t =>
      rcases Option.map_eq_some_iff.mp moved with ⟨pool, woken, rfl⟩
      apply inv.withPool (inv.pool.wakeUp woken) (ThreadPool.moves_of_wake woken)
      · intro u other slot running
        have same : pool.tasks = s.pool.tasks := by
          simp only [ThreadPool.wake] at woken
          split at woken <;> cases woken <;> rfl
        exact congrFun same slot
      · intro slot running
        simp [ThreadPool.wake, running] at woken
  | operate t =>
      simp only [LocalClients.step] at moved
      split at moved
      case isTrue =>
        cases moved
        exact inv.operate
      case isFalse => cases moved
  | signal t =>
      simp only [LocalClients.step] at moved
      split at moved
      case h_1 slot running _ =>
        rcases Option.map_eq_some_iff.mp moved with ⟨request, data, rfl⟩
        apply inv.signal running data
        rintro i rfl
        exact timely slot i running data
      case h_2 => cases moved
  | wait i =>
      simp only [LocalClients.step] at moved
      split at moved
      case h_1 submitting outside =>
        cases moved
        apply inv.setClient
        · simp [submitting]
        · simp [outside, Place.holding, Holding.task]
      case h_2 => cases moved
  | wakeClient i =>
      simp only [LocalClients.step] at moved
      split at moved
      case isTrue =>
        cases moved
        apply inv.setClient
        · simp
        · simp
      case isFalse => cases moved

theorem create (nworkers : ℕ) : (LocalClients.create nworkers).Inv where
  pool := .create nworkers
  own t task isTask := by
    cases t <;> simp only [LocalClients.create, ThreadPool.create] at isTask
    · cases isTask
    · split at isTask <;> cases isTask
    · cases isTask
  pushed task isPushed := by cases isPushed
  signalled request isSignalled := by cases isSignalled
  submitted i called := absurd rfl called
  unanswered i called := absurd rfl called
  returned i waiting := by cases waiting
  running t slot running := by
    cases t <;> simp only [LocalClients.create, ThreadPool.create] at running
    · cases running
    · split at running <;> cases running
    · cases running
  ran t task hasRun := by cases hasRun

theorem of_run {nworkers : ℕ} (run : ReflTransGen TimelyStep (LocalClients.create nworkers) s) :
    s.Inv := by
  induction run with
  | refl => exact create nworkers
  | tail _ last ih => exact ih.step last

end Inv

/-- Where no signal comes while its client is still on its way to the wait, every client that is
blocked has a task outstanding. -/
theorem neverLost_of_run {nworkers : ℕ}
    (run : ReflTransGen TimelyStep (create nworkers) s) : s.NeverLost :=
  fun _ waiting => (Inv.of_run run).outstanding waiting

theorem run_of_exec {steps : LocalClients → LocalClients → Prop} :
    ∀ (actions : List Action) (s : LocalClients),
      (∀ action ∈ actions, ∀ s s', s.step action = some s' → steps s s') →
        s.exec actions = some s' → ReflTransGen steps s s'
  | [], _, _, run => by
      cases run
      exact .refl
  | action :: rest, s, taken, run => by
      rcases Option.bind_eq_some_iff.mp run with ⟨next, first, others⟩
      have after := run_of_exec rest next
        (fun action isLater => taken action (List.mem_cons_of_mem _ isLater)) others
      exact .head (taken action List.mem_cons_self s next first) after

/-- The client has called `add_task`, and waits. -/
def submitted : List Action :=
  [.submit 0] ++ List.replicate 10 (.advance (.submitter 0)) ++ [.wait 0]

theorem neverLost_submitted : ∃ s : LocalClients, s.client 0 = .waiting ∧ s.NeverLost := by
  have waits : ((create 1).exec submitted).any fun s => decide (s.client 0 = .waiting) := by
    decide +kernel
  cases run : (create 1).exec submitted with
  | none => simp [run] at waits
  | some s =>
      simp only [run, Option.any_some, decide_eq_true_eq] at waits
      refine ⟨s, waits, neverLost_of_run (run_of_exec _ _ ?_ run)⟩
      intro action mem s s' step
      simp only [submitted, List.mem_append, List.mem_singleton, List.mem_replicate] at mem
      refine ⟨action, ?_, step⟩
      rcases mem with (rfl | ⟨-, rfl⟩) | rfl <;> trivial

def Step (s s' : LocalClients) : Prop := ∃ action, s.step action = some s'

/-- The worker takes the task, runs it and signals while the client has only returned from
`add_task`. The client then waits, and its task is done. -/
def signalFirst : List Action :=
  [.submit 0] ++ List.replicate 10 (.advance (.submitter 0)) ++
    List.replicate 9 (.advance (.worker 0)) ++
      [.operate (.worker 0), .signal (.worker 0), .wait 0]

theorem not_neverLost_of_signalFirst :
    ¬ ∀ (nworkers : ℕ) (s : LocalClients),
      ReflTransGen Step (create nworkers) s → s.NeverLost := by
  intro always
  have lost : ((create 1).exec signalFirst).any fun s =>
      decide (s.client 0 = .waiting) && decide (s.last 0 ∈ s.signalled) := by
    decide +kernel
  cases run : (create 1).exec signalFirst with
  | none => simp [run] at lost
  | some s =>
      simp only [run, Option.any_some, Bool.and_eq_true, decide_eq_true_eq] at lost
      have reached : ReflTransGen Step (create 1) s :=
        run_of_exec _ _ (fun action _ _ _ step => ⟨action, step⟩) run
      exact (always 1 s reached 0 lost.1).1 lost.2

end LocalClients

end ChaosCache
