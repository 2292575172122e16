import ChaosCache.ThreadPool.Tasks

/-!
# The capacity of the pool

A worker gives the slot of a task back behind the call of its routine. A task without a routine
is not called, and its slot goes nowhere. `lost` and `dropped` are these slots and tasks, which
the program does not record.
-/

namespace ChaosCache

open Relation

variable {ρ δ : Type}

def PoolTask.isNull (task : PoolTask ρ δ) : Bool := task.routine.isNone

theorem PoolTask.isNull_eq_false {task : PoolTask ρ δ} :
    task.isNull = false ↔ task.routine ≠ none := by
  cases task with
  | mk routine data => cases routine <;> simp [isNull]

/-! ## Slots that get lost -/

/-- Logs with the same entries for each thread have the same length. -/
theorem length_eq_of_logOf {α : Type} {log log' : List (Thread × α)}
    (same : ∀ t, logOf log t = logOf log' t) : log.length = log'.length := by
  have count (entries : List (Thread × α)) (t : Thread) :
      (entries.map (·.1)).count t = (logOf entries t).length := by
    rw [logOf, List.length_map, ← List.countP_eq_length_filter, List.count, List.countP_map]
    apply List.countP_congr
    simp
  have perm : (log.map (·.1)).Perm (log'.map (·.1)) := by
    apply List.perm_iff_count.mpr
    intro t
    rw [count, count, same]
  simpa using perm.length_eq

theorem logOf_filter {α : Type} (log : List (Thread × α)) (p : α → Bool) (t : Thread) :
    logOf (log.filter fun entry => p entry.2) t = (logOf log t).filter p := by
  simp only [logOf, List.filter_map, List.filter_filter, Function.comp_def]
  congr 1
  apply List.filter_congr
  intro entry _
  exact Bool.and_comm _ _

namespace Slots

/-- The slots that got lost are those of the tasks that were dropped, and every task without a
routine that a worker has taken was dropped, or will be. -/
structure Losses (x : Slots ρ δ) (lost : List ℕ) (dropped : List (Thread × PoolTask ρ δ)) :
    Prop where
  flow : x.Flow lost
  count : lost.length = dropped.length
  nulls : ∀ t, (logOf x.taken t).filter PoolTask.isNull =
    logOf dropped t ++ (pending x.tasks (x.holding t)).filter PoolTask.isNull

variable {x x' : Slots ρ δ} {t : Thread} {slot : ℕ} {lost : List ℕ}
  {dropped : List (Thread × PoolTask ρ δ)}

namespace Losses

theorem move (losses : x.Losses lost dropped) {holding : Holding ρ δ}
    (parts : (x'.withFree lost).Partitioned) (tasks : x'.tasks = x.tasks)
    (moved : x'.holding = Function.update x.holding t holding) (carries : Carries x.tasks holding)
    (fifo : x'.pushed = x'.taken.map (·.2) ++ x'.queue.map x'.tasks)
    (nulls : (logOf x'.taken t).filter PoolTask.isNull =
      logOf dropped t ++ (pending x.tasks holding).filter PoolTask.isNull)
    (others : ∀ u, u ≠ t → logOf x'.taken u = logOf x.taken u) : x'.Losses lost dropped := by
  refine ⟨losses.flow.move parts tasks moved carries fifo, losses.count, ?_⟩
  intro u
  rw [tasks, moved]
  by_cases same : u = t
  · subst same
    simpa using nulls
  · rw [others u same]
    simpa [same] using losses.nulls u

theorem write (losses : x.Losses lost dropped) {holding : Holding ρ δ} {content : PoolTask ρ δ}
    (held : (x.holding t).slot = some slot) (still : holding.slot = some slot)
    (noTask : pending x.tasks (x.holding t) = [])
    (carries : Carries (Function.update x.tasks slot content) holding)
    (noTask' : pending (Function.update x.tasks slot content) holding = []) :
    ({ x.go t holding with tasks := Function.update x.tasks slot content } :
      Slots ρ δ).Losses lost dropped := by
  refine ⟨losses.flow.write held still carries, losses.count, ?_⟩
  intro u
  by_cases same : u = t
  · have before := losses.nulls t
    rw [noTask] at before
    simpa [same, go, noTask'] using before
  · simp only [go, Function.update_of_ne same]
    rw [pending_congr fun _ held' => losses.flow.tasks_of_ne held content same held']
    exact losses.nulls u

/-- What the log of a thread says while it has no task to run. -/
theorem noTask (losses : x.Losses lost dropped) (nothing : pending x.tasks (x.holding t) = []) :
    (logOf x.taken t).filter PoolTask.isNull = logOf dropped t := by
  simpa [nothing] using losses.nulls t

theorem ask (losses : x.Losses lost dropped) (task : PoolTask ρ δ)
    (nothing : x.holding t = .nothing) : (x.go t (.wants task)).Losses lost dropped := by
  have parts : ((x.go t (.wants task)).withFree lost).Partitioned :=
    losses.flow.parts.go (by simp [withFree, nothing, Holding.slot])
  refine losses.move (t := t) parts rfl rfl ?_ ?_ ?_ ?_
  · trivial
  · exact losses.flow.fifo
  · simpa [go, pending] using losses.noTask (by simp [nothing, pending])
  · exact fun u _ => rfl

/-- A step of a slot loses nothing. A worker calls routines only. -/
theorem step (losses : x.Losses lost dropped) (step : Step x x')
    (called : ∀ t slot, x.holding t = .taken slot → x'.holding t = .used slot →
      (x.tasks slot).routine ≠ none) : x'.Losses lost dropped := by
  have flow := losses.flow
  cases step with
  | ask t task nothing runs => exact losses.ask task nothing
  | obtain t task slot rest wants front =>
      have parts : (({ x.go t (.blank task slot) with free := rest } :
          Slots ρ δ).withFree lost).Partitioned :=
        flow.parts.obtain (by simp [withFree, front])
          (by simp [withFree, wants, Holding.slot]) rfl
      refine losses.move (t := t) parts rfl rfl ?_ ?_ ?_ ?_
      · trivial
      · exact flow.fifo
      · simpa [go, pending] using losses.noTask (by simp [wants, pending])
      · exact fun u _ => rfl
  | writeRoutine t task slot blank =>
      apply losses.write
      · simp [blank, Holding.slot]
      · rfl
      · simp [blank, pending]
      · simp [Carries]
      · rfl
  | writeData t task slot half =>
      have routine := flow.carries t
      simp only [half, Carries] at routine
      apply losses.write
      · simp [half, Holding.slot]
      · rfl
      · simp [half, pending]
      · simp [Carries, routine]
      · rfl
  | push t task slot full =>
      have content := flow.carries t
      simp only [full, Carries] at content
      have parts : (({ x.go t .nothing with
          queue := x.queue ++ [slot], pushed := x.pushed ++ [task] } :
            Slots ρ δ).withFree lost).Partitioned :=
        flow.parts.push (by simp [withFree, full, Holding.slot])
      refine losses.move (t := t) parts rfl rfl ?_ ?_ ?_ ?_
      · trivial
      · simp [go, flow.fifo, content]
      · simpa [go, pending] using losses.noTask (by simp [full, pending])
      · exact fun u _ => rfl
  | take t slot rest nothing front =>
      have parts : (({ x.go t (.taken slot) with
          queue := rest, taken := x.taken ++ [(t, x.tasks slot)] } :
            Slots ρ δ).withFree lost).Partitioned :=
        flow.parts.take front (by simp [withFree, nothing, Holding.slot]) rfl
      refine losses.move (t := t) parts rfl rfl ?_ ?_ ?_ ?_
      · trivial
      · simp [go, flow.fifo, front]
      · rw [logOf_append_self, List.filter_append, losses.noTask (by simp [nothing, pending])]
        rfl
      · exact fun u other => logOf_append_of_ne other
  | run t slot taken =>
      have parts : (({ x.go t (.used slot) with ran := x.ran ++ [(t, x.tasks slot)] } :
          Slots ρ δ).withFree lost).Partitioned :=
        flow.parts.go (by simp [withFree, taken, Holding.slot])
      have notNull := PoolTask.isNull_eq_false.mpr (called t slot taken (by simp [go]))
      refine losses.move (t := t) parts rfl rfl ?_ ?_ ?_ ?_
      · trivial
      · exact flow.fifo
      · have before := losses.nulls t
        rw [taken] at before
        simpa [go, pending, notNull] using before
      · exact fun u _ => rfl
  | clear t slot task used =>
      have held : (x.holding t).slot = some slot := by simp [used, Holding.slot]
      have carries : Carries (Function.update x.tasks slot task) (x.holding t) := by
        simp [used, Carries]
      have written := losses.write held held (by simp [used, pending]) carries
        (by simp [used, pending])
      simpa [go] using written
  | release t slot used =>
      have held : ((x.withFree lost).holding t).slot = some slot := by
        simp [withFree, used, Holding.slot]
      have parts := flow.parts.release held
      have reordered : (({ x.go t .nothing with free := x.free ++ [slot] } :
          Slots ρ δ).withFree lost).Partitioned := by
        refine parts.perm ?_ rfl fun _ => rfl
        simp only [withFree, List.append_assoc]
        exact List.perm_append_comm.append_left x.free
      refine losses.move (t := t) reordered rfl rfl ?_ ?_ ?_ ?_
      · trivial
      · exact flow.fifo
      · simpa [go, pending] using losses.noTask (by simp [used, pending])
      · exact fun u _ => rfl

/-- The slot of a task without a routine gets lost. -/
theorem drop (losses : x.Losses lost dropped) (taken : x.holding t = .taken slot)
    (null : (x.tasks slot).routine = none) :
    (x.go t .nothing).Losses (slot :: lost) (dropped ++ [(t, x.tasks slot)]) := by
  have flow := losses.flow
  have isNull : (x.tasks slot).isNull = true := by simp [PoolTask.isNull, null]
  have held : ((x.withFree lost).holding t).slot = some slot := by
    simp [withFree, taken, Holding.slot]
  have parts := flow.parts.release held
  have reordered : ((x.go t .nothing).withFree (slot :: lost)).Partitioned := by
    refine parts.perm ?_ rfl fun _ => rfl
    simp only [withFree, List.append_assoc]
    exact (List.perm_append_singleton slot lost).symm.append_left x.free
  refine ⟨flow.move (t := t) reordered rfl rfl trivial flow.fifo, ?_, ?_⟩
  · simp [losses.count]
  · intro u
    by_cases same : u = t
    · subst same
      have before := losses.nulls u
      rw [taken] at before
      rw [logOf_append_self]
      simpa [go, pending, isNull] using before
    · rw [logOf_append_of_ne same]
      simpa [go, same] using losses.nulls u

end Losses

/-- A submitter has been given the task. -/
def Asked (x : Slots ρ δ) (task : PoolTask ρ δ) : Prop :=
  task ∈ x.pushed ∨ ∃ t, (x.holding t).task = some task

namespace Asked

variable {task : PoolTask ρ δ}

theorem move (asked : x.Asked task) {holding : Holding ρ δ} (pushed : x.pushed ⊆ x'.pushed)
    (moved : x'.holding = Function.update x.holding t holding)
    (keeps : ∀ task, (x.holding t).task = some task →
      task ∈ x'.pushed ∨ holding.task = some task) : x'.Asked task := by
  rcases asked with mem | ⟨u, isTask⟩
  · exact Or.inl (pushed mem)
  · by_cases same : u = t
    · subst same
      rcases keeps task isTask with mem | still
      · exact Or.inl mem
      · exact Or.inr ⟨u, by simpa [moved] using still⟩
    · exact Or.inr ⟨u, by simpa [moved, same] using isTask⟩

theorem go (asked : x.Asked task) {holding : Holding ρ δ}
    (keeps : ∀ task, (x.holding t).task = some task → holding.task = some task) :
    (x.go t holding).Asked task :=
  asked.move (List.Subset.refl _) rfl fun task isTask => Or.inr (keeps task isTask)

/-- A task that has been submitted is held by its submitter until it is pushed. -/
theorem step (asked : x.Asked task) (step : Step x x') : x'.Asked task := by
  cases step with
  | ask t task' nothing runs => exact asked.go (by simp [nothing, Holding.task])
  | obtain t task' slot rest wants front =>
      exact asked.move (List.Subset.refl _) rfl (by simp [wants, Holding.task])
  | writeRoutine t task' slot blank =>
      exact asked.move (List.Subset.refl _) rfl (by simp [blank, Holding.task])
  | writeData t task' slot half =>
      exact asked.move (List.Subset.refl _) rfl (by simp [half, Holding.task])
  | push t task' slot full =>
      exact asked.move (List.subset_append_left _ _) rfl (by simp [full, Holding.task])
  | take t slot rest nothing front =>
      exact asked.move (List.Subset.refl _) rfl (by simp [nothing, Holding.task])
  | run t slot taken =>
      exact asked.move (List.Subset.refl _) rfl (by simp [taken, Holding.task])
  | clear t slot content used => exact asked
  | release t slot used =>
      exact asked.move (List.Subset.refl _) rfl (by simp [used, Holding.task])

end Asked

end Slots

namespace Place

/-- A place of the destructor. -/
def OfDestructor : Place ρ δ → Prop
  | alive => True
  | lockStop => True
  | broadcastStop => True
  | unlockStop => True
  | joining => True
  | _ => False

/-- A worker that has no task and waits for one, or has stopped. -/
def Idle : Place ρ δ → Prop
  | testStop => True
  | lockTasks => True
  | testTasks => True
  | sleepTasks => True
  | waitTasks => True
  | exited => True
  | _ => False

theorem holding_of_ofDestructor {place : Place ρ δ} (isPlace : place.OfDestructor) :
    place.holding = .nothing := by
  cases place <;> simp_all [OfDestructor, holding]

theorem holding_of_idle {place : Place ρ δ} (idle : place.Idle) : place.holding = .nothing := by
  cases place <;> simp_all [Idle, holding]

end Place

namespace ThreadPool

variable {s s' : ThreadPool ρ δ} {t : Thread} {lost : List ℕ}
  {dropped : List (Thread × PoolTask ρ δ)}

theorem ofDestructor_of_advance (isPlace : (s.place t).OfDestructor)
    (moved : s.advance t = some s') : (s'.place t).OfDestructor := by
  cases here : s.place t <;> simp only [here, Place.OfDestructor] at isPlace
  case alive =>
    simp only [advance, here] at moved
    cases moved
    simp [go, Place.OfDestructor]
  case lockStop =>
    simp only [advance, here] at moved
    rcases acquireTasks_eq_some.mp moved with ⟨-, rfl⟩
    simp [go, Place.OfDestructor]
  case broadcastStop | unlockStop =>
    simp only [advance, here] at moved
    cases moved
    simp [go, Place.OfDestructor]
  case joining =>
    simp only [advance, here] at moved
    cases moved

/-- Before a worker calls a routine it has tested it. -/
theorem tested_of_advance {toDo : ℕ} (moved : s.advance t = some s')
    (calls : s'.place t = .callRoutine toDo) :
    (s.tasks toDo).routine ≠ none ∧ s'.tasks = s.tasks := by
  cases here : s.place t <;> simp only [advance, here] at moved
  case outside | waitFree | waitTasks | exited | crashed | joining => cases moved
  case lockFtq | lockRelease =>
    rcases acquireFree_eq_some.mp moved with ⟨-, rfl⟩
    simp [go] at calls
  case lockTq | lockTasks | lockStop =>
    rcases acquireTasks_eq_some.mp moved with ⟨-, rfl⟩
    simp [go] at calls
  case popFree =>
    cases items : s.freeTasksQueue <;> simp only [items, Option.some.injEq] at moved <;>
      subst moved <;> simp [go] at calls
  case popTask =>
    cases items : s.tasksQueue <;> simp only [items, Option.some.injEq] at moved <;>
      subst moved <;> simp [go] at calls
  case testRoutine tested =>
    cases tested with
    | none =>
        cases moved
        simp [go] at calls
    | some tested =>
        cases moved
        simp only [go, Function.update_self] at calls
        split at calls
        · rename_i hasRoutine
          cases calls
          exact ⟨by simpa [Option.isSome_iff_ne_none] using hasRoutine, rfl⟩
        · cases calls
  case testFree | testStop | testTasks | retestStop | testToDo =>
    cases moved
    simp only [go, Function.update_self] at calls
    split at calls <;> cases calls
  case sleepFree | unlockFtq | writeRoutine | writeData | pushTask | signalTask | unlockTq |
      sleepTasks | unlockTasks | callRoutine | running | initRoutine | initData | pushFree |
      signalFree | unlockRelease | alive | broadcastStop | unlockStop =>
    cases moved
    simp [go] at calls

/-- A slot is used by the call of its routine. -/
theorem calls_of_advance {slot slot' : ℕ} (taken : (s.place t).holding = .taken slot)
    (moved : s.advance t = some s') (used : (s'.place t).holding = .used slot') :
    s.place t = .callRoutine slot := by
  cases here : s.place t <;> simp only [here, Place.holding, reduceCtorEq] at taken
  case unlockTasks toDo =>
    simp only [advance, here] at moved
    cases moved
    cases toDo <;> simp [go, Place.holding] at used
  case testToDo toDo =>
    simp only [advance, here] at moved
    cases moved
    cases toDo with
    | none => cases taken
    | some toDo => simp [go, Place.holding] at used
  case testRoutine toDo =>
    simp only [advance, here] at moved
    cases toDo with
    | none => cases taken
    | some toDo =>
        cases moved
        simp only [go, Function.update_self] at used
        split at used <;> cases used
  case callRoutine toDo =>
    cases taken
    rfl

/-- What the pool has lost, and that nothing else goes wrong. -/
structure CapacityInv (s : ThreadPool ρ δ) (lost : List ℕ)
    (dropped : List (Thread × PoolTask ρ δ)) : Prop where
  safe : s.SafeInv
  losses : s.slotsView.Losses lost dropped
  called : ∀ u toDo, s.place u = .callRoutine toDo → (s.tasks toDo).routine ≠ none
  ends : (s.place .destructor).OfDestructor

namespace CapacityInv

theorem create (nthreads : ℕ) :
    (ThreadPool.create nthreads : ThreadPool ρ δ).CapacityInv [] [] := by
  have parts := partitioned_create (ρ := ρ) (δ := δ) nthreads
  refine ⟨.create nthreads, ⟨⟨?_, ?_, rfl⟩, rfl, ?_⟩, ?_, trivial⟩
  · exact parts.congr (List.append_nil _) rfl fun _ => rfl
  · intro t
    simp [slotsView, holding_create, Slots.Carries]
  · intro t
    simp only [slotsView, holding_create, Slots.pending]
    rfl
  · intro t toDo calls
    have holding := holding_create (ρ := ρ) (δ := δ) nthreads t
    rw [calls] at holding
    cases holding

/-- A worker that is about to call a routine keeps it. -/
theorem called_of_advance (inv : s.CapacityInv lost dropped) (moved : s.advance t = some s')
    {u : Thread} {toDo : ℕ} (calls : s'.place u = .callRoutine toDo) :
    (s'.tasks toDo).routine ≠ none := by
  by_cases same : u = t
  · subst same
    rcases tested_of_advance moved calls with ⟨notNull, tasks⟩
    rwa [tasks]
  · have stays : s.place u = .callRoutine toDo := by
      rcases place_of_advance moved same with stays | ⟨task, -, woken⟩ | ⟨-, woken⟩
      · rwa [← stays]
      · rw [woken] at calls
        cases calls
      · rw [woken] at calls
        cases calls
    have holds : (s.slotsView.holding u).slot = some toDo := by
      simp [slotsView, stays, Place.holding, Holding.slot]
    have unwritten : s'.tasks toDo = s.tasks toDo := by
      apply tasks_of_advance moved
      intro held
      exact absurd (inv.losses.flow.parts.thread_eq holds held) same
    rw [unwritten]
    exact inv.called u toDo stays

/-- A worker that has called a routine was given one. -/
theorem runs_of_advance (inv : s.CapacityInv lost dropped) (moved : s.advance t = some s')
    {u : Thread} {slot : ℕ} (taken : s.slotsView.holding u = .taken slot)
    (used : s'.slotsView.holding u = .used slot) : (s.tasks slot).routine ≠ none := by
  by_cases same : u = t
  · subst same
    exact inv.called u slot (calls_of_advance taken moved used)
  · simp only [slotsView] at taken used
    rcases place_of_advance moved same with stays | ⟨task, -, woken⟩ | ⟨-, woken⟩
    · rw [stays, taken] at used
      cases used
    · rw [woken] at used
      cases used
    · rw [woken] at used
      cases used

theorem advance (inv : s.CapacityInv lost dropped) (moved : s.advance t = some s') :
    ∃ lost' dropped', s'.CapacityInv lost' dropped' := by
  have called : ∀ u toDo, s'.place u = .callRoutine toDo → (s'.tasks toDo).routine ≠ none :=
    fun u toDo calls => inv.called_of_advance moved calls
  have ends : (s'.place .destructor).OfDestructor := by
    by_cases same : t = .destructor
    · subst same
      exact ofDestructor_of_advance inv.ends moved
    · rcases place_of_advance moved (Ne.symm same) with stays | ⟨task, was, -⟩ | ⟨was, -⟩
      · rw [stays]
        exact inv.ends
      · exact absurd inv.ends (by simp [was, Place.OfDestructor])
      · exact absurd inv.ends (by simp [was, Place.OfDestructor])
  have safe := inv.safe.advance moved
  rcases inv.safe.wake.slots_of_advance (inv.safe.safe t) moved with
    same | step | ⟨slot, taken, null, drops⟩
  · exact ⟨lost, dropped, safe, same ▸ inv.losses, called, ends⟩
  · refine ⟨lost, dropped, safe, inv.losses.step step ?_, called, ends⟩
    exact fun u slot taken used => inv.runs_of_advance moved taken used
  · refine ⟨slot :: lost, dropped ++ [(t, s.tasks slot)], safe, ?_, called, ends⟩
    rw [drops]
    exact inv.losses.drop taken null

/-- A submitter or a worker goes to a place at which it calls nothing. -/
theorem go {place : Place ρ δ} (inv : s.CapacityInv lost dropped) (safe : (s.go t place).SafeInv)
    (losses : (s.go t place).slotsView.Losses lost dropped)
    (calls : ∀ toDo, place ≠ .callRoutine toDo) (away : ¬(s.place t).OfDestructor) :
    (s.go t place).CapacityInv lost dropped := by
  refine ⟨safe, losses, ?_, ?_⟩
  · intro u toDo here
    by_cases same : u = t
    · simp only [ThreadPool.go, same, Function.update_self] at here
      exact absurd here (calls toDo)
    · exact inv.called u toDo (by simpa [ThreadPool.go, same] using here)
  · have other : Thread.destructor ≠ t := by
      rintro rfl
      exact away inv.ends
    simpa [ThreadPool.go, other] using inv.ends

theorem wakeUp (inv : s.CapacityInv lost dropped) (moved : s.wake t = some s') :
    s'.CapacityInv lost dropped := by
  have safe := inv.safe.wakeUp moved
  have losses : s'.slotsView.Losses lost dropped := by
    rw [slotsView_of_wake moved]
    exact inv.losses
  cases here : s.place t <;> simp only [ThreadPool.wake, here, reduceCtorEq] at moved
  case waitFree | waitTasks =>
    cases moved
    apply inv.go safe losses
    · simp
    · simp [here, Place.OfDestructor]

theorem addTask (inv : s.CapacityInv lost dropped) {task : PoolTask ρ δ}
    (moved : s.addTask t task = some s') : s'.CapacityInv lost dropped := by
  have safe := inv.safe.addTask moved
  rcases slotsView_of_addTask moved with ⟨nothing, wants⟩
  have losses : s'.slotsView.Losses lost dropped := by
    rw [wants]
    exact inv.losses.ask task nothing
  cases here : s.place t <;> simp only [ThreadPool.addTask, here, reduceCtorEq] at moved
  case outside =>
    cases moved
    apply inv.go safe losses
    · simp
    · simp [here, Place.OfDestructor]

theorem step (inv : s.CapacityInv lost dropped) (step : Step s s') :
    ∃ lost' dropped', s'.CapacityInv lost' dropped' := by
  rcases step with ⟨action, moved⟩
  cases action with
  | addTask t task => exact ⟨lost, dropped, inv.addTask moved⟩
  | advance t => exact inv.advance moved
  | wake t => exact ⟨lost, dropped, inv.wakeUp moved⟩

end CapacityInv

/-! ## Runs -/

/-- No submitter is inside `add_task`, `tasks_queue` is empty and no worker has a task. -/
structure Quiescent (s : ThreadPool ρ δ) : Prop where
  submitters : ∀ i, s.place (.submitter i) = .outside
  queue : s.tasksQueue = []
  workers : ∀ i, (s.place (.worker i)).Idle

theorem CapacityInv.of_run {nthreads : ℕ} (run : ReflTransGen Step (ThreadPool.create nthreads) s) :
    ∃ lost dropped, s.CapacityInv lost dropped := by
  induction run with
  | refl => exact ⟨[], [], .create nthreads⟩
  | tail _ last ih =>
      rcases ih with ⟨lost, dropped, inv⟩
      exact inv.step last

theorem Quiescent.holding (quiet : s.Quiescent) (ends : (s.place .destructor).OfDestructor)
    (t : Thread) : (s.place t).holding = .nothing := by
  cases t with
  | submitter i =>
      rw [quiet.submitters]
      rfl
  | worker i => exact Place.holding_of_idle (quiet.workers i)
  | destructor => exact Place.holding_of_ofDestructor ends

/-- The slots that are neither queued nor held are free or lost. -/
theorem Quiescent.perm (quiet : s.Quiescent) (ends : (s.place .destructor).OfDestructor)
    (flow : s.slotsView.Flow lost) : (s.freeTasksQueue ++ lost).Perm (List.range queueSize) := by
  apply (List.perm_ext_iff_of_nodup flow.parts.nodupFree List.nodup_range).mpr
  intro slot
  rw [List.mem_range]
  constructor
  · exact fun isFree => flow.parts.within slot .free isFree
  · intro inRange
    rcases flow.parts.covered slot inRange with ⟨location, isAt⟩
    cases location with
    | free => exact isAt
    | queued =>
        change slot ∈ s.tasksQueue at isAt
        simp [quiet.queue] at isAt
    | held t =>
        change (s.place t).holding.slot = some slot at isAt
        simp [quiet.holding ends t] at isAt

/-- A pool at rest has lost one slot for each task without a routine. -/
theorem CapacityInv.length_freeTasksQueue (inv : s.CapacityInv lost dropped)
    (quiet : s.Quiescent) :
    s.freeTasksQueue.length + (s.pushed.filter PoolTask.isNull).length = queueSize := by
  have losses := inv.losses
  have slots : s.freeTasksQueue.length + lost.length = queueSize := by
    simpa using (quiet.perm inv.ends losses.flow).length_eq
  have nulls : (s.taken.filter fun entry => entry.2.isNull).length = dropped.length := by
    apply length_eq_of_logOf
    intro t
    rw [logOf_filter]
    apply losses.noTask
    simp [slotsView, quiet.holding inv.ends t, Slots.pending]
  have pushed : s.pushed = s.taken.map (·.2) := by
    have fifo : s.pushed = s.taken.map (·.2) ++ s.tasksQueue.map s.tasks := losses.flow.fifo
    simpa [quiet.queue] using fifo
  have same : (s.pushed.filter PoolTask.isNull).length =
      (s.taken.filter fun entry => entry.2.isNull).length := by
    rw [pushed, List.filter_map, List.length_map]
    rfl
  have count := losses.count
  omega

theorem asked_of_advance (inv : s.SafeInv) {task : PoolTask ρ δ} (asked : s.slotsView.Asked task)
    (moved : s.advance t = some s') : s'.slotsView.Asked task := by
  rcases inv.wake.slots_of_advance (inv.safe t) moved with same | step | ⟨slot, taken, -, drops⟩
  · rwa [same]
  · exact asked.step step
  · rw [drops]
    apply asked.go
    intro task' isTask
    rw [taken] at isTask
    cases isTask

theorem asked_of_step (inv : s.SafeInv) {task : PoolTask ρ δ} (asked : s.slotsView.Asked task)
    (step : Step s s') : s'.slotsView.Asked task := by
  rcases step with ⟨action, moved⟩
  cases action with
  | addTask t task' =>
      rcases slotsView_of_addTask moved with ⟨nothing, wants⟩
      rw [wants]
      apply asked.go
      intro task' isTask
      rw [nothing] at isTask
      cases isTask
  | advance t => exact asked_of_advance inv asked moved
  | wake t =>
      rw [slotsView_of_wake moved]
      exact asked

/-- At rest the tasks that were submitted are those that were pushed. -/
theorem Quiescent.mem_pushed (quiet : s.Quiescent) (ends : (s.place .destructor).OfDestructor)
    {task : PoolTask ρ δ} (asked : s.slotsView.Asked task) : task ∈ s.pushed := by
  rcases asked with pushed | ⟨t, isTask⟩
  · exact pushed
  · simp [slotsView, quiet.holding ends t, Holding.task] at isTask

/-- A task with which `add_task` is called has been submitted. -/
theorem asked_of_exec {actions : List (Action ρ δ)} {task : PoolTask ρ δ} (inv : s.SafeInv)
    (run : s.exec actions = some s')
    (asked : s.slotsView.Asked task ∨ ∃ t, Action.addTask t task ∈ actions) :
    s'.slotsView.Asked task := by
  induction actions generalizing s with
  | nil =>
      cases run
      simpa using asked
  | cons action rest ih =>
      rcases exec_cons.mp run with ⟨next, moved, others⟩
      apply ih (inv.step ⟨action, moved⟩) others
      rcases asked with already | ⟨t, mem⟩
      · exact Or.inl (asked_of_step inv already ⟨action, moved⟩)
      · rcases List.mem_cons.mp mem with rfl | later
        · left; right
          refine ⟨t, ?_⟩
          rw [(slotsView_of_addTask moved).2]
          simp [Slots.go, Holding.task]
        · exact Or.inr ⟨t, later⟩

/-- A pool at rest has all its slots back if and only if `add_task` was always called with a
routine. -/
theorem perm_freeTasksQueue_iff {nthreads : ℕ} {actions : List (Action ρ δ)}
    (run : (create nthreads).exec actions = some s) (quiet : s.Quiescent) :
    s.freeTasksQueue.Perm (List.range queueSize) ↔ ∀ action ∈ actions, action.HasRoutine := by
  have steps : ReflTransGen Step (create nthreads) s :=
    run_of_exec _ _ (fun action _ _ _ moved => ⟨action, moved⟩) run
  rcases CapacityInv.of_run steps with ⟨lost, dropped, inv⟩
  constructor
  · intro restored action mem
    have all : s.freeTasksQueue.length = queueSize := by simpa using restored.length_eq
    have count := inv.length_freeTasksQueue quiet
    have none : s.pushed.filter PoolTask.isNull = [] := by
      apply List.eq_nil_of_length_eq_zero
      omega
    cases action with
    | addTask t task =>
        have asked := asked_of_exec (.create nthreads) run (Or.inr ⟨t, mem⟩)
        apply PoolTask.isNull_eq_false.mp
        simpa using List.filter_eq_nil_iff.mp none task (quiet.mem_pushed inv.ends asked)
    | advance t => trivial
    | wake t => trivial
  · intro hasRoutine
    have taskSteps : ReflTransGen TaskStep (create nthreads) s :=
      run_of_exec _ _ (fun action mem _ _ moved => ⟨action, hasRoutine action mem, moved⟩) run
    have slots := (TaskInv.of_run taskSteps).slots
    have flow : s.slotsView.Flow [] := by
      refine ⟨?_, slots.carries, slots.fifo⟩
      exact slots.parts.congr (List.append_nil _) rfl fun _ => rfl
    simpa using quiet.perm inv.ends flow

/-- Submitter 0 calls `add_task` with `NULL`. Worker 0 takes the task and waits for the next one. -/
def forgotten : List (Action Unit Unit) :=
  .addTask (.submitter 0) { routine := none, data := none } ::
    List.replicate 10 (.advance (.submitter 0)) ++ List.replicate 12 (.advance (.worker 0))

theorem exec_forgotten (rest : List ℕ) :
    ∃ s, ({ create 1 with freeTasksQueue := 0 :: rest } : ThreadPool Unit Unit).exec forgotten =
      some s ∧ s.Quiescent ∧ s.freeTasksQueue = rest := by
  refine ⟨_, rfl, ⟨?_, rfl, ?_⟩, rfl⟩
  · intro i
    by_cases first : i = 0
    · subst first
      rfl
    · simp [go, broadcastTasks, create, first]
  · intro i
    by_cases first : i = 0
    · subst first
      trivial
    · simp [go, broadcastTasks, create, first, Place.Idle]

/-- The slot of the task does not come back. -/
theorem quiescent_forgotten : ∃ s, (create 1).exec forgotten = some s ∧ s.Quiescent ∧
    s.freeTasksQueue.length < queueSize := by
  rcases exec_forgotten ((List.range 9999).map Nat.succ) with ⟨s, run, quiet, free⟩
  rw [← create_front] at run
  refine ⟨s, run, quiet, ?_⟩
  simp [free, queueSize]

theorem perm_freeTasksQueue_forgotten : ∃ s, (create 1).exec forgotten = some s ∧
    (s.freeTasksQueue.Perm (List.range queueSize) ↔
      ∀ action ∈ forgotten, action.HasRoutine) := by
  rcases quiescent_forgotten with ⟨s, run, quiet, -⟩
  exact ⟨s, run, perm_freeTasksQueue_iff run quiet⟩

theorem not_perm_freeTasksQueue_forgotten :
    ¬ ∀ (nthreads : ℕ) (actions : List (Action Unit Unit)) (s : ThreadPool Unit Unit),
      (create nthreads).exec actions = some s → s.Quiescent →
        s.freeTasksQueue.Perm (List.range queueSize) := by
  intro always
  rcases quiescent_forgotten with ⟨s, run, quiet, short⟩
  have full := (always 1 forgotten s run quiet).length_eq
  rw [List.length_range] at full
  omega

end ThreadPool

end ChaosCache
