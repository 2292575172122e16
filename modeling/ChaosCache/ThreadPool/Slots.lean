import Mathlib.Data.List.Nodup
import ChaosCache.ThreadPool

/-!
# The way of a slot

The pool without its locks: slots go from the free queue to a submitter, which fills them,
then to the queue of tasks, to a worker, which runs them, and back. What a thread has to do
with a slot is its `Holding`. A slot is in one place at any time, so that nobody but its
holder writes to it, and the tasks that come out are those that went in.
-/

namespace ChaosCache

open Relation

/-- What a thread has to do with a slot. -/
inductive Holding (ρ δ : Type) where
  | nothing
  /-- A submitter that waits for a slot -/
  | wants (task : PoolTask ρ δ)
  | blank (task : PoolTask ρ δ) (slot : ℕ)
  /-- The routine is written, the data is not. -/
  | half (task : PoolTask ρ δ) (slot : ℕ)
  | full (task : PoolTask ρ δ) (slot : ℕ)
  /-- A worker that has not yet called the routine -/
  | taken (slot : ℕ)
  /-- A worker that has called it -/
  | used (slot : ℕ)

namespace Holding

variable {ρ δ : Type}

def slot : Holding ρ δ → Option ℕ
  | nothing => none
  | wants _ => none
  | blank _ slot => some slot
  | half _ slot => some slot
  | full _ slot => some slot
  | taken slot => some slot
  | used slot => some slot

@[simp]
theorem slot_nothing : (nothing : Holding ρ δ).slot = none := rfl

/-- The task that a submitter has been given. -/
def task : Holding ρ δ → Option (PoolTask ρ δ)
  | wants task => some task
  | blank task _ => some task
  | half task _ => some task
  | full task _ => some task
  | _ => none

end Holding

/-- Where a slot is. -/
inductive Location where
  | free
  | queued
  | held (t : Thread)

structure Slots (ρ δ : Type) where
  tasks : ℕ → PoolTask ρ δ
  free : List ℕ
  queue : List ℕ
  holding : Thread → Holding ρ δ
  pushed : List (PoolTask ρ δ)
  taken : List (Thread × PoolTask ρ δ)
  ran : List (Thread × PoolTask ρ δ)

/-- The entries of a log that belong to a thread. -/
def logOf {α : Type} (log : List (Thread × α)) (t : Thread) : List α :=
  (log.filter (·.1 = t)).map (·.2)

section Log

variable {α : Type} {log : List (Thread × α)} {t u : Thread} {x : α}

theorem logOf_append_self : logOf (log ++ [(t, x)]) t = logOf log t ++ [x] := by
  simp [logOf]

theorem logOf_append_of_ne (other : t ≠ u) : logOf (log ++ [(u, x)]) t = logOf log t := by
  simp [logOf, Ne.symm other]

theorem mem_of_mem_logOf (mem : x ∈ logOf log t) : x ∈ log.map (·.2) := by
  simp only [logOf, List.mem_map, List.mem_filter] at mem ⊢
  rcases mem with ⟨entry, ⟨inLog, -⟩, same⟩
  exact ⟨entry, inLog, same⟩

end Log

namespace Slots

variable {ρ δ : Type}

def At (x : Slots ρ δ) (slot : ℕ) : Location → Prop
  | .free => slot ∈ x.free
  | .queued => slot ∈ x.queue
  | .held t => (x.holding t).slot = some slot

/-- Every slot is in exactly one place, and in it once. -/
structure Partitioned (x : Slots ρ δ) : Prop where
  nodupFree : x.free.Nodup
  nodupQueue : x.queue.Nodup
  unique : ∀ slot location location', x.At slot location → x.At slot location' →
    location = location'
  within : ∀ slot location, x.At slot location → slot < queueSize
  covered : ∀ slot, slot < queueSize → ∃ location, x.At slot location

/-- The state after a step that leaves a thread with a holding. -/
def go (x : Slots ρ δ) (t : Thread) (holding : Holding ρ δ) : Slots ρ δ :=
  { x with holding := Function.update x.holding t holding }

inductive Step : Slots ρ δ → Slots ρ δ → Prop
  | ask {x : Slots ρ δ} (t : Thread) (task : PoolTask ρ δ) (nothing : x.holding t = .nothing)
      (runs : task.routine ≠ none) : Step x (x.go t (.wants task))
  | obtain {x : Slots ρ δ} (t : Thread) (task : PoolTask ρ δ) (slot : ℕ) (rest : List ℕ)
      (wants : x.holding t = .wants task) (front : x.free = slot :: rest) :
      Step x { x.go t (.blank task slot) with free := rest }
  | writeRoutine {x : Slots ρ δ} (t : Thread) (task : PoolTask ρ δ) (slot : ℕ)
      (blank : x.holding t = .blank task slot) :
      Step x { x.go t (.half task slot) with
        tasks := Function.update x.tasks slot { x.tasks slot with routine := task.routine } }
  | writeData {x : Slots ρ δ} (t : Thread) (task : PoolTask ρ δ) (slot : ℕ)
      (half : x.holding t = .half task slot) :
      Step x { x.go t (.full task slot) with
        tasks := Function.update x.tasks slot { x.tasks slot with data := task.data } }
  | push {x : Slots ρ δ} (t : Thread) (task : PoolTask ρ δ) (slot : ℕ)
      (full : x.holding t = .full task slot) :
      Step x { x.go t .nothing with
        queue := x.queue ++ [slot], pushed := x.pushed ++ [task] }
  | take {x : Slots ρ δ} (t : Thread) (slot : ℕ) (rest : List ℕ)
      (nothing : x.holding t = .nothing) (front : x.queue = slot :: rest) :
      Step x { x.go t (.taken slot) with
        queue := rest, taken := x.taken ++ [(t, x.tasks slot)] }
  | run {x : Slots ρ δ} (t : Thread) (slot : ℕ) (taken : x.holding t = .taken slot) :
      Step x { x.go t (.used slot) with ran := x.ran ++ [(t, x.tasks slot)] }
  | clear {x : Slots ρ δ} (t : Thread) (slot : ℕ) (task : PoolTask ρ δ)
      (used : x.holding t = .used slot) :
      Step x { x with tasks := Function.update x.tasks slot task }
  | release {x : Slots ρ δ} (t : Thread) (slot : ℕ) (used : x.holding t = .used slot) :
      Step x { x.go t .nothing with free := x.free ++ [slot] }

/-- What the slot of a submitter contains. -/
def Carries (tasks : ℕ → PoolTask ρ δ) : Holding ρ δ → Prop
  | .half task slot => (tasks slot).routine = task.routine
  | .full task slot => tasks slot = task
  | _ => True

/-- The task that a worker has taken and not yet run. -/
def pending (tasks : ℕ → PoolTask ρ δ) : Holding ρ δ → List (PoolTask ρ δ)
  | .taken slot => [tasks slot]
  | _ => []

/-- The state in which some more slots are free. -/
def withFree (x : Slots ρ δ) (slots : List ℕ) : Slots ρ δ := { x with free := x.free ++ slots }

/-- The slots are partitioned once those that got lost are counted as free, and what goes into
the queue comes out of it. -/
structure Flow (x : Slots ρ δ) (lost : List ℕ) : Prop where
  parts : (x.withFree lost).Partitioned
  carries : ∀ t, Carries x.tasks (x.holding t)
  fifo : x.pushed = x.taken.map (·.2) ++ x.queue.map x.tasks

structure Inv (x : Slots ρ δ) : Prop where
  parts : x.Partitioned
  carries : ∀ t, Carries x.tasks (x.holding t)
  runs : ∀ t task, (x.holding t).task = some task → task.routine ≠ none
  pushedRuns : ∀ task ∈ x.pushed, task.routine ≠ none
  fifo : x.pushed = x.taken.map (·.2) ++ x.queue.map x.tasks
  once : ∀ t, logOf x.taken t = logOf x.ran t ++ pending x.tasks (x.holding t)

variable {x x' : Slots ρ δ} {t u : Thread} {slot : ℕ}

namespace Partitioned

/-- The order of the free queue does not matter. -/
theorem perm (parts : x.Partitioned) (free : x'.free.Perm x.free) (queue : x'.queue = x.queue)
    (held : ∀ t, (x'.holding t).slot = (x.holding t).slot) : x'.Partitioned := by
  have same : ∀ slot location, x'.At slot location ↔ x.At slot location := by
    intro slot location
    cases location with
    | free => exact free.mem_iff
    | queued => simp [At, queue]
    | held t => simp [At, held]
  refine ⟨free.nodup_iff.mpr parts.nodupFree, queue ▸ parts.nodupQueue, ?_, ?_, ?_⟩
  · intro slot location location' isAt isAt'
    exact parts.unique slot location location' ((same _ _).mp isAt) ((same _ _).mp isAt')
  · intro slot location isAt
    exact parts.within slot location ((same _ _).mp isAt)
  · intro slot inRange
    rcases parts.covered slot inRange with ⟨location, isAt⟩
    exact ⟨location, (same _ _).mpr isAt⟩

theorem congr (parts : x.Partitioned) (free : x'.free = x.free) (queue : x'.queue = x.queue)
    (held : ∀ t, (x'.holding t).slot = (x.holding t).slot) : x'.Partitioned :=
  parts.perm (List.Perm.of_eq free) queue held

/-- One slot moves to another location. -/
theorem move (parts : x.Partitioned) (source target : Location) (nodupFree : x'.free.Nodup)
    (nodupQueue : x'.queue.Nodup) (was : x.At slot source)
    (now : ∀ location, x'.At slot location ↔ location = target)
    (rest : ∀ slot', slot' ≠ slot → ∀ location, x'.At slot' location ↔ x.At slot' location) :
    x'.Partitioned := by
  refine ⟨nodupFree, nodupQueue, ?_, ?_, ?_⟩
  · intro slot' location location' isAt isAt'
    by_cases same : slot' = slot
    · subst same
      rw [(now _).mp isAt, (now _).mp isAt']
    · exact parts.unique slot' location location' ((rest slot' same _).mp isAt)
        ((rest slot' same _).mp isAt')
  · intro slot' location isAt
    by_cases same : slot' = slot
    · exact same ▸ parts.within slot source was
    · exact parts.within slot' location ((rest slot' same _).mp isAt)
  · intro slot' inRange
    by_cases same : slot' = slot
    · exact ⟨target, same ▸ (now _).mpr rfl⟩
    · rcases parts.covered slot' inRange with ⟨location, isAt⟩
      exact ⟨location, (rest slot' same _).mpr isAt⟩

/-- Two threads never hold the same slot. -/
theorem thread_eq (parts : x.Partitioned) (held : (x.holding t).slot = some slot)
    (held' : (x.holding u).slot = some slot) : t = u := by
  have same := parts.unique slot (.held t) (.held u) held held'
  cases same
  rfl

theorem notMem_free (parts : x.Partitioned) (held : (x.holding t).slot = some slot) :
    slot ∉ x.free := by
  intro isFree
  cases parts.unique slot (.held t) .free held isFree

theorem notMem_queue (parts : x.Partitioned) (held : (x.holding t).slot = some slot) :
    slot ∉ x.queue := by
  intro isQueued
  cases parts.unique slot (.held t) .queued held isQueued

theorem not_held_of_free (parts : x.Partitioned) (isFree : slot ∈ x.free) :
    (x.holding t).slot ≠ some slot :=
  fun held => parts.notMem_free held isFree

theorem not_held_of_queued (parts : x.Partitioned) (isQueued : slot ∈ x.queue) :
    (x.holding t).slot ≠ some slot :=
  fun held => parts.notMem_queue held isQueued

end Partitioned

theorem carries_congr {tasks tasks' : ℕ → PoolTask ρ δ} {holding : Holding ρ δ}
    (same : ∀ slot, holding.slot = some slot → tasks' slot = tasks slot) :
    Carries tasks' holding ↔ Carries tasks holding := by
  cases holding <;> simp_all [Carries, Holding.slot]

theorem pending_congr {tasks tasks' : ℕ → PoolTask ρ δ} {holding : Holding ρ δ}
    (same : ∀ slot, holding.slot = some slot → tasks' slot = tasks slot) :
    pending tasks' holding = pending tasks holding := by
  cases holding <;> simp_all [pending, Holding.slot]

namespace Flow

variable {lost lost' : List ℕ}

/-- A thread takes up or puts down a slot. Where the slots are is left to show. -/
theorem move (flow : x.Flow lost) {holding : Holding ρ δ}
    (parts : (x'.withFree lost').Partitioned) (tasks : x'.tasks = x.tasks)
    (moved : x'.holding = Function.update x.holding t holding) (carries : Carries x.tasks holding)
    (fifo : x'.pushed = x'.taken.map (·.2) ++ x'.queue.map x'.tasks) : x'.Flow lost' := by
  refine ⟨parts, ?_, fifo⟩
  intro u
  rw [tasks, moved]
  by_cases same : u = t
  · simpa [same] using carries
  · simpa [same] using flow.carries u

/-- The slots of other threads are elsewhere. -/
theorem tasks_of_ne (flow : x.Flow lost) (held : (x.holding t).slot = some slot)
    (content : PoolTask ρ δ) (other : u ≠ t) {slot' : ℕ} (held' : (x.holding u).slot = some slot') :
    Function.update x.tasks slot content slot' = x.tasks slot' := by
  apply Function.update_of_ne
  rintro rfl
  exact other (flow.parts.thread_eq held' held)

theorem write (flow : x.Flow lost) {holding : Holding ρ δ} {content : PoolTask ρ δ}
    (held : (x.holding t).slot = some slot) (still : holding.slot = some slot)
    (carries : Carries (Function.update x.tasks slot content) holding) :
    ({ x.go t holding with tasks := Function.update x.tasks slot content } :
      Slots ρ δ).Flow lost := by
  refine ⟨flow.parts.congr rfl rfl ?_, ?_, ?_⟩
  · intro u
    by_cases same : u = t
    · simp [same, go, withFree, held, still]
    · simp [same, go, withFree]
  · intro u
    by_cases same : u = t
    · simpa [same, go] using carries
    · simp only [go, Function.update_of_ne same]
      exact (carries_congr fun _ held' => flow.tasks_of_ne held content same held').mpr
        (flow.carries u)
  · -- the slot is not queued while it is held
    have queue : x.queue.map (Function.update x.tasks slot content) = x.queue.map x.tasks := by
      apply List.map_congr_left
      intro slot' isQueued
      apply Function.update_of_ne
      rintro rfl
      exact flow.parts.notMem_queue held isQueued
    simpa [go, queue] using flow.fifo

end Flow

@[simp]
theorem withFree_nil (x : Slots ρ δ) : x.withFree [] = x := by
  simp [withFree]

namespace Inv

theorem flow (inv : x.Inv) : x.Flow [] := ⟨by simpa using inv.parts, inv.carries, inv.fifo⟩

/-- A thread takes up or puts down a slot. Where the slots are and what the logs say of the
thread is left to show. -/
theorem move (inv : x.Inv) {holding : Holding ρ δ} (parts : x'.Partitioned)
    (tasks : x'.tasks = x.tasks) (moved : x'.holding = Function.update x.holding t holding)
    (carries : Carries x.tasks holding)
    (runs : ∀ task, holding.task = some task → task.routine ≠ none)
    (pushedRuns : ∀ task ∈ x'.pushed, task.routine ≠ none)
    (fifo : x'.pushed = x'.taken.map (·.2) ++ x'.queue.map x'.tasks)
    (once : logOf x'.taken t = logOf x'.ran t ++ pending x.tasks holding)
    (others : ∀ u, u ≠ t → logOf x'.taken u = logOf x.taken u ∧ logOf x'.ran u = logOf x.ran u) :
    x'.Inv := by
  have flow : x'.Flow [] := inv.flow.move (by simpa using parts) tasks moved carries fifo
  refine ⟨parts, flow.carries, ?_, pushedRuns, fifo, ?_⟩
  · intro u task isTask
    rw [moved] at isTask
    by_cases same : u = t
    · exact runs task (by simpa [same] using isTask)
    · exact inv.runs u task (by simpa [same] using isTask)
  · intro u
    rw [tasks, moved]
    by_cases same : u = t
    · subst same
      simpa using once
    · rw [(others u same).1, (others u same).2]
      simpa [same] using inv.once u

theorem write (inv : x.Inv) {holding : Holding ρ δ} {content : PoolTask ρ δ}
    (held : (x.holding t).slot = some slot) (still : holding.slot = some slot)
    (noTask : pending x.tasks (x.holding t) = []) (sameTask : holding.task = (x.holding t).task)
    (carries : Carries (Function.update x.tasks slot content) holding)
    (noTask' : pending (Function.update x.tasks slot content) holding = []) :
    ({ x.go t holding with tasks := Function.update x.tasks slot content } :
      Slots ρ δ).Inv := by
  have flow := inv.flow.write (t := t) held still carries
  refine ⟨by simpa using flow.parts, flow.carries, ?_, inv.pushedRuns, flow.fifo, ?_⟩
  · intro u task isTask
    by_cases same : u = t
    · apply inv.runs t task
      simpa [same, go, sameTask] using isTask
    · exact inv.runs u task (by simpa [same, go] using isTask)
  · intro u
    by_cases same : u = t
    · have before := inv.once t
      rw [noTask] at before
      simpa [same, go, noTask'] using before
    · simp only [go, Function.update_of_ne same]
      rw [pending_congr fun _ held' => inv.flow.tasks_of_ne held content same held']
      exact inv.once u

end Inv

namespace Partitioned

theorem obtain (parts : x.Partitioned) {rest : List ℕ} {holding : Holding ρ δ}
    (front : x.free = slot :: rest) (empty : (x.holding t).slot = none)
    (holds : holding.slot = some slot) :
    ({ x.go t holding with free := rest } : Slots ρ δ).Partitioned := by
  have nodup := parts.nodupFree
  rw [front, List.nodup_cons] at nodup
  have isFree : slot ∈ x.free := by simp [front]
  refine parts.move .free (.held t) nodup.2 parts.nodupQueue isFree ?_ ?_
  · intro location
    cases location with
    | free => simpa [At] using nodup.1
    | queued =>
        have notQueued : slot ∉ x.queue := by
          intro isQueued
          cases parts.unique slot .free .queued isFree isQueued
        simpa [At, go] using notQueued
    | held u =>
        by_cases same : u = t
        · simp [At, same, go, holds]
        · simpa [At, same, go] using parts.not_held_of_free isFree
  · intro slot' other location
    cases location with
    | free => simp [At, front, other]
    | queued => rfl
    | held u =>
        by_cases same : u = t
        · simp [At, same, go, empty, holds, Ne.symm other]
        · simp [At, same, go]

theorem take (parts : x.Partitioned) {rest : List ℕ} {holding : Holding ρ δ}
    {taken : List (Thread × PoolTask ρ δ)}
    (front : x.queue = slot :: rest) (empty : (x.holding t).slot = none)
    (holds : holding.slot = some slot) :
    ({ x.go t holding with queue := rest, taken } : Slots ρ δ).Partitioned := by
  have nodup := parts.nodupQueue
  rw [front, List.nodup_cons] at nodup
  have isQueued : slot ∈ x.queue := by simp [front]
  refine parts.move .queued (.held t) parts.nodupFree nodup.2 isQueued ?_ ?_
  · intro location
    cases location with
    | free =>
        have notFree : slot ∉ x.free := by
          intro isFree
          cases parts.unique slot .free .queued isFree isQueued
        simpa [At, go] using notFree
    | queued => simpa [At] using nodup.1
    | held u =>
        by_cases same : u = t
        · simp [At, same, go, holds]
        · simpa [At, same, go] using parts.not_held_of_queued isQueued
  · intro slot' other location
    cases location with
    | free => rfl
    | queued => simp [At, front, other]
    | held u =>
        by_cases same : u = t
        · simp [At, same, go, empty, holds, Ne.symm other]
        · simp [At, same, go]

theorem push (parts : x.Partitioned) {pushed : List (PoolTask ρ δ)}
    (held : (x.holding t).slot = some slot) :
    ({ x.go t .nothing with queue := x.queue ++ [slot], pushed } : Slots ρ δ).Partitioned := by
  have nodup : (x.queue ++ [slot]).Nodup := by
    apply List.Nodup.append parts.nodupQueue (List.nodup_singleton slot)
    simpa using parts.notMem_queue held
  refine parts.move (.held t) .queued parts.nodupFree nodup held ?_ ?_
  · intro location
    cases location with
    | free => simpa [At, go] using parts.notMem_free held
    | queued => simp [At]
    | held u =>
        by_cases same : u = t
        · simp [At, same, go]
        · simp only [At, go, Function.update_of_ne same, reduceCtorEq, iff_false]
          exact fun held' => same (parts.thread_eq held' held)
  · intro slot' other location
    cases location with
    | free => rfl
    | queued => simp [At, other]
    | held u =>
        by_cases same : u = t
        · simp [At, same, go, held, Ne.symm other]
        · simp [At, same, go]

theorem release (parts : x.Partitioned) (held : (x.holding t).slot = some slot) :
    ({ x.go t .nothing with free := x.free ++ [slot] } : Slots ρ δ).Partitioned := by
  have nodup : (x.free ++ [slot]).Nodup := by
    apply List.Nodup.append parts.nodupFree (List.nodup_singleton slot)
    simpa using parts.notMem_free held
  refine parts.move (.held t) .free nodup parts.nodupQueue held ?_ ?_
  · intro location
    cases location with
    | free => simp [At]
    | queued => simpa [At, go] using parts.notMem_queue held
    | held u =>
        by_cases same : u = t
        · simp [At, same, go]
        · simp only [At, go, Function.update_of_ne same, reduceCtorEq, iff_false]
          exact fun held' => same (parts.thread_eq held' held)
  · intro slot' other location
    cases location with
    | free => simp [At, other]
    | queued => rfl
    | held u =>
        by_cases same : u = t
        · simp [At, same, go, held, Ne.symm other]
        · simp [At, same, go]

theorem go (parts : x.Partitioned) {holding : Holding ρ δ}
    (same : holding.slot = (x.holding t).slot) {ran : List (Thread × PoolTask ρ δ)} :
    ({ x.go t holding with ran := ran } : Slots ρ δ).Partitioned := by
  refine parts.congr rfl rfl ?_
  intro u
  by_cases isSelf : u = t
  · simp [isSelf, Slots.go, same]
  · simp [isSelf, Slots.go]

end Partitioned

namespace Inv

theorem noTask (inv : x.Inv) (nothing : pending x.tasks (x.holding t) = []) :
    logOf x.taken t = logOf x.ran t := by
  simpa [nothing] using inv.once t

theorem step (inv : x.Inv) (step : Step x x') : x'.Inv := by
  cases step with
  | ask t task nothing runs =>
      apply inv.move (t := t) (inv.parts.go (by simp [nothing, Holding.slot])) rfl rfl
      · trivial
      · rintro _ ⟨⟩
        exact runs
      · exact inv.pushedRuns
      · exact inv.fifo
      · simpa [go, pending] using inv.noTask (by simp [nothing, pending])
      · exact fun u _ => ⟨rfl, rfl⟩
  | obtain t task slot rest wants front =>
      apply inv.move (t := t) (inv.parts.obtain front (by simp [wants, Holding.slot]) rfl) rfl rfl
      · trivial
      · rintro _ ⟨⟩
        exact inv.runs t task (by simp [wants, Holding.task])
      · exact inv.pushedRuns
      · exact inv.fifo
      · simpa [go, pending] using inv.noTask (by simp [wants, pending])
      · exact fun u _ => ⟨rfl, rfl⟩
  | writeRoutine t task slot blank =>
      apply inv.write
      · simp [blank, Holding.slot]
      · rfl
      · simp [blank, pending]
      · simp [blank, Holding.task]
      · simp [Carries]
      · rfl
  | writeData t task slot half =>
      have routine := inv.carries t
      simp only [half, Carries] at routine
      apply inv.write
      · simp [half, Holding.slot]
      · rfl
      · simp [half, pending]
      · simp [half, Holding.task]
      · simp [Carries, routine]
      · rfl
  | push t task slot full =>
      have content := inv.carries t
      simp only [full, Carries] at content
      apply inv.move (t := t) (inv.parts.push (by simp [full, Holding.slot])) rfl rfl
      · trivial
      · rintro _ ⟨⟩
      · intro task' mem
        rcases List.mem_append.mp mem with old | new
        · exact inv.pushedRuns task' old
        · rw [List.mem_singleton.mp new]
          exact inv.runs t task (by simp [full, Holding.task])
      · simp [go, inv.fifo, content]
      · simpa [go, pending] using inv.noTask (by simp [full, pending])
      · exact fun u _ => ⟨rfl, rfl⟩
  | take t slot rest nothing front =>
      apply inv.move (t := t) (inv.parts.take front (by simp [nothing, Holding.slot]) rfl) rfl rfl
      · trivial
      · rintro _ ⟨⟩
      · exact inv.pushedRuns
      · simp [go, inv.fifo, front]
      · rw [logOf_append_self, inv.noTask (by simp [nothing, pending])]
        rfl
      · exact fun u other => ⟨logOf_append_of_ne other, rfl⟩
  | run t slot taken =>
      apply inv.move (t := t) (inv.parts.go (by simp [taken, Holding.slot])) rfl rfl
      · trivial
      · rintro _ ⟨⟩
      · exact inv.pushedRuns
      · exact inv.fifo
      · have before := inv.once t
        rw [taken] at before
        rw [logOf_append_self]
        simpa [go, pending] using before
      · exact fun u other => ⟨rfl, logOf_append_of_ne other⟩
  | clear t slot task used =>
      have held : (x.holding t).slot = some slot := by simp [used, Holding.slot]
      have carries : Carries (Function.update x.tasks slot task) (x.holding t) := by
        simp [used, Carries]
      have written := inv.write held held (by simp [used, pending]) rfl carries
        (by simp [used, pending])
      simpa [go] using written
  | release t slot used =>
      apply inv.move (t := t) (inv.parts.release (by simp [used, Holding.slot])) rfl rfl
      · trivial
      · rintro _ ⟨⟩
      · exact inv.pushedRuns
      · exact inv.fifo
      · simpa [go, pending] using inv.noTask (by simp [used, pending])
      · exact fun u _ => ⟨rfl, rfl⟩

theorem mem_pushed (inv : x.Inv) (taken : x.holding t = .taken slot) :
    x.tasks slot ∈ x.pushed := by
  have isTaken : x.tasks slot ∈ logOf x.taken t := by
    rw [inv.once t, taken]
    simp [pending]
  rw [inv.fifo]
  exact List.mem_append_left _ (mem_of_mem_logOf isTaken)

/-- Whatever a worker has taken can be run. -/
theorem routine_ne_none (inv : x.Inv) (taken : x.holding t = .taken slot) :
    (x.tasks slot).routine ≠ none :=
  inv.pushedRuns _ (inv.mem_pushed taken)

end Inv

end Slots

end ChaosCache
