import ChaosCache.LocalClients.Signals
import ChaosCache.ThreadPool.Progress

/-!
# How the clients come to a standstill

A signal that comes while its client is still on its way to the wait is gone, and so is the
client: nothing ever wakes it up. There is no other way to lose a client, and the program does
not stand still before all of them are lost. Then it does, after a bounded number of steps.
-/

namespace ChaosCache

open Relation

namespace ThreadPool

variable {ρ δ : Type} {p p' : ThreadPool ρ δ} {t u : Thread}

/-- No other thread writes to the slot of a running task. -/
theorem tasks_of_running (inv : p.TaskInv) (moved : p.advance t = some p') (other : u ≠ t)
    {slot : ℕ} (running : p.place u = .running slot) : p'.tasks slot = p.tasks slot := by
  apply tasks_of_advance moved
  intro held
  have held' : (p.slotsView.holding u).slot = some slot := by
    simp [slotsView, running, Place.holding, Holding.slot]
  exact absurd (inv.slots.parts.thread_eq held' held) other

theorem tasks_of_wake (moved : p.wake t = some p') : p'.tasks = p.tasks :=
  congrArg Slots.tasks (slotsView_of_wake moved)

theorem Asks.of_run {nthreads : ℕ} (run : ReflTransGen Step (create nthreads) p) :
    ∃ tasks asks, p.Asks tasks asks := by
  induction run with
  | refl =>
      refine ⟨[], [], List.nodup_nil, fun t task => ?_, .refl _⟩
      have holding : ((create nthreads : ThreadPool ρ δ).place t).holding = .nothing :=
        holding_create nthreads t
      simp [holding, Holding.task]
  | tail before last ih =>
      rcases ih with ⟨tasks, asks, isAsked⟩
      rcases last with ⟨action, moved⟩
      have safe := (RoleInv.of_run before).1.step ⟨action, moved⟩
      rcases isAsked.step safe moved with ⟨asks', isAsked'⟩
      exact ⟨_, asks', isAsked'⟩

end ThreadPool

namespace LocalClients

variable {s s' : LocalClients} {i n : ℕ} {t : Thread}

/-! ## Lost clients -/

/-- An action of the pool, of a routine or of one of the `n` clients. The clients do not wake up
without a signal, and the pool is not destroyed. -/
def Action.Ordinary (n : ℕ) : Action → Prop
  | .submit i => i < n
  | .wait i => i < n
  | .wakeClient _ => False
  | .advance t => t ≠ .destructor
  | _ => True

/-- The client waits, or is about to wait, for a signal that has come already. -/
def Lost (s : LocalClients) (i : ℕ) : Prop :=
  s.client i ≠ .calling ∧ s.last i ∈ s.signalled

/-- The action signals the last task of the client while the client is on its way to the wait. -/
def Misses (s : LocalClients) (i : ℕ) (action : Action) : Prop :=
  s.client i = .submitting ∧ ∃ t slot, action = .signal t ∧ s.runs t = some slot ∧
    (s.pool.tasks slot).data = some (s.last i)

/-- The client misses a signal somewhere in the run. -/
def MissesIn (s : LocalClients) (i : ℕ) (actions : List Action) : Prop :=
  ∃ before action after mid, actions = before ++ action :: after ∧
    s.exec before = some mid ∧ mid.Misses i action

/-- Nothing can happen, but for threads of the pool that wake up without a notification. -/
def Stuck (s : LocalClients) (n : ℕ) : Prop :=
  ∀ action, action.Ordinary n → (∀ t, action ≠ .wake t) → s.step action = none

/-! ## The handshake without spurious wakeups -/

/-- The tasks of a thread whose clients it has signalled. -/
def answeredBy (s : LocalClients) (t : Thread) : List (PoolTask ClientRoutine Request) :=
  if (s.runs t).isSome ∧ s.progress t ≠ .signalled then (logOf s.pool.ran t).dropLast
  else logOf s.pool.ran t

structure Handshake (s : LocalClients) : Prop where
  pool : s.pool.TaskInv
  own : ∀ t task, (s.pool.place t).holding.task = some task →
    ∃ i, t = .submitter i ∧ task.data = some (s.last i) ∧ s.client i = .submitting
  asked : ∀ task ∈ s.pool.pushed, ∃ request, task.data = some request ∧
    request.serial ≤ s.serial request.client
  fresh : ∀ t task, (s.pool.place t).holding.task = some task →
    task.data ∉ s.pool.pushed.map (·.data)
  distinct : (s.pool.pushed.map (·.data)).Nodup
  current : ∀ t slot, s.pool.place t = .running slot →
    ∃ before, logOf s.pool.ran t = before ++ [s.pool.tasks slot]
  answered : ∀ request, request ∈ s.signalled ↔
    ∃ t, ∃ task ∈ s.answeredBy t, task.data = some request
  /-- A client has at most one task that is not answered, and waits for it or is about to. -/
  latest : ∀ task ∈ s.pool.pushed, ∀ request, task.data = some request →
    request ∉ s.signalled →
      request = s.last request.client ∧ s.client request.client ≠ .calling
  submitted : ∀ i, s.client i ≠ .calling →
    (s.pool.place (.submitter i)).holding.task = none →
      ∃ task ∈ s.pool.pushed, task.data = some (s.last i)

theorem answeredBy_of_running {slot : ℕ} (running : s.pool.place t = .running slot)
    (notYet : s.progress t ≠ .signalled) : s.answeredBy t = (logOf s.pool.ran t).dropLast := by
  simp [answeredBy, runs_eq_some.mpr running, notYet]

theorem answeredBy_of_not (not : ∀ slot, s.pool.place t = .running slot →
    s.progress t = .signalled) : s.answeredBy t = logOf s.pool.ran t := by
  refine if_neg ?_
  rintro ⟨runs, notYet⟩
  rcases Option.isSome_iff_exists.mp runs with ⟨slot, isSlot⟩
  exact notYet (not slot (runs_eq_some.mp isSlot))

/-- What a thread has answered it has run. -/
theorem answeredBy_subset : s.answeredBy t ⊆ logOf s.pool.ran t := by
  unfold answeredBy
  split
  · exact List.dropLast_subset _
  · exact List.Subset.refl _

namespace Handshake

/-- What a thread has run it has taken. -/
theorem mem_taken (inv : s.Handshake) {task : PoolTask ClientRoutine Request}
    (hasRun : task ∈ logOf s.pool.ran t) : (t, task) ∈ s.pool.taken := by
  have once : logOf s.pool.taken t = logOf s.pool.ran t ++
    Slots.pending s.pool.tasks (s.pool.place t).holding := inv.pool.slots.once t
  have byThread : task ∈ logOf s.pool.taken t := by
    rw [once]
    exact List.mem_append_left _ hasRun
  rcases List.mem_map.mp byThread with ⟨⟨u, task'⟩, inLog, rfl⟩
  rcases List.mem_filter.mp inLog with ⟨isTaken, own⟩
  have same : u = t := by simpa using own
  exact same ▸ isTaken

theorem pushed_eq (inv : s.Handshake) :
    s.pool.pushed = s.pool.taken.map (·.2) ++ s.pool.tasksQueue.map s.pool.tasks :=
  inv.pool.slots.fifo

theorem mem_pushed (inv : s.Handshake) {task : PoolTask ClientRoutine Request}
    (hasRun : task ∈ logOf s.pool.ran t) : task ∈ s.pool.pushed := by
  rw [inv.pushed_eq]
  exact List.mem_append_left _ (List.mem_map_of_mem (f := Prod.snd) (inv.mem_taken hasRun))

theorem distinct_taken (inv : s.Handshake) : (s.pool.taken.map (·.2.data)).Nodup := by
  have distinct := inv.distinct
  rw [inv.pushed_eq, List.map_append, List.map_map] at distinct
  exact (List.nodup_append.mp distinct).1

/-- No request is run twice, by the same thread or by two. -/
theorem thread_eq (inv : s.Handshake) {u : Thread} {task task' : PoolTask ClientRoutine Request}
    (hasRun : task ∈ logOf s.pool.ran t) (hasRun' : task' ∈ logOf s.pool.ran u)
    (same : task.data = task'.data) : t = u ∧ task = task' := by
  have entries : (t, task) = (u, task') := List.inj_on_of_nodup_map inv.distinct_taken
    (inv.mem_taken hasRun) (inv.mem_taken hasRun') same
  exact ⟨congrArg Prod.fst entries, congrArg Prod.snd entries⟩

theorem nodup_ran (inv : s.Handshake) (t : Thread) : (logOf s.pool.ran t).Nodup := by
  have once : logOf s.pool.taken t = logOf s.pool.ran t ++
    Slots.pending s.pool.tasks (s.pool.place t).holding := inv.pool.slots.once t
  have byThread : (logOf s.pool.taken t).Nodup := by
    apply List.Nodup.of_map (·.data)
    rw [logOf, List.map_map]
    exact (List.filter_sublist.map _).nodup inv.distinct_taken
  rw [once] at byThread
  exact (List.nodup_append.mp byThread).1

/-- A routine that runs has the task that its thread called last. -/
theorem running_mem (inv : s.Handshake) {slot : ℕ} (running : s.pool.place t = .running slot) :
    s.pool.tasks slot ∈ logOf s.pool.ran t := by
  rcases inv.current t slot running with ⟨before, ran⟩
  rw [ran]
  exact List.mem_append_right _ (List.mem_singleton.mpr rfl)

/-- A request whose routine has not signalled yet is not answered. -/
theorem notMem_signalled (inv : s.Handshake) {slot : ℕ} {request : Request}
    (running : s.pool.place t = .running slot) (notYet : s.progress t ≠ .signalled)
    (data : (s.pool.tasks slot).data = some request) : request ∉ s.signalled := by
  intro isSignalled
  rcases (inv.answered request).mp isSignalled with ⟨u, task, isAnswered, data'⟩
  rcases inv.thread_eq (inv.running_mem running) (answeredBy_subset isAnswered)
    (data.trans data'.symm) with ⟨rfl, rfl⟩
  rcases inv.current t slot running with ⟨before, ran⟩
  have nodup := inv.nodup_ran t
  rw [answeredBy_of_running running notYet, ran, List.dropLast_concat] at isAnswered
  rw [ran, List.nodup_append] at nodup
  exact nodup.2.2 _ isAnswered _ (List.mem_singleton.mpr rfl) rfl

theorem signalled (inv : s.Handshake) {request : Request} (isSignalled : request ∈ s.signalled) :
    request.serial ≤ s.serial request.client := by
  rcases (inv.answered request).mp isSignalled with ⟨u, task, isAnswered, data⟩
  rcases inv.asked task (inv.mem_pushed (answeredBy_subset isAnswered)) with ⟨request', data', le⟩
  rw [data] at data'
  cases data'
  exact le

/-- A routine that has not signalled yet has the last task of a client. -/
theorem running_latest (inv : s.Handshake) {slot : ℕ} {request : Request}
    (running : s.pool.place t = .running slot) (notYet : s.progress t ≠ .signalled)
    (data : (s.pool.tasks slot).data = some request) :
    request = s.last request.client ∧ s.client request.client ≠ .calling :=
  inv.latest _ (inv.mem_pushed (inv.running_mem running)) request data
    (inv.notMem_signalled running notYet data)

end Handshake

theorem answeredBy_congr (ran : logOf s'.pool.ran t = logOf s.pool.ran t)
    (running : ∀ slot, s'.pool.place t = .running slot ↔ s.pool.place t = .running slot)
    (progress : s'.progress t = .signalled ↔ s.progress t = .signalled) :
    s'.answeredBy t = s.answeredBy t := by
  have runs : s'.runs t = s.runs t := Option.ext fun slot => by
    rw [runs_eq_some, runs_eq_some]
    exact running slot
  simp only [answeredBy, ran, runs, ne_eq, progress]

/-- A step of the pool does not change what is answered. -/
theorem answeredBy_withPool {pool : ThreadPool ClientRoutine Request}
    (moves : s.pool.Moves pool t)
    (left : ∀ slot, s.pool.place t = .running slot → s.progress t = .signalled) (u : Thread) :
    (s.withPool t pool).answeredBy u = s.answeredBy u := by
  by_cases same : u = t
  · subst same
    rw [answeredBy_of_not left]
    rcases moves.ran with ⟨ran, notRunning⟩ | ⟨slot, -, running, ran, -⟩
    · rw [answeredBy_of_not fun slot running => absurd running (notRunning slot)]
      simp only [withPool, ran]
    · have here : (s.withPool u pool).pool.place u = .running slot := running
      rw [answeredBy_of_running here (by simp [withPool])]
      simp only [withPool, ran, logOf_append_self, List.dropLast_concat]
  · apply answeredBy_congr
    · rcases moves.ran with ⟨ran, -⟩ | ⟨slot, -, -, ran, -⟩
      · simp only [withPool, ran]
      · simp only [withPool, ran, logOf_append_of_ne same]
    · exact moves.running u same
    · simp [withPool, same]

/-- Whom a signal does not send back to `add_task`. -/
theorem client_of_signal {request : Request} {j : ℕ} :
    (if s.client request.client = .waiting then
      Function.update s.client request.client .calling else s.client) j ≠ .calling ↔
        s.client j ≠ .calling ∧ (j = request.client → s.client j ≠ .waiting) := by
  by_cases waits : s.client request.client = .waiting
  · rw [if_pos waits]
    by_cases same : j = request.client
    · simp [same, waits]
    · simp [same]
  · rw [if_neg waits]
    refine ⟨fun called => ⟨called, ?_⟩, And.left⟩
    rintro rfl
    exact waits

theorem client_of_signal_of_ne {request : Request} {j : ℕ} (notWaiting : s.client j ≠ .waiting) :
    (if s.client request.client = .waiting then
      Function.update s.client request.client .calling else s.client) j = s.client j := by
  split
  · refine Function.update_of_ne ?_ _ _
    rintro rfl
    exact absurd ‹_› notWaiting
  · rfl

namespace Handshake

theorem answered_congr (inv : s.Handshake) (answeredBy : ∀ u, s'.answeredBy u = s.answeredBy u)
    (signalled : s'.signalled = s.signalled) (request : Request) :
    request ∈ s'.signalled ↔ ∃ t, ∃ task ∈ s'.answeredBy t, task.data = some request := by
  simp only [answeredBy, signalled]
  exact inv.answered request

/-- A step of the pool. A thread that leaves a routine has signalled. -/
theorem withPool (inv : s.Handshake) {pool : ThreadPool ClientRoutine Request}
    (poolInv : pool.TaskInv) (moves : s.pool.Moves pool t)
    (carried : ((pool.place t).holding.task = (s.pool.place t).holding.task ∧
        pool.pushed = s.pool.pushed) ∨
      ∃ task, (s.pool.place t).holding.task = some task ∧ (pool.place t).holding.task = none ∧
        pool.pushed = s.pool.pushed ++ [task])
    (kept : ∀ u, u ≠ t → ∀ slot, s.pool.place u = .running slot →
      pool.tasks slot = s.pool.tasks slot)
    (left : ∀ slot, s.pool.place t = .running slot → s.progress t = .signalled) :
    (s.withPool t pool).Handshake := by
  have held (u : Thread) (task : PoolTask ClientRoutine Request)
      (isTask : (pool.place u).holding.task = some task) :
      (s.pool.place u).holding.task = some task := by
    by_cases same : u = t
    · subst same
      exact moves.task task isTask
    · rwa [← moves.holding u same]
  refine ⟨poolInv, ?_, ?_, ?_, ?_, ?_, ?_, ?_, ?_⟩
  · intro u task isTask
    exact inv.own u task (held u task isTask)
  · intro task isPushed
    rcases moves.new task isPushed with old | new
    · exact inv.asked task old
    · rcases inv.own t task new with ⟨i, -, data, -⟩
      exact ⟨s.last i, data, Nat.le_refl _⟩
  · intro u task' isTask
    have old := inv.fresh u task' (held u task' isTask)
    rcases carried with ⟨-, pushed⟩ | ⟨newTask, before, after, pushed⟩
    · simpa only [LocalClients.withPool, pushed] using old
    · have other : u ≠ t := by
        rintro rfl
        have none : (pool.place u).holding.task = Option.none := after
        rw [LocalClients.withPool, none] at isTask
        cases isTask
      simp only [LocalClients.withPool, pushed, List.map_append, List.map_cons, List.map_nil,
        List.mem_append, List.mem_singleton, not_or]
      refine ⟨old, ?_⟩
      rcases inv.own u task' (held u task' isTask) with ⟨i, rfl, data, -⟩
      rcases inv.own t newTask before with ⟨j, rfl, data', -⟩
      rw [data, data']
      intro same
      cases same
      exact other rfl
  · rcases carried with ⟨-, pushed⟩ | ⟨newTask, before, -, pushed⟩
    · simpa only [LocalClients.withPool, pushed] using inv.distinct
    · simp only [LocalClients.withPool, pushed, List.map_append, List.map_cons, List.map_nil]
      refine List.nodup_append.mpr ⟨inv.distinct, List.nodup_singleton _, ?_⟩
      rintro data isPushed _ isNew rfl
      rw [List.mem_singleton.mp isNew] at isPushed
      exact inv.fresh t newTask before isPushed
  · intro u slot running
    by_cases same : u = t
    · subst same
      rcases moves.ran with ⟨-, notRunning⟩ | ⟨slot', -, running', ran, tasks⟩
      · exact absurd running (notRunning slot)
      · have sameSlot : slot' = slot := by simpa using running'.symm.trans running
        subst sameSlot
        refine ⟨logOf s.pool.ran u, ?_⟩
        simp only [LocalClients.withPool, ran, logOf_append_self, tasks]
    · have before := (moves.running u same slot).mp running
      simp only [LocalClients.withPool, kept u same slot before]
      rcases moves.ran with ⟨ran, -⟩ | ⟨slot', -, -, ran, -⟩
      · simpa only [ran] using inv.current u slot before
      · simpa only [ran, logOf_append_of_ne same] using inv.current u slot before
  · exact inv.answered_congr (answeredBy_withPool moves left) rfl
  · intro task isPushed request data notYet
    rcases moves.new task isPushed with old | new
    · exact inv.latest task old request data notYet
    · rcases inv.own t task new with ⟨i, -, data', submitting⟩
      rw [data'] at data
      cases data
      refine ⟨rfl, ?_⟩
      change s.client i ≠ .calling
      simp [submitting]
  · intro i called returned
    by_cases same : Thread.submitter i = t
    · subst same
      cases before : (s.pool.place (.submitter i)).holding.task with
      | none =>
          rcases inv.submitted i called before with ⟨task, isPushed, data⟩
          exact ⟨task, moves.pushed task isPushed, data⟩
      | some task =>
          rcases inv.own _ task before with ⟨j, sameThread, data, -⟩
          cases sameThread
          exact ⟨task, moves.given task before returned, data⟩
    · have before := returned
      simp only [LocalClients.withPool, moves.holding _ same] at before
      rcases inv.submitted i called before with ⟨task, isPushed, data⟩
      exact ⟨task, moves.pushed task isPushed, data⟩

end Handshake

namespace Handshake

theorem submit (inv : s.Handshake) (calling : s.client i = .calling)
    {pool : ThreadPool ClientRoutine Request}
    (added : s.pool.addTask (.submitter i) (s.task i) = some pool) :
    ({ s with
        pool
        client := Function.update s.client i .submitting
        serial := Function.update s.serial i (s.serial i + 1) } : LocalClients).Handshake := by
  have poolInv := inv.pool.addTask (by simp [LocalClients.task]) added
  cases here : s.pool.place (.submitter i) <;>
    simp only [ThreadPool.addTask, here, reduceCtorEq] at added
  case outside =>
    cases added
    have place : ∀ u, u ≠ .submitter i →
        (s.pool.go (.submitter i) (.lockFtq (s.task i))).place u = s.pool.place u := by
      intro u other
      simp [ThreadPool.go, other]
    have running : ∀ u slot,
        (s.pool.go (.submitter i) (.lockFtq (s.task i))).place u = .running slot ↔
          s.pool.place u = .running slot := by
      intro u slot
      by_cases same : u = .submitter i
      · subst same
        simp [ThreadPool.go, here]
      · rw [place u same]
    refine ⟨poolInv, ?_, ?_, ?_, inv.distinct, ?_, ?_, ?_, ?_⟩
    · intro u task isTask
      by_cases same : u = .submitter i
      · subst same
        simp only [ThreadPool.go, Function.update_self, Place.holding, Holding.task,
          Option.some.injEq] at isTask
        subst isTask
        exact ⟨i, rfl, by simp [LocalClients.task, last], by simp⟩
      · simp only [place u same] at isTask
        rcases inv.own u task isTask with ⟨j, rfl, data, submitting⟩
        have other : j ≠ i := by
          rintro rfl
          exact same rfl
        exact ⟨j, rfl, by simpa [last, other] using data, by simpa [other] using submitting⟩
    · intro task isPushed
      rcases inv.asked task isPushed with ⟨request, data, old⟩
      refine ⟨request, data, Nat.le_trans old ?_⟩
      by_cases same : request.client = i
      · simp [same]
      · simp [same]
    · intro u task isTask
      by_cases same : u = .submitter i
      · subst same
        simp only [ThreadPool.go, Function.update_self, Place.holding, Holding.task,
          Option.some.injEq] at isTask
        subst isTask
        intro isPushed
        rcases List.mem_map.mp isPushed with ⟨task, old, data⟩
        rcases inv.asked task old with ⟨request, data', le⟩
        rw [data'] at data
        cases data
        exact Nat.not_succ_le_self _ le
      · simp only [place u same] at isTask
        exact inv.fresh u task isTask
    · intro u slot isRunning
      exact inv.current u slot ((running u slot).mp isRunning)
    · exact inv.answered_congr (fun u => answeredBy_congr rfl (running u) Iff.rfl) rfl
    · intro task isPushed request data notYet
      rcases inv.latest task isPushed request data notYet with ⟨isLast, called⟩
      have other : request.client ≠ i := by
        intro same
        exact called (same ▸ calling)
      exact ⟨by simpa [last, other] using isLast, by simpa [other] using called⟩
    · intro j called returned
      by_cases same : j = i
      · subst same
        simp [ThreadPool.go, Place.holding, Holding.task] at returned
      · have other : Thread.submitter j ≠ .submitter i := by simpa using same
        simp only [place _ other] at returned
        have before : s.client j ≠ .calling := by simpa [same] using called
        rcases inv.submitted j before returned with ⟨task, isPushed, data⟩
        exact ⟨task, isPushed, by simpa [last, same] using data⟩

theorem operate (inv : s.Handshake) (atCache : s.progress t = .atCache) :
    ({ s with progress := Function.update s.progress t .atSignal } :
      LocalClients).Handshake := by
  refine { inv with answered := inv.answered_congr (fun u => ?_) rfl }
  refine answeredBy_congr rfl (fun _ => Iff.rfl) ?_
  by_cases same : u = t
  · simp [same, atCache]
  · simp [same]

/-- A routine signals. Where its client is blocked, this was the only task of the client that was
left. -/
theorem signal (inv : s.Handshake) {slot : ℕ} {request : Request} (running : s.runs t = some slot)
    (notYet : s.progress t ≠ .signalled)
    (data : (s.pool.tasks slot).data = some request) :
    ({ s with
        progress := Function.update s.progress t .signalled
        client :=
          if s.client request.client = .waiting then
            Function.update s.client request.client .calling
          else s.client
        signalled := request :: s.signalled } : LocalClients).Handshake := by
  have here := runs_eq_some.mp running
  refine { inv with own := ?_, answered := ?_, latest := ?_, submitted := ?_ }
  · intro u task isTask
    rcases inv.own u task isTask with ⟨i, isThread, data, submitting⟩
    exact ⟨i, isThread, data, (client_of_signal_of_ne (by simp [submitting])).trans submitting⟩
  · intro request'
    have others (u : Thread) (other : u ≠ t) (client : ℕ → ClientPlace) :
        ({ s with
            progress := Function.update s.progress t .signalled
            client
            signalled := request :: s.signalled } : LocalClients).answeredBy u =
          s.answeredBy u :=
      answeredBy_congr rfl (fun _ => Iff.rfl) (by simp [other])
    have own (client : ℕ → ClientPlace) :
        ({ s with
            progress := Function.update s.progress t .signalled
            client
            signalled := request :: s.signalled } : LocalClients).answeredBy t =
          s.answeredBy t ++ [s.pool.tasks slot] := by
      rcases inv.current t slot here with ⟨before, ran⟩
      rw [answeredBy_of_running here notYet, answeredBy_of_not fun _ _ => by simp]
      simp only [ran, List.dropLast_concat]
    rw [List.mem_cons, inv.answered request']
    constructor
    · rintro (rfl | ⟨u, task, isAnswered, data'⟩)
      · exact ⟨t, _, by rw [own]; simp, data⟩
      · refine ⟨u, task, ?_, data'⟩
        by_cases same : u = t
        · rw [same, own]
          exact List.mem_append_left _ (same ▸ isAnswered)
        · rwa [others u same]
    · rintro ⟨u, task, isAnswered, data'⟩
      by_cases same : u = t
      · rw [same, own] at isAnswered
        rcases List.mem_append.mp isAnswered with old | new
        · exact Or.inr ⟨t, task, old, data'⟩
        · left
          rw [List.mem_singleton.mp new, data] at data'
          exact (Option.some.inj data').symm
      · rw [others u same] at isAnswered
        exact Or.inr ⟨u, task, isAnswered, data'⟩
  · intro task isPushed request' data' notSignalled
    rw [List.mem_cons, not_or] at notSignalled
    rcases inv.latest task isPushed request' data' notSignalled.2 with ⟨isLast, called⟩
    refine ⟨isLast, ?_⟩
    have other : request'.client ≠ request.client := by
      intro same
      have isLast' := (inv.running_latest here notYet data).1
      rw [← same, ← isLast] at isLast'
      exact notSignalled.1 isLast'.symm
    exact client_of_signal.mpr ⟨called, fun same => absurd same other⟩
  · intro j called
    exact inv.submitted j (client_of_signal.mp called).1

theorem wait (inv : s.Handshake) (submitting : s.client i = .submitting)
    (outside : s.pool.place (.submitter i) = .outside) :
    ({ s with client := Function.update s.client i .waiting } : LocalClients).Handshake := by
  refine { inv with own := ?_, latest := ?_, submitted := ?_ }
  · intro u task isTask
    rcases inv.own u task isTask with ⟨j, rfl, data, isSubmitting⟩
    have other : j ≠ i := by
      rintro rfl
      simp [outside, Place.holding, Holding.task] at isTask
    exact ⟨j, rfl, data, by simpa [other] using isSubmitting⟩
  · intro task isPushed request data notYet
    rcases inv.latest task isPushed request data notYet with ⟨isLast, called⟩
    refine ⟨isLast, ?_⟩
    by_cases same : request.client = i
    · simp [same]
    · simpa [same] using called
  · intro j called
    apply inv.submitted j
    by_cases same : j = i
    · simp [same, submitting]
    · simpa [same] using called

end Handshake

/-! ## Steps -/

/-- What the actions do, and when. -/
inductive Turn (s : LocalClients) : Action → LocalClients → Prop
  | submit (i : ℕ) (pool : ThreadPool ClientRoutine Request) (calling : s.client i = .calling)
      (added : s.pool.addTask (.submitter i) (s.task i) = some pool) :
      Turn s (.submit i)
        { s with
          pool
          client := Function.update s.client i .submitting
          serial := Function.update s.serial i (s.serial i + 1) }
  | advance (t : Thread) (pool : ThreadPool ClientRoutine Request)
      (left : ∀ slot, s.pool.place t = .running slot → s.progress t = .signalled)
      (moved : s.pool.advance t = some pool) : Turn s (.advance t) (s.withPool t pool)
  | wake (t : Thread) (pool : ThreadPool ClientRoutine Request)
      (woken : s.pool.wake t = some pool) : Turn s (.wake t) (s.withPool t pool)
  | operate (t : Thread) (slot : ℕ) (running : s.runs t = some slot)
      (atCache : s.progress t = .atCache) :
      Turn s (.operate t) { s with progress := Function.update s.progress t .atSignal }
  | signal (t : Thread) (slot : ℕ) (request : Request) (running : s.runs t = some slot)
      (atSignal : s.progress t = .atSignal)
      (data : (s.pool.tasks slot).data = some request) :
      Turn s (.signal t)
        { s with
          progress := Function.update s.progress t .signalled
          client :=
            if s.client request.client = .waiting then
              Function.update s.client request.client .calling
            else s.client
          signalled := request :: s.signalled }
  | wait (i : ℕ) (submitting : s.client i = .submitting)
      (outside : s.pool.place (.submitter i) = .outside) :
      Turn s (.wait i) { s with client := Function.update s.client i .waiting }
  | wakeClient (i : ℕ) (waiting : s.client i = .waiting) :
      Turn s (.wakeClient i) { s with client := Function.update s.client i .calling }

variable {action : Action}

theorem turn_of_step (moved : s.step action = some s') : s.Turn action s' := by
  cases action with
  | submit i =>
      simp only [step] at moved
      split at moved
      case isTrue calling =>
        rcases Option.map_eq_some_iff.mp moved with ⟨pool, added, rfl⟩
        exact .submit i pool calling added
      case isFalse => cases moved
  | advance t =>
      simp only [step] at moved
      split at moved
      case isTrue => cases moved
      case isFalse returned =>
        rcases Option.map_eq_some_iff.mp moved with ⟨pool, advanced, rfl⟩
        refine .advance t pool (fun slot running => ?_) advanced
        by_contra notYet
        exact returned ⟨by simp [runs_eq_some.mpr running], notYet⟩
  | wake t =>
      rcases Option.map_eq_some_iff.mp moved with ⟨pool, woken, rfl⟩
      exact .wake t pool woken
  | operate t =>
      simp only [step] at moved
      split at moved
      case isTrue here =>
        cases moved
        rcases Option.isSome_iff_exists.mp here.1 with ⟨slot, running⟩
        exact .operate t slot running here.2
      case isFalse => cases moved
  | signal t =>
      simp only [step] at moved
      split at moved
      case h_1 slot running atSignal =>
        rcases Option.map_eq_some_iff.mp moved with ⟨request, data, rfl⟩
        exact .signal t slot request running atSignal data
      case h_2 => cases moved
  | wait i =>
      simp only [step] at moved
      split at moved
      case h_1 submitting outside =>
        cases moved
        exact .wait i submitting outside
      case h_2 => cases moved
  | wakeClient i =>
      simp only [step] at moved
      split at moved
      case isTrue waiting =>
        cases moved
        exact .wakeClient i waiting
      case isFalse => cases moved

namespace Handshake

theorem create (nworkers : ℕ) : (LocalClients.create nworkers).Handshake := by
  have nothing (t : Thread) :
      ((LocalClients.create nworkers).pool.place t).holding = .nothing :=
    ThreadPool.holding_create nworkers t
  refine ⟨.create nworkers, ?_, ?_, ?_, List.nodup_nil, ?_, ?_, ?_, ?_⟩
  · intro t task isTask
    simp [nothing, Holding.task] at isTask
  · intro task isPushed
    cases isPushed
  · intro t task isTask
    simp [nothing, Holding.task] at isTask
  · intro t slot running
    have isNothing := nothing t
    rw [running] at isNothing
    cases isNothing
  · intro request
    constructor
    · intro isSignalled
      cases isSignalled
    · rintro ⟨t, task, isAnswered, -⟩
      cases answeredBy_subset isAnswered
  · intro task isPushed
    cases isPushed
  · intro i called
    exact absurd rfl called

theorem turn (inv : s.Handshake) (ordinary : action.Ordinary n) (turn : s.Turn action s') :
    s'.Handshake := by
  cases turn with
  | submit i pool calling added => exact inv.submit calling added
  | advance t pool left moved =>
      have poolInv := inv.pool.advance moved
      exact inv.withPool poolInv (ThreadPool.moves_of_advance inv.pool moved)
        (ThreadPool.task_of_advance moved (poolInv.safe t))
        (fun u other slot running => ThreadPool.tasks_of_running inv.pool moved other running) left
  | wake t pool woken =>
      have same := ThreadPool.slotsView_of_wake woken
      refine inv.withPool (inv.pool.wakeUp woken) (ThreadPool.moves_of_wake woken) (Or.inl ⟨?_, ?_⟩)
        (fun u other slot running => congrFun (ThreadPool.tasks_of_wake woken) slot) ?_
      · exact congrArg Holding.task (congrFun (congrArg Slots.holding same) t)
      · exact congrArg Slots.pushed same
      · intro slot running
        simp [ThreadPool.wake, running] at woken
  | operate t slot running atCache => exact inv.operate atCache
  | signal t slot request running atSignal data =>
      exact inv.signal running (by simp [atSignal]) data
  | wait i submitting outside => exact inv.wait submitting outside
  | wakeClient i waiting => exact ordinary.elim

end Handshake

/-! ## Who is lost -/

theorem exec_cons {rest : List Action} : s.exec (action :: rest) = some s' ↔
    ∃ next, s.step action = some next ∧ next.exec rest = some s' :=
  Option.bind_eq_some_iff

theorem missesIn_cons {next : LocalClients} {rest : List Action}
    (moved : s.step action = some next) :
    s.MissesIn i (action :: rest) ↔ s.Misses i action ∨ next.MissesIn i rest := by
  constructor
  · rintro ⟨before, action', after, mid, actions, run, misses⟩
    cases before with
    | nil =>
        cases run
        cases actions
        exact Or.inl misses
    | cons first before =>
        cases actions
        rcases exec_cons.mp run with ⟨next', moved', run⟩
        rw [moved] at moved'
        cases moved'
        exact Or.inr ⟨before, action', after, mid, rfl, run, misses⟩
  · rintro (misses | ⟨before, action', after, mid, rfl, run, misses⟩)
    · exact ⟨[], action, rest, s, rfl, rfl, misses⟩
    · exact ⟨action :: before, action', after, mid, rfl, exec_cons.mpr ⟨next, moved, run⟩, misses⟩

namespace Handshake

/-- A client that is lost stays lost, and does not get another task. -/
theorem lost_of_turn (inv : s.Handshake) (ordinary : action.Ordinary n) (turn : s.Turn action s')
    (lost : s.Lost i) : s'.Lost i ∧ s'.serial i = s.serial i := by
  rcases lost with ⟨called, isSignalled⟩
  cases turn with
  | submit j pool calling added =>
      have other : i ≠ j := by
        rintro rfl
        exact called calling
      refine ⟨⟨?_, ?_⟩, ?_⟩
      · simpa [other] using called
      · simpa [last, other] using isSignalled
      · simp [other]
  | advance t pool left moved => exact ⟨⟨called, isSignalled⟩, rfl⟩
  | wake t pool woken => exact ⟨⟨called, isSignalled⟩, rfl⟩
  | operate t slot running atCache => exact ⟨⟨called, isSignalled⟩, rfl⟩
  | signal t slot request running atSignal data =>
      have here := runs_eq_some.mp running
      have notYet : s.progress t ≠ .signalled := by simp [atSignal]
      -- the only task of a client that is not answered is its last one
      have other : i ≠ request.client := by
        rintro rfl
        have isLast := (inv.running_latest here notYet data).1
        exact inv.notMem_signalled here notYet data (isLast ▸ isSignalled)
      have stays := client_of_signal.mpr ⟨called, fun same => absurd same other⟩
      exact ⟨⟨stays, List.mem_cons_of_mem _ isSignalled⟩, rfl⟩
  | wait j submitting outside =>
      refine ⟨⟨?_, isSignalled⟩, rfl⟩
      by_cases same : i = j
      · simp [same]
      · simpa [same] using called
  | wakeClient j waiting => exact ordinary.elim

/-- Only a signal that comes too early loses a client. -/
theorem lost_or_misses (inv : s.Handshake) (ordinary : action.Ordinary n)
    (turn : s.Turn action s') (lost : s'.Lost i) : s.Lost i ∨ s.Misses i action := by
  rcases lost with ⟨called, isSignalled⟩
  cases turn with
  | submit j pool calling added =>
      by_cases same : i = j
      · -- the task is new, so that there was no signal for it
        subst same
        have old := inv.signalled isSignalled
        simp only [last, Function.update_self] at old
        exact absurd old (Nat.not_succ_le_self _)
      · left
        exact ⟨by simpa [same] using called, by simpa [last, same] using isSignalled⟩
  | advance t pool left moved => exact Or.inl ⟨called, isSignalled⟩
  | wake t pool woken => exact Or.inl ⟨called, isSignalled⟩
  | operate t slot running atCache => exact Or.inl ⟨called, isSignalled⟩
  | signal t slot request running atSignal data =>
      rcases client_of_signal.mp called with ⟨before, notWaiting⟩
      rcases List.mem_cons.mp isSignalled with isRequest | old
      · right
        have isLast : s.last i = request := isRequest
        refine ⟨?_, t, slot, rfl, running, by rw [data, isLast]⟩
        cases place : s.client i with
        | calling => exact absurd place before
        | submitting => rfl
        | waiting => exact absurd place (notWaiting (congrArg Request.client isLast))
      · exact Or.inl ⟨before, old⟩
  | wait j submitting outside =>
      left
      refine ⟨?_, isSignalled⟩
      by_cases same : i = j
      · simp [same, submitting]
      · simpa [same] using called
  | wakeClient j waiting => exact ordinary.elim

end Handshake

/-- A signal that comes too early loses its client. -/
theorem lost_of_misses (turn : s.Turn action s') (misses : s.Misses i action) : s'.Lost i := by
  rcases misses with ⟨submitting, t, slot, rfl, running, data⟩
  cases turn with
  | signal t slot' request running' atSignal data' =>
      rw [running] at running'
      cases running'
      rw [data] at data'
      cases data'
      exact ⟨client_of_signal.mpr (by simp [submitting]), List.mem_cons_self⟩

variable {actions : List Action}

namespace Handshake

/-- The clients that are lost are those that have missed a signal. -/
theorem of_exec (inv : s.Handshake) (ordinary : ∀ action ∈ actions, action.Ordinary n)
    (run : s.exec actions = some s') :
    s'.Handshake ∧ (∀ i, s'.Lost i ↔ s.Lost i ∨ s.MissesIn i actions) ∧
      ∀ i, s.Lost i → s'.serial i = s.serial i := by
  induction actions generalizing s with
  | nil =>
      cases run
      refine ⟨inv, fun i => ?_, fun _ _ => rfl⟩
      have never : ¬s'.MissesIn i [] := by
        rintro ⟨before, action, after, mid, nil, -⟩
        simp at nil
      simp [never]
  | cons action rest ih =>
      rcases exec_cons.mp run with ⟨next, moved, others⟩
      have isOrdinary := ordinary action List.mem_cons_self
      have turn := turn_of_step moved
      rcases ih (inv.turn isOrdinary turn) (fun action mem =>
        ordinary action (List.mem_cons_of_mem _ mem)) others with ⟨inv', lost, serial⟩
      refine ⟨inv', fun i => ?_, fun i isLost => ?_⟩
      · rw [lost, missesIn_cons moved, ← or_assoc]
        refine or_congr_left ⟨inv.lost_or_misses isOrdinary turn, ?_⟩
        rintro (isLost | misses)
        · exact (inv.lost_of_turn isOrdinary turn isLost).1
        · exact lost_of_misses turn misses
      · rcases inv.lost_of_turn isOrdinary turn isLost with ⟨isLost', same⟩
        rw [serial i isLost', same]

end Handshake

/-! ## Where the program stands still -/

/-- The clients drive the pool by its own steps. -/
theorem pool_of_exec (run : s.exec actions = some s') :
    ReflTransGen ThreadPool.Step s.pool s'.pool := by
  induction actions generalizing s with
  | nil =>
      cases run
      exact .refl
  | cons action rest ih =>
      rcases exec_cons.mp run with ⟨next, moved, others⟩
      have after := ih others
      cases turn_of_step moved with
      | submit i pool calling added => exact .head ⟨.addTask _ _, added⟩ after
      | advance t pool left advanced => exact .head ⟨.advance t, advanced⟩ after
      | wake t pool woken => exact .head ⟨.wake t, woken⟩ after
      | operate t slot running atCache => exact after
      | signal t slot request running atSignal data => exact after
      | wait i submitting outside => exact after
      | wakeClient i waiting => exact after

theorem alive_of_exec (ordinary : ∀ action ∈ actions, action.Ordinary n)
    (isAlive : s.pool.place .destructor = .alive) (run : s.exec actions = some s') :
    s'.pool.place .destructor = .alive := by
  induction actions generalizing s with
  | nil =>
      cases run
      exact isAlive
  | cons action rest ih =>
      rcases exec_cons.mp run with ⟨next, moved, others⟩
      refine ih (fun action mem => ordinary action (List.mem_cons_of_mem _ mem)) ?_ others
      have isOrdinary := ordinary action List.mem_cons_self
      cases turn_of_step moved with
      | submit i pool calling added =>
          cases here : s.pool.place (.submitter i) <;>
            simp only [ThreadPool.addTask, here, reduceCtorEq] at added
          case outside =>
            cases added
            simpa [ThreadPool.go] using isAlive
      | advance t pool left advanced =>
          have carries : (ThreadPool.Action.advance t : ThreadPool.Action ClientRoutine
            Request).Carries := isOrdinary
          exact ThreadPool.destructor_of_carries carries isAlive advanced
      | wake t pool woken =>
          have carries : (ThreadPool.Action.wake t : ThreadPool.Action ClientRoutine
            Request).Carries := trivial
          exact ThreadPool.destructor_of_carries carries isAlive woken
      | operate t slot running atCache => exact isAlive
      | signal t slot request running atSignal data => exact isAlive
      | wait i submitting outside => exact isAlive
      | wakeClient i waiting => exact isAlive

namespace Handshake

/-- A routine goes on: it calls the cache, signals, or returns. -/
theorem not_running_of_stuck (inv : s.Handshake) (isAlive : s.pool.place .destructor = .alive)
    (stuck : s.Stuck n) (t : Thread) (slot : ℕ) : s.pool.place t ≠ .running slot := by
  intro running
  have runs := runs_eq_some.mpr running
  cases progress : s.progress t with
  | atCache =>
      have blocked := stuck (.operate t) trivial (by simp)
      simp [step, runs, progress] at blocked
  | atSignal =>
      have blocked := stuck (.signal t) trivial (by simp)
      rcases inv.asked _ (inv.mem_pushed (inv.running_mem running)) with ⟨request, data, -⟩
      simp [step, runs, progress, data] at blocked
  | signalled =>
      have other : t ≠ .destructor := by
        rintro rfl
        rw [isAlive] at running
        cases running
      have blocked := stuck (.advance t) other (by simp)
      simp [step, progress, ThreadPool.advance, running] at blocked

/-- When nothing can happen any more, every client is lost. -/
theorem lost_of_stuck {nworkers : ℕ} (workers : 0 < nworkers) (inv : s.Handshake)
    (run : ReflTransGen ThreadPool.Step (ThreadPool.create nworkers) s.pool)
    (isAlive : s.pool.place .destructor = .alive) (stuck : s.Stuck n) (isClient : i < n) :
    s.Lost i := by
  have notRunning := inv.not_running_of_stuck isAlive stuck
  have blocked (t : Thread) (other : t ≠ .destructor) : s.pool.advance t = none := by
    have none := stuck (.advance t) other (by simp)
    have noRoutine : s.runs t = Option.none := by
      refine Option.eq_none_iff_forall_ne_some.mpr fun slot runs => ?_
      exact notRunning t slot (runs_eq_some.mp runs)
    simpa [step, noRoutine] using none
  rcases ThreadPool.Asks.of_run run with ⟨tasks, asks, isAsked⟩
  have settled := ThreadPool.settled_of_stuck workers inv.pool (ThreadPool.RoleInv.of_run run).2
    isAsked isAlive blocked
  have outside := settled.submitters i
  have called : s.client i ≠ .calling := by
    intro calling
    have blocked := stuck (.submit i) isClient (by simp)
    simp [step, calling, ThreadPool.addTask, outside] at blocked
  refine ⟨called, ?_⟩
  rcases inv.submitted i called (by simp [outside, Place.holding, Holding.task]) with
    ⟨task, isPushed, data⟩
  -- all that was submitted has run, and no routine runs any more
  have hasRun : task ∈ s.pool.ran.map (·.2) := by
    rw [settled.ran.mem_iff, isAsked.perm.mem_iff]
    exact List.mem_append_left _ isPushed
  rcases List.mem_map.mp hasRun with ⟨⟨t, task'⟩, isRan, rfl⟩
  refine (inv.answered _).mpr ⟨t, task', ?_, data⟩
  rw [answeredBy_of_not fun slot running => absurd running (notRunning t slot)]
  exact List.mem_map.mpr ⟨(t, task'), List.mem_filter.mpr ⟨isRan, by simp⟩, rfl⟩

end Handshake

/-! ## What is left to do -/

/-- What a routine has left to do before it returns. -/
def effortOfRoutine : RoutinePlace → ℕ
  | .atCache => 2
  | .atSignal => 1
  | .signalled => 0

/-- What a client has left to do once it has no hope of a signal. -/
def effortOfClient : ClientPlace → ℕ
  | .calling => 0
  | .submitting => 1
  | .waiting => 0

/-- What is left to do: by the pool, whose steps start routines, by these, and by the clients. -/
def effort (s : LocalClients) (threads : Finset Thread) (n : ℕ) : ℕ :=
  3 * s.pool.effort threads + ∑ t ∈ threads, effortOfRoutine (s.progress t) +
    ∑ i ∈ Finset.range n, effortOfClient (s.client i)

/-- How often a thread of the pool wakes up for no reason. -/
def wakeUps (actions : List Action) : ℕ := actions.countP fun action => action matches .wake _

section

variable {threads : Finset Thread}

/-- The threads that run routines are inside the pool. -/
theorem mem_of_runs (within : s.pool.Within threads) {slot : ℕ} (running : s.runs t = some slot) :
    t ∈ threads := by
  by_contra other
  have away := within t other
  rw [runs_eq_some.mp running] at away
  exact away

/-- A routine starts anew where its thread does a step of the pool. -/
theorem effort_withPool (isThread : t ∈ threads) (pool : ThreadPool ClientRoutine Request) :
    (s.withPool t pool).effort threads n + 3 * s.pool.effort threads ≤
      s.effort threads n + 3 * pool.effort threads + 2 := by
  have routines := sum_update isThread s.progress effortOfRoutine .atCache
  have atCache : effortOfRoutine .atCache = 2 := rfl
  simp only [effort, withPool]
  omega

/-- A signal sends no client on its way to the wait. -/
theorem effortOfClient_signal (request : Request) (j : ℕ) :
    effortOfClient ((if s.client request.client = .waiting then
      Function.update s.client request.client .calling else s.client) j) ≤
        effortOfClient (s.client j) := by
  split
  case isTrue waiting =>
    by_cases same : j = request.client
    · rw [same, Function.update_self]
      exact Nat.zero_le _
    · rw [Function.update_of_ne same]
  case isFalse => exact le_rfl

/-- Where all clients are lost there is less to do with each step, but for the wake-ups. -/
theorem effort_of_turn (lost : ∀ i < n, s.Lost i) (ordinary : action.Ordinary n)
    (within : s.pool.Within threads) (turn : s.Turn action s') :
    s'.pool.Within threads ∧
      s'.effort threads n + 1 ≤ s.effort threads n + 21 * wakeUps [action] := by
  cases turn with
  | submit i pool calling added => exact absurd calling (lost i ordinary).1
  | advance t pool left moved =>
      rcases within.advance moved with ⟨isThread, within'⟩
      have less := ThreadPool.effort_of_advance isThread moved
      have bound := effort_withPool (s := s) (n := n) isThread pool
      exact ⟨within', by omega⟩
  | wake t pool woken =>
      rcases within.wake woken with ⟨isThread, within'⟩
      have more := ThreadPool.effort_of_wake isThread woken
      have bound := effort_withPool (s := s) (n := n) isThread pool
      refine ⟨within', ?_⟩
      change _ ≤ _ + 21
      omega
  | operate t slot running atCache =>
      have isThread : t ∈ threads := mem_of_runs within running
      have routines := sum_update isThread s.progress effortOfRoutine .atSignal
      rw [atCache] at routines
      refine ⟨within, ?_⟩
      simp only [effort, effortOfRoutine] at routines ⊢
      omega
  | signal t slot request running atSignal data =>
      have isThread : t ∈ threads := mem_of_runs within running
      have routines := sum_update isThread s.progress effortOfRoutine .signalled
      rw [atSignal] at routines
      have clients := Finset.sum_le_sum fun j (_ : j ∈ Finset.range n) =>
        effortOfClient_signal (s := s) request j
      refine ⟨within, ?_⟩
      simp only [effort, effortOfRoutine] at routines ⊢
      omega
  | wait i submitting outside =>
      have isClient : i ∈ Finset.range n := Finset.mem_range.mpr ordinary
      have clients := sum_update isClient s.client effortOfClient .waiting
      rw [submitting] at clients
      refine ⟨within, ?_⟩
      simp only [effort, effortOfClient] at clients ⊢
      omega
  | wakeClient i waiting => exact ordinary.elim

/-- Where all clients are lost the program takes a bounded number of steps. -/
theorem Handshake.length_le (inv : s.Handshake) (lost : ∀ i < n, s.Lost i)
    (ordinary : ∀ action ∈ actions, action.Ordinary n) (within : s.pool.Within threads)
    (run : s.exec actions = some s') :
    actions.length ≤ s.effort threads n + 21 * wakeUps actions := by
  induction actions generalizing s with
  | nil => exact Nat.zero_le _
  | cons action rest ih =>
      rcases exec_cons.mp run with ⟨next, moved, others⟩
      have isOrdinary := ordinary action List.mem_cons_self
      have turn := turn_of_step moved
      rcases effort_of_turn lost isOrdinary within turn with ⟨within', less⟩
      have bound := ih (inv.turn isOrdinary turn)
        (fun i isClient => (inv.lost_of_turn isOrdinary turn (lost i isClient)).1)
        (fun action mem => ordinary action (List.mem_cons_of_mem _ mem)) within' others
      have wakes : wakeUps (action :: rest) = wakeUps rest + wakeUps [action] := by
        simp [wakeUps, List.countP_cons]
      rw [List.length_cons, wakes]
      omega

end

/-- Without spurious wake-ups of clients, the clients that are lost are those that have missed a
signal, and they stay lost. The program does not stand still before all clients are lost, and then
does so after a bounded number of steps, but for the threads of the pool that wake up for no
reason. -/
theorem standstill_of_exec {nworkers : ℕ} (workers : 0 < nworkers)
    (ordinary : ∀ action ∈ actions, action.Ordinary n)
    (run : (create nworkers).exec actions = some s) :
    (∀ i, s.Lost i ↔ (create nworkers).MissesIn i actions) ∧
      (s.Stuck n → ∀ i < n, s.Lost i) ∧
        ∃ bound, ∀ more s', (∀ action ∈ more, action.Ordinary n) → s.exec more = some s' →
          (∀ i, s.Lost i → s'.Lost i ∧ s'.serial i = s.serial i) ∧
            ((∀ i < n, s.Lost i) → more.length ≤ bound + 21 * wakeUps more) := by
  rcases (Handshake.create nworkers).of_exec ordinary run with ⟨inv, lost, -⟩
  have pool : ReflTransGen ThreadPool.Step (ThreadPool.create nworkers) s.pool := pool_of_exec run
  have isAlive := alive_of_exec ordinary rfl run
  rcases ThreadPool.within_of_run pool with ⟨threads, within⟩
  refine ⟨fun i => ?_, fun stuck i => inv.lost_of_stuck workers pool isAlive stuck,
    s.effort threads n, fun more s' later goesOn => ⟨fun i isLost => ?_, fun all => ?_⟩⟩
  · rw [lost, or_iff_right]
    exact fun isLost => isLost.1 rfl
  · rcases inv.of_exec later goesOn with ⟨-, lost', serial⟩
    exact ⟨(lost' i).mpr (Or.inl isLost), serial i isLost⟩
  · exact inv.length_le all later within goesOn

/-- The only client misses its signal. The worker goes back to wait for tasks, and that is all. -/
theorem standstill_of_exec_signalFirst : ∃ s, (create 1).exec signalFirst = some s ∧ s.Lost 0 ∧
    (∀ i, s.Lost i ↔ (create 1).MissesIn i signalFirst) ∧
      (s.Stuck 1 → ∀ i < 1, s.Lost i) ∧
        ∃ bound, ∀ more s', (∀ action ∈ more, action.Ordinary 1) → s.exec more = some s' →
          (∀ i, s.Lost i → s'.Lost i ∧ s'.serial i = s.serial i) ∧
            ((∀ i < 1, s.Lost i) → more.length ≤ bound + 21 * wakeUps more) := by
  have ordinary : ∀ action ∈ signalFirst, action.Ordinary 1 := by
    simp [signalFirst, Action.Ordinary]
  have facts : ((create 1).exec signalFirst).any fun s =>
      decide (s.client 0 ≠ .calling ∧ s.last 0 ∈ s.signalled) := by
    decide +kernel
  rcases (Option.any_eq_true _ _).mp facts with ⟨s, run, lost⟩
  rw [decide_eq_true_eq] at lost
  exact ⟨s, run, lost, standstill_of_exec (by decide) ordinary run⟩

end LocalClients

end ChaosCache
