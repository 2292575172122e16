import Mathlib.Data.Nat.Notation
import Mathlib.Logic.Function.Basic
import Mathlib.Logic.Relation

/-!
# The start of the server

`zmqServer::work` creates the threads one after the other, and `server_thread` calls
`worker(params->nsocket)` with what the one `thread_param_t` of `work` contains at that time.
`work` waits on `cond` before it increments `nsocket`, without a condition that it tests, and each
worker signals once. The mutex that `pthread_cond_wait` is given is a variable of `work` that no
other thread locks. Where `pthread_create` fails the process aborts, and the run ends.

A step is one access to `params` or one call of the thread library. The threads are numbered as
they are created.
-/

namespace ChaosCache

/-- Where `work` is in its code. -/
inductive WorkPlace where
  /-- `params.nsocket < this->nworkerthreads` -/
  | test
  /-- A new socket, and `pthread_create` -/
  | create
  /-- `pthread_cond_wait` comes next. -/
  | sleep
  | wait
  /-- `params.nsocket++` -/
  | next
  /-- `zmq::proxy` -/
  | proxy
  deriving DecidableEq

/-- Where a thread that `work` creates is in its code. -/
inductive ServerThread where
  | absent
  /-- `params->nsocket` comes next. -/
  | created
  /-- `worker(nsocket)` has been called, and `pthread_cond_signal` comes next. -/
  | called (nsocket : ℕ)
  | signalled (nsocket : ℕ)
  deriving DecidableEq

/-- What `worker` was called with. -/
def ServerThread.nsocket : ServerThread → Option ℕ
  | absent => none
  | created => none
  | called nsocket => some nsocket
  | signalled nsocket => some nsocket

structure Startup where
  nworkerthreads : ℕ
  /-- `params.nsocket` -/
  nsocket : ℕ
  work : WorkPlace
  thread : ℕ → ServerThread

namespace Startup

/-- `work` at the beginning of its loop. -/
def init (nworkerthreads : ℕ) : Startup where
  nworkerthreads := nworkerthreads
  nsocket := 0
  work := .test
  thread _ := .absent

inductive Action where
  | work
  /-- `pthread_cond_wait` returns without a signal. -/
  | wake
  | thread (i : ℕ)
  deriving DecidableEq

/-- The next step of `work` in its code. -/
def advance (s : Startup) : Option Startup :=
  match s.work with
  | .test => some { s with work := if s.nsocket < s.nworkerthreads then .create else .proxy }
  | .create =>
      some { s with work := .sleep, thread := Function.update s.thread s.nsocket .created }
  | .sleep => some { s with work := .wait }
  | .wait => none
  | .next => some { s with work := .test, nsocket := s.nsocket + 1 }
  | .proxy => none

/-- `pthread_cond_wait` returns, if `work` waits. -/
def notify (s : Startup) : Startup :=
  match s.work with
  | .wait => { s with work := .next }
  | _ => s

/-- The next step of a created thread in its code. -/
def advanceThread (s : Startup) (i : ℕ) : Option Startup :=
  match s.thread i with
  | .absent => none
  | .created => some { s with thread := Function.update s.thread i (.called s.nsocket) }
  | .called nsocket =>
      some { s.notify with thread := Function.update s.thread i (.signalled nsocket) }
  | .signalled _ => none

def step (s : Startup) : Action → Option Startup
  | .work => s.advance
  | .wake => if s.work = .wait then some s.notify else none
  | .thread i => s.advanceThread i

/-- The state after some actions, if each of them is possible. -/
def exec (s : Startup) : List Action → Option Startup
  | [] => some s
  | action :: rest => (s.step action).bind (exec · rest)

/-- No two threads have called `worker` with one index, and none with an index of no socket. -/
structure OwnSockets (s : Startup) : Prop where
  distinct : ∀ i j nsocket, (s.thread i).nsocket = some nsocket →
    (s.thread j).nsocket = some nsocket → i = j
  inRange : ∀ i nsocket, (s.thread i).nsocket = some nsocket → nsocket < s.nworkerthreads

/-- If the step increments `params.nsocket`, then the thread that was created last has read it. -/
def Timely (s : Startup) (action : Action) : Prop :=
  action = .work → s.work = .next → ((s.thread s.nsocket).nsocket).isSome

/-- All increments of a run are timely. -/
def TimelyRun (s : Startup) : List Action → Prop
  | [] => True
  | action :: rest => s.Timely action ∧ ∀ s', s.step action = some s' → s'.TimelyRun rest

/-- All threads are created and have called `worker`. -/
structure Started (s : Startup) : Prop where
  work : s.work = .proxy
  threads : ∀ i, i < s.nworkerthreads → ((s.thread i).nsocket).isSome

variable {s s' : Startup} {action : Action}

@[simp]
theorem notify_nworkerthreads : s.notify.nworkerthreads = s.nworkerthreads := by
  unfold notify
  split <;> rfl

@[simp]
theorem notify_nsocket : s.notify.nsocket = s.nsocket := by
  unfold notify
  split <;> rfl

@[simp]
theorem notify_thread : s.notify.thread = s.thread := by
  unfold notify
  split <;> rfl

/-- What a step can do. -/
inductive Moves (s : Startup) : Action → Startup → Prop
  | test (here : s.work = .test) :
      Moves s .work { s with work := if s.nsocket < s.nworkerthreads then .create else .proxy }
  | create (here : s.work = .create) :
      Moves s .work
        { s with work := .sleep, thread := Function.update s.thread s.nsocket .created }
  | sleep (here : s.work = .sleep) : Moves s .work { s with work := .wait }
  | next (here : s.work = .next) :
      Moves s .work { s with work := .test, nsocket := s.nsocket + 1 }
  | wake (here : s.work = .wait) : Moves s .wake s.notify
  | call (i : ℕ) (here : s.thread i = .created) :
      Moves s (.thread i) { s with thread := Function.update s.thread i (.called s.nsocket) }
  | signal (i nsocket : ℕ) (here : s.thread i = .called nsocket) :
      Moves s (.thread i)
        { s.notify with thread := Function.update s.thread i (.signalled nsocket) }

theorem moves_of_step (moved : s.step action = some s') : s.Moves action s' := by
  cases action with
  | work =>
      cases here : s.work <;> simp only [step, advance, here] at moved <;> cases moved
      · exact .test here
      · exact .create here
      · exact .sleep here
      · exact .next here
  | wake =>
      simp only [step] at moved
      split at moved
      · rename_i here
        cases moved
        exact .wake here
      · cases moved
  | thread i =>
      cases here : s.thread i <;> simp only [step, advanceThread, here] at moved <;> cases moved
      · exact .call i here
      · exact .signal i _ here

/-- The number of threads that have been created. -/
def created (s : Startup) : ℕ :=
  match s.work with
  | .sleep => s.nsocket + 1
  | .wait => s.nsocket + 1
  | .next => s.nsocket + 1
  | _ => s.nsocket

/-- What holds in any run. -/
structure Inv (s : Startup) : Prop where
  inRange : s.created ≤ s.nworkerthreads
  creates : s.work = .create → s.nsocket < s.nworkerthreads
  absent : ∀ i, s.thread i = .absent ↔ s.created ≤ i
  /-- `params.nsocket` only grows. -/
  atLeast : ∀ i nsocket, (s.thread i).nsocket = some nsocket → i ≤ nsocket

@[simp]
theorem notify_created : s.notify.created = s.created := by
  unfold notify created
  cases here : s.work <;> simp [here]

theorem created_le : s.created ≤ s.nsocket + 1 := by
  unfold created
  split <;> omega

namespace Inv

theorem lt_created (inv : s.Inv) {i : ℕ} (isCreated : s.thread i ≠ .absent) : i < s.created := by
  by_contra above
  exact isCreated ((inv.absent i).mpr (Nat.not_lt.mp above))

theorem init (nworkerthreads : ℕ) : (Startup.init nworkerthreads).Inv where
  inRange := Nat.zero_le _
  creates here := by cases here
  absent i := by simp [Startup.init, created]
  atLeast i nsocket reads := by cases reads

/-- `work` moves on and creates no thread. -/
theorem move (inv : s.Inv) (sameBound : s'.nworkerthreads = s.nworkerthreads)
    (sameThreads : s'.thread = s.thread) (sameCount : s'.created = s.created)
    (creates : s'.work = .create → s'.nsocket < s'.nworkerthreads) : s'.Inv where
  inRange := by
    rw [sameBound, sameCount]
    exact inv.inRange
  creates := creates
  absent i := by
    rw [sameThreads, sameCount]
    exact inv.absent i
  atLeast i := by
    rw [sameThreads]
    exact inv.atLeast i

theorem notify (inv : s.Inv) : s.notify.Inv := by
  refine inv.move notify_nworkerthreads notify_thread notify_created ?_
  unfold Startup.notify
  split
  · intro here
    cases here
  · exact inv.creates

/-- A thread moves on. -/
theorem go (inv : s.Inv) {i : ℕ} {thread : ServerThread} (was : s.thread i ≠ .absent)
    (goes : thread ≠ .absent) (atLeast : ∀ nsocket, thread.nsocket = some nsocket → i ≤ nsocket) :
    ({ s with thread := Function.update s.thread i thread } : Startup).Inv where
  inRange := inv.inRange
  creates := inv.creates
  absent j := by
    change Function.update s.thread i thread j = .absent ↔ s.created ≤ j
    rw [← inv.absent j]
    by_cases same : j = i
    · simp [same, was, goes]
    · simp [same]
  atLeast j nsocket reads := by
    by_cases same : j = i
    · subst same
      exact atLeast nsocket (by simpa using reads)
    · exact inv.atLeast j nsocket (by simpa [same] using reads)

theorem create (inv : s.Inv) (here : s.work = .create) :
    ({ s with work := .sleep, thread := Function.update s.thread s.nsocket .created } :
      Startup).Inv where
  inRange := inv.creates here
  creates here := by cases here
  absent j := by
    have before := inv.absent j
    simp only [created, here] at before
    change Function.update s.thread s.nsocket .created j = .absent ↔ s.nsocket + 1 ≤ j
    by_cases same : j = s.nsocket
    · simp [same]
    · rw [Function.update_of_ne same, before]
      omega
  atLeast j nsocket reads := by
    by_cases same : j = s.nsocket
    · simp [same, ServerThread.nsocket] at reads
    · exact inv.atLeast j nsocket (by simpa [same] using reads)

theorem step (inv : s.Inv) (moves : s.Moves action s') : s'.Inv := by
  cases moves with
  | test here =>
      by_cases more : s.nsocket < s.nworkerthreads
      · refine inv.move rfl rfl ?_ fun _ => more
        simp [created, here, more]
      · refine inv.move rfl rfl ?_ ?_
        · simp [created, here, more]
        · simp [more]
  | create here => exact inv.create here
  | sleep here =>
      refine inv.move rfl rfl ?_ ?_
      · simp [created, here]
      · simp
  | next here =>
      refine inv.move rfl rfl ?_ ?_
      · simp [created, here]
      · simp
  | wake here => exact inv.notify
  | call i here =>
      have notAbsent : s.thread i ≠ .absent := by simp [here]
      apply inv.go notAbsent
      · simp
      · intro nsocket reads
        cases reads
        exact Nat.le_of_lt_succ (Nat.lt_of_lt_of_le (inv.lt_created notAbsent) s.created_le)
  | signal i nsocket here =>
      rw [← notify_thread]
      apply inv.notify.go
      · simp [here]
      · simp
      · intro nsocket' reads
        apply inv.atLeast i nsocket'
        rw [here]
        exact reads

end Inv

/-- What holds in a timely run. -/
structure TimelyInv (s : Startup) : Prop where
  basic : s.Inv
  own : ∀ i nsocket, (s.thread i).nsocket = some nsocket → nsocket = i
  read : ∀ i, i < s.nsocket → ((s.thread i).nsocket).isSome

/-- A thread has read an index that is not its own, or will. -/
def Late (s : Startup) : Prop :=
  ∃ i, (i < s.nsocket ∧ s.thread i = .created) ∨
    ∃ nsocket, i < nsocket ∧ (s.thread i).nsocket = some nsocket

namespace TimelyInv

theorem init (nworkerthreads : ℕ) : (Startup.init nworkerthreads).TimelyInv where
  basic := .init nworkerthreads
  own i nsocket reads := by cases reads
  read i below := by cases below

theorem notify (inv : s.TimelyInv) : s.notify.TimelyInv where
  basic := inv.basic.notify
  own := by simpa using inv.own
  read := by simpa using inv.read

/-- A thread goes on with its own index. -/
theorem go (inv : s.TimelyInv) {i : ℕ} {thread : ServerThread}
    (basic : ({ s with thread := Function.update s.thread i thread } : Startup).Inv)
    (own : thread.nsocket = some i) :
    ({ s with thread := Function.update s.thread i thread } : Startup).TimelyInv where
  basic := basic
  own j nsocket reads := by
    by_cases same : j = i
    · subst same
      simpa [own, eq_comm] using reads
    · exact inv.own j nsocket (by simpa [same] using reads)
  read j below := by
    by_cases same : j = i
    · simp [same, own]
    · simpa [same] using inv.read j below

/-- A thread that has not yet read its index was created last. -/
theorem eq_nsocket (inv : s.TimelyInv) {i : ℕ} (here : s.thread i = .created) :
    i = s.nsocket := by
  have isCreated := inv.basic.lt_created (i := i) (by simp [here])
  have last : ¬i < s.nsocket := by
    intro below
    have read := inv.read i below
    rw [here] at read
    cases read
  have count := s.created_le
  omega

theorem step (inv : s.TimelyInv) (timely : s.Timely action) (moves : s.Moves action s') :
    s'.TimelyInv := by
  have basic := inv.basic.step moves
  cases moves with
  | test here => exact ⟨basic, inv.own, inv.read⟩
  | create here =>
      refine ⟨basic, ?_, ?_⟩
      · intro j nsocket reads
        by_cases same : j = s.nsocket
        · simp [same, ServerThread.nsocket] at reads
        · exact inv.own j nsocket (by simpa [same] using reads)
      · intro j below
        have other : j ≠ s.nsocket := Nat.ne_of_lt below
        simpa [other] using inv.read j below
  | sleep here => exact ⟨basic, inv.own, inv.read⟩
  | next here =>
      refine ⟨basic, inv.own, ?_⟩
      intro j below
      rcases Nat.lt_succ_iff_lt_or_eq.mp below with before | rfl
      · exact inv.read j before
      · exact timely rfl here
  | wake here => exact inv.notify
  | call i here =>
      apply inv.go basic
      rw [inv.eq_nsocket here]
      rfl
  | signal i nsocket here =>
      rw [← notify_thread] at basic ⊢
      apply inv.notify.go basic
      have reads : (s.thread i).nsocket = some nsocket := by rw [here]; rfl
      exact congrArg some (inv.own i nsocket reads)

theorem ownSockets (inv : s.TimelyInv) : s.OwnSockets := by
  refine ⟨?_, ?_⟩
  · intro i j nsocket reads reads'
    rw [← inv.own i nsocket reads, ← inv.own j nsocket reads']
  · intro i nsocket reads
    rw [inv.own i nsocket reads]
    apply Nat.lt_of_lt_of_le _ inv.basic.inRange
    apply inv.basic.lt_created
    intro isAbsent
    rw [isAbsent] at reads
    cases reads

end TimelyInv

namespace Late

/-- No step makes good for it. -/
theorem step (late : s.Late) (inv : s.Inv) (moves : s.Moves action s') : s'.Late := by
  rcases late with ⟨i, late⟩
  cases moves with
  | test here => exact ⟨i, late⟩
  | create here =>
      have isAbsent : s.thread s.nsocket = .absent := by
        apply (inv.absent s.nsocket).mpr
        simp [created, here]
      have other : i ≠ s.nsocket := by
        rintro rfl
        rw [isAbsent] at late
        simp [ServerThread.nsocket] at late
      exact ⟨i, by simpa [other] using late⟩
  | sleep here => exact ⟨i, late⟩
  | next here =>
      refine ⟨i, ?_⟩
      rcases late with ⟨below, waits⟩ | reads
      · exact Or.inl ⟨Nat.lt_succ_of_lt below, waits⟩
      · exact Or.inr reads
  | wake here => exact ⟨i, by simpa using late⟩
  | call j here =>
      refine ⟨i, ?_⟩
      by_cases same : i = j
      · subst same
        rcases late with ⟨below, -⟩ | ⟨nsocket, -, reads⟩
        · exact Or.inr ⟨s.nsocket, below, by simp [ServerThread.nsocket]⟩
        · rw [here] at reads
          cases reads
      · simpa [same] using late
  | signal j nsocket here =>
      refine ⟨i, ?_⟩
      by_cases same : i = j
      · subst same
        rw [here] at late
        simpa [ServerThread.nsocket] using late
      · simpa [same] using late

/-- The increment comes too early. -/
theorem of_not_timely (inv : s.Inv) (early : ¬s.Timely action) (moves : s.Moves action s') :
    s'.Late := by
  simp only [Timely, Classical.not_imp] at early
  rcases early with ⟨rfl, here, unread⟩
  have isCreated : s.thread s.nsocket ≠ .absent := by
    intro isAbsent
    have count := (inv.absent s.nsocket).mp isAbsent
    simp only [created, here] at count
    omega
  cases moves with
  | test here' | create here' | sleep here' =>
      rw [here] at here'
      cases here'
  | next _ =>
      refine ⟨s.nsocket, Or.inl ⟨Nat.lt_succ_self _, ?_⟩⟩
      cases thread : s.thread s.nsocket with
      | absent => exact absurd thread isCreated
      | created => rfl
      | called nsocket => simp [thread, ServerThread.nsocket] at unread
      | signalled nsocket => simp [thread, ServerThread.nsocket] at unread

/-- Where every thread has an index that is at least its own, and one has more, some two have the
same or one has too much. -/
theorem not_ownSockets (late : s.Late) (inv : s.Inv) (started : s.Started) : ¬s.OwnSockets := by
  intro own
  -- from the last thread down, each has what is left: its own index
  have only : ∀ k i, s.nworkerthreads - i = k → i < s.nworkerthreads →
      (s.thread i).nsocket = some i := by
    intro k
    induction k using Nat.strongRecOn with
    | ind k ih =>
        intro i rest inRange
        rcases Option.isSome_iff_exists.mp (started.threads i inRange) with ⟨nsocket, reads⟩
        have atLeast := inv.atLeast i nsocket reads
        have bound := own.inRange i nsocket reads
        by_cases more : i < nsocket
        · have owner := ih (s.nworkerthreads - nsocket) (by omega) nsocket rfl bound
          have same := own.distinct i nsocket nsocket reads owner
          omega
        · have same : nsocket = i := by omega
          rwa [same] at reads
  rcases late with ⟨i, late⟩
  have isCreated : s.thread i ≠ .absent := by
    intro isAbsent
    rw [isAbsent] at late
    simp [ServerThread.nsocket] at late
  have reads := only _ i rfl (Nat.lt_of_lt_of_le (inv.lt_created isCreated) inv.inRange)
  rcases late with ⟨-, waits⟩ | ⟨nsocket, more, reads'⟩
  · rw [waits] at reads
    cases reads
  · rw [reads] at reads'
    cases reads'
    exact absurd more (Nat.lt_irrefl i)

end Late

theorem exec_cons {rest : List Action} : s.exec (action :: rest) = some s' ↔
    ∃ next, s.step action = some next ∧ next.exec rest = some s' := by
  simp [exec, Option.bind_eq_some_iff]

theorem Inv.exec {actions : List Action} (inv : s.Inv) (run : s.exec actions = some s') :
    s'.Inv := by
  induction actions generalizing s with
  | nil =>
      cases run
      exact inv
  | cons action rest ih =>
      rcases exec_cons.mp run with ⟨next, moved, others⟩
      exact ih (inv.step (moves_of_step moved)) others

theorem TimelyInv.exec {actions : List Action} (inv : s.TimelyInv)
    (run : s.exec actions = some s') (timely : s.TimelyRun actions) : s'.TimelyInv := by
  induction actions generalizing s with
  | nil =>
      cases run
      exact inv
  | cons action rest ih =>
      rcases exec_cons.mp run with ⟨next, moved, others⟩
      rcases timely with ⟨first, later⟩
      exact ih (inv.step first (moves_of_step moved)) others (later next moved)

theorem Late.exec {actions : List Action} (late : s.Late) (inv : s.Inv)
    (run : s.exec actions = some s') : s'.Late := by
  induction actions generalizing s with
  | nil =>
      cases run
      exact late
  | cons action rest ih =>
      rcases exec_cons.mp run with ⟨next, moved, others⟩
      have moves := moves_of_step moved
      exact ih (late.step inv moves) (inv.step moves) others

/-- A run that is not timely ends late. -/
theorem timelyRun_of_not_late {actions : List Action} (inv : s.Inv)
    (run : s.exec actions = some s') (inTime : ¬s'.Late) : s.TimelyRun actions := by
  induction actions generalizing s with
  | nil => trivial
  | cons action rest ih =>
      rcases exec_cons.mp run with ⟨next, moved, others⟩
      have moves := moves_of_step moved
      have basic := inv.step moves
      refine ⟨?_, ?_⟩
      · by_contra early
        exact inTime ((Late.of_not_timely inv early moves).exec basic others)
      · intro next' moved'
        have same : next' = next := Option.some.inj (moved'.symm.trans moved)
        exact same ▸ ih basic others

/-- Where `work` increments `params.nsocket` only when the last thread has read it, every worker
has a socket of its own. Once all workers have been called it is the only way that they have. -/
theorem ownSockets_of_exec {nworkerthreads : ℕ} {actions : List Action}
    (run : (init nworkerthreads).exec actions = some s) :
    ((init nworkerthreads).TimelyRun actions → s.OwnSockets) ∧
      (s.Started → (s.OwnSockets ↔ (init nworkerthreads).TimelyRun actions)) := by
  have basic := (Inv.init nworkerthreads).exec run
  have own : (init nworkerthreads).TimelyRun actions → s.OwnSockets :=
    fun timely => ((TimelyInv.init nworkerthreads).exec run timely).ownSockets
  refine ⟨own, fun started => ⟨?_, own⟩⟩
  intro ownSockets
  apply timelyRun_of_not_late (.init nworkerthreads) run
  exact fun late => late.not_ownSockets basic started ownSockets

/-- Thread 0 is created, and `work` wakes up before it has run. Thread 0 reads an index when
thread 1 is there. -/
def early : List Action :=
  List.replicate 3 .work ++ [.wake] ++ List.replicate 3 .work ++ [.thread 0, .thread 1]

/-- Two threads that are created and called in their order. -/
def orderly : List Action :=
  List.replicate 3 .work ++ [.thread 0, .thread 0] ++ List.replicate 4 .work ++
    [.thread 1, .thread 1] ++ List.replicate 2 .work

theorem ownSockets_orderly : ∃ s, (init 2).exec orderly = some s ∧
    (((init 2).TimelyRun orderly → s.OwnSockets) ∧
      (s.Started → (s.OwnSockets ↔ (init 2).TimelyRun orderly))) :=
  ⟨_, rfl, ownSockets_of_exec rfl⟩

theorem not_ownSockets_early :
    ¬ ∀ (nworkerthreads : ℕ) (actions : List Action) (s : Startup),
      (init nworkerthreads).exec actions = some s → s.OwnSockets := by
  intro always
  have own := always 2 early _ rfl
  have same := own.distinct 0 1 1 rfl rfl
  cases same

/-- The wait is left without a signal only when the signal of the last thread has been given. -/
def Signalled (s : Startup) (action : Action) : Prop :=
  action = .wake → ∃ nsocket, s.thread s.nsocket = .signalled nsocket

def SignalledRun (s : Startup) : List Action → Prop
  | [] => True
  | action :: rest => s.Signalled action ∧ ∀ s', s.step action = some s' → s'.SignalledRun rest

/-- The threads have signalled one after the other. -/
structure SignalInv (s : Startup) : Prop where
  timely : s.TimelyInv
  earlier : ∀ i, i < s.nsocket → ∃ nsocket, s.thread i = .signalled nsocket
  last : s.work = .next → ∃ nsocket, s.thread s.nsocket = .signalled nsocket

namespace SignalInv

theorem init (nworkerthreads : ℕ) : (Startup.init nworkerthreads).SignalInv where
  timely := .init nworkerthreads
  earlier i below := by cases below
  last here := by cases here

/-- No step but a wake-up can come too early. -/
theorem isTimely (inv : s.SignalInv) : s.Timely action := by
  intro _ here
  rcases inv.last here with ⟨nsocket, signalled⟩
  rw [signalled]
  rfl

/-- A thread that has not signalled is not among them. -/
theorem stays {i j : ℕ} {thread : ServerThread}
    (moves : ∀ nsocket, s.thread i ≠ .signalled nsocket)
    (signalled : ∃ nsocket, s.thread j = .signalled nsocket) :
    ∃ nsocket, Function.update s.thread i thread j = .signalled nsocket := by
  rcases signalled with ⟨nsocket, signalled⟩
  have other : j ≠ i := by
    rintro rfl
    exact moves nsocket signalled
  exact ⟨nsocket, by simpa [other] using signalled⟩

theorem step (inv : s.SignalInv) (signalled : s.Signalled action) (moves : s.Moves action s') :
    s'.SignalInv := by
  have timely := inv.timely.step inv.isTimely moves
  cases moves with
  | test here =>
      refine ⟨timely, inv.earlier, ?_⟩
      intro next
      simp only at next
      split at next <;> cases next
  | create here =>
      refine ⟨timely, ?_, ?_⟩
      · intro i below
        have other : i ≠ s.nsocket := Nat.ne_of_lt below
        simpa [other] using inv.earlier i below
      · simp
  | sleep here => exact ⟨timely, inv.earlier, by simp⟩
  | next here =>
      refine ⟨timely, ?_, by simp⟩
      intro i below
      rcases Nat.lt_succ_iff_lt_or_eq.mp below with before | rfl
      · exact inv.earlier i before
      · exact inv.last here
  | wake here =>
      refine ⟨timely, by simpa using inv.earlier, ?_⟩
      intro _
      simpa using signalled rfl
  | call i here =>
      refine ⟨timely, ?_, ?_⟩
      · exact fun j below => stays (by simp [here]) (inv.earlier j below)
      · exact fun next => stays (by simp [here]) (inv.last next)
  | signal i nsocket here =>
      have earlier : ∀ j, j < s.nsocket → ∃ nsocket',
          Function.update s.thread i (.signalled nsocket) j = .signalled nsocket' :=
        fun j below => stays (by simp [here]) (inv.earlier j below)
      refine ⟨timely, by simpa using earlier, ?_⟩
      intro next
      by_cases last : i = s.nsocket
      · exact ⟨nsocket, by simp [last]⟩
      · -- an earlier thread has signalled before
        exfalso
        have isCreated := inv.timely.basic.lt_created (i := i) (by simp [here])
        have count := s.created_le
        rcases inv.earlier i (by omega) with ⟨nsocket', signalled⟩
        rw [here] at signalled
        cases signalled

end SignalInv

theorem SignalInv.timelyRun {actions : List Action} (inv : s.SignalInv)
    (signalled : s.SignalledRun actions) : s.TimelyRun actions := by
  induction actions generalizing s with
  | nil => trivial
  | cons action rest ih =>
      rcases signalled with ⟨first, later⟩
      refine ⟨inv.isTimely, ?_⟩
      intro next moved
      exact ih (inv.step first (moves_of_step moved)) (later next moved)

/-- Only a spurious wake-up gives two workers one socket. -/
theorem ownSockets_of_signalledRun {nworkerthreads : ℕ} {actions : List Action}
    (run : (init nworkerthreads).exec actions = some s)
    (signalled : (init nworkerthreads).SignalledRun actions) : s.OwnSockets := by
  have timely := (SignalInv.init nworkerthreads).timelyRun signalled
  exact ((TimelyInv.init nworkerthreads).exec run timely).ownSockets

end Startup

end ChaosCache
