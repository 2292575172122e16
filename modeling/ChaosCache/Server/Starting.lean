import Mathlib.Algebra.BigOperators.Group.Finset.Piecewise
import Mathlib.Algebra.Order.BigOperators.Group.Finset
import ChaosCache.Server.Startup

/-!
# Whether the start ends

`worker` signals as soon as it is called, and `work` may not wait yet. Nobody hears such a signal.
`work` then waits for a thread that has nothing left to signal, and creates no other, so that only
a spurious wake-up could help it.
-/

namespace ChaosCache

open Finset

/-- The steps of `work` in one iteration that are behind it. -/
def WorkPlace.steps : WorkPlace → ℕ
  | test => 0
  | create => 1
  | sleep => 2
  | wait => 3
  | next => 3
  | proxy => 1

/-- The steps of a thread that are behind it. -/
def ServerThread.steps : ServerThread → ℕ
  | absent => 0
  | created => 0
  | called _ => 1
  | signalled _ => 2

@[simp]
theorem ServerThread.steps_absent : absent.steps = 0 := rfl

@[simp]
theorem ServerThread.steps_created : created.steps = 0 := rfl

@[simp]
theorem ServerThread.steps_called (nsocket : ℕ) : (called nsocket).steps = 1 := rfl

@[simp]
theorem ServerThread.steps_signalled (nsocket : ℕ) : (signalled nsocket).steps = 2 := rfl

theorem ServerThread.steps_le (thread : ServerThread) : thread.steps ≤ 2 := by
  cases thread <;> simp

namespace Startup

variable {s s' : Startup} {action : Action} {actions : List Action}

/-- A signal is given while `work` waits. -/
def Heard (s : Startup) (action : Action) : Prop :=
  ∀ i nsocket, action = .thread i → s.thread i = .called nsocket → s.work = .wait

/-- All signals of a run are heard. -/
def HeardRun (s : Startup) : List Action → Prop
  | [] => True
  | action :: rest => s.Heard action ∧ ∀ s', s.step action = some s' → s'.HeardRun rest

/-- Nothing is possible any more but a spurious wake-up. -/
def Stuck (s : Startup) : Prop := ∀ action, action ≠ .wake → s.step action = none

/-- The steps that are behind `work` and its threads. -/
def steps (s : Startup) : ℕ :=
  4 * s.nsocket + s.work.steps + ∑ i ∈ range s.nworkerthreads, (s.thread i).steps

/-! ## The number of steps -/

theorem sum_update {i n : ℕ} (inRange : i < n) (threads : ℕ → ServerThread)
    (thread : ServerThread) :
    ∑ j ∈ range n, (Function.update threads i thread j).steps + (threads i).steps =
      ∑ j ∈ range n, (threads j).steps + thread.steps := by
  have isIn : i ∈ range n := mem_range.mpr inRange
  have others : ∑ j ∈ range n \ {i}, (Function.update threads i thread j).steps =
      ∑ j ∈ range n \ {i}, (threads j).steps := by
    apply sum_congr rfl
    intro j isOther
    have other : j ≠ i := by simpa using (mem_sdiff.mp isOther).2
    rw [Function.update_of_ne other]
  rw [← sum_sdiff (singleton_subset_iff.mpr isIn), others,
    ← sum_sdiff (singleton_subset_iff.mpr isIn) (f := fun j => (threads j).steps)]
  simp only [sum_singleton, Function.update_self]
  omega

/-- Every step counts, as long as nobody wakes up without a signal. -/
theorem steps_of_moves (inv : s.Inv) (awake : action ≠ .wake) (moves : s.Moves action s') :
    s'.steps = s.steps + 1 := by
  cases moves with
  | test here =>
      unfold steps
      split
      · simp only [here, WorkPlace.steps]
        omega
      · simp only [here, WorkPlace.steps]
        omega
  | create here =>
      have count := sum_update (inv.creates here) s.thread .created
      have isAbsent : s.thread s.nsocket = .absent := by
        apply (inv.absent s.nsocket).mpr
        simp [created, here]
      simp only [isAbsent, ServerThread.steps_absent, ServerThread.steps_created] at count
      simp only [steps, here, WorkPlace.steps]
      omega
  | sleep here =>
      simp only [steps, here, WorkPlace.steps]
      omega
  | next here =>
      simp only [steps, here, WorkPlace.steps]
      omega
  | wake here => exact absurd rfl awake
  | call i here =>
      have inRange := Nat.lt_of_lt_of_le (inv.lt_created (i := i) (by simp [here])) inv.inRange
      have count := sum_update inRange s.thread (.called s.nsocket)
      simp only [here, ServerThread.steps_created, ServerThread.steps_called] at count
      simp only [steps]
      omega
  | signal i nsocket here =>
      have inRange := Nat.lt_of_lt_of_le (inv.lt_created (i := i) (by simp [here])) inv.inRange
      have count := sum_update inRange s.thread (.signalled nsocket)
      have place : s.notify.work.steps = s.work.steps := by
        unfold notify
        cases work : s.work <;> simp [work, WorkPlace.steps]
      simp only [here, ServerThread.steps_called, ServerThread.steps_signalled] at count
      simp only [steps, notify_nsocket, notify_nworkerthreads, place]
      omega

theorem steps_le (inv : s.Inv) : s.steps ≤ 6 * s.nworkerthreads + 1 := by
  have threads : ∑ i ∈ range s.nworkerthreads, (s.thread i).steps ≤
      ∑ _i ∈ range s.nworkerthreads, 2 :=
    sum_le_sum fun i _ => (s.thread i).steps_le
  have twice : ∑ _i ∈ range s.nworkerthreads, 2 = (range s.nworkerthreads).card * 2 :=
    sum_const_nat fun _ _ => rfl
  have inRange := inv.inRange
  rw [twice, card_range] at threads
  unfold steps
  cases work : s.work with
  | create =>
      have more := inv.creates work
      simp only [WorkPlace.steps]
      omega
  | test | sleep | wait | next | proxy =>
      simp only [created, work] at inRange
      simp only [WorkPlace.steps]
      omega

theorem init_steps (nworkerthreads : ℕ) : (init nworkerthreads).steps = 0 := by
  simp [steps, init, WorkPlace.steps]

/-! ## Signals that nobody hears -/

/-- What holds in a run without spurious wake-ups. -/
structure AwakeInv (s : Startup) : Prop where
  signals : s.SignalInv
  complete : s.work = .proxy → s.nworkerthreads ≤ s.nsocket

/-- The last thread has signalled, and `work` has still to wait for it. -/
structure Lost (s : Startup) : Prop where
  work : s.work = .sleep ∨ s.work = .wait
  last : ∃ nsocket, s.thread s.nsocket = .signalled nsocket

namespace AwakeInv

theorem init (nworkerthreads : ℕ) : (Startup.init nworkerthreads).AwakeInv where
  signals := .init nworkerthreads
  complete here := by cases here

theorem basic (inv : s.AwakeInv) : s.Inv := inv.signals.timely.basic

theorem step (inv : s.AwakeInv) (awake : action ≠ .wake) (moves : s.Moves action s') :
    s'.AwakeInv := by
  refine ⟨inv.signals.step (fun isWake => absurd isWake awake) moves, ?_⟩
  cases moves with
  | test here =>
      intro proxy
      by_contra more
      simp [Nat.not_le.mp more] at proxy
  | create here | sleep here | next here =>
      intro proxy
      cases proxy
  | wake here => exact absurd rfl awake
  | call i here => exact inv.complete
  | signal i nsocket here =>
      intro proxy
      simp only [notify_nworkerthreads, notify_nsocket]
      apply inv.complete
      cases work : s.work <;> simp [notify, work] at proxy ⊢

/-- A thread that has not signalled was created last, and `work` has not gone on from it. -/
theorem last_of_unsignalled (inv : s.AwakeInv) {i : ℕ} (isCreated : s.thread i ≠ .absent)
    (unsignalled : ∀ nsocket, s.thread i ≠ .signalled nsocket) :
    i = s.nsocket ∧ (s.work = .sleep ∨ s.work = .wait) := by
  have below := inv.basic.lt_created isCreated
  have last : ¬i < s.nsocket := by
    intro before
    rcases inv.signals.earlier i before with ⟨nsocket, signalled⟩
    exact unsignalled nsocket signalled
  cases work : s.work with
  | sleep | wait =>
      simp only [created, work] at below
      exact ⟨by omega, by simp⟩
  | next =>
      simp only [created, work] at below
      have same : i = s.nsocket := by omega
      rcases inv.signals.last work with ⟨nsocket, signalled⟩
      exact absurd signalled (same ▸ unsignalled nsocket)
  | test | create | proxy =>
      simp only [created, work] at below
      exact absurd below last

end AwakeInv

namespace Lost

/-- No thread is left that could signal. -/
theorem signalled (lost : s.Lost) (inv : s.AwakeInv) {i : ℕ} (isCreated : s.thread i ≠ .absent) :
    ∃ nsocket, s.thread i = .signalled nsocket := by
  by_contra unsignalled
  rcases lost.last with ⟨nsocket, signalled⟩
  have last := (inv.last_of_unsignalled isCreated (by simpa using unsignalled)).1
  exact unsignalled ⟨nsocket, last ▸ signalled⟩

theorem step (lost : s.Lost) (inv : s.AwakeInv) (awake : action ≠ .wake)
    (moves : s.Moves action s') : s'.Lost := by
  cases moves with
  | test here | create here | next here =>
      rcases lost.work with work | work <;> simp [here] at work
  | sleep here => exact ⟨Or.inr rfl, lost.last⟩
  | wake here => exact absurd rfl awake
  | call i here =>
      rcases lost.signalled inv (i := i) (by simp [here]) with ⟨nsocket, signalled⟩
      simp [here] at signalled
  | signal i nsocket here =>
      rcases lost.signalled inv (i := i) (by simp [here]) with ⟨nsocket', signalled⟩
      simp [here] at signalled

end Lost

/-- Only a signal that is not heard is lost. -/
theorem lost_iff_of_moves (inv : s.AwakeInv) (awake : action ≠ .wake) (heard : ¬s.Lost)
    (moves : s.Moves action s') : s'.Lost ↔ ¬s.Heard action := by
  cases moves with
  | test here =>
      apply iff_of_false
      · rintro ⟨work, -⟩
        simp only at work
        split at work <;> simp at work
      · exact fun unheard => unheard fun i nsocket isThread => by cases isThread
  | create here =>
      apply iff_of_false
      · rintro ⟨-, nsocket, signalled⟩
        simp at signalled
      · exact fun unheard => unheard fun i nsocket isThread => by cases isThread
  | sleep here =>
      apply iff_of_false
      · exact fun lost => heard ⟨Or.inl here, lost.last⟩
      · exact fun unheard => unheard fun i nsocket isThread => by cases isThread
  | next here =>
      apply iff_of_false
      · rintro ⟨work, -⟩
        simp at work
      · exact fun unheard => unheard fun i nsocket isThread => by cases isThread
  | wake here => exact absurd rfl awake
  | call i here =>
      apply iff_of_false
      · rintro ⟨work, nsocket, signalled⟩
        refine heard ⟨work, nsocket, ?_⟩
        by_cases same : s.nsocket = i
        · simp [same] at signalled
        · simpa [same] using signalled
      · intro unheard
        apply unheard
        intro j nsocket isThread called
        cases isThread
        simp [here] at called
  | signal i nsocket here =>
      rcases inv.last_of_unsignalled (i := i) (by simp [here]) (by simp [here]) with
        ⟨rfl, work | work⟩
      · apply iff_of_true
        · exact ⟨Or.inl (by simp [notify, work]), nsocket, by simp⟩
        · intro heard
          have waits := heard s.nsocket nsocket rfl here
          simp [work] at waits
      · apply iff_of_false
        · rintro ⟨work', -⟩
          simp [notify, work] at work'
        · exact fun unheard => unheard fun _ _ _ _ => work

/-! ## Runs -/

/-- What a run without spurious wake-ups keeps, and the steps that it takes. -/
theorem awake_of_exec (inv : s.AwakeInv) (awake : Action.wake ∉ actions)
    (run : s.exec actions = some s') :
    s'.AwakeInv ∧ s'.steps = s.steps + actions.length ∧
      s'.nworkerthreads = s.nworkerthreads := by
  induction actions generalizing s with
  | nil =>
      cases run
      exact ⟨inv, rfl, rfl⟩
  | cons action rest ih =>
      rcases exec_cons.mp run with ⟨next, moved, others⟩
      have isAwake : action ≠ .wake := fun isWake => awake (isWake ▸ List.mem_cons_self)
      have moves := moves_of_step moved
      rcases ih (inv.step isAwake moves) (fun isIn => awake (List.mem_cons_of_mem _ isIn)) others
        with ⟨inv', count, bound⟩
      refine ⟨inv', ?_, ?_⟩
      · rw [count, steps_of_moves inv.basic isAwake moves, List.length_cons]
        omega
      · rw [bound]
        cases moves <;> simp

theorem lost_of_exec (lost : s.Lost) (inv : s.AwakeInv) (awake : Action.wake ∉ actions)
    (run : s.exec actions = some s') : s'.Lost := by
  induction actions generalizing s with
  | nil =>
      cases run
      exact lost
  | cons action rest ih =>
      rcases exec_cons.mp run with ⟨next, moved, others⟩
      have isAwake : action ≠ .wake := fun isWake => awake (isWake ▸ List.mem_cons_self)
      have moves := moves_of_step moved
      exact ih (lost.step inv isAwake moves) (inv.step isAwake moves)
        (fun isIn => awake (List.mem_cons_of_mem _ isIn)) others

theorem lost_iff_of_exec (inv : s.AwakeInv) (heard : ¬s.Lost) (awake : Action.wake ∉ actions)
    (run : s.exec actions = some s') : s'.Lost ↔ ¬s.HeardRun actions := by
  induction actions generalizing s with
  | nil =>
      cases run
      simp [heard, HeardRun]
  | cons action rest ih =>
      rcases exec_cons.mp run with ⟨next, moved, others⟩
      have isAwake : action ≠ .wake := fun isWake => awake (isWake ▸ List.mem_cons_self)
      have later : Action.wake ∉ rest := fun isIn => awake (List.mem_cons_of_mem _ isIn)
      have moves := moves_of_step moved
      have inv' := inv.step isAwake moves
      have first := lost_iff_of_moves inv isAwake heard moves
      have split : s.HeardRun (action :: rest) ↔ s.Heard action ∧ next.HeardRun rest := by
        simp [HeardRun, moved]
      rw [split]
      by_cases lost : next.Lost
      · apply iff_of_true (lost_of_exec lost inv' later others)
        exact fun both => first.mp lost both.1
      · have isHeard : s.Heard action := by
          by_contra unheard
          exact lost (first.mpr unheard)
        rw [ih inv' lost later others]
        simp [isHeard]

/-- Where nothing is possible any more, `work` is behind its loop, or waits for a signal that it has
not heard. -/
theorem AwakeInv.of_stuck (inv : s.AwakeInv) (stuck : s.Stuck) :
    (s.Started ∧ ¬s.Lost) ∨ (s.work = .wait ∧ s.Lost) := by
  have notWork : s.step .work = none := stuck .work (by simp)
  cases work : s.work with
  | test | create | sleep | next => simp [Startup.step, advance, work] at notWork
  | proxy =>
      left
      refine ⟨⟨work, ?_⟩, ?_⟩
      · intro i inRange
        have before := Nat.lt_of_lt_of_le inRange (inv.complete work)
        rcases inv.signals.earlier i before with ⟨nsocket, signalled⟩
        rw [signalled]
        rfl
      · rintro ⟨work', -⟩
        simp [work] at work'
  | wait =>
      right
      refine ⟨rfl, Or.inr work, ?_⟩
      have notThread : s.step (.thread s.nsocket) = none := stuck _ (by simp)
      cases thread : s.thread s.nsocket with
      | absent =>
          have count := (inv.basic.absent s.nsocket).mp thread
          simp only [created, work] at count
          omega
      | created => simp [Startup.step, advanceThread, thread] at notThread
      | called nsocket => simp [Startup.step, advanceThread, thread] at notThread
      | signalled nsocket => exact ⟨nsocket, rfl⟩

/-- Without spurious wake-ups the start comes to an end, and all workers are called exactly if each
signal was given while `work` waited. Otherwise `work` waits for ever. -/
theorem starts_iff_of_exec {nworkerthreads : ℕ}
    (run : (init nworkerthreads).exec actions = some s) (awake : Action.wake ∉ actions) :
    actions.length ≤ 6 * nworkerthreads + 1 ∧
      (s.Stuck → (s.Started ↔ (init nworkerthreads).HeardRun actions) ∧
        (s.work = .wait ↔ ¬(init nworkerthreads).HeardRun actions)) := by
  have start := AwakeInv.init nworkerthreads
  rcases awake_of_exec start awake run with ⟨inv, count, bound⟩
  constructor
  · have most := steps_le inv.basic
    rw [count, init_steps, bound, Nat.zero_add] at most
    exact most
  · intro stuck
    have notLost : ¬(init nworkerthreads).Lost := by
      rintro ⟨work, -⟩
      simp [init] at work
    have lost := lost_iff_of_exec start notLost awake run
    rcases inv.of_stuck stuck with ⟨started, heard⟩ | ⟨waits, isLost⟩
    · have isHeard := not_not.mp (mt lost.mpr heard)
      simp [isHeard, started, started.work]
    · have unheard := lost.mp isLost
      have notStarted : ¬s.Started := by
        intro started
        simp [started.work] at waits
      simp [unheard, notStarted, waits]

/-- The worker signals before `work` waits. -/
theorem starts_iff_of_early_signal : ∃ s, (init 1).exec
      [.work, .work, .thread 0, .thread 0, .work] = some s ∧ s.work = .wait ∧ s.Stuck ∧
    [Action.work, .work, .thread 0, .thread 0, .work].length ≤ 6 * 1 + 1 ∧
      (s.Stuck → (s.Started ↔
          (init 1).HeardRun [.work, .work, .thread 0, .thread 0, .work]) ∧
        (s.work = .wait ↔ ¬(init 1).HeardRun [.work, .work, .thread 0, .thread 0, .work])) := by
  refine ⟨_, rfl, rfl, ?_, starts_iff_of_exec rfl (by decide)⟩
  intro action awake
  cases action with
  | work => rfl
  | wake => exact absurd rfl awake
  | thread i =>
      cases i with
      | zero => rfl
      | succ i => rfl

end Startup

end ChaosCache
