import Mathlib.Logic.Relation
import ChaosCache.DataCache

/-!
# Threads that share the cache

Any number of threads call `getItem`, `storeItem` and `deleteItem` of one cache. A call is
cut where it lets go of the cache lock: between two sections of one call the other threads
and the maintenance thread may run any sections of theirs.

`obtained` is no part of the program. It records the items that `item_alloc` returned, the
last one first.
-/

namespace ChaosCache

inductive Call where
  | get (key : List UInt8)
  | store (key : List UInt8) (inbuffer : ℕ → UInt8) (bufflen : ℤ)
  | delete (key : List UInt8)

/-- What a thread has still to do in its call. -/
inductive Phase where
  | idle
  /-- `storeItem` has allocated the item, and copies the value in. -/
  | storing (it : ℕ) (inbuffer : ℕ → UInt8) (bufflen : ℤ)
  /-- `storeItem` has copied the value in. -/
  | copied (it : ℕ)
  /-- `getItem` has found the item, and copies the value out. -/
  | getting (it : ℕ)
  /-- `deleteItem` has found the item. -/
  | deleting (it : ℕ)
  /-- `deleteItem` has unlinked the item. -/
  | unlinked (it : ℕ)

namespace Phase

/-- The item that the thread uses. -/
def item : Phase → Option ℕ
  | idle => none
  | storing it _ _ => some it
  | copied it => some it
  | getting it => some it
  | deleting it => some it
  | unlinked it => some it

theorem item_eq_none {phase : Phase} : phase.item = none ↔ phase = idle := by
  cases phase <;> simp [item]

/-- The item that `item_alloc` has just returned. -/
def allocated : Phase → Option ℕ
  | storing it _ _ => some it
  | _ => none

/-- The next section of the call. -/
def resume (c : LruLists) (sys : System) : Phase → Result (LruLists × Phase)
  | idle => .ok (c, idle)
  | storing it inbuffer bufflen => do
      let c ← DataCache.copyIn c it inbuffer bufflen
      return (c, copied it)
  | copied it => do
      let c ← c.storeItem it sys
      return (c, idle)
  | getting _ => .ok (c, idle)
  | deleting it => do
      let c ← c.itemUnlink it sys
      return (c, unlinked it)
  | unlinked it => do
      let c ← c.itemRelease it sys
      return (c, idle)

end Phase

open DataCache in
/-- The first section of a call. -/
def Call.start (c : LruLists) (sys : System) : Call → Result (LruLists × Phase)
  | get key => do
      let (c, it) ← c.itemGet (cString key) sys
      return (c, it.elim .idle .getting)
  | store key inbuffer bufflen => do
      let (c, it) ← c.itemAlloc (cString key) bufflen sys
      return (c, it.elim .idle (.storing · inbuffer bufflen))
  | delete key => do
      let (c, it) ← c.itemGet (cString key) sys
      return (c, it.elim .idle .deleting)

structure Threads where
  cache : LruLists
  phase : ℕ → Phase
  obtained : List ℕ

/-- One section, of a thread or of the maintenance thread. -/
inductive Action where
  | call (thread : ℕ) (call : Call) (sys : System)
  | resume (thread : ℕ) (sys : System)
  | maintain

/-- The thread that takes a section. -/
def Action.actor : Action → Option ℕ
  | call thread _ _ => some thread
  | resume thread _ => some thread
  | maintain => none

namespace Threads

/-- No thread is in a call. -/
def init (cache : LruLists) : Threads where
  cache := cache
  phase _ := .idle
  obtained := []

def Quiescent (s : Threads) : Prop := ∀ thread, s.phase thread = .idle

variable (s : Threads)

/-- The state after a section that leaves a thread in a phase. -/
def enter (thread : ℕ) (cache : LruLists) (phase : Phase) : Threads where
  cache := cache
  phase := Function.update s.phase thread phase
  obtained := s.obtained

variable {s} in
theorem enter_idle {thread : ℕ} (idle : s.phase thread = .idle) (cache : LruLists) :
    s.enter thread cache .idle = { s with cache } := by
  simp only [enter, ← idle, Function.update_eq_self]

def step : Action → Result Threads
  | .call thread call sys => do
      let (cache, phase) ← call.start s.cache sys
      return { s.enter thread cache phase with
        obtained := phase.allocated.toList ++ s.obtained }
  | .resume thread sys => do
      let (cache, phase) ← (s.phase thread).resume s.cache sys
      return s.enter thread cache phase
  | .maintain => do
      let cache ← s.cache.maintenance
      return { s with cache }

/-- A thread starts a call when it is in none, and goes on in the one that it is in. -/
def Enabled : Action → Prop
  | .call thread _ _ => s.phase thread = .idle
  | .resume thread _ => s.phase thread ≠ .idle
  | .maintain => True

instance (action : Action) : Decidable (s.Enabled action) :=
  match action with
  | .call thread _ _ => decidable_of_iff ((s.phase thread).item = none) Phase.item_eq_none
  | .resume thread _ => decidable_of_iff ((s.phase thread).item ≠ none) Phase.item_eq_none.not
  | .maintain => .isTrue trivial

theorem phase_of_step {s s' : Threads} {action : Action} (run : s.step action = .ok s')
    {thread : ℕ} (other : action.actor ≠ some thread) : s'.phase thread = s.phase thread := by
  have notOwn {own : ℕ} (differs : some own ≠ some thread) : thread ≠ own :=
    fun same => differs (congrArg some same.symm)
  cases action with
  | call own call sys =>
      rcases bind_eq_ok.mp run with ⟨⟨cache, phase⟩, -, done⟩
      cases done
      exact Function.update_of_ne (notOwn other) _ _
  | resume own sys =>
      rcases bind_eq_ok.mp run with ⟨⟨cache, phase⟩, -, done⟩
      cases done
      exact Function.update_of_ne (notOwn other) _ _
  | maintain =>
      rcases bind_eq_ok.mp run with ⟨cache, -, done⟩
      cases done
      rfl

def Step (s s' : Threads) : Prop := ∃ action, s.Enabled action ∧ s.step action = .ok s'

/-- The state after some actions, if each of them may come next and returns. -/
def exec (s : Threads) : List Action → Option Threads
  | [] => some s
  | action :: rest =>
      if s.Enabled action then (s.step action).toOption.bind (exec · rest) else none

/-! ## A call on its own -/

open DataCache Relation

variable {s} {cache cache₁ cache' : LruLists} {env : Env} {thread : ℕ} {phase : Phase}
  {key : List UInt8}

theorem run_of_passes {n : ℕ} (run : passes n s.cache = .ok cache') :
    ReflTransGen Step s { s with cache := cache' } := by
  induction n generalizing s with
  | zero =>
      cases run
      exact .refl
  | succ n ih =>
      rcases bind_eq_ok.mp run with ⟨cache, pass, rest⟩
      have maintained : Step s { s with cache } := ⟨.maintain, trivial, bind_of_ok pass rfl⟩
      exact .head maintained (ih rest)

theorem run_of_start (idle : s.phase thread = .idle) {n : ℕ} {sys : System}
    (passed : passes n s.cache = .ok cache) (call : Call)
    (run : call.start cache sys = .ok (cache', phase)) :
    ∃ obtained, ReflTransGen Step s { s.enter thread cache' phase with obtained } :=
  ⟨_, (run_of_passes passed).tail ⟨.call thread call sys, idle, bind_of_ok run rfl⟩⟩

theorem run_of_resume (s : Threads) (thread : ℕ) (obtained : List ℕ) {n : ℕ}
    (passed : passes n cache = .ok cache₁) (phase : Phase) (busy : phase ≠ .idle) (sys : System)
    {phase' : Phase}
    (run : phase.resume cache₁ sys = .ok (cache', phase')) :
    ReflTransGen Step { s.enter thread cache phase with obtained }
      { s.enter thread cache' phase' with obtained } := by
  refine (run_of_passes passed).tail ⟨.resume thread sys, ?_, ?_⟩
  · simpa [Enabled, enter] using busy
  · simp only [step, enter, Function.update_self]
    refine bind_of_ok run ?_
    simp [Function.update_idem]

/-- A call that returns is a run in which no other thread takes part. -/
theorem run_of_getItem (idle : s.phase thread = .idle) {result : ℤ × Option (ℤ × List UInt8)}
    (run : getItem s.cache key env = .ok (cache', result)) :
    ∃ obtained, ReflTransGen Step s { s with cache := cache', obtained } := by
  rcases bind_eq_ok.mp run with ⟨c₁, pass, run⟩
  rcases bind_eq_ok.mp run with ⟨⟨c₂, it⟩, got, run⟩
  rcases run_of_start idle pass (.get key) (bind_of_ok got rfl) with ⟨obtained, first⟩
  cases it with
  | none =>
      cases run
      exact ⟨obtained, by simpa [enter_idle idle] using first⟩
  | some it =>
      rcases bind_eq_ok.mp run with ⟨c₃, pass, run⟩
      cases run
      have second := run_of_resume s thread obtained pass (.getting it) (by simp) (env.sys 1) rfl
      exact ⟨obtained, by simpa [enter_idle idle] using first.trans second⟩

theorem run_of_storeItem (idle : s.phase thread = .idle) {inbuffer : ℕ → UInt8} {bufflen ret : ℤ}
    (run : storeItem s.cache key inbuffer bufflen env = .ok (cache', ret)) :
    ∃ obtained, ReflTransGen Step s { s with cache := cache', obtained } := by
  rcases bind_eq_ok.mp run with ⟨c₁, pass, run⟩
  rcases bind_eq_ok.mp run with ⟨⟨c₂, it⟩, got, run⟩
  rcases run_of_start idle pass (.store key inbuffer bufflen) (bind_of_ok got rfl) with
    ⟨obtained, first⟩
  cases it with
  | none =>
      cases run
      exact ⟨obtained, by simpa [enter_idle idle] using first⟩
  | some it =>
      rcases bind_eq_ok.mp run with ⟨c₃, pass₂, run⟩
      rcases bind_eq_ok.mp run with ⟨c₄, copied, run⟩
      rcases bind_eq_ok.mp run with ⟨c₅, pass₃, run⟩
      rcases bind_eq_ok.mp run with ⟨c₆, stored, run⟩
      cases run
      have second := run_of_resume s thread obtained pass₂ (.storing it inbuffer bufflen) (by simp)
        (env.sys 1) (bind_of_ok copied rfl)
      have third := run_of_resume s thread obtained pass₃ (.copied it) (by simp) _
        (bind_of_ok stored rfl)
      exact ⟨obtained, by simpa [enter_idle idle] using (first.trans second).trans third⟩

theorem run_of_deleteItem (idle : s.phase thread = .idle) {ret : ℤ}
    (run : deleteItem s.cache key env = .ok (cache', ret)) :
    ∃ obtained, ReflTransGen Step s { s with cache := cache', obtained } := by
  rcases bind_eq_ok.mp run with ⟨c₁, pass, run⟩
  rcases bind_eq_ok.mp run with ⟨⟨c₂, it⟩, got, run⟩
  rcases run_of_start idle pass (.delete key) (bind_of_ok got rfl) with ⟨obtained, first⟩
  cases it with
  | none =>
      cases run
      exact ⟨obtained, by simpa [enter_idle idle] using first⟩
  | some it =>
      rcases bind_eq_ok.mp run with ⟨c₃, pass₂, run⟩
      rcases bind_eq_ok.mp run with ⟨c₄, isUnlinked, run⟩
      rcases bind_eq_ok.mp run with ⟨c₅, pass₃, run⟩
      rcases bind_eq_ok.mp run with ⟨c₆, released, run⟩
      cases run
      have second := run_of_resume s thread obtained pass₂ (.deleting it) (by simp) _
        (bind_of_ok isUnlinked rfl)
      have third := run_of_resume s thread obtained pass₃ (.unlinked it) (by simp) _
        (bind_of_ok released rfl)
      exact ⟨obtained, by simpa [enter_idle idle] using (first.trans second).trans third⟩

end Threads

end ChaosCache
