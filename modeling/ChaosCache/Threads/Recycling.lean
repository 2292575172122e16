import ChaosCache.Threads.Invariant

/-!
# Which chunks are recycled

As long as no reference count wraps, the tail repair is the only way in which a chunk is freed
that a thread still uses.
-/

namespace ChaosCache.Threads

open Relation

variable {keys : Set (List UInt8)} {c : LruLists} {s s' : Threads}

/-- Every chunk that the step has freed is used by no thread. -/
def RecyclesUnused (s s' : Threads) : Prop :=
  ∃ gone, s'.cache.freed = gone ++ s.cache.freed ∧
    ∀ a ∈ gone, ∀ thread, (s.phase thread).item ≠ some a

/-- In every run without wraps whose tail repairs spare the items in use, no step frees a chunk
that a thread uses. -/
theorem recyclesUnused_of_run (keySet : KeySet keys) {mem : Mem} {cacheSize : ℕ} {os : Os}
    {initialMalloc : Option ℕ}
    (created : DataCache.create .zero .zero mem cacheSize os initialMalloc = .ok c)
    (run : ReflTransGen (SparingStep keys) (init c) s) (step : SparingStep keys s s') :
    RecyclesUnused s s' := by
  rcases inv_of_run keySet created run with ⟨v, inv⟩
  rcases step with ⟨action, guarded, spares⟩
  rcases inv.advance keySet guarded spares with ⟨v', gone, reset, new, -, advances⟩
  rcases spares with ⟨reset', repaired, unused⟩
  rcases List.append_cancel_right (advances.repaired.symm.trans repaired) with rfl
  exact ⟨gone, advances.freed, fun a isGone => unused a (advances.picked a isGone)⟩

/-- A store of a value that takes half a page. -/
def halfPage (key : List UInt8) (sys : System) : Action :=
  .call 0 (.store key (fun _ => 7) 450000) sys

open DataCache in
/-- After the store of `key1`, `key2` fills the page. Hours later another thread looks `key1` up,
which moves its item to the head of the list. -/
def lookupLater : List Action :=
  [.resume 0 (outOfMemory 0), .resume 0 (outOfMemory 0),
    halfPage [107, 101, 121, 50] (outOfMemory 0), .resume 0 (outOfMemory 0),
    .resume 0 (outOfMemory 0), .call 1 (.get [107, 101, 121, 49]) (outOfMemory 20000)]

theorem contract_lookupLater : ∀ action ∈ lookupLater,
    action.Valid (keysOfLength 4) ∧ action.Positive ∧ ∀ slabs, action.Sane slabs := by
  have isFirst : [107, 101, 121, 49] ∈ keysOfLength 4 := ⟨rfl, by decide⟩
  have isSecond : [107, 101, 121, 50] ∈ keysOfLength 4 := ⟨rfl, by decide⟩
  simp [lookupLater, halfPage, Action.Valid, Call.Valid, Action.Positive, Action.Sane,
    DataCache.sane_outOfMemory, isFirst, isSecond]

open DataCache in
/-- When there is no memory for another page, the tail repair recycles the item of `key2`
while the other thread copies the value of `key1`. -/
theorem recyclesUnused_tailRepair : ∃ s s' : Threads, (s.phase 1).item = some 4096 ∧
    s.cache.freed = [] ∧ s'.cache.repaired = [497648] ∧ s'.cache.freed = [497648] ∧
      RecyclesUnused s s' := by
  let first := halfPage [107, 101, 121, 49] (onePage 987104 4096 0)
  let last := halfPage [107, 101, 121, 51] (outOfMemory 20000)
  have facts : ((init (new .zero 64 0)).calmExec (first :: lookupLater)).bind (fun s =>
      (s.step last).toOption.map fun s' => (decide ((s.phase 0).item = none ∧
        (s.phase 1).item = some 4096 ∧ s.cache.repaired = [] ∧ s.cache.freed = [] ∧
          s.cache.assoc.hashItems < 2 ^ 30), s'.cache.repaired, s'.cache.freed)) =
      some (true, [497648], [497648]) := by
    decide +kernel
  rcases Option.bind_eq_some_iff.mp facts with ⟨s, run, facts⟩
  rcases Option.map_eq_some_iff.mp facts with ⟨s', step, facts⟩
  simp only [Prod.mk.injEq, decide_eq_true_eq, Phase.item_eq_none] at facts
  rcases facts with ⟨⟨idle, uses, noneRepaired, noneFreed, few⟩, repaired, freed⟩
  have others (thread : ℕ) (other : 1 < thread) : s.phase thread = .idle := by
    have actors : ∀ action ∈ first :: lookupLater,
        action.actor = some 0 ∨ action.actor = some 1 := by
      simp [first, lookupLater, halfPage, Action.actor]
    refine phase_of_calmExec (fun action isIn own => ?_) run
    rcases actors action isIn with isFirst | isSecond
    · cases isFirst.symm.trans own
      exact absurd other (by decide)
    · cases isSecond.symm.trans own
      exact absurd other (by decide)
  rw [calmExec, List.foldlM_cons] at run
  rcases Option.bind_eq_some_iff.mp run with ⟨s₁, stored, run⟩
  have validFirst : first.Valid (keysOfLength 4) := ⟨⟨rfl, by decide⟩, by decide⟩
  have validLast : last.Valid (keysOfLength 4) := ⟨⟨rfl, by decide⟩, by decide⟩
  have positive : first.Positive := show (0 : ℤ) ≤ 450000 by decide
  have saneFirst : first.Sane (newSlabs 64 0) := sane_onePage (noSlabs_new 64 0) (by decide) 0
  rcases of_calmStep validFirst positive saneFirst stored with ⟨guarded, quiet, -⟩
  have before := calmExec_induction
    (motive := ReflTransGen (SparingStep (keysOfLength 4)) (init (new .zero 64 0)))
    (fun _ _ action guarded quiet _ run =>
      run.tail (sparingStep_of_quietStep ⟨action, guarded, quiet⟩))
    contract_lookupLater (.single (sparingStep_of_quietStep ⟨first, guarded, quiet⟩)) run
  have sparing : SparingStep (keysOfLength 4) s s' := by
    refine ⟨last, ⟨⟨idle, validLast, sane_outOfMemory _ 20000, few⟩, trivial,
      toOption_eq_some.mp step, Or.inl positive⟩, [497648], by simp [repaired, noneRepaired], ?_⟩
    intro a isRepaired thread isUsed
    rw [List.mem_singleton.mp isRepaired] at isUsed
    by_cases other : 1 < thread
    · simp [others thread other, Phase.item] at isUsed
    · obtain rfl | rfl : thread = 0 ∨ thread = 1 := by omega
      · simp [idle, Phase.item] at isUsed
      · simp [uses] at isUsed
  have created := create_eq .zero 64 ((onePage 0 0 0).os 0) none
  exact ⟨s, s', uses, noneFreed, repaired, freed,
    recyclesUnused_of_run (keySet_keysOfLength (by decide)) created before sparing⟩

/-- A store of a value that takes a page of its own. -/
def bigStore (key : List UInt8) (sys : System) : Action :=
  .call 0 (.store key (fun _ => 7) 1000000) sys

open DataCache in
/-- Three hours after a store, and when there is no memory for another page, the tail repair
recycles the item that `getItem` is copying. -/
theorem not_recyclesUnused_of_tailRepair : ∃ s s',
    ReflTransGen SaneStep (init (new .zero 64 0)) s ∧ SaneStep s s' ∧
      (s.phase 1).item = some 4096 ∧ s.cache.freed = [] ∧ s'.cache.freed = [4096] := by
  let first := bigStore [107, 101, 121, 49] (onePage (2 ^ 20) 4096 0)
  let later : List Action := [.resume 0 (outOfMemory 0), .resume 0 (outOfMemory 0),
    .call 1 (.get [107, 101, 121, 49]) (outOfMemory 0)]
  let last := bigStore [107, 101, 121, 50] (outOfMemory 20000)
  have before : ((init (new .zero 64 0)).exec (first :: later)).map
      (fun s => ((s.phase 0).item, (s.phase 1).item, s.cache.freed)) =
        some (none, some 4096, []) := by
    decide +kernel
  have after : (((init (new .zero 64 0)).exec (first :: later)).bind
      fun s => (s.step last).toOption).map (·.cache.freed) = some [4096] := by
    decide +kernel
  rcases Option.map_eq_some_iff.mp before with ⟨s, run, facts⟩
  obtain ⟨idle, uses, noneFreed⟩ : (s.phase 0).item = none ∧ (s.phase 1).item = some 4096 ∧
      s.cache.freed = [] := by simpa using facts
  rw [run, Option.bind_some] at after
  cases next : s.step last with
  | error fault => simp [next, Except.toOption] at after
  | ok s' =>
      rcases of_exec_cons run with ⟨enabled, s₁, stored, rest⟩
      have firstSane : SaneStep (init (new .zero 64 0)) s₁ :=
        ⟨first, enabled, sane_onePage (noSlabs_new 64 0) (by decide) 0, stored⟩
      have restSane : ReflTransGen SaneStep s₁ s := by
        refine run_of_exec (fun action isLater slabs => ?_) rest
        simp only [later, List.mem_cons, List.not_mem_nil, or_false] at isLater
        rcases isLater with rfl | rfl | rfl <;> exact sane_outOfMemory slabs 0
      refine ⟨s, s', .head firstSane restSane,
        ⟨last, Phase.item_eq_none.mp idle, sane_outOfMemory _ 20000, next⟩, uses, noneFreed, ?_⟩
      simpa [next, Except.toOption] using after

end ChaosCache.Threads
