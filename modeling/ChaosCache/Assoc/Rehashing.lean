import Mathlib.Logic.Relation
import ChaosCache.Assoc.Invariant

/-!
# Incremental rehashing

Runs of a table from an empty one: insertions, deletions and maintenance passes in any
order, with every outcome of the expansions. Between them the program may write any
memory, except for the links and hash values of stored items.
-/

namespace ChaosCache.AssociativeArray

open Links Relation

/-- A table, the heap it lies in, and the items stored and not deleted since. -/
structure TableState where
  table : AssociativeArray
  mem : Mem
  stored : Finset ℕ

/-- A table without items that is not expanding. -/
def TableState.Initial (s : TableState) : Prop :=
  s.stored = ∅ ∧ s.table.expanding = false ∧ s.table.primaryHashtable = (fun _ => none) ∧
    s.table.hashItems = 0 ∧ s.table.hashpower < 31

/-- One operation on the table, or writes of the program elsewhere. -/
inductive TableStep : TableState → TableState → Prop
  | insert {s : TableState} {t' : AssociativeArray} {mem' : Mem} (it : ℕ) (expansion : Expansion)
      (fresh : it ∉ s.stored) (address : it < addressSpace)
      (misses : s.table.assocFind s.mem (s.mem.hv it) (s.mem.key it) = .ok none)
      (run : s.table.assocInsert s.mem it expansion = .ok (t', mem'))
      (power : t'.hashpower < 31) :
      TableStep s ⟨t', mem', insert it s.stored⟩
  | delete {s : TableState} {t' : AssociativeArray} {mem' : Mem} (hash : UInt32)
      (key : List UInt8) (it : ℕ)
      (found : s.table.assocFind s.mem hash key = .ok (some it))
      (run : s.table.assocDelete s.mem hash key = .ok (t', mem')) :
      TableStep s ⟨t', mem', s.stored.erase it⟩
  | pass {s : TableState} {t' : AssociativeArray} {mem' : Mem}
      (run : s.table.maintenancePass s.mem = .ok (t', mem')) :
      TableStep s ⟨t', mem', s.stored⟩
  | write {s : TableState} (mem' : Mem)
      (links : ∀ a ∈ s.stored, mem'.hNext a = s.mem.hNext a)
      (hashes : ∀ a ∈ s.stored, mem'.hv a = s.mem.hv a) :
      TableStep s ⟨s.table, mem', s.stored⟩

namespace TableState

/-- The invariant, for some chains. -/
def Invariant (s : TableState) : Prop := ∃ chains, TableInv s.table s.mem s.stored chains

theorem Initial.invariant {s : TableState} (initial : s.Initial) : s.Invariant := by
  rcases s with ⟨table, mem, stored⟩
  rcases initial with ⟨rfl, still, buckets, items, power⟩
  exact ⟨_, TableInv.empty still buckets items power⟩

theorem invariant_of_step {s s' : TableState} (inv : s.Invariant) (step : TableStep s s') :
    s'.Invariant := by
  rcases inv with ⟨chains, inv⟩
  cases step with
  | insert it expansion fresh address misses run power =>
      have powers (t' : AssociativeArray) (mem' : Mem)
          (run' : s.table.assocInsert s.mem it expansion = .ok (t', mem')) :
          t'.hashpower < 31 := by
        cases run.symm.trans run'
        exact power
      rcases inv.assocInsert fresh address _ misses powers with ⟨t', hNext', chains', run', inv'⟩
      cases run.symm.trans run'
      exact ⟨chains', inv'⟩
  | delete hash key it found run =>
      rcases inv.assocDelete found with ⟨t', hNext', run', inv'⟩
      cases run.symm.trans run'
      exact ⟨_, inv'⟩
  | pass run =>
      rcases inv.maintenancePass with ⟨t', hNext', chains', run', inv'⟩
      cases run.symm.trans run'
      exact ⟨chains', inv'⟩
  | write mem' links hashes => exact ⟨chains, inv.congr links hashes⟩

theorem invariant_of_run {init s : TableState} (initial : init.Initial)
    (run : ReflTransGen TableStep init s) : s.Invariant := by
  induction run with
  | refl => exact initial.invariant
  | tail _ step ih => exact invariant_of_step ih step

/-- Every stored item occurs once, in the chain that its hash selects, and nothing else
occurs in a chain. -/
def EachInItsChain (s : TableState) : Prop :=
  ∃ chains : Slot → List ℕ,
    (∀ slot, Chain s.mem.hNext (s.table.head slot) (chains slot)) ∧
      ∀ slot a, (chains slot).count a =
        if a ∈ s.stored ∧ s.table.slot (s.mem.hv a) = slot then 1 else 0

/-- While expanding, the cursor is inside the old table and the buckets before it are empty. -/
def CursorInRange (s : TableState) : Prop :=
  s.table.expanding = true →
    s.table.expandBucket < hashsize (s.table.hashpower - 1) ∧
      ∀ bucket < s.table.expandBucket, s.table.load (.old bucket) = .ok none

/-- The operations that may come next return; in particular none reads a freed table. -/
def NeverFaults (s : TableState) : Prop :=
  (∀ it expansion, it ∉ s.stored →
      s.table.assocFind s.mem (s.mem.hv it) (s.mem.key it) = .ok none →
      ∃ result, s.table.assocInsert s.mem it expansion = .ok result) ∧
    (∀ hash key it, s.table.assocFind s.mem hash key = .ok (some it) →
      ∃ result, s.table.assocDelete s.mem hash key = .ok result) ∧
    ∃ result, s.table.maintenancePass s.mem = .ok result

/-- A lookup returns, and it returns an item exactly when some stored item passes the test. -/
def FindsStored (s : TableState) : Prop :=
  ∀ hash key, ∃ found, s.table.assocFind s.mem hash key = .ok found ∧
    (found ≠ none ↔ ∃ a ∈ s.stored, s.mem.Matches hash key a)

/-- An expansion that fails leaves every lookup as it was. -/
def FailureHarmless (s : TableState) : Prop :=
  s.table.expanding = false → ∀ expansion, expansion ≠ .succeeds → ∀ hash key,
    (s.table.assocExpand expansion).assocFind s.mem hash key = s.table.assocFind s.mem hash key

namespace Invariant

variable {s : TableState}

theorem eachInItsChain (inv : s.Invariant) : s.EachInItsChain := by
  rcases inv with ⟨chains, inv⟩
  refine ⟨chains, inv.chain, fun slot a => ?_⟩
  simp only [← inv.mem_chain]
  exact (inv.nodup slot).count

theorem cursorInRange (inv : s.Invariant) : s.CursorInRange := by
  rcases inv with ⟨chains, inv⟩
  intro expanding
  rcases inv.cursor expanding with ⟨-, cursor⟩
  have power := inv.power
  refine ⟨by rwa [hashsize_of_lt (by omega)], fun bucket before => ?_⟩
  have empty := (inv.chain (.old bucket)).start_eq
  rcases Option.isSome_iff_exists.mp (inv.oldLive expanding) with ⟨buckets, live⟩
  rw [inv.chains_old_eq_nil (Or.inl before)] at empty
  simpa [load, head, expanding, live] using empty

theorem neverFaults (inv : s.Invariant) : s.NeverFaults := by
  rcases inv with ⟨chains, inv⟩
  refine ⟨fun it expansion fresh misses => ?_, fun hash key it found => ?_, ?_⟩
  · rw [assocInsert_eq inv expansion misses]
    simp only
    split <;> exact ⟨_, rfl⟩
  · rcases inv.assocDelete found with ⟨t', hNext', run, -⟩
    exact ⟨_, run⟩
  · rcases inv.maintenancePass with ⟨t', hNext', chains', run, -⟩
    exact ⟨_, run⟩

theorem findsStored (inv : s.Invariant) : s.FindsStored := by
  rcases inv with ⟨chains, inv⟩
  intro hash key
  refine ⟨_, inv.assocFind_eq hash key, ?_⟩
  have misses := inv.assocFind_eq_none_iff hash key
  rw [inv.assocFind_eq, Except.ok.injEq] at misses
  rw [Ne, misses]
  simp

theorem failureHarmless (inv : s.Invariant) : s.FailureHarmless := by
  rcases inv with ⟨chains, inv⟩
  intro still expansion fails hash key
  have power : (s.table.assocExpand expansion).hashpower < 31 := by
    cases expansion with
    | succeeds => exact absurd rfl fails
    | callocFails => exact inv.power
    | threadFails => exact inv.power
  have sameSlot : (s.table.assocExpand expansion).slot hash = s.table.slot hash := by
    rw [slot_eq power, slot_eq inv.power]
    cases expansion with
    | succeeds => exact absurd rfl fails
    | callocFails => rfl
    | threadFails => simp [assocExpand, still]
  have sameChains : expandedChains expansion chains = chains := by
    cases expansion with
    | succeeds => exact absurd rfl fails
    | callocFails => rfl
    | threadFails => rfl
  rw [(inv.expand still power).assocFind_eq, inv.assocFind_eq, sameSlot, sameChains]

end Invariant

/-- After any run from an empty table, no item is hidden, lost or duplicated, and the
32-bit item counter is right modulo its range. -/
theorem nothing_hidden_of_run {init s : TableState} (initial : init.Initial)
    (run : ReflTransGen TableStep init s) :
    s.EachInItsChain ∧ s.table.hashItems = s.stored.card % 2 ^ 32 ∧ s.CursorInRange ∧
      s.NeverFaults ∧ s.FindsStored ∧ s.FailureHarmless := by
  have inv := invariant_of_run initial run
  have count : s.table.hashItems = s.stored.card % 2 ^ 32 := by
    rcases inv with ⟨chains, inv⟩
    exact inv.count
  exact ⟨inv.eachInItsChain, count, inv.cursorInRange, inv.neverFaults, inv.findsStored,
    inv.failureHarmless⟩

/-- An empty table. -/
def ofPower (hashpower : ℕ) (mem : Mem) : TableState where
  table :=
    { hashpower, hashItems := 0, primaryHashtable := fun _ => none, oldHashtable := none,
      expanding := false, expandBucket := 0 }
  mem := mem
  stored := ∅

theorem initial_ofPower {p : ℕ} (power : p < 31) (mem : Mem) :
    (ofPower p mem).Initial :=
  ⟨rfl, rfl, rfl, rfl, power⟩

/-- Items that hash to their own address. -/
def identityMem : Mem := { Mem.zero with hv := UInt32.ofNat }

/-- Two insertions into one bucket, of which the second starts an expansion, and the pass
that completes it. -/
theorem nothing_hidden_two : ∃ s : TableState, s.stored = {1, 2} ∧ s.table.hashpower = 1 ∧
    s.table.expanding = false ∧ s.EachInItsChain ∧
      s.table.hashItems = s.stored.card % 2 ^ 32 ∧ s.CursorInRange ∧
      s.NeverFaults ∧ s.FindsStored ∧ s.FailureHarmless := by
  have first := TableStep.insert (s := ofPower 0 identityMem) 1 .succeeds (by decide) (by decide)
    (by decide) rfl (by decide)
  have second := (ReflTransGen.single first).tail
    (.insert 2 .succeeds (by decide) (by decide) (by decide) rfl (by decide))
  have third := second.tail (.pass rfl)
  exact ⟨_, by decide, rfl, rfl, nothing_hidden_of_run (initial_ofPower (by decide) _) third⟩

/-- Expansions may keep failing while the items `0, 1, …` are inserted. -/
theorem exists_run_of_le {n : ℕ} (enough : n ≤ 2 ^ 32) :
    ∃ s, ReflTransGen TableStep (ofPower 0 identityMem) s ∧ s.stored = Finset.range n ∧
      s.table.hashpower = 0 ∧ s.mem.hv = UInt32.ofNat := by
  induction n with
  | zero => exact ⟨_, .refl, rfl, rfl, rfl⟩
  | succ n ih =>
      rcases ih (by omega) with ⟨s, run, items, power, hashes⟩
      rcases invariant_of_run (initial_ofPower (by decide) _) run with ⟨chains, inv⟩
      have misses : s.table.assocFind s.mem (s.mem.hv n) (s.mem.key n) = .ok none := by
        rw [inv.assocFind_eq_none_iff, items, hashes]
        rintro a below ⟨sameHash, -⟩
        have different : a < n := Finset.mem_range.mp below
        rw [hashes] at sameHash
        have same := congrArg UInt32.toNat sameHash
        simp only [UInt32.toNat_ofNat'] at same
        omega
      have inserted := assocInsert_eq inv .callocFails misses
      obtain ⟨t', inserted, power'⟩ : ∃ t',
          s.table.assocInsert s.mem n .callocFails = .ok (t', (s.table.linked s.mem n).2) ∧
            t'.hashpower = 0 := by
        simp only at inserted
        split at inserted
        · exact ⟨_, inserted, by simpa [assocExpand, linked] using power⟩
        · exact ⟨_, inserted, by simpa [linked] using power⟩
      have step := TableStep.insert n .callocFails (by simp [items])
        (by simp only [addressSpace]; omega) misses inserted (by omega)
      refine ⟨_, run.tail step, ?_, power', hashes⟩
      rw [items, Finset.range_add_one]

/-- The counter has 32 bits: after `2 ^ 32` insertions it is zero. -/
theorem hashItems_ne_card : ∃ init s, TableState.Initial init ∧ ReflTransGen TableStep init s ∧
    s.table.hashItems ≠ s.stored.card := by
  rcases exists_run_of_le le_rfl with ⟨s, run, items, -⟩
  have initial := initial_ofPower (p := 0) (by decide) identityMem
  rcases invariant_of_run initial run with ⟨chains, inv⟩
  refine ⟨_, s, initial, run, ?_⟩
  rw [inv.count, items, Finset.card_range]
  decide

end TableState

end ChaosCache.AssociativeArray
