import ChaosCache.DataCache.Refinement
import ChaosCache.Threads.Consistency

/-!
# References and chunks that leak

`storeItem` keeps the reference that `item_alloc` gave it, and nothing ever releases it. So a
cache leaks as soon as one store has obtained an item, and not before.
-/

namespace ChaosCache

open Hash Links Relation

variable {keys : Set (List UInt8)} {c c' : LruLists} {v v' : View} {s s' : Threads} {it id : ℕ}

/-- Nobody refers to the items of the lists, and the chunks that are neither free nor at the
end of a page belong to linked items. -/
structure LruLists.LeakFree (c : LruLists) : Prop where
  noRef : ∀ id nodes, Chain c.mem.next (c.heads id) nodes → ∀ it ∈ nodes, c.mem.refcount it = 0
  linked : ∀ id, ∀ it ∈ (c.slabs.slabclass id).chunks, it ∉ (c.slabs.slabclass id).slots →
    it ∉ (c.slabs.slabclass id).endRun → c.mem.itemLinked it = true

namespace Threads

/-- If the action is a store, it can obtain no item. -/
def Starved (s : Threads) : Action → Prop
  | .call _ (.store key _ bufflen) sys =>
      ¬s.cache.Allocatable (DataCache.cString key).length bufflen sys
  | _ => True

/-- A step of a run in which no store obtains an item. -/
def StarvedStep (s s' : Threads) : Prop :=
  ∃ action, s.Enabled action ∧ action.Sane s.cache.slabs ∧ s.Starved action ∧
    s.step action = .ok s'

end Threads

/-! ## Runs in which nothing is obtained -/

theorem keySet_empty : KeySet ∅ := ⟨by simp, by simp, by simp⟩

namespace CacheInv

theorem stored_eq_empty (inv : CacheInv ∅ c v) : v.stored = ∅ :=
  Finset.eq_empty_of_forall_notMem fun it isStored => (inv.keys it isStored).elim

theorem doItemGet_of_empty (inv : CacheInv ∅ c v) (key : List UInt8) (hash : UInt32) (now : ℕ) :
    c.doItemGet key hash now = .ok (c, none) := by
  have lookup := (inv.table.assocFind_eq_none_iff hash key).mpr (by simp [inv.stored_eq_empty])
  exact bind_of_ok lookup rfl

end CacheInv

namespace Threads

/-- No store has obtained anything, and no class has a slab. -/
structure Unused (s : Threads) : Prop where
  quiescent : s.Quiescent
  noSlabs : ∀ id, (s.cache.slabs.slabclass id).slabList = []
  inv : ∃ v, CacheInv ∅ s.cache v

theorem unused_init {mem : Mem} {cacheSize : ℕ} {os : Os} {initialMalloc : Option ℕ}
    (created : DataCache.create .zero .zero mem cacheSize os initialMalloc = .ok c) :
    (init c).Unused := by
  cases (DataCache.create_eq mem cacheSize os initialMalloc).symm.trans created
  exact ⟨fun _ => rfl, DataCache.noSlabs_new _ _, _, DataCache.cacheInv_new ∅ mem cacheSize _⟩

namespace Unused

theorem leakFree (unused : s.Unused) : s.cache.LeakFree := by
  rcases unused with ⟨-, noSlabs, v, inv⟩
  have noChunks (id : ℕ) : (s.cache.slabs.slabclass id).chunks = [] := by
    simp [SlabClass.chunks, noSlabs]
  refine ⟨fun id nodes chain it inList => ?_, fun id it isChunk => ?_⟩
  · rw [chain.unique (inv.lists.list id).forward] at inList
    have isStored := (inv.mem_stored it).mpr ⟨id, inList⟩
    simp [inv.stored_eq_empty] at isStored
  · simp [noChunks] at isChunk

theorem enter_idle (unused : s.Unused) {thread : ℕ} {cache : LruLists}
    (noSlabs : ∀ id, (cache.slabs.slabclass id).slabList = [])
    (inv : ∃ v, CacheInv ∅ cache v) (obtained : List ℕ) :
    Unused { s.enter thread cache .idle with obtained } := by
  refine ⟨fun other => ?_, noSlabs, inv⟩
  rw [Threads.enter_idle (unused.quiescent thread)]
  exact unused.quiescent other

theorem step (unused : s.Unused) {action : Action} (enabled : s.Enabled action)
    (sane : action.Sane s.cache.slabs) (run : s.step action = .ok s') :
    s'.Unused ∨ s'.obtained ≠ [] ∧ ¬s.Starved action := by
  have noSlabs := unused.noSlabs
  rcases unused.inv with ⟨v, inv⟩
  cases action with
  | call thread call sys =>
      rcases bind_eq_ok.mp run with ⟨⟨_, _⟩, started, next⟩
      cases call with
      | get key =>
          rcases bind_eq_ok.mp started with ⟨_, got, rest⟩
          cases (inv.doItemGet_of_empty _ _ _).symm.trans got
          cases rest
          cases next
          exact Or.inl (unused.enter_idle noSlabs ⟨v, inv⟩ _)
      | store key inbuffer bufflen =>
          rcases bind_eq_ok.mp started with ⟨⟨c', found⟩, alloc, rest⟩
          cases rest
          cases next
          rcases LruLists.of_doItemAlloc inv keySet_empty sane alloc with
            ⟨-, reclaimed, allocatable⟩
          cases found with
          | none =>
              rcases reclaimed rfl with ⟨v', gone, reset, inv', reclaims⟩
              refine Or.inl (unused.enter_idle (fun id => ?_) ⟨v', inv'⟩ _)
              rw [reclaims.slabList, noSlabs]
          | some it =>
              refine Or.inr ⟨?_, fun starved => starved (allocatable (by simp))⟩
              simp [Phase.allocated]
      | delete key =>
          rcases bind_eq_ok.mp started with ⟨_, got, rest⟩
          cases (inv.doItemGet_of_empty _ _ _).symm.trans got
          cases rest
          cases next
          exact Or.inl (unused.enter_idle noSlabs ⟨v, inv⟩ _)
  | resume thread sys => exact absurd (unused.quiescent thread) enabled
  | maintain =>
      rcases bind_eq_ok.mp run with ⟨_, pass, next⟩
      rcases LruLists.maintenance_eq inv with ⟨c', v', run', inv', migrates⟩
      cases run'.symm.trans pass
      cases next
      exact Or.inl ⟨unused.quiescent, fun id => by rw [migrates.slabList, noSlabs], v', inv'⟩

end Unused

variable {mem : Mem} {cacheSize : ℕ} {os : Os} {initialMalloc : Option ℕ}

theorem unused_of_starved
    (created : DataCache.create .zero .zero mem cacheSize os initialMalloc = .ok c)
    (run : ReflTransGen StarvedStep (init c) s) : s.Unused := by
  induction run with
  | refl => exact unused_init created
  | tail _ step ih =>
      rcases step with ⟨action, enabled, sane, starved, next⟩
      exact (ih.step enabled sane next).resolve_right fun ⟨_, notStarved⟩ => notStarved starved

/-! ## Runs in which something is obtained -/

theorem obtained_of_step {action : Action} (run : s.step action = .ok s') :
    ∃ new, s'.obtained = new ++ s.obtained := by
  cases action with
  | call thread call sys =>
      rcases bind_eq_ok.mp run with ⟨⟨cache, phase⟩, -, next⟩
      cases next
      exact ⟨_, rfl⟩
  | resume thread sys =>
      rcases bind_eq_ok.mp run with ⟨⟨cache, phase⟩, -, next⟩
      cases next
      exact ⟨[], rfl⟩
  | maintain =>
      rcases bind_eq_ok.mp run with ⟨cache, -, next⟩
      cases next
      exact ⟨[], rfl⟩

theorem unused_of_obtained
    (created : DataCache.create .zero .zero mem cacheSize os initialMalloc = .ok c)
    (run : ReflTransGen (QuietStep keys) (init c) s) (none : s.obtained = []) : s.Unused := by
  induction run with
  | refl => exact unused_init created
  | tail _ step ih =>
      rcases step with ⟨action, guarded, -⟩
      rcases obtained_of_step guarded.run with ⟨new, grows⟩
      rw [none, eq_comm, List.append_eq_nil_iff] at grows
      have unused := ih grows.2
      exact (unused.step guarded.regular.enabled guarded.regular.sane guarded.run).resolve_right
        fun ⟨isSome, _⟩ => isSome none

/-- Without wraps and tail repairs, what was obtained stays handed out. -/
theorem live_iff_obtained (keySet : KeySet keys)
    (created : DataCache.create .zero .zero mem cacheSize os initialMalloc = .ok c)
    (run : ReflTransGen (QuietStep keys) (init c) s) :
    ∃ v, ThreadsInv keys s v ∧ ∀ it, v.Live it ↔ it ∈ s.obtained := by
  induction run with
  | refl => exact ⟨_, inv_init keys created, fun it => by simp [View.Live, View.empty, init]⟩
  | tail _ step ih =>
      rcases ih with ⟨v, inv, live_iff⟩
      rcases step with ⟨action, guarded, quiet⟩
      rcases inv.advance keySet guarded ⟨[], quiet, by simp⟩ with
        ⟨v', gone, reset, new, inv', advances⟩
      obtain rfl : reset = [] :=
        List.append_cancel_right (advances.repaired.symm.trans quiet)
      obtain rfl : gone = [] := List.eq_nil_iff_forall_not_mem.mpr fun a isGone => by
        simpa using advances.picked a isGone
      refine ⟨v', inv', fun it => ?_⟩
      rw [advances.live, advances.obtained, live_iff, List.mem_append]
      simp [or_comm]

/-- An item that is handed out is referred to, and if it is linked it is in a list. -/
theorem not_leakFree_of_live (inv : ThreadsInv keys s v) (live : v.Live it) :
    ¬s.cache.LeakFree := fun leakFree => by
  have isChunk := inv.cache.slabs.mem_chunks_of_mem_out (inv.cache.mem_out_clsid live)
  have notFree := inv.cache.not_free live (s.cache.mem.slabsClsid it)
  rw [List.mem_append, not_or] at notFree
  have linked := leakFree.linked _ it isChunk notFree.1 notFree.2
  have inList := inv.cache.mem_list_of_stored ((inv.cache.linked_iff_stored live).mp linked)
  have noRef := leakFree.noRef _ _ (inv.cache.lists.list _).forward it inList
  exact (inv.refcount_pos live).ne' noRef

/-- A run in which no store obtains an item leaks nothing. In a run without wraps and tail repairs
the states that leak nothing are those in which no store has obtained one. -/
theorem leakFree_iff
    (created : DataCache.create .zero .zero mem cacheSize os initialMalloc = .ok c) :
    (∀ s, ReflTransGen StarvedStep (init c) s → s.cache.LeakFree) ∧
      ∀ keys, KeySet keys → ∀ s, ReflTransGen (QuietStep keys) (init c) s →
        (s.cache.LeakFree ↔ s.obtained = []) := by
  refine ⟨fun s run => (unused_of_starved created run).leakFree, fun keys keySet s run => ?_⟩
  constructor
  · intro leakFree
    rcases live_iff_obtained keySet created run with ⟨v, inv, live_iff⟩
    refine List.eq_nil_iff_forall_not_mem.mpr fun it obtained => ?_
    exact not_leakFree_of_live inv ((live_iff it).mpr obtained) leakFree
  · exact fun none => (unused_of_obtained created run none).leakFree

/-- A cache that has refused a value which is too long leaks nothing. When two threads have returned
from their calls, which have obtained items, it leaks. -/
theorem leakFree_iff_sharing :
    (∃ s, StarvedStep (init (DataCache.new .zero 64 0)) s ∧ s.Quiescent ∧ s.cache.LeakFree) ∧
      ∃ s, ReflTransGen (QuietStep oneByteKeys) (init (DataCache.new .zero 64 0)) s ∧
        s.Quiescent ∧ s.obtained = [4288, 4192, 4096] ∧ ¬s.cache.LeakFree := by
  have created := DataCache.create_eq .zero 64 ((DataCache.onePage 0 0 0).os 0) none
  rcases leakFree_iff created with ⟨starved, quiet⟩
  constructor
  · let tooLong : Action := .call 0 (.store [107] (fun _ => 7) 2000000) (DataCache.outOfMemory 0)
    have refused : ((init (DataCache.new .zero 64 0)).step tooLong).toOption.map
        (fun s => (s.phase 0).item) = some none := by
      decide +kernel
    have noClass : (DataCache.newSlabs 64 0).slabsClsid (LruLists.ntotal 1 2000000) = 0 := by
      decide +kernel
    rcases Option.map_eq_some_iff.mp refused with ⟨s, returned, idle⟩
    have run := toOption_eq_some.mp returned
    have step : StarvedStep (init (DataCache.new .zero 64 0)) s :=
      ⟨tooLong, rfl, DataCache.sane_outOfMemory _ 0, fun allocatable => allocatable.1 noClass, run⟩
    refine ⟨s, step, fun thread => ?_, starved s (.single step)⟩
    by_cases own : thread = 0
    · exact own ▸ Phase.item_eq_none.mp idle
    · rw [phase_of_step run (by simpa [tooLong, Action.actor] using Ne.symm own)]
      rfl
  · rcases quiet_sharing with ⟨s, run, quiescent, obtained, -⟩
    refine ⟨s, run, quiescent, obtained, fun leakFree => ?_⟩
    simp [(quiet _ keySet_oneByteKeys s run).mp leakFree] at obtained

open DataCache in
/-- After a single store the item that it stored is still referred to. -/
theorem not_leakFree_of_store : ∃ s,
    storeItem (new .zero 64 0) [107] (fun _ => 7) 1 firstEnv = .ok (s.cache, 0) ∧
      ReflTransGen Step (init (new .zero 64 0)) s ∧ s.Quiescent ∧ ¬s.cache.LeakFree := by
  have facts : ((storeItem (new .zero 64 0) [107] (fun _ => 7) 1 firstEnv).toOption.map
      fun result => (result.2, result.1.heads 1, result.1.mem.next 4096,
        result.1.mem.refcount 4096)) = some (0, some 4096, none, 1) := by
    decide +kernel
  cases run : storeItem (new .zero 64 0) [107] (fun _ => 7) 1 firstEnv with
  | error fault => simp [run, Except.toOption] at facts
  | ok result =>
      rcases result with ⟨c', ret⟩
      obtain ⟨rfl, head, next, count⟩ : ret = 0 ∧ c'.heads 1 = some 4096 ∧
          c'.mem.next 4096 = none ∧ c'.mem.refcount 4096 = 1 := by
        simpa [run, Except.toOption] using facts
      rcases run_of_storeItem
        (show (init (new .zero 64 0)).phase 0 = .idle from rfl) run with ⟨obtained, alone⟩
      refine ⟨_, rfl, alone, fun _ => rfl, fun leakFree => ?_⟩
      have noRef := leakFree.noRef 1 [4096] ⟨head, next⟩ 4096 (List.mem_singleton_self _)
      simp [count] at noRef

end Threads

end ChaosCache
