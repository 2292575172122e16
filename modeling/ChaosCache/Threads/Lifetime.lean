import Mathlib.Algebra.BigOperators.Group.Finset.Sigma
import ChaosCache.Lru.Closure
import ChaosCache.Threads.Leaks
import ChaosCache.Threads.Linearizability

/-!
# What a cache takes

Every item that was stored stays referred to, so an allocation finds nothing to evict. Unless the
tail repair fires, no binding is ever lost, and no chunk ever comes back: what a cache can take is
bounded by its memory once and for all.
-/

namespace ChaosCache

open Linearizability Relation SlabAllocator

variable {keys : Set (List UInt8)} {c c' : LruLists} {v : View} {s s' : Threads} {it id : ℕ}
  {key : List UInt8} {sys : System} {os : Os}

/-! ## Allocations -/

/-- What an allocation that returns has done to the items in the table. -/
structure Keeps (c c' : LruLists) (v v' : View) (gone reset : List ℕ) (found : Option ℕ) :
    Prop where
  freed : c'.freed = gone ++ c.freed
  repaired : c'.repaired = reset ++ c.repaired
  resetGone : ∀ a ∈ reset, a ∈ gone
  wasStored : ∀ a ∈ gone, a ∈ v.stored
  noRef : ∀ a ∈ gone, c.mem.refcount a = 0 ∨ a ∈ reset
  stored : ∀ a, a ∈ v'.stored ↔ a ∈ v.stored ∧ a ∉ gone
  contents : ∀ a ∈ v'.stored, SameContents c.mem c'.mem a
  fresh : ∀ a ∈ found, v.Live a → a ∈ gone

theorem CacheInv.of_itemAlloc (inv : CacheInv keys c v) (keySet : KeySet keys)
    (isKey : key ∈ keys) (sane : ∀ j, (sys.os j).Sane c.slabs) {bufflen : ℤ}
    (bound : bufflen < 2 ^ 31) {found : Option ℕ} (nonneg : found ≠ none → 0 ≤ bufflen)
    (run : c.itemAlloc (DataCache.cString key) bufflen sys = .ok (c', found)) :
    ∃ v' gone reset, CacheInv keys c' v' ∧ Keeps c c' v v' gone reset found := by
  rw [keySet.cString_eq isKey] at run
  cases found with
  | none =>
      rcases LruLists.of_doItemAlloc inv keySet sane run with ⟨-, reclaimed, -⟩
      rcases reclaimed rfl with ⟨v', gone, reset, inv', reclaims⟩
      exact ⟨v', gone, reset, inv',
        { freed := reclaims.freed
          repaired := reclaims.repaired
          resetGone := reclaims.resetGone
          wasStored := reclaims.wasStored
          noRef := reclaims.noRef
          stored := reclaims.stored
          contents := fun a _ => .of_frame reclaims.toFrame a
          fresh := by simp }⟩
  | some it =>
      rcases LruLists.doItemAlloc_eq inv keySet sane (keySet.short key isKey)
        (nonneg (by simp)) bound with
        ⟨_, v', gone, reset, refused, -⟩ | ⟨_, v', gone, reset, a, obtained, inv', allocates, -⟩
      · cases refused.symm.trans run
      · cases obtained.symm.trans run
        refine ⟨v', gone, reset, inv',
          { freed := allocates.freed
            repaired := allocates.repaired
            resetGone := allocates.resetGone
            wasStored := allocates.wasStored
            noRef := allocates.noRef
            stored := allocates.stored
            contents := ?_
            fresh := ?_ }⟩
        · intro b isStored
          rcases (allocates.stored b).mp isStored with ⟨wasStored, notGone⟩
          have live := inv.live_of_stored wasStored
          apply allocates.contents b live
          rintro rfl
          exact allocates.fresh ⟨live, notGone⟩
        · intro b isNew live
          cases isNew
          by_contra notGone
          exact allocates.fresh ⟨live, notGone⟩

namespace ThreadsInv

/-- An allocation without a tail repair evicts nothing, and obtains an item that was free. -/
theorem of_quiet_alloc (inv : ThreadsInv keys s v) (keySet : KeySet keys) (isKey : key ∈ keys)
    (sane : ∀ j, (sys.os j).Sane s.cache.slabs) {bufflen : ℤ} (bound : bufflen < 2 ^ 31)
    {found : Option ℕ} (nonneg : found ≠ none → 0 ≤ bufflen)
    (run : s.cache.itemAlloc (DataCache.cString key) bufflen sys = .ok (c', found))
    (quiet : c'.repaired = s.cache.repaired) :
    (∀ a, s.cache.InTable a → c'.InTable a) ∧ ∀ a ∈ found, ¬v.Live a := by
  rcases inv.cache.of_itemAlloc keySet isKey sane bound nonneg run with
    ⟨v', gone, reset, inv', keeps⟩
  have noReset : reset = [] := List.append_cancel_right (keeps.repaired.symm.trans quiet)
  have noneGone : gone = [] := by
    refine List.eq_nil_iff_forall_not_mem.mpr fun a isGone => ?_
    have isReset := inv.picked_of_noRef keeps.wasStored keeps.noRef a isGone
    simp [noReset] at isReset
  constructor
  · intro a inTable
    rw [inv'.inTable_iff, keeps.stored, noneGone]
    exact ⟨inv.cache.inTable_iff.mp inTable, List.not_mem_nil⟩
  · intro a isNew live
    have isGone := keeps.fresh a isNew live
    simp [noneGone] at isGone

end ThreadsInv

namespace Threads

/-- A step of a run without wrapped counters and tail repairs, with its events. -/
def QuietHistoryStep (keys : Set (List UInt8)) (s : Threads) (events : List CacheEvent)
    (s' : Threads) : Prop :=
  ∃ action, Guarded keys s s' action ∧ s'.cache.repaired = s.cache.repaired ∧
    events = s.events s' action

end Threads

namespace ThreadsInv

open Threads

/-- In a step without a tail repair no binding is lost, and what is obtained was free. -/
theorem of_quiet_step (inv : ThreadsInv keys s v) (keySet : KeySet keys) {action : Action}
    (guarded : Guarded keys s s' action) (quiet : s'.cache.repaired = s.cache.repaired) :
    (∀ op, .invoke none op ∈ s.events s' action → op = .lose ∅) ∧
      ∃ new, s'.obtained = new ++ s.obtained ∧ new.Nodup ∧ ∀ a ∈ new, ¬v.Live a := by
  have regular := guarded.regular
  have notMissed (thread : ℕ) (call : Call) (op : CacheOp) :
      .invoke none op ∉ s'.missed thread call := by
    simp only [missed]
    split <;> simp
  cases action with
  | call thread call sys =>
      rcases regular with ⟨-, valid, sane, -⟩
      rcases bind_eq_ok.mp guarded.run with ⟨⟨_, _⟩, started, next⟩
      cases call with
      | get key =>
          rcases bind_eq_ok.mp started with ⟨⟨_, found⟩, -, rest⟩
          cases rest
          refine ⟨by simp [events, notMissed], [], ?_, by simp, by simp⟩
          cases next
          cases found <;> rfl
      | store key inbuffer bufflen =>
          rcases bind_eq_ok.mp started with ⟨⟨_, found⟩, obtained, rest⟩
          cases rest
          have positive (isSome : found ≠ none) : 0 ≤ bufflen := by
            rcases Option.ne_none_iff_exists'.mp isSome with ⟨it, rfl⟩
            refine guarded.positive.resolve_right ?_
            cases next
            simp [Phase.allocated]
          have alloc : s.cache.itemAlloc (DataCache.cString key) bufflen sys =
              .ok (s'.cache, found) := by
            cases next
            exact obtained
          rcases inv.of_quiet_alloc keySet valid.1 sane valid.2 positive alloc quiet with
            ⟨kept, fresh⟩
          refine ⟨fun op isEvent => ?_, found.toList, ?_, ?_, by simpa using fresh⟩
          · have noLoss : s.lostKeys s' = ∅ := by
              refine Set.eq_empty_of_forall_notMem ?_
              rintro key ⟨a, inTable, notInTable, -⟩
              exact notInTable (kept a inTable)
            simpa [events, notMissed, noLoss] using isEvent
          · cases next
            cases found <;> rfl
          · cases found <;> simp
      | delete key =>
          rcases bind_eq_ok.mp started with ⟨⟨_, found⟩, -, rest⟩
          cases rest
          refine ⟨by simp [events, notMissed], [], ?_, by simp, by simp⟩
          cases next
          cases found <;> rfl
  | resume thread sys =>
      rcases bind_eq_ok.mp guarded.run with ⟨⟨_, _⟩, -, next⟩
      refine ⟨fun op isEvent => ?_, [], ?_, by simp, by simp⟩
      · simp only [events] at isEvent
        split at isEvent <;> simp at isEvent
      · cases next
        rfl
  | maintain =>
      rcases bind_eq_ok.mp guarded.run with ⟨_, -, next⟩
      refine ⟨by simp [events], [], ?_, by simp, by simp⟩
      cases next
      rfl

end ThreadsInv

namespace Threads

variable {mem : Mem} {cacheSize : ℕ} {initialMalloc : Option ℕ}

/-! ## Nothing is lost -/

theorem unchanging_lose : Unchanging (mapSpec : Spec CacheMap CacheOp CacheRet) (.lose ∅) := by
  rintro map ret map' ⟨-, -, others⟩
  funext key
  exact others key (Set.notMem_empty key)

/-- The map of the threads is held as it is where nothing is lost. -/
theorem represents_quiet (keySet : KeySet keys)
    {m : Atomic CacheMap (Option ℕ) CacheOp CacheRet} {events : List CacheEvent}
    (represents : s.Represents keys m) (step : QuietHistoryStep keys s events s') :
    (∀ op, .invoke none op ∈ events → op = .lose ∅) ∧
      ∃ m', Atomic.Run mapSpec m (hide none events) m' ∧ s'.Represents keys m' := by
  have ⟨v, map, inv, holds, isMap⟩ := represents
  rcases step with ⟨action, guarded, quiet, rfl⟩
  have keepsAll := (inv.of_quiet_step keySet guarded quiet).1
  refine ⟨keepsAll, ?_⟩
  rcases represents_step keySet represents ⟨action, guarded, ⟨[], quiet, by simp⟩, rfl⟩ with
    ⟨m', run, represents'⟩
  have ⟨v', map', inv', holds', isMap'⟩ := represents'
  have idle (s : Threads) (map : CacheMap) : (s.atomic map).set none .idle = s.atomic map := by
    simp only [Atomic.set, atomic, Atomic.mk.injEq, true_and]
    exact Function.update_eq_self none s.status
  have hidden := (run.hide none (fun op pending => ?_) fun op called => ?_).1
  · subst isMap isMap'
    rw [idle, idle] at hidden
    exact ⟨_, hidden, represents'⟩
  · subst isMap
    cases pending
  · rw [keepsAll op called]
    exact unchanging_lose

/-- Without wrapped counters and tail repairs, nothing is ever lost: the calls return as they would
from a map that keeps every binding until it is replaced or deleted. -/
theorem losesNothing_of_run (keySet : KeySet keys)
    (created : DataCache.create .zero .zero mem cacheSize os initialMalloc = .ok c)
    {history : List CacheEvent} (trace : Trace (QuietHistoryStep keys) (init c) history s) :
    (∀ op, .invoke none op ∈ history → op = .lose ∅) ∧
      Linearizable mapSpec (fun _ => none) (hide none history) := by
  have simulates (s : Threads) (m : Atomic CacheMap (Option ℕ) CacheOp CacheRet)
      (events : List CacheEvent) (s' : Threads) (represents : s.Represents keys m)
      (step : ∃ shown, QuietHistoryStep keys s shown s' ∧ events = hide none shown) :
      ∃ m', Atomic.Run mapSpec m events m' ∧ s'.Represents keys m' := by
    rcases step with ⟨shown, step, rfl⟩
    exact (represents_quiet keySet represents step).2
  have start := represents_init keys created
  refine ⟨?_, (linearizable_of_simulation start simulates (trace.hide none)).1⟩
  induction trace with
  | nil => simp
  | snoc before step ih =>
      have ⟨m, represents⟩ := (linearizable_of_simulation start simulates (before.hide none)).2
      intro op called
      rcases List.mem_append.mp called with earlier | last
      · exact ih op earlier
      · exact (represents_quiet keySet represents step).1 op last

/-- Two threads have stored `k`, replaced it and deleted it, and have stored `l`. -/
theorem losesNothing_of_run_sharing : ∃ (history : List CacheEvent) (s : Threads),
    s.Quiescent ∧ s.obtained = [4288, 4192, 4096] ∧
      Trace (QuietHistoryStep oneByteKeys) (init (DataCache.new .zero 64 0)) history s ∧
        (∀ op, .invoke none op ∈ history → op = .lose ∅) ∧
        Linearizable mapSpec (fun _ => none) (hide none history) := by
  have created := DataCache.create_eq .zero 64 ((DataCache.onePage 0 0 0).os 0) none
  have next (s s' : Threads) (action : Action) (guarded : Guarded oneByteKeys s s' action)
      (quiet : s'.cache.repaired = s.cache.repaired) (_ : s.Due action)
      (before : ∃ history,
        Trace (QuietHistoryStep oneByteKeys) (init (DataCache.new .zero 64 0)) history s) :
      ∃ history,
        Trace (QuietHistoryStep oneByteKeys) (init (DataCache.new .zero 64 0)) history s' := by
    rcases before with ⟨history, trace⟩
    exact ⟨_, trace.snoc ⟨action, guarded, quiet, rfl⟩⟩
  rcases sharing_induction next ⟨[], .nil⟩ with ⟨s, ⟨history, trace⟩, quiescent, obtained, -⟩
  exact ⟨history, s, quiescent, obtained, trace,
    losesNothing_of_run keySet_oneByteKeys created trace⟩

end Threads

/-! ## The slabs of the cache -/

namespace LruLists

theorem keepsSlabs_of_leaves (leaves : c.LeavesChunks c') : KeepsSlabs c.slabs c'.slabs := by
  rw [leaves.slabs]
  exact .refl c.slabs

theorem keepsSlabs_of_doItemRelease (run : c.doItemRelease it os = .ok c') :
    KeepsSlabs c.slabs c'.slabs := by
  simp only [doItemRelease] at run
  split at run
  · have freed := keepsSlabs_of_itemFree run
    exact freed
  · cases run
    exact .refl c.slabs

theorem keepsSlabs_of_storeItem (run : c.storeItem it sys = .ok c') :
    KeepsSlabs c.slabs c'.slabs := by
  rcases bind_eq_ok.mp run with ⟨⟨c₁, oldIt⟩, got, rest⟩
  have looked : KeepsSlabs c.slabs c₁.slabs := keepsSlabs_of_leaves
    ((LeavesChunks.of_doItemGet got).after ⟨rfl, rfl, rfl, rfl, rfl⟩)
  cases oldIt with
  | none => exact looked.trans (keepsSlabs_of_leaves (.of_doItemLink rest))
  | some oldIt =>
      rcases bind_eq_ok.mp rest with ⟨c₂, replaced, released⟩
      rcases bind_eq_ok.mp replaced with ⟨-, -, replaced⟩
      rcases bind_eq_ok.mp replaced with ⟨c₃, unlinked, linked⟩
      have without := looked.trans (keepsSlabs_of_doItemUnlink unlinked)
      have relinked := without.trans (keepsSlabs_of_leaves (.of_doItemLink linked))
      exact relinked.trans (keepsSlabs_of_doItemRelease released)

theorem obtainsSlab_of_doItemAlloc {nbytes : ℤ} {found : Option ℕ}
    (run : c.doItemAlloc key nbytes sys = .ok (c', found)) : c.ObtainsSlab c' sys := by
  simp only [doItemAlloc] at run
  split at run
  · cases run
    exact Or.inl (.refl c.slabs)
  · rcases bind_eq_ok.mp run with ⟨⟨c₁, it⟩, obtained, rest⟩
    have obtains := obtainsSlab_of_obtainChunk obtained
    cases it with
    | none =>
        cases rest
        exact obtains
    | some it =>
        rcases bind_eq_ok.mp rest with ⟨c₂, filled, done⟩
        cases done
        rw [ObtainsSlab, slabs_of_initItem filled]
        exact obtains

end LruLists

namespace Threads

/-- Whatever the threads do, a section obtains one slab at most. -/
theorem slabs_of_step {action : Action} (sane : action.Sane s.cache.slabs)
    (run : s.step action = .ok s') :
    KeepsSlabs s.cache.slabs s'.cache.slabs ∨
      ∃ id ptr os, s.cache.slabs.Used id ∧ s.cache.slabs.MallocFresh os ∧
        AddsSlab s.cache.slabs s'.cache.slabs id ptr os := by
  cases action with
  | call thread call sys =>
      rcases bind_eq_ok.mp run with ⟨⟨_, _⟩, started, next⟩
      cases call with
      | get key =>
          rcases bind_eq_ok.mp started with ⟨⟨_, found⟩, got, rest⟩
          cases rest
          cases next
          exact Or.inl (LruLists.keepsSlabs_of_leaves (.of_doItemGet got))
      | store key inbuffer bufflen =>
          rcases bind_eq_ok.mp started with ⟨⟨_, found⟩, obtained, rest⟩
          cases rest
          cases next
          rcases LruLists.obtainsSlab_of_doItemAlloc obtained with keeps | ⟨id, ptr, i, used, adds⟩
          · exact Or.inl keeps
          · exact Or.inr ⟨id, ptr, _, used, (sane i).fresh, adds⟩
      | delete key =>
          rcases bind_eq_ok.mp started with ⟨⟨_, found⟩, got, rest⟩
          cases rest
          cases next
          exact Or.inl (LruLists.keepsSlabs_of_leaves (.of_doItemGet got))
  | resume thread sys =>
      rcases bind_eq_ok.mp run with ⟨⟨_, _⟩, resumed, next⟩
      cases next
      refine Or.inl ?_
      cases phase : s.phase thread <;> rw [phase] at resumed
      case idle | getting =>
        cases resumed
        exact .refl s.cache.slabs
      case storing it inbuffer bufflen =>
        rcases bind_eq_ok.mp resumed with ⟨c', copied, rest⟩
        cases rest
        simp only [DataCache.copyIn] at copied
        split at copied
        · cases copied
        · cases copied
          exact .refl s.cache.slabs
      case copied it =>
        rcases bind_eq_ok.mp resumed with ⟨c', stored, rest⟩
        cases rest
        exact LruLists.keepsSlabs_of_storeItem stored
      case deleting it =>
        rcases bind_eq_ok.mp resumed with ⟨c', isUnlinked, rest⟩
        cases rest
        exact LruLists.keepsSlabs_of_doItemUnlink isUnlinked
      case unlinked it =>
        rcases bind_eq_ok.mp resumed with ⟨c', released, rest⟩
        cases rest
        exact LruLists.keepsSlabs_of_doItemRelease released
  | maintain =>
      rcases bind_eq_ok.mp run with ⟨_, passed, next⟩
      cases next
      exact Or.inl (LruLists.keepsSlabs_of_leaves (.of_maintenance passed))

end Threads

/-! ## The memory is spent once -/

namespace DataCache

theorem classTable_bytes : ∀ id, id < 42 →
    (classTable.2 id).size * (classTable.2 id).perslab ≤ 2 ^ 20 := by
  decide +kernel

/-- No slab of a cache is larger than the largest item. -/
theorem slabBytes_new (cacheSize memMalloced id : ℕ) :
    ((newSlabs cacheSize memMalloced).slabclass id).slabBytes ≤ 2 ^ 20 := by
  by_cases last : id = 42
  · subst last
    simp [newSlabs, SlabClass.slabBytes]
  · rcases classTable_spec id with ⟨size, perslab, cls, -, -, above⟩
    simp only [newSlabs, Function.update_of_ne last, SlabClass.slabBytes]
    by_cases below : id < 42
    · exact classTable_bytes id below
    · simp [cls, (above (Nat.not_lt.mp below)).1]

theorem unspent_new {cacheSize : ℕ} (positive : 0 < cacheSize) (fits : cacheSize < 2 ^ 44) :
    (newSlabs cacheSize 0).Unspent where
  memMalloced := rfl
  slabList := noSlabs_new cacheSize 0
  positive id used := by
    rcases newSlabs_class cacheSize 0 id with ⟨size, perslab, cls, -, -, -, sizes⟩
    rcases sizes used with ⟨isPositive, page, -⟩
    rw [cls]
    exact ⟨isPositive, Nat.pos_of_mul_pos_left (Nat.lt_of_lt_of_le (by decide) page)⟩
  limit := by
    simp only [newSlabs, config]
    omega
  classes := (by decide : 42 ≤ 200)
  arena arena := absurd rfl arena

theorem limitInv_new {cacheSize : ℕ} (positive : 0 < cacheSize) (fits : cacheSize < 2 ^ 44) :
    LimitInv (newSlabs cacheSize 0) := by
  refine .of_unspent (unspent_new positive fits) fun id used => ?_
  exact Nat.lt_of_le_of_lt (slabBytes_new cacheSize 0 id) (by decide)

end DataCache

/-- The accounts of a cache of some size, whose slabs are those of its class table. -/
structure LruLists.Accounted (c : LruLists) (cacheSize : ℕ) : Prop where
  limit : LimitInv c.slabs
  memLimit : c.slabs.memLimit = cacheSize * 2 ^ 20
  table : SameTable (DataCache.newSlabs cacheSize 0) c.slabs

namespace Threads

/-- Whatever the threads do, the accounts are exact, and within the limit but for one slab of each
class. -/
theorem accounted_of_run {cacheSize : ℕ} (positive : 0 < cacheSize) (fits : cacheSize < 2 ^ 44)
    (created : DataCache.create .zero .zero mem cacheSize os none = .ok c)
    (run : ReflTransGen SaneStep (init c) s) : s.cache.Accounted cacheSize := by
  induction run with
  | refl =>
      cases (DataCache.create_eq mem cacheSize os none).symm.trans created
      refine ⟨DataCache.limitInv_new positive fits, ?_, .refl _⟩
      simp only [init, DataCache.new, DataCache.newSlabs, DataCache.config]
      omega
  | tail _ step ih =>
      rcases step with ⟨action, -, sane, run⟩
      rcases slabs_of_step sane run with keeps | ⟨id, ptr, os, used, fresh, adds⟩
      · exact ⟨ih.limit.of_keeps keeps, keeps.memLimit.trans ih.memLimit,
          ih.table.trans keeps.table⟩
      · exact ⟨ih.limit.of_adds used (fun _ => fresh) adds, adds.memLimit.trans ih.memLimit,
          ih.table.trans adds.table⟩

end Threads

/-- A cache owns at most its size, and a megabyte for each class. -/
theorem LruLists.Accounted.ownedBytes_le {cacheSize : ℕ} (accounted : c.Accounted cacheSize) :
    c.slabs.ownedBytes ≤ (cacheSize + 42) * 2 ^ 20 := by
  have exempt : c.slabs.exemptBytes ≤ 42 * 2 ^ 20 := by
    have each : ∀ id ∈ Finset.Icc powerSmallest c.slabs.powerLargest,
        (if (c.slabs.slabclass id).slabList = [] then 0
          else (c.slabs.slabclass id).slabBytes) ≤ 2 ^ 20 := by
      intro id _
      have bytes := DataCache.slabBytes_new cacheSize 0 id
      rw [← accounted.table.slabBytes] at bytes
      split
      · exact Nat.zero_le _
      · exact bytes
    have total := Finset.sum_le_card_nsmul _ _ _ each
    have classes : c.slabs.powerLargest = 42 := accounted.table.powerLargest
    simpa [exemptBytes, classes, powerSmallest] using total
  have honoured := accounted.limit.honoured
  rw [accounted.limit.accounts, accounted.memLimit] at honoured
  omega

/-- The size of the chunks of the class that an item is in. -/
def LruLists.chunkSize (c : LruLists) (it : ℕ) : ℕ :=
  (c.slabs.slabclass (c.mem.slabsClsid it)).size

/-- The chunks of some items that are handed out fit in the slabs. -/
theorem CacheInv.sum_sizes_le (inv : CacheInv keys c v) {items : Finset ℕ}
    (live : ∀ a ∈ items, v.Live a) :
    ∑ a ∈ items, c.chunkSize a ≤ c.slabs.ownedBytes := by
  have used : ∀ a ∈ items, c.mem.slabsClsid a ∈ Finset.Icc powerSmallest c.slabs.powerLargest :=
    fun a isItem => used_iff_mem.mp (inv.slabs.used_of_mem_out (inv.mem_out_clsid (live a isItem)))
  rw [← Finset.sum_fiberwise_of_maps_to used, ownedBytes]
  refine Finset.sum_le_sum fun id _ => ?_
  have sameSize : ∀ a ∈ items.filter (c.mem.slabsClsid · = id),
      c.chunkSize a = (c.slabs.slabclass id).size :=
    fun a isItem => by rw [LruLists.chunkSize, (Finset.mem_filter.mp isItem).2]
  rw [Finset.sum_congr rfl sameSize, Finset.sum_const, smul_eq_mul]
  have inOut : items.filter (c.mem.slabsClsid · = id) ⊆ (v.out id).toFinset := fun a isItem => by
    rcases Finset.mem_filter.mp isItem with ⟨isItem, isClass⟩
    rw [List.mem_toFinset, ← isClass]
    exact inv.mem_out_clsid (live a isItem)
  have few : (items.filter (c.mem.slabsClsid · = id)).card ≤
      (c.slabs.slabclass id).chunks.length := by
    have partition := (inv.slabs.classes id).partition.length_eq
    simp only [List.length_append] at partition
    have inList := (Finset.card_le_card inOut).trans (v.out id).toFinset_card_le
    omega
  calc (items.filter (c.mem.slabsClsid · = id)).card * (c.slabs.slabclass id).size
      ≤ (c.slabs.slabclass id).chunks.length * (c.slabs.slabclass id).size :=
        Nat.mul_le_mul_right _ few
    _ = (c.slabs.slabclass id).slabBytes * (c.slabs.slabclass id).slabList.length := by
        rw [SlabClass.length_chunks, SlabClass.slabBytes]
        ring

namespace Threads

/-- Without wrapped counters and tail repairs no item is obtained twice, as none comes back. -/
theorem obtained_of_run (keySet : KeySet keys)
    (created : DataCache.create .zero .zero mem cacheSize os initialMalloc = .ok c)
    (run : ReflTransGen (QuietStep keys) (init c) s) :
    s.obtained.Nodup ∧ ∃ v, ThreadsInv keys s v ∧ ∀ it, v.Live it ↔ it ∈ s.obtained := by
  refine ⟨?_, live_iff_obtained keySet created run⟩
  induction run with
  | refl => exact List.nodup_nil
  | tail before step ih =>
      rcases live_iff_obtained keySet created before with ⟨v, inv, live_iff⟩
      rcases step with ⟨action, guarded, quiet⟩
      rcases (inv.of_quiet_step keySet guarded quiet).2 with ⟨new, grows, once, fresh⟩
      rw [grows]
      refine once.append ih ?_
      intro a isNew wasObtained
      exact fresh a isNew ((live_iff a).mpr wasObtained)

theorem saneStep_of_quietStep (step : QuietStep keys s s') : SaneStep s s' := by
  rcases step with ⟨action, guarded, -⟩
  exact ⟨action, guarded.regular.enabled, guarded.regular.sane, guarded.run⟩

/-- In every run the accounts of the memory are exact. They exceed the size of the cache by at most
a megabyte for each class. -/
theorem withinLimit_of_run (positive : 0 < cacheSize) (fits : cacheSize < 2 ^ 44)
    (created : DataCache.create .zero .zero mem cacheSize os none = .ok c)
    (run : ReflTransGen SaneStep (init c) s) :
    s.cache.slabs.memMalloced = s.cache.slabs.ownedBytes ∧
      s.cache.slabs.memMalloced ≤ s.cache.slabs.memLimit + s.cache.slabs.exemptBytes ∧
      s.cache.slabs.memMalloced ≤ (cacheSize + 42) * 2 ^ 20 := by
  have accounted := accounted_of_run positive fits created run
  have accounts := accounted.limit.accounts
  exact ⟨accounts, accounted.limit.honoured, accounts ▸ accounted.ownedBytes_le⟩

theorem withinLimit_of_run_sharing : ∃ s : Threads, s.obtained = [4288, 4192, 4096] ∧
    s.cache.slabs.memMalloced = s.cache.slabs.ownedBytes ∧
      s.cache.slabs.memMalloced ≤ s.cache.slabs.memLimit + s.cache.slabs.exemptBytes ∧
      s.cache.slabs.memMalloced ≤ (64 + 42) * 2 ^ 20 := by
  have created := DataCache.create_eq .zero 64 ((DataCache.onePage 0 0 0).os 0) none
  rcases quiet_sharing with ⟨s, run, -, obtained, -⟩
  exact ⟨s, obtained, withinLimit_of_run (by decide) (by decide) created
    (ReflTransGen.mono (fun _ _ => saneStep_of_quietStep) _ _ run)⟩

/-- Without wrapped counters and tail repairs, all the items that are ever obtained from a cache
lie in its memory at once, in chunks of their own. When it is full it takes no more. -/
theorem takesOnce_of_run (keySet : KeySet keys) (positive : 0 < cacheSize)
    (fits : cacheSize < 2 ^ 44)
    (created : DataCache.create .zero .zero mem cacheSize os none = .ok c)
    (run : ReflTransGen (QuietStep keys) (init c) s) :
    s.obtained.Nodup ∧ (∀ it ∈ s.obtained, s.cache.mem.itemNtotal it ≤ s.cache.chunkSize it) ∧
      (s.obtained.map s.cache.chunkSize).sum ≤ (cacheSize + 42) * 2 ^ 20 := by
  rcases obtained_of_run keySet created run with ⟨once, v, inv, live_iff⟩
  have live : ∀ a ∈ s.obtained, v.Live a := fun a obtained => (live_iff a).mpr obtained
  have accounted := accounted_of_run positive fits created
    (ReflTransGen.mono (fun _ _ => saneStep_of_quietStep) _ _ run)
  refine ⟨once, fun a obtained => ?_, ?_⟩
  · exact inv.cache.fits _ a (inv.cache.mem_out_clsid (live a obtained))
  · rw [← List.sum_toFinset _ once]
    exact (inv.cache.sum_sizes_le fun a obtained => live a (List.mem_toFinset.mp obtained)).trans
      accounted.ownedBytes_le

theorem takesOnce_of_run_sharing : ∃ s : Threads, s.obtained = [4288, 4192, 4096] ∧
    s.obtained.Nodup ∧
    (∀ it ∈ s.obtained, s.cache.mem.itemNtotal it ≤ s.cache.chunkSize it) ∧
      (s.obtained.map s.cache.chunkSize).sum ≤ (64 + 42) * 2 ^ 20 := by
  have created := DataCache.create_eq .zero 64 ((DataCache.onePage 0 0 0).os 0) none
  rcases quiet_sharing with ⟨s, run, -, obtained, -⟩
  exact ⟨s, obtained, takesOnce_of_run keySet_oneByteKeys (by decide) (by decide) created run⟩

end Threads

end ChaosCache
