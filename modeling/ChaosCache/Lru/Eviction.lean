import ChaosCache.DataCache.Initial
import ChaosCache.Lru.NewItems
import ChaosCache.Lru.Recency

/-!
# Eviction of the least recently used

In every run of clients that use only what they hold, the lists stay in the order of their times.
So what the first search of an allocation unlinks was accessed at most `ITEM_UPDATE_INTERVAL` later
than any unreferenced item that stays, and the tail repair unlinks only what was not accessed for
`TAIL_REPAIR_TIME` less that interval.
-/

namespace ChaosCache

open Hash LazyLru Links Relation

variable {c : LruLists} {s s' : Clients} {lists out : ℕ → List ℕ} {operation : Operation} {it : ℕ}

/-- The first search of an allocation in a class unlinks `picked`, and leaves the lists `after`. -/
def LruLists.FirstSearch (c : LruLists) (ntotal id : ℕ) (sys : System) (picked : ℕ)
    (after : LruLists) : Prop :=
  ∃ c₁, c.slabsAlloc ntotal id (sys.os 0) = .ok (c₁, none) ∧
    LruLists.searchTail c₁.mem (LruLists.evicts c₁.mem) searchItems (c₁.tails id) = some picked ∧
    c₁.evict id (sys.os 1) = .ok after

namespace Clients

/-- The lists hold the linked items of their classes in the order of their times, and no item was
accessed later than `ITEM_UPDATE_INTERVAL` after its time. -/
structure InOrder (s : Clients) (lists : ℕ → List ℕ) : Prop where
  forward : ∀ id, Chain s.cache.mem.next (s.cache.heads id) (lists id)
  backward : ∀ id, Chain s.cache.mem.prev (s.cache.tails id) (lists id).reverse
  linked : ∀ id, ∀ it ∈ (s.cache.slabs.slabclass id).chunks,
    s.cache.mem.itemLinked it = true ↔ it ∈ lists id
  sorted : ∀ id, (lists id).Pairwise fun a b => s.cache.mem.time b ≤ s.cache.mem.time a
  lag : ∀ id, ∀ it ∈ lists id, s.lastAccess it ≤ s.cache.mem.time it + itemUpdateInterval

/-- The first search of an allocation unlinks no item that was accessed more than
`ITEM_UPDATE_INTERVAL` after an unreferenced item of the class that stays linked. -/
def EvictsOldest (s : Clients) : Prop :=
  ∀ ntotal id sys picked after, (∀ i, (sys.os i).Sane s.cache.slabs) →
    s.cache.FirstSearch ntotal id sys picked after →
      ∀ it, after.Listed id it → after.mem.refcount it = 0 →
        s.lastAccess picked ≤ s.lastAccess it + itemUpdateInterval

/-- The tail repair of a step unlinks only items whose last access is more than `TAIL_REPAIR_TIME`
less `ITEM_UPDATE_INTERVAL` ago. -/
def RepairsOld (s s' : Clients) : Prop :=
  ∃ reset, s'.cache.repaired = reset ++ s.cache.repaired ∧
    ∀ it ∈ reset, s.lastAccess it + (tailRepairTime - itemUpdateInterval) < s'.clock

/-! ## The invariant -/

/-- What clients hold is handed out and has as many references, and the lists are in order. -/
structure Inv (s : Clients) (lists out : ℕ → List ℕ) : Prop where
  skeleton : Skeleton s.cache lists out
  held : ∀ it, 0 < s.holds it → (∃ id, it ∈ out id) ∧ s.holds it ≤ s.cache.mem.refcount it
  recent : Recent s.cache lists s.lastAccess s.clock
  clock : s.clock < 2 ^ 32 - tailRepairTime
  pages : s.cache.slabs.LargePages

namespace Inv

theorem init {mem : Mem} {cacheSize memMalloced : ℕ} :
    (init (DataCache.new mem cacheSize memMalloced)).Inv (fun _ => []) (fun _ => []) where
  skeleton := (DataCache.cacheInv_new ∅ mem cacheSize memMalloced).skeleton
  held it held := by simp [Clients.init] at held
  recent _ := .nil
  clock := (by decide : 0 < 2 ^ 32 - tailRepairTime)
  pages := (DataCache.cacheInv_new ∅ mem cacheSize memMalloced).pages

theorem few (inv : s.Inv lists out) (id : ℕ) :
    (s.cache.slabs.slabclass id).slabList.length < 2 ^ 31 := by
  rcases inv.skeleton.slabs with ⟨lost, slabs⟩
  exact slabs.few inv.pages id

theorem inOrder (inv : s.Inv lists out) : s.InOrder lists where
  forward id := (inv.skeleton.order.list id).forward
  backward id := (inv.skeleton.order.list id).backward
  linked := by
    intro id it isChunk
    by_cases handedOut : it ∈ out id
    · exact inv.skeleton.linked_iff handedOut
    · have notLinked := (inv.skeleton.unused id it isChunk handedOut).2
      simp [notLinked, inv.skeleton.notMem_list notLinked]
  sorted id := (inv.recent id).sorted
  lag id := (inv.recent id).lag

theorem evictsOldest (inv : s.Inv lists out) : s.EvictsOldest := by
  rintro ntotal id sys picked after sane ⟨c₁, alloc, found, evicted⟩ it listed noRef
  rcases listed with ⟨nodes, chain, inNodes⟩
  rcases inv.skeleton.of_slabsAlloc (sane 0) (inv.few id) alloc with
    ⟨-, listSize, rfl, inv₁⟩ | ⟨a, impossible, -⟩
  case inr => cases impossible
  rcases inv₁.of_evict (sane 1).fits evicted with ⟨lists', out', inv', trims⟩
  rw [chain.unique (inv'.order.list id).forward] at inNodes
  have inList := (trims.sublist id).subset inNodes
  rw [trims.refcount it List.not_mem_nil] at noRef
  rw [inv₁.searchTail_eq] at found
  apply (inv.recent id).last_le_of_find found inList
  simpa [LruLists.evicts] using noRef

theorem mem_out (inv : s.Inv lists out) (held : 0 < s.holds it) : ∃ id, it ∈ out id :=
  (inv.held it held).1

theorem referred (inv : s.Inv lists out) (held : 0 < s.holds it) :
    s.cache.mem.refcount it ≠ 0 :=
  Nat.ne_of_gt (held.trans_le (inv.held it held).2)

/-! ## One step -/

/-- What the tail repair picks was accessed long ago. -/
theorem longAgo (inv : s.Inv lists out) {now id : ℕ} (inList : it ∈ lists id)
    (bound : now < 2 ^ 32 - tailRepairTime)
    (old : (s.cache.mem.time it + tailRepairTime) % 2 ^ 32 < now % 2 ^ 32) :
    s.lastAccess it + (tailRepairTime - itemUpdateInterval) < now := by
  have lag := (inv.recent id).lag it inList
  have stamp := (inv.recent id).stamp_le_clock inList
  have clock := inv.clock
  simp only [tailRepairTime, itemUpdateInterval] at *
  omega

/-- What is held stays so where nothing that is referred to is freed. -/
theorem held_of_kept (inv : s.Inv lists out) (c : LruLists) (out' : ℕ → List ℕ)
    (kept : ∀ i a, a ∈ out i → 0 < s.holds a → a ∈ out' i)
    (refcount : ∀ a, 0 < s.holds a → c.mem.refcount a = s.cache.mem.refcount a) :
    ∀ a, 0 < s.holds a → (∃ id, a ∈ out' id) ∧ s.holds a ≤ c.mem.refcount a := by
  intro a isHeld
  rcases inv.held a isHeld with ⟨⟨id, handedOut⟩, counted⟩
  refine ⟨⟨id, kept id a handedOut isHeld⟩, ?_⟩
  rwa [refcount a isHeld]

theorem of_alloc (inv : s.Inv lists out) {key : List UInt8} {nbytes : ℤ} {sys : System}
    (guarded : s.Guarded s' (.alloc key nbytes sys)) :
    (∃ lists' out', s'.Inv lists' out') ∧ s.RepairsOld s' := by
  rcases bind_eq_ok.mp guarded.run with ⟨⟨cache, found⟩, alloc, done⟩
  cases done
  have passed : s.clock ≤ sys.now 0 := by simpa [Operation.readings] using guarded.timely.1
  have bound : sys.now 0 < 2 ^ 32 - tailRepairTime :=
    guarded.timely.2 _ (by simp [Operation.readings])
  rcases inv.skeleton.of_itemAlloc guarded.sane inv.few alloc with
    ⟨c₁, lists', out₁, reset, trims, old, result⟩
  have repaired : cache.repaired = reset ++ s.cache.repaired := by
    rcases result with ⟨-, rfl, -⟩ | ⟨a, out', -, -, fills⟩
    · exact trims.repaired
    · exact fills.repaired.trans trims.repaired
  have notReset (a : ℕ) (isHeld : 0 < s.holds a) : a ∉ reset := by
    intro isReset
    rcases guarded.spares with ⟨reset', repaired', free⟩
    have same := List.append_cancel_right (repaired.symm.trans repaired')
    exact Nat.ne_of_gt isHeld (free a (same ▸ isReset))
  have held := inv.held_of_kept c₁ out₁
    (fun i a handedOut isHeld =>
      trims.out_kept i a handedOut (inv.referred isHeld) (notReset a isHeld))
    (fun a isHeld => trims.refcount a (notReset a isHeld))
  have recent := (trims.recent inv.recent).later passed
  constructor
  · rcases result with ⟨rfl, rfl, inv'⟩ | ⟨a, out', rfl, inv', fills⟩
    · exact ⟨lists', out₁, ⟨inv', held, recent, bound, trims.table.largePages inv.pages⟩⟩
    · refine ⟨lists', out', ⟨inv', ?_, recent.congr ?_, bound,
        (trims.table.trans fills.table).largePages inv.pages⟩⟩
      · intro b isHeld
        change 0 < Function.update s.holds a 1 b at isHeld
        change _ ∧ Function.update s.holds a 1 b ≤ _
        by_cases same : b = a
        · subst same
          rw [Function.update_self, fills.refcount]
          exact ⟨fills.handedOut, le_rfl⟩
        · rw [Function.update_of_ne same] at isHeld ⊢
          rcases held b isHeld with ⟨⟨id, handedOut⟩, counted⟩
          have kept := congrArg HashItem.refcount (fills.item id b handedOut)
          exact ⟨⟨id, fills.out_kept id b handedOut⟩, counted.trans_eq kept.symm⟩
      · intro id b inList
        rcases fills.mem_out id b (inv'.mem_out_of_mem_list inList) with handedOut | rfl
        · exact congrArg HashItem.time (fills.item id b handedOut)
        · exact absurd inList (inv'.notMem_list fills.notLinked id)
  · refine ⟨reset, repaired, ?_⟩
    intro a isReset
    rcases old a isReset with ⟨id, inList, isOld⟩
    exact inv.longAgo inList bound isOld

theorem of_get (inv : s.Inv lists out) {key : List UInt8} {sys : System}
    (guarded : s.Guarded s' (.get key sys)) :
    (∃ lists' out', s'.Inv lists' out') ∧ s'.cache.repaired = s.cache.repaired := by
  rcases bind_eq_ok.mp guarded.run with ⟨⟨cache, found⟩, got, done⟩
  cases done
  have passed : s.clock ≤ sys.now 0 := by simpa [Operation.readings] using guarded.timely.1
  have bound : sys.now 0 < 2 ^ 32 - tailRepairTime :=
    guarded.timely.2 _ (by simp [Operation.readings])
  rcases inv.skeleton.of_doItemGet (bound.trans_le (Nat.sub_le _ _)) guarded.matching got with
    ⟨isHit, ⟨rfl, rfl⟩ |
      ⟨a, id, lists', rfl, inList, inv', frame, counted, -, -, repaired, accesses⟩⟩
  · have recent := inv.recent.later passed
    exact ⟨⟨lists, out, ⟨inv.skeleton, inv.held, recent, bound, inv.pages⟩⟩, rfl⟩
  · refine ⟨⟨lists', out, ⟨inv', ?_, accesses _ _ inv.recent passed, bound,
      frame.table.largePages inv.pages⟩⟩, repaired⟩
    intro b isHeld
    change 0 < Function.update s.holds a (s.holds a + 1) b at isHeld
    change _ ∧ Function.update s.holds a (s.holds a + 1) b ≤ _
    rw [counted, Nat.mod_eq_of_lt (guarded.noWrap a isHit.symm)]
    by_cases same : b = a
    · subst same
      rw [Function.update_self, Function.update_self]
      refine ⟨⟨id, inv.skeleton.mem_out_of_mem_list inList⟩, Nat.succ_le_succ ?_⟩
      rcases Nat.eq_zero_or_pos (s.holds b) with zero | positive
      · simp [zero]
      · exact (inv.held b positive).2
    · rw [Function.update_of_ne same] at isHeld
      rw [Function.update_of_ne same, Function.update_of_ne same]
      exact inv.held b isHeld

theorem of_release (inv : s.Inv lists out) {sys : System}
    (guarded : s.Guarded s' (.release it sys)) :
    (∃ lists' out', s'.Inv lists' out') ∧ s'.cache.repaired = s.cache.repaired := by
  rcases bind_eq_ok.mp guarded.run with ⟨cache, released, done⟩
  cases done
  rcases inv.mem_out guarded.permitted with ⟨id, handedOut⟩
  rcases inv.skeleton.of_doItemRelease handedOut (guarded.sane 0).fits released with
    ⟨out', inv', frame, -, kept, counted, time, -, repaired⟩
  refine ⟨⟨lists, out', ⟨inv', ?_, inv.recent.congr ?_, inv.clock,
    frame.table.largePages inv.pages⟩⟩, repaired⟩
  · intro b isHeld
    change 0 < Function.update s.holds it (s.holds it - 1) b at isHeld
    change _ ∧ Function.update s.holds it (s.holds it - 1) b ≤ _
    rw [counted]
    by_cases same : b = it
    · subst same
      rw [Function.update_self] at isHeld
      rw [Function.update_self, Function.update_self]
      have enough := (inv.held b guarded.permitted).2
      exact ⟨⟨id, kept id b handedOut (Or.inr (by omega))⟩, Nat.sub_le_sub_right enough 1⟩
    · rw [Function.update_of_ne same] at isHeld
      rw [Function.update_of_ne same, Function.update_of_ne same]
      rcases inv.held b isHeld with ⟨⟨i, isOut⟩, enough⟩
      exact ⟨⟨i, kept i b isOut (Or.inl same)⟩, enough⟩
  · intro i a _
    exact congrFun time a

theorem of_unlink (inv : s.Inv lists out) {sys : System}
    (guarded : s.Guarded s' (.unlink it sys)) :
    (∃ lists' out', s'.Inv lists' out') ∧ s'.cache.repaired = s.cache.repaired := by
  rcases bind_eq_ok.mp guarded.run with ⟨cache, unlinked, done⟩
  cases done
  rcases inv.mem_out guarded.permitted with ⟨id, handedOut⟩
  rcases inv.skeleton.of_doItemUnlink handedOut (guarded.sane 0).fits unlinked with
    ⟨lists', out', inv', trims, -⟩
  have held := inv.held_of_kept cache out'
    (fun i a isOut isHeld => trims.out_kept i a isOut (inv.referred isHeld) List.not_mem_nil)
    (fun a _ => trims.refcount a List.not_mem_nil)
  exact ⟨⟨lists', out', ⟨inv', held, trims.recent inv.recent, inv.clock,
    trims.table.largePages inv.pages⟩⟩, trims.repaired⟩

theorem of_store (inv : s.Inv lists out) {sys : System}
    (guarded : s.Guarded s' (.store it sys)) :
    (∃ lists' out', s'.Inv lists' out') ∧ s'.cache.repaired = s.cache.repaired := by
  rcases bind_eq_ok.mp guarded.run with ⟨cache, stored, done⟩
  cases done
  have timely := guarded.timely
  simp only [Timely, Operation.readings, List.pairwise_cons, List.mem_cons, List.not_mem_nil,
    or_false, forall_eq_or_imp, forall_eq] at timely
  rcases timely with ⟨⟨⟨passed, -⟩, passed', -⟩, bound, bound'⟩
  rcases inv.mem_out guarded.permitted with ⟨id, handedOut⟩
  rcases inv.skeleton.of_storeItem handedOut (inv.referred guarded.permitted)
      (fun i => (guarded.sane i).fits) (bound.trans_le (Nat.sub_le _ _))
      (bound'.trans_le (Nat.sub_le _ _)) guarded.matching guarded.noWrap stored with
    ⟨lists', out', inv', kept, counted, repaired, table, recent⟩
  have held := inv.held_of_kept cache out'
    (fun i a isOut isHeld => kept i a isOut (inv.referred isHeld))
    (fun a _ => congrFun counted a)
  exact ⟨⟨lists', out', ⟨inv', held, recent _ _ inv.recent passed passed', bound',
    table.largePages inv.pages⟩⟩, repaired⟩

theorem setMem (inv : s.Inv lists out) (mem : Mem) (next : mem.next = s.cache.mem.next)
    (prev : mem.prev = s.cache.mem.prev) (linked : mem.itemLinked = s.cache.mem.itemLinked)
    (clsid : mem.slabsClsid = s.cache.mem.slabsClsid)
    (refcount : mem.refcount = s.cache.mem.refcount) (time : mem.time = s.cache.mem.time) :
    ({ s with cache := { s.cache with mem } } : Clients).Inv lists out where
  skeleton := inv.skeleton.setMem mem next prev linked clsid
  held := inv.held_of_kept { s.cache with mem } out (fun _ _ isOut _ => isOut)
    fun a _ => congrFun refcount a
  recent := inv.recent.congr fun _ a _ => congrFun time a
  clock := inv.clock
  pages := inv.pages

/-- A step keeps the invariant, and its tail repair unlinks only what was not accessed for long. -/
theorem step (inv : s.Inv lists out) (guarded : s.Guarded s' operation) :
    (∃ lists' out', s'.Inv lists' out') ∧ s.RepairsOld s' := by
  have noRepair (result : (∃ lists' out', s'.Inv lists' out') ∧
      s'.cache.repaired = s.cache.repaired) :
      (∃ lists' out', s'.Inv lists' out') ∧ s.RepairsOld s' :=
    ⟨result.1, [], result.2, by simp⟩
  cases operation with
  | alloc key nbytes sys => exact inv.of_alloc guarded
  | get key sys => exact noRepair (inv.of_get guarded)
  | release it sys => exact noRepair (inv.of_release guarded)
  | unlink it sys => exact noRepair (inv.of_unlink guarded)
  | store it sys => exact noRepair (inv.of_store guarded)
  | fill it bytes =>
      apply noRepair
      cases guarded.run
      exact ⟨⟨lists, out, inv.setMem _ rfl rfl rfl rfl rfl rfl⟩, rfl⟩
  | forget it =>
      apply noRepair
      cases guarded.run
      refine ⟨⟨lists, out, { inv with held := ?_ }⟩, rfl⟩
      intro a isHeld
      change 0 < Function.update s.holds it (s.holds it - 1) a at isHeld
      change _ ∧ Function.update s.holds it (s.holds it - 1) a ≤ _
      by_cases same : a = it
      · subst same
        rw [Function.update_self] at isHeld ⊢
        have before := inv.held a (by omega)
        exact ⟨before.1, (Nat.sub_le _ _).trans before.2⟩
      · rw [Function.update_of_ne same] at isHeld ⊢
        exact inv.held a isHeld
  | maintain =>
      apply noRepair
      rcases bind_eq_ok.mp guarded.run with ⟨cache, maintained, done⟩
      cases done
      rcases bind_eq_ok.mp maintained with ⟨⟨assoc, mem⟩, passed, done⟩
      cases done
      rcases AssociativeArray.mem_of_maintenancePass passed with ⟨hNext, rfl⟩
      have kept := inv.setMem { s.cache.mem with hNext } rfl rfl rfl rfl rfl rfl
      exact ⟨⟨lists, out, { kept with skeleton := { kept.skeleton with } }⟩, rfl⟩

end Inv

/-! ## The table's matching -/

/-- The keys that an operation looks up are keys of the cache, and it stores no item twice. -/
def LooksUp (keys : Set (List UInt8)) (s : Clients) (v : View) : Operation → Prop
  | .get key _ => key ∈ keys
  | .store it _ => it ∉ v.stored ∧ s.cache.mem.key it ∈ keys
  | _ => True

theorem listed_of_lookup {keys : Set (List UInt8)} {v : View} (inv : CacheInv keys c v)
    (keySet : KeySet keys) {key : List UInt8} (isKey : key ∈ keys)
    (isHit : c.lookup key (hashKey key) = some it) : ∃ id, c.Listed id it := by
  rcases inv.table.assocFind_key keySet inv.hashes inv.keys inv.distinct isKey with
    ⟨found, lookup, sound⟩
  simp only [LruLists.lookup, lookup] at isHit
  rcases (inv.mem_stored it).mp ((sound it).mp isHit).1 with ⟨id, inList⟩
  exact ⟨id, v.lists id, (inv.lists.list id).forward, inList⟩

/-- Where the hash separates the keys, the table's matching is key equality, and a lookup finds
linked items only. -/
theorem matching_of_cacheInv {keys : Set (List UInt8)} {v : View} (inv : CacheInv keys s.cache v)
    (keySet : KeySet keys) (looksUp : LooksUp keys s v operation)
    (isHit : s.hit operation = some it) : ∃ id, s.cache.Listed id it := by
  cases operation with
  | get key sys => exact listed_of_lookup inv keySet looksUp isHit
  | store new sys =>
      rcases looksUp with ⟨notStored, isKey⟩
      have hashed : CacheInv keys (s.cache.hashed new) v := by
        refine inv.setContents (fun a isStored => ?_) fun _ _ => rfl
        exact Function.update_of_ne (ne_of_mem_of_not_mem isStored notStored) _ _
      have hash : (s.cache.hashed new).mem.hv new = hashKey (s.cache.mem.key new) :=
        (Function.update_self ..).trans (LruLists.itemHash_eq s.cache.mem new)
      have isHit' : (s.cache.hashed new).lookup (s.cache.mem.key new)
          (hashKey (s.cache.mem.key new)) = some it := by
        rw [← hash]
        exact isHit
      have listed : ∃ id, (s.cache.hashed new).Listed id it :=
        listed_of_lookup hashed keySet isKey isHit'
      exact listed
  | alloc | release | unlink | fill | forget | maintain => cases isHit

/-! ## Every run -/

theorem inv_of_run {mem : Mem} {cacheSize memMalloced : ℕ}
    (run : ReflTransGen GuardedStep (init (DataCache.new mem cacheSize memMalloced)) s) :
    ∃ lists out, s.Inv lists out := by
  induction run with
  | refl => exact ⟨_, _, .init⟩
  | tail _ step ih =>
      rcases ih with ⟨lists, out, inv⟩
      rcases step with ⟨operation, guarded⟩
      exact (inv.step guarded).1

/-- Eviction is least recently used up to `ITEM_UPDATE_INTERVAL`. -/
theorem leastRecentlyUsed_of_run {mem : Mem} {cacheSize : ℕ} {os : Os} {initialMalloc : Option ℕ}
    (created : DataCache.create .zero .zero mem cacheSize os initialMalloc = .ok c)
    (run : ReflTransGen GuardedStep (init c) s) :
    (∃ lists, s.InOrder lists) ∧ s.EvictsOldest ∧ ∀ s', GuardedStep s s' → s.RepairsOld s' := by
  cases (DataCache.create_eq mem cacheSize os initialMalloc).symm.trans created
  rcases inv_of_run run with ⟨lists, out, inv⟩
  refine ⟨⟨lists, inv.inOrder⟩, inv.evictsOldest, ?_⟩
  rintro s' ⟨operation, guarded⟩
  exact (inv.step guarded).2

open DataCache in
/-- An item is stored at time 1001 and found at time 1030, and then nobody refers to it any more. -/
theorem leastRecentlyUsed_unreferenced : ∃ s : Clients,
    s.cache.mem.time 4096 = 1001 ∧ s.lastAccess 4096 = 1030 ∧ s.cache.mem.refcount 4096 = 0 ∧
      (∃ lists, s.InOrder lists) ∧ s.EvictsOldest ∧ ∀ s', GuardedStep s s' → s.RepairsOld s' := by
  have created := create_eq .zero 64 ((onePage 0 0 0).os 0) none
  have decided : ((init (new .zero 64 0)).step
      (.alloc [107] 1 (onePage 1048512 4096 1000))).toOption.any (fun s₁ =>
        (init (new .zero 64 0)).Plain s₁ (.alloc [107] 1 (onePage 1048512 4096 1000)) ∧
          (s₁.exec [.store 4096 (outOfMemory 1001), .get [107] (outOfMemory 1030),
            .release 4096 (outOfMemory 1031), .release 4096 (outOfMemory 1031)]).any fun s =>
              s.cache.mem.time 4096 = 1001 ∧ s.lastAccess 4096 = 1030 ∧
                s.cache.mem.refcount 4096 = 0) = true := by
    decide +kernel
  rcases (Option.any_eq_true _ _).mp decided with ⟨s₁, returned, plain⟩
  rw [decide_eq_true_eq] at plain
  rcases plain with ⟨plain, decided⟩
  rcases (Option.any_eq_true _ _).mp decided with ⟨s, run, facts⟩
  rw [decide_eq_true_eq] at facts
  rcases facts with ⟨time, access, noRef⟩
  have sane : (Operation.alloc [107] 1 (onePage 1048512 4096 1000)).Sane (newSlabs 64 0) :=
    sane_onePage (noSlabs_new 64 0) (by decide) 1000
  have first : GuardedStep (init (new .zero 64 0)) s₁ :=
    guardedStep_of_plain sane (toOption_eq_some.mp returned) plain
  have others := run_of_exec (by simp [Operation.Sane, sane_outOfMemory]) run
  exact ⟨s, time, access, noRef, leastRecentlyUsed_of_run created (.head first others)⟩

end Clients

end ChaosCache
