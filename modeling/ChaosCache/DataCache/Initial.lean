import ChaosCache.DataCache
import ChaosCache.Lru.Sections
import ChaosCache.Slabs.Runs

/-!
# The new cache

The class table of `DataCache`, and the invariant of the cache that its constructor
returns. The table does not depend on the size of the cache.
-/

namespace ChaosCache

namespace SlabAllocator

theorem fillClasses_congr (settings settings' : Config)
    (factorNum : settings.factorNum = settings'.factorNum)
    (factorDen : settings.factorDen = settings'.factorDen)
    (itemSizeMax : settings.itemSizeMax = settings'.itemSizeMax) (remaining i start : ℕ)
    (classes : ℕ → SlabClass) :
    fillClasses settings remaining i start classes =
      fillClasses settings' remaining i start classes := by
  induction remaining generalizing i start classes with
  | zero => simp only [fillClasses]
  | succ remaining ih => simp only [fillClasses, ih, factorNum, factorDen, itemSizeMax]

end SlabAllocator

namespace DataCache

/-- The class table of a cache, whatever its size -/
def classTable : ℕ × (ℕ → SlabClass) :=
  SlabAllocator.fillClasses (config 0) (powerLargest - powerSmallest) powerSmallest 96
    (fun _ => .zero)

theorem classTable_largest : classTable.1 = 42 := by
  decide +kernel

theorem classTable_sizes : ∀ id, id < 42 → (classTable.2 id).size ≤ 2 ^ 20 ∧
    (1 ≤ id → 0 < (classTable.2 id).size ∧
      2 ^ 17 ≤ (classTable.2 id).size * (classTable.2 id).perslab ∧
      (classTable.2 id).size * (classTable.2 id).perslab < 2 ^ 32) := by
  decide +kernel

theorem classTable_spec (id : ℕ) :
    ∃ size perslab, classTable.2 id = { SlabClass.zero with size, perslab } ∧
      size < 2 ^ 32 ∧ perslab < 2 ^ 32 ∧ (42 ≤ id → size = 0 ∧ perslab = 0) := by
  rcases SlabAllocator.fillClasses_eq (config 0) (powerLargest - powerSmallest) 0
    (fun _ => .zero) with ⟨filled, -, -, run, -⟩
  have table : classTable = (filled + 1, fun id =>
      if 0 < id ∧ id ≤ filled then (config 0).filledClass (id - 1) else .zero) := run
  have largest : filled + 1 = 42 := by
    rw [← classTable_largest, table]
  rw [table]
  by_cases isFilled : 0 < id ∧ id ≤ filled
  · refine ⟨_, _, if_pos isFilled, Nat.mod_lt _ (by decide), Nat.mod_lt _ (by decide), ?_⟩
    omega
  · exact ⟨0, 0, if_neg isFilled, by decide, by decide, fun _ => ⟨rfl, rfl⟩⟩

/-- The allocator of a new cache -/
def newSlabs (cacheSize memMalloced : ℕ) : SlabAllocator where
  slabclass := Function.update classTable.2 42
    { classTable.2 42 with size := 2 ^ 20, perslab := 1 }
  memLimit := (config cacheSize).maxbytes
  memMalloced
  powerLargest := 42
  memBase := none
  memCurrent := 0
  memAvail := 0

/-- The slabs do not depend on the size of the hash table. -/
theorem create_slabs (cacheSize hashpower : ℕ) (os : Os) (initialMalloc : Option ℕ) :
    SlabAllocator.create .zero { config cacheSize with hashpower } os initialMalloc =
      .ok (newSlabs cacheSize (initialMalloc.getD 0)) := by
  have start : (sizeofHashItem + (config cacheSize).chunkSize) % 2 ^ 32 = 96 := rfl
  have table : SlabAllocator.fillClasses { config cacheSize with hashpower }
      (powerLargest - powerSmallest) powerSmallest 96 (fun _ => .zero) = (42, classTable.2) :=
    calc SlabAllocator.fillClasses { config cacheSize with hashpower }
          (powerLargest - powerSmallest) powerSmallest 96 (fun _ => .zero)
        = classTable :=
          SlabAllocator.fillClasses_congr { config cacheSize with hashpower } (config 0) rfl rfl rfl
            _ _ _ _
      _ = (42, classTable.2) := Prod.ext classTable_largest rfl
  simp only [SlabAllocator.create, start, table]
  rfl

/-- A new cache -/
def new (mem : Mem) (cacheSize memMalloced : ℕ) : LruLists where
  settings := config cacheSize
  assoc := { AssociativeArray.zero with hashpower := 16 }
  slabs := newSlabs cacheSize memMalloced
  heads _ := none
  tails _ := none
  sizes _ := 0
  mem
  freed := []
  repaired := []

theorem create_eq (mem : Mem) (cacheSize : ℕ) (os : Os) (initialMalloc : Option ℕ) :
    create .zero .zero mem cacheSize os initialMalloc =
      .ok (new mem cacheSize (initialMalloc.getD 0)) :=
  bind_of_ok (create_slabs cacheSize 16 os initialMalloc) rfl

/-- A new cache whose table has `2 ^ hashpower` buckets -/
def newWithPower (mem : Mem) (cacheSize memMalloced hashpower : ℕ) : LruLists :=
  { new mem cacheSize memMalloced with
    settings := { config cacheSize with hashpower }
    assoc := { AssociativeArray.zero with hashpower } }

theorem createWithPower_eq (mem : Mem) (cacheSize hashpower : ℕ) (os : Os)
    (initialMalloc : Option ℕ) :
    LruLists.create .zero .zero mem { config cacheSize with hashpower } os initialMalloc =
      .ok (newWithPower mem cacheSize (initialMalloc.getD 0) hashpower) :=
  bind_of_ok (create_slabs cacheSize hashpower os initialMalloc) rfl

end DataCache

/-- Nothing has been allocated. -/
def View.empty : View where
  lists _ := []
  out _ := []
  lost _ := []
  stored := ∅
  chains _ := []

namespace DataCache

theorem newSlabs_class (cacheSize memMalloced id : ℕ) :
    ∃ size perslab, (newSlabs cacheSize memMalloced).slabclass id =
        { SlabClass.zero with size, perslab } ∧ size < 2 ^ 32 ∧ perslab < 2 ^ 32 ∧ size ≤ 2 ^ 20 ∧
      ((newSlabs cacheSize memMalloced).Used id → 0 < size ∧ 2 ^ 17 ≤ size * perslab ∧
        size * perslab < 2 ^ 32) := by
  rcases classTable_spec id with ⟨size, perslab, cls, sizeBound, perslabBound, above⟩
  by_cases last : id = 42
  · subst last
    refine ⟨2 ^ 20, 1, ?_, by decide, by decide, le_rfl, fun _ => by decide⟩
    simp [newSlabs, cls, SlabClass.zero]
  · refine ⟨size, perslab, ?_, sizeBound, perslabBound, ?_, fun used => ?_⟩
    · simp [newSlabs, last, cls]
    · by_cases below : id < 42
      · have sizes := (classTable_sizes id below).1
        rwa [cls] at sizes
      · simp [(above (Nat.not_lt.mp below)).1]
    · rcases used with ⟨lower, upper⟩
      change 1 ≤ id at lower
      change id ≤ 42 at upper
      have sizes := (classTable_sizes id (by omega)).2 lower
      rwa [cls] at sizes

theorem noSlabs_new (cacheSize memMalloced id : ℕ) :
    ((newSlabs cacheSize memMalloced).slabclass id).slabList = [] := by
  rcases newSlabs_class cacheSize memMalloced id with ⟨size, perslab, cls, -⟩
  rw [cls]
  rfl

theorem cacheInv_new (keys : Set (List UInt8)) (mem : Mem) (cacheSize memMalloced : ℕ) :
    CacheInv keys (new mem cacheSize memMalloced) View.empty := by
  have initial : SlabState.Initial ⟨newSlabs cacheSize memMalloced, mem, fun _ => []⟩ := by
    refine ⟨rfl, fun _ => rfl, fun id => ?_⟩
    rcases newSlabs_class cacheSize memMalloced id with
      ⟨size, perslab, cls, sizeBound, perslabBound, -, used⟩
    refine ⟨size, perslab, cls, sizeBound, perslabBound, fun isUsed => ?_⟩
    rcases used isUsed with ⟨positive, page, -⟩
    exact ⟨positive, Nat.pos_of_mul_pos_left (Nat.lt_of_lt_of_le (by decide) page)⟩
  have fit : SlabState.PagesFit ⟨newSlabs cacheSize memMalloced, mem, fun _ => []⟩ := by
    intro id isUsed
    rcases newSlabs_class cacheSize memMalloced id with ⟨size, perslab, cls, -, -, -, used⟩
    change ((newSlabs cacheSize memMalloced).slabclass id).size *
      ((newSlabs cacheSize memMalloced).slabclass id).perslab < 2 ^ 32
    rw [cls]
    exact (used isUsed).2.2
  exact
    { slabs := initial.slabInv fit
      table := .empty rfl rfl rfl (show 16 < 31 by decide)
      lists := ⟨fun _ => .empty, by simp [View.empty], fun _ => rfl⟩
      mem_list := by simp [View.empty]
      mem_stored := by simp [View.empty]
      clsid := by simp [View.empty]
      unused := fun id a isChunk => by
        change a ∈ ((newSlabs cacheSize memMalloced).slabclass id).chunks at isChunk
        simp [SlabClass.chunks, noSlabs_new] at isChunk
      slabbed := by simp [View.empty]
      fits := by simp [View.empty]
      hashes := by simp [View.empty]
      keys := by simp [View.empty]
      distinct := by simp [View.empty]
      range := (by decide : 1 ≤ 42 ∧ 42 < 200)
      sizeMax := fun id => by
        rcases newSlabs_class cacheSize memMalloced id with ⟨size, perslab, cls, -, -, bound, -⟩
        change ((newSlabs cacheSize memMalloced).slabclass id).size ≤ 2 ^ 20
        rwa [cls]
      small := (by decide : 2 ^ 20 < 2 ^ 31)
      pages := fun id isUsed => by
        rcases newSlabs_class cacheSize memMalloced id with ⟨size, perslab, cls, -, -, -, used⟩
        change 2 ^ 17 ≤ ((newSlabs cacheSize memMalloced).slabclass id).size *
          ((newSlabs cacheSize memMalloced).slabclass id).perslab
        rw [cls]
        exact (used isUsed).2.1
      room := fun id => by
        rcases newSlabs_class cacheSize memMalloced id with ⟨size, perslab, cls, -⟩
        change ((newSlabs cacheSize memMalloced).slabclass id).slTotal < 2 ^ 31
        rw [cls]
        exact Nat.two_pow_pos 31 }

theorem cacheInv_newWithPower (keys : Set (List UInt8)) (mem : Mem) (cacheSize memMalloced : ℕ)
    {hashpower : ℕ} (power : hashpower < 31) :
    CacheInv keys (newWithPower mem cacheSize memMalloced hashpower) View.empty :=
  { cacheInv_new keys mem cacheSize memMalloced with
    table := .empty rfl rfl rfl power }

/-! ## A system for concrete runs -/

/-- A system that has one block, for one size, and grants short arrays. -/
def onePage (size ptr now : ℕ) : System where
  now _ := now
  os _ := { malloc := fun n => if n = size then some ptr else none, realloc := (· ≤ 4096) }
  expansion := .callocFails

/-- The block is fresh as long as there are no slabs. -/
theorem sane_onePage {s : SlabAllocator} (noSlabs : ∀ id, (s.slabclass id).slabList = [])
    {size ptr : ℕ} (user : 0 < ptr ∧ ptr + size ≤ userSpace) (now i : ℕ) :
    ((onePage size ptr now).os i).Sane s where
  fresh n a answer := by
    by_cases same : n = size
    · subst same
      obtain rfl : ptr = a := by simpa [onePage] using answer
      exact ⟨user.1, user.2, fun id b isSlab => by simp [noSlabs] at isSlab⟩
    · simp [onePage, same] at answer
  fits n granted := by
    have short : n ≤ 4096 := by simpa [onePage] using granted
    exact short.trans (by decide)

/-- A system that has no block, and grants short arrays. -/
def outOfMemory (now : ℕ) : System where
  now _ := now
  os _ := { malloc := fun _ => none, realloc := (· ≤ 4096) }
  expansion := .callocFails

theorem sane_outOfMemory (s : SlabAllocator) (now i : ℕ) : ((outOfMemory now).os i).Sane s where
  fresh n a answer := by simp [outOfMemory] at answer
  fits n granted := by
    have short : n ≤ 4096 := by simpa [outOfMemory] using granted
    exact short.trans (by decide)

end DataCache

end ChaosCache
