import ChaosCache.DataCache
import ChaosCache.Slabs.Classes
import ChaosCache.Slabs.Limit

/-!
# Construction

Two of the constructors assign some of their fields only. The others keep what was in the
storage that `operator new` returned.
-/

namespace ChaosCache

open Relation SlabAllocator

namespace AssociativeArray

variable {t : AssociativeArray}

/-- A table that does not expand is searched in the primary table only. -/
theorem slot_of_not_expanding (still : t.expanding = false) (hash : UInt32) :
    t.slot hash = .primary (t.getBucket hash) := by
  simp [slot, whichHashtable, still]

theorem assocFind_of_empty (still : t.expanding = false)
    (empty : t.primaryHashtable = fun _ => none) (mem : Mem) (hash : UInt32) (key : List UInt8) :
    t.assocFind mem hash key = .ok none := by
  have loaded : t.load (t.slot hash) = .ok none := by
    rw [slot_of_not_expanding still, load, empty]
  exact bind_of_ok loaded rfl

end AssociativeArray

namespace SlabAllocator

theorem memBase_of_call {x y : SlabAllocator × Mem} (call : SlabCall x y) :
    y.1.memBase = x.1.memBase := by
  cases call with
  | alloc size id os fresh run =>
      rcases doSlabsAlloc_ok run with keeps | ⟨ptr, used, adds⟩
      · exact keeps.memBase
      · exact adds.memBase
  | free ptr size id os run => exact (doSlabsFree_ok run).memBase

theorem memBase_of_run {x y : SlabAllocator × Mem} (run : ReflTransGen SlabCall x y) :
    y.1.memBase = x.1.memBase := by
  induction run with
  | refl => rfl
  | tail _ call ih => exact (memBase_of_call call).trans ih

/-- A page that a class gets is a block that `malloc` returned. -/
def FromMalloc (s : SlabAllocator) : Prop :=
  ∀ (mem mem' : Mem) (id : ℕ) (os : Os) (s' : SlabAllocator),
    s.doSlabsNewslab mem id os = .ok (s', mem', true) →
      ∃ ptr, os.malloc (s.slabclass id).len = some ptr ∧
        (s'.slabclass id).slabList = ptr :: (s.slabclass id).slabList

theorem fromMalloc_of_heap {s : SlabAllocator} (heap : s.memBase = none) : s.FromMalloc := by
  intro mem mem' id os s' run
  rcases doSlabsNewslab_ok run with ⟨refused, -⟩ | ⟨-, ptr, adds⟩
  · cases refused
  · refine ⟨ptr, adds.heap heap, ?_⟩
    rw [adds.slabList, if_pos rfl]

end SlabAllocator

namespace LruLists

/-- The fields that the operations branch on are as in an empty cache. A first lookup misses in
the primary table, and every page comes from `malloc`. -/
structure Established (c : LruLists) : Prop where
  expanding : c.assoc.expanding = false
  hashItems : c.assoc.hashItems = 0
  memMalloced : c.slabs.memMalloced = 0
  memBase : c.slabs.memBase = none
  primary : ∀ hash, c.assoc.slot hash = .primary (c.assoc.getBucket hash)
  misses : ∀ (mem : Mem) (hash : UInt32) (key : List UInt8),
    c.assoc.assocFind mem hash key = .ok none
  pages : ∀ y : SlabAllocator × Mem, ReflTransGen SlabCall (c.slabs, c.mem) y → y.1.FromMalloc

theorem established_iff {priorAssoc : AssociativeArray} {priorSlabs : SlabAllocator} {mem : Mem}
    {settings : Config} {os : Os} {c : LruLists} (preallocate : settings.preallocate = false)
    (created : create priorAssoc priorSlabs mem settings os none = .ok c) :
    c.Established ↔ priorAssoc.expanding = false ∧ priorAssoc.hashItems = 0 ∧
      priorSlabs.memMalloced = 0 ∧ priorSlabs.memBase = none := by
  rcases bind_eq_ok.mp created with ⟨slabs, constructed, built⟩
  cases built
  rcases create_ok rfl constructed with ⟨-, -, -, memMalloced, memBase⟩
  have keepsBase := memBase preallocate
  constructor
  · intro established
    exact ⟨established.expanding, established.hashItems,
      memMalloced.symm.trans established.memMalloced, keepsBase.symm.trans established.memBase⟩
  · rintro ⟨expanding, hashItems, malloced, base⟩
    refine
      { expanding := expanding
        hashItems := hashItems
        memMalloced := memMalloced.trans malloced
        memBase := keepsBase.trans base
        primary := AssociativeArray.slot_of_not_expanding expanding
        misses := AssociativeArray.assocFind_of_empty expanding rfl
        pages := fun y run => fromMalloc_of_heap ?_ }
    exact (memBase_of_run run).trans (keepsBase.trans base)

/-- On storage that reads as zero the cache starts empty. -/
theorem established_zero : ∃ c : LruLists,
    create .zero .zero .zero halfAgain ⟨fun _ => none, fun _ => false⟩ none = .ok c ∧
      c.Established := by
  have created : ∃ c : LruLists,
      create .zero .zero .zero halfAgain ⟨fun _ => none, fun _ => false⟩ none = .ok c := ⟨_, rfl⟩
  rcases created with ⟨c, created⟩
  exact ⟨c, created, (established_iff rfl created).mpr ⟨rfl, rfl, rfl, rfl⟩⟩

/-- On storage that held a table while it expanded, the first lookup reads the old table. -/
theorem not_established_expanding : ∃ (priorAssoc : AssociativeArray) (c : LruLists),
    create priorAssoc .zero .zero halfAgain ⟨fun _ => none, fun _ => false⟩ none = .ok c ∧
      ¬c.Established ∧ c.assoc.assocFind c.mem 0 [] = .error .useAfterFree := by
  refine ⟨{ AssociativeArray.zero with expanding := true }, _, rfl, fun established => ?_, rfl⟩
  have still := established.expanding
  simp [AssociativeArray.create] at still

end LruLists

end ChaosCache
