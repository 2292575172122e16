import ChaosCache.DataCache
import ChaosCache.Slabs.Classes

/-!
# Class ids and list heads

The allocator has room for class `POWER_LARGEST`, the lists have not. An allocator whose loop
ends at this class hands out its id, and the lists are read behind their end.
-/

namespace ChaosCache

open SlabAllocator

/-- The ids of an allocator are indices of `heads`, `tails` and `sizes`, and the assertions on the
id of an item hold that carries one of them, or none. -/
structure IdsAgree (s : SlabAllocator) : Prop where
  ids : ∀ size, s.slabsClsid size < powerLargest
  reads : ∀ (c : LruLists) (size : ℕ),
    c.head (s.slabsClsid size) = .ok (c.heads (s.slabsClsid size)) ∧
      c.tail (s.slabsClsid size) = .ok (c.tails (s.slabsClsid size))
  asserts : ∀ (c : LruLists) (it : ℕ),
    (c.mem.slabsClsid it = 0 ∨ ∃ size, c.mem.slabsClsid it = s.slabsClsid size % 2 ^ 8) →
      c.itemLinkQ it ≠ .error (.assertion "it->slabs_clsid < POWER_LARGEST") ∧
        c.itemUnlinkQ it ≠ .error (.assertion "it->slabs_clsid < POWER_LARGEST")

/-- The loop of the constructor ends before the last class id of the lists, or one of the classes
up to there holds everything that is accepted. -/
def Config.EndsEarly (settings : Config) : Prop :=
  ∃ n, n + 1 < powerLargest ∧
    (¬settings.Fills n ∨ settings.itemSizeMax % 2 ^ 32 ≤ settings.chunkLength n)

theorem of_check_error {condition : Prop} [Decidable condition] {text : String} {fault : Fault}
    (failed : check condition text = .error fault) :
    ¬condition ∧ fault = .assertion text := by
  unfold check at failed
  split at failed
  · cases failed
  · rename_i fails
    exact ⟨fails, (Except.error.inj failed).symm⟩

namespace LruLists

variable {c : LruLists} {it : ℕ}

theorem itemLinkQ_ne (below : c.mem.slabsClsid it < powerLargest) :
    c.itemLinkQ it ≠ .error (.assertion "it->slabs_clsid < POWER_LARGEST") := by
  intro failed
  rcases bind_eq_error.mp failed with failed | ⟨-, -, failed⟩
  · exact (of_check_error failed).1 below
  · rcases bind_eq_error.mp failed with failed | ⟨-, -, failed⟩
    · simpa using (of_check_error failed).2
    · rcases bind_eq_error.mp failed with failed | ⟨-, -, failed⟩
      · simpa using (of_check_error failed).2
      · rcases bind_eq_error.mp failed with failed | ⟨-, -, done⟩
        · simpa using (of_check_error failed).2
        · cases done

theorem itemUnlinkQ_ne (below : c.mem.slabsClsid it < powerLargest) :
    c.itemUnlinkQ it ≠ .error (.assertion "it->slabs_clsid < POWER_LARGEST") := by
  intro failed
  rcases bind_eq_error.mp failed with failed | ⟨-, -, failed⟩
  · exact (of_check_error failed).1 below
  · rcases bind_eq_error.mp failed with failed | ⟨-, -, failed⟩
    · simpa using (of_check_error failed).2
    · rcases bind_eq_error.mp failed with failed | ⟨-, -, failed⟩
      · simpa using (of_check_error failed).2
      · rcases bind_eq_error.mp failed with failed | ⟨-, -, failed⟩
        · simpa using (of_check_error failed).2
        · rcases bind_eq_error.mp failed with failed | ⟨-, -, done⟩
          · simpa using (of_check_error failed).2
          · cases done

end LruLists

/-- Ids in the range are all that the accesses and the assertions need. -/
theorem idsAgree_of_lt {s : SlabAllocator} (ids : ∀ size, s.slabsClsid size < powerLargest) :
    IdsAgree s where
  ids := ids
  reads c size := ⟨if_pos (ids size), if_pos (ids size)⟩
  asserts c it carries := by
    have below : c.mem.slabsClsid it < powerLargest := by
      rcases carries with unused | ⟨size, isId⟩
      · rw [unused]
        decide
      · rw [isId]
        exact (Nat.mod_le _ _).trans_lt (ids size)
    exact ⟨LruLists.itemLinkQ_ne below, LruLists.itemUnlinkQ_ne below⟩

namespace ClassTable

variable {settings : Config} {s : SlabAllocator} {filled : ℕ}

theorem ids_lt (table : ClassTable settings s filled) (early : settings.EndsEarly) (size : ℕ) :
    s.slabsClsid size < powerLargest := by
  have range : powerSmallest ≤ s.powerLargest := by
    rw [table.largest]
    exact Nat.le_add_left _ _
  by_cases refused : s.slabsClsid size = 0
  · rw [refused]
    decide
  · rcases of_slabsClsid range refused with ⟨used, -, least⟩
    rcases early with ⟨n, bound, stops⟩
    by_cases before : filled ≤ n
    · -- the loop ended at or before class `n + 1`
      have upper := used.2
      rw [table.largest] at upper
      omega
    · have less : n < filled := Nat.lt_of_not_le before
      have enough := stops.resolve_left (not_not.mpr (table.fills n less))
      -- everything that is accepted fits class `n + 1`
      have accepted : size ≤ settings.itemSizeMax % 2 ^ 32 := by
        by_contra tooLarge
        apply refused
        rw [slabsClsid_eq_zero range, table.largest, table.last]
        exact Or.inr (Nat.not_le.mp tooLarge)
      by_contra above
      have small := least (n + 1) (Nat.le_add_left _ _) (by omega)
      rw [table.classes n less] at small
      exact absurd small (Nat.not_lt.mpr (accepted.trans enough))

theorem of_not_endsEarly (late : ¬settings.EndsEarly) {n : ℕ} (below : n + 1 < powerLargest) :
    settings.Fills n ∧ settings.chunkLength n < settings.itemSizeMax % 2 ^ 32 := by
  by_contra stops
  apply late
  refine ⟨n, below, ?_⟩
  by_cases fills : settings.Fills n
  · exact Or.inr (Nat.not_lt.mp fun small => stops ⟨fills, small⟩)
  · exact Or.inl fills

/-- Otherwise the loop ends at its bound. -/
theorem filled_eq (table : ClassTable settings s filled) (late : ¬settings.EndsEarly) :
    filled + 1 = powerLargest := by
  have bound := table.bound
  by_contra differs
  have less : filled + 1 < powerLargest := by omega
  exact table.ends less (of_not_endsEarly late less).1

/-- Otherwise the allocator hands out class `POWER_LARGEST`. -/
theorem clsid_eq (table : ClassTable settings s filled) (late : ¬settings.EndsEarly) :
    s.slabsClsid (settings.itemSizeMax % 2 ^ 32) = powerLargest := by
  have full := table.filled_eq late
  have range : powerSmallest ≤ s.powerLargest := by
    rw [table.largest]
    exact Nat.le_add_left _ _
  have largest : (s.slabclass s.powerLargest).size = settings.itemSizeMax % 2 ^ 32 := by
    rw [table.largest, table.last]
  have accepted : s.slabsClsid (settings.itemSizeMax % 2 ^ 32) ≠ 0 := by
    rw [Ne, slabsClsid_eq_zero range, largest]
    have first := (of_not_endsEarly late (n := 0) (by decide)).2
    omega
  rcases of_slabsClsid range accepted with ⟨used, enough, -⟩
  have upper := used.2
  have lower := used.1
  rw [table.largest, full] at upper
  by_contra differs
  rcases Nat.exists_eq_add_of_le' lower with ⟨n, isClass⟩
  simp only [powerSmallest] at isClass
  have below : n + 1 < powerLargest := by omega
  rw [isClass, table.classes n (by omega)] at enough
  exact absurd (of_not_endsEarly late below).2 (Nat.not_lt.mpr enough)

end ClassTable

/-- The ids stay in the lists exactly when the loop ends early or a class before the last holds
everything. -/
theorem idsAgree_iff_endsEarly {prior s : SlabAllocator} {settings : Config} {os : Os}
    {initialMalloc : Option ℕ}
    (created : SlabAllocator.create prior settings os initialMalloc = .ok s) :
    IdsAgree s ↔ settings.EndsEarly := by
  rcases classTable_of_create created with ⟨filled, table⟩
  constructor
  · intro agree
    by_contra late
    have id := agree.ids (settings.itemSizeMax % 2 ^ 32)
    rw [table.clsid_eq late] at id
    exact lt_irrefl _ id
  · intro early
    exact idsAgree_of_lt (table.ids_lt early)

theorem idsAgree_halfAgain : ∃ s : SlabAllocator,
    SlabAllocator.create .zero halfAgain ⟨fun _ => none, fun _ => false⟩ none = .ok s ∧
      IdsAgree s := by
  have created : ∃ s : SlabAllocator,
      SlabAllocator.create .zero halfAgain ⟨fun _ => none, fun _ => false⟩ none = .ok s :=
    ⟨_, rfl⟩
  rcases created with ⟨s, created⟩
  refine ⟨s, created, (idsAgree_iff_endsEarly created).mpr ⟨22, by decide, Or.inl ?_⟩⟩
  unfold Config.Fills
  decide +kernel

/-- A factor of 1.01 does not get the loop past the size of the first class. -/
def crowded : Config := { halfAgain with factorNum := 101, factorDen := 100 }

theorem not_endsEarly_crowded : ¬crowded.EndsEarly := by
  rintro ⟨n, below, stops⟩
  have all : ∀ n < 199, crowded.growth n * crowded.factorNum ≤
      crowded.itemSizeMax * crowded.factorDen ∧
        crowded.chunkLength n < crowded.itemSizeMax % 2 ^ 32 := by
    decide +kernel
  rcases all n (by simp only [powerLargest] at below; omega) with ⟨fills, small⟩
  exact stops.elim (absurd fills) (Nat.not_le.mpr small)

/-- A system without memory -/
def noMemory : System where
  now _ := 0
  os _ := ⟨fun _ => none, fun _ => false⟩
  expansion := .callocFails

/-- Without memory a class that owns nothing hands out nothing. -/
theorem doSlabsAlloc_noMemory {s : SlabAllocator} {size perslab id : ℕ} (used : s.Used id)
    (cls : s.slabclass id = { SlabClass.zero with size, perslab }) (mem : Mem) (ntotal i : ℕ) :
    s.doSlabsAlloc mem ntotal id (noMemory.os i) = .ok (s, mem, none) := by
  have accepted : ¬(id < powerSmallest ∨ s.powerLargest < id) := by
    rcases used with ⟨lower, upper⟩
    omega
  simp [doSlabsAlloc, accepted, doSlabsNewslab, growSlabList, cls, SlabClass.zero, noMemory]

/-- With 1.01 an item of one megabyte gets id 200, and `do_item_alloc` reads `tails[200]`. -/
theorem not_idsAgree_crowded : ∃ (c : LruLists) (key : List UInt8),
    LruLists.create .zero .zero .zero crowded (noMemory.os 0) none = .ok c ∧ ¬IdsAgree c.slabs ∧
      c.doItemAlloc key (2 ^ 20 - 48) noMemory = .error .outOfBounds := by
  have created : ∃ s : SlabAllocator,
      SlabAllocator.create .zero crowded (noMemory.os 0) none = .ok s := ⟨_, rfl⟩
  rcases created with ⟨s, created⟩
  rcases classTable_of_create created with ⟨filled, table⟩
  have id : s.slabsClsid (2 ^ 20) = 200 := table.clsid_eq not_endsEarly_crowded
  have full : filled = 199 := by
    have last := table.filled_eq not_endsEarly_crowded
    simp only [powerLargest] at last
    omega
  have used : s.Used 200 := by
    unfold Used
    rw [table.largest, full]
    decide
  refine ⟨_, [], bind_of_ok created rfl, fun agree => ?_, ?_⟩
  · have below := agree.ids (2 ^ 20)
    rw [id] at below
    simp [powerLargest] at below
  · have drained := doSlabsAlloc_noMemory used (full ▸ table.last) .zero (2 ^ 20) 0
    have ntotal : LruLists.ntotal ([] : List UInt8).length (2 ^ 20 - 48) = 2 ^ 20 := by decide
    simp only [LruLists.doItemAlloc, ntotal, id, LruLists.obtainChunk, LruLists.slabsAlloc, drained,
      ok_bind]
    rfl

end ChaosCache
