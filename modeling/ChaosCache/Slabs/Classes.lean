import Mathlib.Algebra.Order.Ring.Nat
import ChaosCache.Slabs.Partition

/-!
# The class table

The loop of the constructor tests a size for each class, rounds it up and multiplies it by
the factor. `slabs_clsid` then looks for the first class that is large enough.
-/

namespace ChaosCache

theorem dvd_align (size : ℕ) : chunkAlignBytes ∣ align size := by
  unfold align
  split
  · exact Nat.dvd_of_mod_eq_zero ‹_›
  · simp only [chunkAlignBytes]
    omega

/-- Rounding up stays below a multiple. -/
theorem align_le_of_dvd {size bound : ℕ} (multiple : chunkAlignBytes ∣ bound)
    (below : size ≤ bound) : align size ≤ bound := by
  unfold align
  split
  · exact below
  · simp only [chunkAlignBytes] at *
    omega

namespace Config

variable (settings : Config)

/-- The size that the loop tests for class `n + 1`. -/
def growth : ℕ → ℕ
  | 0 => (sizeofHashItem + settings.chunkSize) % 2 ^ 32
  | n + 1 => align (growth n) % 2 ^ 32 * settings.factorNum / settings.factorDen % 2 ^ 32

/-- The size of class `n + 1`, if the loop fills it. -/
def chunkLength (n : ℕ) : ℕ := align (settings.growth n) % 2 ^ 32

/-- The loop goes on and fills class `n + 1`. -/
def Fills (n : ℕ) : Prop :=
  settings.growth n * settings.factorNum ≤ settings.itemSizeMax * settings.factorDen

/-- Class `n + 1`, if the loop fills it. -/
def filledClass (n : ℕ) : SlabClass :=
  { SlabClass.zero with
    size := settings.chunkLength n
    perslab := settings.itemSizeMax / settings.chunkLength n % 2 ^ 32 }

end Config

/-- The class table that the constructor builds: `filled` classes that the loop fills, and
the largest. -/
structure ClassTable (settings : Config) (s : SlabAllocator) (filled : ℕ) : Prop where
  largest : s.powerLargest = filled + 1
  bound : filled < powerLargest
  fills : ∀ n < filled, settings.Fills n
  ends : filled + 1 < powerLargest → ¬settings.Fills filled
  first : s.slabclass 0 = .zero
  classes : ∀ n < filled, s.slabclass (n + 1) = settings.filledClass n
  last : s.slabclass (filled + 1) =
    { SlabClass.zero with size := settings.itemSizeMax % 2 ^ 32, perslab := 1 }

namespace SlabAllocator

/-- The loop from class `n + 1` on fills classes up to the first whose size is too large. -/
theorem fillClasses_eq (settings : Config) (remaining n : ℕ) (classes : ℕ → SlabClass) :
    ∃ filled, n ≤ filled ∧ filled ≤ n + remaining ∧
      fillClasses settings remaining (n + 1) (settings.growth n) classes =
        (filled + 1, fun id =>
          if n < id ∧ id ≤ filled then settings.filledClass (id - 1) else classes id) ∧
      (∀ m, n ≤ m → m < filled → settings.Fills m) ∧
      (filled < n + remaining → ¬settings.Fills filled) := by
  induction remaining generalizing n classes with
  | zero =>
      refine ⟨n, le_rfl, le_rfl, ?_, fun m _ _ => by omega, fun less => absurd less (lt_irrefl _)⟩
      rw [fillClasses]
      congr 1
      funext id
      rw [if_neg (by omega)]
  | succ remaining ih =>
      rw [fillClasses]
      by_cases goesOn : settings.Fills n
      · rcases ih (n + 1) (Function.update classes (n + 1) (settings.filledClass n)) with
          ⟨filled, after, before, run, fills, ends⟩
        refine ⟨filled, by omega, by omega, ?_, fun m lower upper => ?_,
          fun less => ends (by omega)⟩
        · refine (if_pos goesOn).trans (run.trans (congrArg (Prod.mk _) (funext fun id => ?_)))
          by_cases same : id = n + 1
          · subst same
            rw [if_neg (by omega), if_pos (by omega), Function.update_self]
            rfl
          · rw [Function.update_of_ne same]
            exact if_congr (by omega) rfl rfl
        · rcases Nat.eq_or_lt_of_le lower with rfl | above
          · exact goesOn
          · exact fills m above upper
      · refine ⟨n, le_rfl, by omega, ?_, fun m _ _ => by omega, fun _ => goesOn⟩
        refine (if_neg goesOn).trans ?_
        congr 1
        funext id
        rw [if_neg (by omega)]

/-- What the constructor writes. Without an arena the other fields keep what the memory
held. -/
theorem create_ok {prior s : SlabAllocator} {settings : Config} {os : Os}
    {initialMalloc : Option ℕ} {last : ℕ} {classes : ℕ → SlabClass}
    (table : fillClasses settings (ChaosCache.powerLargest - powerSmallest) powerSmallest
      ((sizeofHashItem + settings.chunkSize) % 2 ^ 32) (fun _ => .zero) = (last, classes))
    (created : create prior settings os initialMalloc = .ok s) :
    s.slabclass = Function.update classes last
        { classes last with size := settings.itemSizeMax % 2 ^ 32, perslab := 1 } ∧
      s.powerLargest = last ∧ s.memLimit = settings.maxbytes ∧
      s.memMalloced = initialMalloc.getD prior.memMalloced ∧
      (settings.preallocate = false → s.memBase = prior.memBase) := by
  cases preallocate : settings.preallocate with
  | false =>
      simp only [create, table, preallocate] at created
      cases created
      exact ⟨rfl, rfl, rfl, rfl, fun _ => rfl⟩
  | true =>
      simp only [create, table, preallocate] at created
      cases granted : os.malloc settings.maxbytes with
      | none =>
          rw [granted] at created
          cases created
      | some base =>
          rw [granted] at created
          cases created
          exact ⟨rfl, rfl, rfl, rfl, fun heap => absurd heap (by decide)⟩

theorem classTable_of_create {prior s : SlabAllocator} {settings : Config} {os : Os}
    {initialMalloc : Option ℕ}
    (created : create prior settings os initialMalloc = .ok s) :
    ∃ filled, ClassTable settings s filled := by
  rcases fillClasses_eq settings (ChaosCache.powerLargest - powerSmallest) 0 (fun _ => .zero) with
    ⟨filled, -, bound, run, fills, ends⟩
  rcases create_ok run created with ⟨classes, largest, -⟩
  simp only [powerSmallest, ChaosCache.powerLargest] at bound ends
  refine ⟨filled,
    { largest := largest
      bound := by simp only [ChaosCache.powerLargest]; omega
      fills := fun n less => fills n (Nat.zero_le n) less
      ends := fun less => ends (by simp only [ChaosCache.powerLargest] at less; omega)
      first := ?_
      classes := fun n less => ?_
      last := ?_ }⟩
  · rw [classes, Function.update_of_ne (by omega), if_neg (by omega)]
  · rw [classes, Function.update_of_ne (by omega), if_pos (by omega)]
    rfl
  · rw [classes, Function.update_self, if_neg (by omega)]

/-! ## The search for a class -/

variable {s : SlabAllocator} {size : ℕ}

/-- The search ends at the first class from `start` on that is large enough. -/
theorem of_clsidFrom {last : ℕ} (remaining start : ℕ) (lower : start ≤ last)
    (upper : last < start + remaining) (enough : size ≤ (s.slabclass last).size) :
    start ≤ s.clsidFrom size remaining start ∧ s.clsidFrom size remaining start ≤ last ∧
      size ≤ (s.slabclass (s.clsidFrom size remaining start)).size ∧
      ∀ id, start ≤ id → id < s.clsidFrom size remaining start → (s.slabclass id).size < size := by
  induction remaining generalizing start with
  | zero => omega
  | succ remaining ih =>
      rw [clsidFrom]
      split
      · rename_i small
        have differs : start ≠ last := by
          rintro rfl
          omega
        rcases ih (start + 1) (by omega) (by omega) with ⟨after, before, fits, least⟩
        refine ⟨by omega, before, fits, fun id above below => ?_⟩
        rcases Nat.eq_or_lt_of_le above with rfl | behind
        · exact small
        · exact least id behind below
      · rename_i large
        exact ⟨le_rfl, lower, Nat.not_lt.mp large, fun id above below => by omega⟩

theorem of_slabsClsid (range : powerSmallest ≤ s.powerLargest) (chosen : s.slabsClsid size ≠ 0) :
    s.Used (s.slabsClsid size) ∧ size ≤ (s.slabclass (s.slabsClsid size)).size ∧
      ∀ id, powerSmallest ≤ id → id < s.slabsClsid size → (s.slabclass id).size < size := by
  unfold slabsClsid at *
  split at chosen
  · simp at chosen
  · rename_i accepted
    rw [if_neg accepted]
    rw [not_or, Nat.not_lt] at accepted
    rcases of_clsidFrom s.powerLargest powerSmallest range
      (by simp only [powerSmallest]; omega) accepted.2 with ⟨lower, upper, fits, least⟩
    exact ⟨⟨lower, upper⟩, fits, least⟩

theorem slabsClsid_eq_zero (range : powerSmallest ≤ s.powerLargest) :
    s.slabsClsid size = 0 ↔ size = 0 ∨ (s.slabclass s.powerLargest).size < size := by
  constructor
  · intro refused
    unfold slabsClsid at refused
    split at refused
    · assumption
    · rename_i accepted
      rw [not_or, Nat.not_lt] at accepted
      have lower := (of_clsidFrom s.powerLargest powerSmallest range
        (by simp only [powerSmallest]; omega) accepted.2).1
      rw [refused] at lower
      simp [powerSmallest] at lower
  · intro refused
    exact if_pos refused

end SlabAllocator

/-! ## The classes -/

/-- The class table and the search in it, for a configuration. -/
structure PicksBestFit (settings : Config) (s : SlabAllocator) : Prop where
  range : powerSmallest ≤ s.powerLargest ∧ s.powerLargest ≤ powerLargest
  sorted : ∀ id id', s.Used id → s.Used id' → id ≤ id' →
    (s.slabclass id).size ≤ (s.slabclass id').size
  aligned : ∀ id, s.Used id → chunkAlignBytes ∣ (s.slabclass id).size
  perslab : ∀ id, s.Used id → 1 ≤ (s.slabclass id).perslab
  slab : ∀ id, s.Used id →
    (s.slabclass id).size * (s.slabclass id).perslab ≤ settings.itemSizeMax
  refused : ∀ size, s.slabsClsid size = 0 ↔ size = 0 ∨ settings.itemSizeMax < size
  chosen : ∀ size, size ≠ 0 → size ≤ settings.itemSizeMax →
    s.Used (s.slabsClsid size) ∧ size ≤ (s.slabclass (s.slabsClsid size)).size ∧
      ∀ id < s.slabsClsid size, (s.slabclass id).size < size

/-- The growth factor is at least one, and sizes are signed 32-bit values. -/
structure Config.Sensible (settings : Config) : Prop where
  factorDen : 0 < settings.factorDen
  factorNum : settings.factorDen ≤ settings.factorNum
  itemSizeMax : 0 < settings.itemSizeMax ∧ settings.itemSizeMax < 2 ^ 31
  multiple : chunkAlignBytes ∣ settings.itemSizeMax
  chunkSize : sizeofHashItem + settings.chunkSize < 2 ^ 31

namespace Config

variable {settings : Config} {n : ℕ}

/-- A size that is tested successfully does not leave its 32 bits when it is rounded up and
multiplied. -/
theorem Sensible.grows (sensible : settings.Sensible) (fills : settings.Fills n)
    (large : sizeofHashItem ≤ settings.growth n) :
    settings.chunkLength n = align (settings.growth n) ∧
      settings.chunkLength n ≤ settings.itemSizeMax ∧
      settings.chunkLength n ≤ settings.growth (n + 1) := by
  have den := sensible.factorDen
  have bound := sensible.itemSizeMax.2
  have below : settings.growth n ≤ settings.itemSizeMax := by
    apply Nat.le_of_mul_le_mul_right _ den
    calc settings.growth n * settings.factorDen
        ≤ settings.growth n * settings.factorNum := Nat.mul_le_mul_left _ sensible.factorNum
      _ ≤ settings.itemSizeMax * settings.factorDen := fills
  have aligned := align_le_of_dvd sensible.multiple below
  have length : settings.chunkLength n = align (settings.growth n) :=
    Nat.mod_eq_of_lt (by omega)
  refine ⟨length, length ▸ aligned, ?_⟩
  have doubled : align (settings.growth n) ≤ 2 * settings.growth n := by
    have rounded := align_le (settings.growth n)
    simp only [sizeofHashItem] at large
    omega
  have product : align (settings.growth n) * settings.factorNum < 2 ^ 32 * settings.factorDen :=
    calc align (settings.growth n) * settings.factorNum
        ≤ 2 * settings.growth n * settings.factorNum := Nat.mul_le_mul_right _ doubled
      _ = 2 * (settings.growth n * settings.factorNum) := Nat.mul_assoc ..
      _ ≤ 2 * (settings.itemSizeMax * settings.factorDen) := Nat.mul_le_mul_left _ fills
      _ = 2 * settings.itemSizeMax * settings.factorDen := (Nat.mul_assoc ..).symm
      _ < 2 ^ 32 * settings.factorDen := Nat.mul_lt_mul_of_pos_right (by omega) den
  have quotient : align (settings.growth n) * settings.factorNum / settings.factorDen < 2 ^ 32 :=
    Nat.div_lt_of_lt_mul (Nat.mul_comm _ settings.factorDen ▸ product)
  have next : settings.growth (n + 1) =
      align (settings.growth n) * settings.factorNum / settings.factorDen := by
    rw [growth, Nat.mod_eq_of_lt (show align (settings.growth n) < 2 ^ 32 by omega),
      Nat.mod_eq_of_lt quotient]
  rw [next, length, Nat.le_div_iff_mul_le den]
  exact Nat.mul_le_mul_left _ sensible.factorNum

theorem Sensible.large (sensible : settings.Sensible) (fills : ∀ m < n, settings.Fills m) :
    sizeofHashItem ≤ settings.growth n := by
  induction n with
  | zero =>
      have chunkSize := sensible.chunkSize
      rw [growth, Nat.mod_eq_of_lt (by omega)]
      exact Nat.le_add_right _ _
  | succ n ih =>
      have before := ih fun m less => fills m (by omega)
      rcases sensible.grows (fills n (by omega)) before with ⟨length, -, next⟩
      have rounded := le_align (settings.growth n)
      omega

end Config

namespace ClassTable

variable {settings : Config} {s : SlabAllocator} {filled : ℕ}

/-- The classes that are filled, and the largest. -/
theorem of_used (table : ClassTable settings s filled) {id : ℕ} (used : s.Used id) :
    (∃ n < filled, id = n + 1 ∧ s.slabclass id = settings.filledClass n) ∨
      (id = filled + 1 ∧ s.slabclass id =
        { SlabClass.zero with size := settings.itemSizeMax % 2 ^ 32, perslab := 1 }) := by
  rcases used with ⟨lower, upper⟩
  rw [table.largest] at upper
  rcases Nat.exists_eq_add_of_le' lower with ⟨n, rfl⟩
  rcases Nat.eq_or_lt_of_le upper with last | before
  · exact Or.inr ⟨last, last ▸ table.last⟩
  · have less : n < filled := Nat.lt_of_succ_lt_succ before
    exact Or.inl ⟨n, less, rfl, table.classes n less⟩

/-- What the loop keeps for a class that it fills. -/
theorem grows (table : ClassTable settings s filled) (sensible : settings.Sensible) {n : ℕ}
    (less : n < filled) :
    sizeofHashItem ≤ settings.chunkLength n ∧
      settings.chunkLength n = align (settings.growth n) ∧
      settings.chunkLength n ≤ settings.itemSizeMax ∧
      settings.chunkLength n ≤ settings.growth (n + 1) := by
  have large := sensible.large fun m before => table.fills m (before.trans less)
  rcases sensible.grows (table.fills n less) large with ⟨length, bound, next⟩
  have rounded := le_align (settings.growth n)
  exact ⟨by omega, length, bound, next⟩

theorem length_le (table : ClassTable settings s filled) (sensible : settings.Sensible) {n m : ℕ}
    (ordered : n ≤ m) (below : m < filled) : settings.chunkLength n ≤ settings.chunkLength m := by
  induction m, ordered using Nat.le_induction with
  | base => exact le_rfl
  | succ m above ih =>
      rcases table.grows sensible below with ⟨-, length, -⟩
      have before : m < filled := by omega
      calc settings.chunkLength n ≤ settings.chunkLength m := ih before
        _ ≤ settings.growth (m + 1) := (table.grows sensible before).2.2.2
        _ ≤ align (settings.growth (m + 1)) := le_align _
        _ = settings.chunkLength (m + 1) := length.symm

theorem perslab_eq (table : ClassTable settings s filled) (sensible : settings.Sensible) {n : ℕ}
    (less : n < filled) :
    (settings.filledClass n).perslab = settings.itemSizeMax / settings.chunkLength n := by
  rcases table.grows sensible less with ⟨large, -⟩
  have bound := sensible.itemSizeMax.2
  have quotient := Nat.div_le_self settings.itemSizeMax (settings.chunkLength n)
  exact Nat.mod_eq_of_lt (by omega)

/-- The classes grow and share out `item_size_max`, and the search finds the first that is
large enough. -/
theorem picksBestFit (table : ClassTable settings s filled) (sensible : settings.Sensible) :
    PicksBestFit settings s := by
  have bound := sensible.itemSizeMax
  have max : settings.itemSizeMax % 2 ^ 32 = settings.itemSizeMax := Nat.mod_eq_of_lt (by omega)
  have largest : (s.slabclass s.powerLargest).size = settings.itemSizeMax := by
    rw [table.largest, table.last]
    exact max
  have range : powerSmallest ≤ s.powerLargest := by
    rw [table.largest]
    exact Nat.le_add_left _ _
  refine
    { range := ⟨range, ?_⟩
      sorted := fun id id' used used' ordered => ?_
      aligned := fun id used => ?_
      perslab := fun id used => ?_
      slab := fun id used => ?_
      refused := fun size => ?_
      chosen := fun size positive below => ?_ }
  · rw [table.largest]
    exact table.bound
  · rcases table.of_used used with ⟨n, less, rfl, cls⟩ | ⟨rfl, cls⟩ <;>
      rcases table.of_used used' with ⟨m, less', rfl, cls'⟩ | ⟨rfl, cls'⟩
    · rw [cls, cls']
      exact table.length_le sensible (by omega) less'
    · -- the last class that is filled before the largest
      rw [cls, cls']
      exact (table.grows sensible less).2.2.1.trans max.ge
    · omega
    · rfl
  · rcases table.of_used used with ⟨n, less, rfl, cls⟩ | ⟨rfl, cls⟩
    · rw [cls]
      change chunkAlignBytes ∣ settings.chunkLength n
      rw [(table.grows sensible less).2.1]
      exact dvd_align _
    · rw [cls]
      exact max.symm ▸ sensible.multiple
  · rcases table.of_used used with ⟨n, less, rfl, cls⟩ | ⟨rfl, cls⟩
    · rcases table.grows sensible less with ⟨large, -, below, -⟩
      rw [cls, table.perslab_eq sensible less]
      exact Nat.div_pos below ((by decide : 0 < sizeofHashItem).trans_le large)
    · rw [cls]
  · rcases table.of_used used with ⟨n, less, rfl, cls⟩ | ⟨rfl, cls⟩
    · rw [cls, table.perslab_eq sensible less]
      exact Nat.mul_div_le _ _
    · rw [cls]
      simp only [max, Nat.mul_one, le_refl]
  · rw [SlabAllocator.slabsClsid_eq_zero range, largest]
  · have accepted : s.slabsClsid size ≠ 0 := by
      rw [Ne, SlabAllocator.slabsClsid_eq_zero range, largest]
      omega
    rcases SlabAllocator.of_slabsClsid range accepted with ⟨used, fits, least⟩
    refine ⟨used, fits, fun id less => ?_⟩
    cases id with
    | zero =>
        rw [table.first]
        exact Nat.pos_of_ne_zero positive
    | succ id => exact least _ (Nat.le_add_left _ _) less

end ClassTable

/-- The table of every sensible configuration is sorted, and `slabs_clsid` picks the best
fit in it. -/
theorem picksBestFit_of_create {prior s : SlabAllocator} {settings : Config} {os : Os}
    {initialMalloc : Option ℕ} (sensible : settings.Sensible)
    (created : SlabAllocator.create prior settings os initialMalloc = .ok s) :
    PicksBestFit settings s := by
  rcases SlabAllocator.classTable_of_create created with ⟨filled, table⟩
  exact table.picksBestFit sensible

/-- Classes up to one megabyte, each at least half as large again as the one before. -/
def halfAgain : Config where
  maxbytes := 2 ^ 20
  preallocate := false
  factorNum := 3
  factorDen := 2
  chunkSize := 48
  hashpower := 16
  itemSizeMax := 2 ^ 20

theorem picksBestFit_halfAgain : ∃ s : SlabAllocator,
    SlabAllocator.create .zero halfAgain ⟨fun _ => none, fun _ => false⟩ none = .ok s ∧
      PicksBestFit halfAgain s := by
  have created : ∃ s : SlabAllocator,
      SlabAllocator.create .zero halfAgain ⟨fun _ => none, fun _ => false⟩ none = .ok s :=
    ⟨_, rfl⟩
  rcases created with ⟨s, created⟩
  refine ⟨s, created, picksBestFit_of_create ?_ created⟩
  exact ⟨by decide, by decide, by decide, by decide, by decide⟩

end ChaosCache
