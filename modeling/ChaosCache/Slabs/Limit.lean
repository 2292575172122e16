import Mathlib.Algebra.BigOperators.Group.Finset.Piecewise
import Mathlib.Algebra.Group.Action.Defs
import Mathlib.Logic.Relation
import ChaosCache.Slabs.Runs

/-!
# The memory limit

`do_slabs_newslab` adds the length of every page to `mem_malloced` and compares the sum with
the limit, except for the first slab of a class. Calls may come in any order, on any class
and with any chunk, and `malloc` and `realloc` may fail at each.
-/

namespace ChaosCache

open Blocks Relation

/-- A call of `slabs_alloc` or `slabs_free`. Blocks that `malloc` returns are fresh. -/
inductive SlabCall : SlabAllocator × Mem → SlabAllocator × Mem → Prop
  | alloc {s s' : SlabAllocator} {mem mem' : Mem} {ret : Option ℕ} (size id : ℕ) (os : Os)
      (fresh : s.memBase = none → s.MallocFresh os)
      (run : s.doSlabsAlloc mem size id os = .ok (s', mem', ret)) :
      SlabCall (s, mem) (s', mem')
  | free {s s' : SlabAllocator} {mem : Mem} (ptr size id : ℕ) (os : Os)
      (run : s.doSlabsFree ptr size id os = .ok s') : SlabCall (s, mem) (s', mem)

namespace SlabClass

/-- The bytes of one slab. -/
def slabBytes (p : SlabClass) : ℕ := p.size * p.perslab

end SlabClass

namespace SlabAllocator

/-- The bytes of all slabs. -/
def ownedBytes (s : SlabAllocator) : ℕ :=
  ∑ id ∈ Finset.Icc powerSmallest s.powerLargest,
    (s.slabclass id).slabBytes * (s.slabclass id).slabList.length

/-- The bytes of one slab for each class that owns a slab. -/
def exemptBytes (s : SlabAllocator) : ℕ :=
  ∑ id ∈ Finset.Icc powerSmallest s.powerLargest,
    if (s.slabclass id).slabList = [] then 0 else (s.slabclass id).slabBytes

/-- A request leaves the accounts, the slabs and the free chunks of every class alone. -/
structure Untouched (s s' : SlabAllocator) : Prop where
  memMalloced : s'.memMalloced = s.memMalloced
  slabList : ∀ i, (s'.slabclass i).slabList = (s.slabclass i).slabList
  endPagePtr : ∀ i, (s'.slabclass i).endPagePtr = (s.slabclass i).endPagePtr
  endPageFree : ∀ i, (s'.slabclass i).endPageFree = (s.slabclass i).endPageFree
  slots : ∀ i, (s'.slabclass i).slots = (s.slabclass i).slots

/-- The accounts are exact and within the limit, up to one slab for each class, and failed
page requests change nothing. -/
structure LimitHonoured (s : SlabAllocator) : Prop where
  accounts : s.memMalloced = s.ownedBytes
  limit : s.memMalloced ≤ s.memLimit + s.exemptBytes
  refused : ∀ (mem mem' : Mem) (id : ℕ) (os : Os) (s' : SlabAllocator),
    s.doSlabsNewslab mem id os = .ok (s', mem', false) → s.Untouched s' ∧ mem' = mem

/-- Nothing has been allocated from a class table with positive sizes. An arena, if there is
one, has `mem_limit` bytes. -/
structure Unspent (s : SlabAllocator) : Prop where
  memMalloced : s.memMalloced = 0
  slabList : ∀ id, (s.slabclass id).slabList = []
  positive : ∀ id, s.Used id → 0 < (s.slabclass id).size ∧ 0 < (s.slabclass id).perslab
  limit : 0 < s.memLimit
  classes : s.powerLargest ≤ ChaosCache.powerLargest
  arena : s.memBase ≠ none → s.memAvail ≤ s.memLimit ∧ s.memLimit ≤ userSpace

/-- A call that leaves the slabs of every class alone. -/
structure KeepsSlabs (s s' : SlabAllocator) : Prop where
  table : SameTable s s'
  slabList : ∀ i, (s'.slabclass i).slabList = (s.slabclass i).slabList
  memLimit : s'.memLimit = s.memLimit
  memMalloced : s'.memMalloced = s.memMalloced
  memBase : s'.memBase = s.memBase
  memAvail : s'.memAvail = s.memAvail

/-- A call that obtains a slab for a class. -/
structure AddsSlab (s s' : SlabAllocator) (id ptr : ℕ) (os : Os) : Prop where
  table : SameTable s s'
  slabList : ∀ i, (s'.slabclass i).slabList =
    if i = id then ptr :: (s.slabclass i).slabList else (s.slabclass i).slabList
  memLimit : s'.memLimit = s.memLimit
  memMalloced : s'.memMalloced = (s.memMalloced + (s.slabclass id).len) % 2 ^ 64
  memBase : s'.memBase = s.memBase
  mayGrow : s.MayGrow id
  heap : s.memBase = none → os.malloc (s.slabclass id).len = some ptr
  arena : s.memBase ≠ none → (s.slabclass id).len ≤ s.memAvail ∧ s'.memAvail ≤ s.memAvail

variable {s s' s'' : SlabAllocator} {mem mem' : Mem} {id ptr size : ℕ} {os : Os}

theorem SameTable.slabBytes (table : SameTable s s') (i : ℕ) :
    (s'.slabclass i).slabBytes = (s.slabclass i).slabBytes := by
  simp only [SlabClass.slabBytes, table.size, table.perslab]

theorem SameTable.used_iff (table : SameTable s s') : s'.Used id ↔ s.Used id := by
  simp only [Used, table.powerLargest]

theorem KeepsSlabs.setClass {p : SlabClass} (size : p.size = (s.slabclass id).size)
    (perslab : p.perslab = (s.slabclass id).perslab)
    (slabList : p.slabList = (s.slabclass id).slabList) : KeepsSlabs s (s.setClass id p) where
  table := .setClass size perslab
  slabList i := by
    by_cases same : i = id
    · subst same
      rw [slabclass_setClass_self, slabList]
    · rw [slabclass_setClass_of_ne same]
  memLimit := rfl
  memMalloced := rfl
  memBase := rfl
  memAvail := rfl

theorem KeepsSlabs.refl (s : SlabAllocator) : KeepsSlabs s s := by
  have keeps : KeepsSlabs s (s.setClass 0 (s.slabclass 0)) := .setClass rfl rfl rfl
  rwa [setClass_self] at keeps

theorem KeepsSlabs.chunks (keeps : KeepsSlabs s s') (i : ℕ) :
    (s'.slabclass i).chunks = (s.slabclass i).chunks := by
  simp only [SlabClass.chunks, keeps.table.size, keeps.table.perslab, keeps.slabList]

theorem KeepsSlabs.trans (first : KeepsSlabs s s') (second : KeepsSlabs s' s'') :
    KeepsSlabs s s'' where
  table := first.table.trans second.table
  slabList i := (second.slabList i).trans (first.slabList i)
  memLimit := second.memLimit.trans first.memLimit
  memMalloced := second.memMalloced.trans first.memMalloced
  memBase := second.memBase.trans first.memBase
  memAvail := second.memAvail.trans first.memAvail

/-- A slab is added, and the calls before it keep the slabs that there are. -/
theorem AddsSlab.after (adds : AddsSlab s' s'' id ptr os) (keeps : KeepsSlabs s s') :
    AddsSlab s s'' id ptr os where
  table := keeps.table.trans adds.table
  slabList i := by rw [adds.slabList, keeps.slabList]
  memLimit := adds.memLimit.trans keeps.memLimit
  memMalloced := by rw [adds.memMalloced, keeps.memMalloced, keeps.table.len]
  memBase := adds.memBase.trans keeps.memBase
  mayGrow := by
    have mayGrow := adds.mayGrow
    simp only [MayGrow, keeps.memLimit, keeps.memMalloced, keeps.table.len, keeps.slabList]
      at mayGrow
    exact mayGrow
  heap heap := by
    rw [← keeps.table.len]
    exact adds.heap (keeps.memBase.trans heap)
  arena arena := by
    rw [← keeps.table.len, ← keeps.memAvail]
    exact adds.arena (keeps.memBase ▸ arena)

/-- A slab is added, and the calls behind it keep it. -/
theorem AddsSlab.trans (adds : AddsSlab s s' id ptr os) (keeps : KeepsSlabs s' s'') :
    AddsSlab s s'' id ptr os where
  table := adds.table.trans keeps.table
  slabList i := (keeps.slabList i).trans (adds.slabList i)
  memLimit := keeps.memLimit.trans adds.memLimit
  memMalloced := keeps.memMalloced.trans adds.memMalloced
  memBase := keeps.memBase.trans adds.memBase
  mayGrow := adds.mayGrow
  heap := adds.heap
  arena arena := keeps.memAvail.symm ▸ adds.arena arena

/-! ## What the calls do to the slabs -/

theorem growSlabList_ok (grown : s.growSlabList id os = some s') :
    ∃ listSize, s' = s.setClass id { s.slabclass id with listSize } := by
  simp only [growSlabList] at grown
  split at grown
  · split at grown
    · exact ⟨_, (Option.some.inj grown).symm⟩
    · simp at grown
  · refine ⟨(s.slabclass id).listSize, ?_⟩
    rw [setClass_self]
    exact (Option.some.inj grown).symm

theorem memoryAllocate_ok {ret : Option ℕ} (run : s.memoryAllocate size os = (s', ret)) :
    (ret = none → s' = s) ∧
      ∀ ptr, ret = some ptr → ∃ memCurrent memAvail, memAvail ≤ s.memAvail ∧
        s' = { s with memCurrent, memAvail } ∧ (s.memBase = none → os.malloc size = some ptr) ∧
        (s.memBase ≠ none → size ≤ s.memAvail) := by
  simp only [memoryAllocate] at run
  split at run
  · rename_i heap
    cases run
    exact ⟨fun _ => rfl, fun ptr granted => ⟨_, _, le_rfl, rfl, fun _ => granted, absurd heap⟩⟩
  · rename_i base arena
    split at run
    · cases run
      exact ⟨fun _ => rfl, by simp⟩
    · rename_i enough
      cases run
      refine ⟨by simp, fun ptr _ => ⟨_, _, Nat.sub_le _ _, rfl, by simp [arena], fun _ => ?_⟩⟩
      omega

theorem doSlabsNewslab_ok {granted : Bool}
    (run : s.doSlabsNewslab mem id os = .ok (s', mem', granted)) :
    (granted = false ∧ mem' = mem ∧
        ∃ listSize, s' = s.setClass id { s.slabclass id with listSize }) ∨
      (granted = true ∧ ∃ ptr, AddsSlab s s' id ptr os) := by
  simp only [doSlabsNewslab] at run
  split at run
  · cases run
    exact Or.inl ⟨rfl, rfl, _, (setClass_self s id).symm⟩
  · rename_i mayGrow
    split at run
    · cases run
      exact Or.inl ⟨rfl, rfl, _, (setClass_self s id).symm⟩
    · rename_i grownList granted'
      rcases growSlabList_ok granted' with ⟨listSize, rfl⟩
      split at run
      · rename_i next refused
        cases run
        exact Or.inl ⟨rfl, rfl, listSize, (memoryAllocate_ok refused).1 rfl⟩
      · rename_i next ptr allocated
        rcases (memoryAllocate_ok allocated).2 ptr rfl with
          ⟨memCurrent, memAvail, less, rfl, heap, arena⟩
        split at run
        · simp at run
        · cases run
          refine Or.inr ⟨rfl, ptr,
            { table := ⟨rfl, fun i => ?_, fun i => ?_⟩
              slabList := fun i => ?_
              memLimit := rfl
              memMalloced := rfl
              memBase := rfl
              mayGrow := mayGrow
              heap := heap
              arena := fun isArena => ⟨arena isArena, less⟩ }⟩
          all_goals
            by_cases same : i = id
            · subst same
              simp [setClass]
            · simp [setClass, same]

theorem takeChunk_ok {ret : Option ℕ} (run : s.takeChunk size id = .ok (s', ret)) :
    KeepsSlabs s s' := by
  simp only [takeChunk] at run
  split at run
  · cases run
    exact .setClass rfl rfl rfl
  · simp at run
  · cases run
    exact .setClass rfl rfl rfl

theorem doSlabsAlloc_ok {ret : Option ℕ}
    (run : s.doSlabsAlloc mem size id os = .ok (s', mem', ret)) :
    KeepsSlabs s s' ∨ ∃ ptr, s.Used id ∧ AddsSlab s s' id ptr os := by
  simp only [doSlabsAlloc] at run
  split at run
  · cases run
    exact Or.inl (.refl s)
  · rename_i accepted
    have used : s.Used id := by
      unfold Used
      omega
    split at run
    · rcases bind_eq_ok.mp run with ⟨⟨next, mem₁, available⟩, requested, run⟩
      rcases doSlabsNewslab_ok requested with
        ⟨rfl, rfl, listSize, rfl⟩ | ⟨rfl, ptr, adds⟩
      · cases run
        exact Or.inl (.setClass rfl rfl rfl)
      · rcases bind_eq_ok.mp run with ⟨⟨last, ret'⟩, taken, run⟩
        cases run
        exact Or.inr ⟨ptr, used, adds.trans (takeChunk_ok taken)⟩
    · rcases bind_eq_ok.mp run with ⟨⟨next, mem₁, available⟩, unchanged, run⟩
      cases unchanged
      rcases bind_eq_ok.mp run with ⟨⟨last, ret'⟩, taken, run⟩
      cases run
      exact Or.inl (takeChunk_ok taken)

/-- A request that hands out nothing has obtained no slab. -/
theorem keepsSlabs_of_refused (run : s.doSlabsAlloc mem size id os = .ok (s', mem', none)) :
    KeepsSlabs s s' := by
  have notTaken {s₁ s₂ : SlabAllocator} : s₁.takeChunk size id ≠ .ok (s₂, none) := by
    intro took
    simp only [takeChunk] at took
    split at took <;> cases took
  simp only [doSlabsAlloc] at run
  split at run
  · cases run
    exact .refl s
  · split at run
    · rcases bind_eq_ok.mp run with ⟨⟨next, mem₁, available⟩, requested, run⟩
      cases available with
      | true =>
          rcases bind_eq_ok.mp run with ⟨⟨s₂, ret⟩, took, done⟩
          cases done
          exact absurd took notTaken
      | false =>
          cases run
          rcases doSlabsNewslab_ok requested with ⟨-, rfl, listSize, rfl⟩ | ⟨granted, -⟩
          · exact .setClass rfl rfl rfl
          · cases granted
    · rcases bind_eq_ok.mp run with ⟨⟨next, mem₁, available⟩, unchanged, run⟩
      cases unchanged
      rcases bind_eq_ok.mp run with ⟨⟨s₂, ret⟩, took, done⟩
      cases done
      exact absurd took notTaken

theorem doSlabsFree_ok (run : s.doSlabsFree ptr size id os = .ok s') : KeepsSlabs s s' := by
  simp only [doSlabsFree] at run
  split at run
  · cases run
    exact .refl s
  · split at run
    · cases run
      exact .refl s
    · generalize (if (s.slabclass id).slots.length = (s.slabclass id).slTotal then
        grown (s.slabclass id).slTotal else (s.slabclass id).slTotal) = slTotal at run
      split at run
      · simp at run
      · cases run
        exact .setClass rfl rfl rfl

theorem untouched_of_refused (run : s.doSlabsNewslab mem id os = .ok (s', mem', false)) :
    s.Untouched s' ∧ mem' = mem := by
  rcases doSlabsNewslab_ok run with ⟨-, rfl, listSize, rfl⟩ | ⟨granted, -⟩
  · refine ⟨⟨rfl, fun i => ?_, fun i => ?_, fun i => ?_, fun i => ?_⟩, rfl⟩
    all_goals
      by_cases same : i = id
      · subst same
        simp
      · rw [slabclass_setClass_of_ne same]
  · simp at granted

/-! ## The accounts -/

/-- The accounts with what bounds them: pages in user space that share no byte, or an arena
of the size of the limit. -/
structure LimitInv (s : SlabAllocator) : Prop where
  fits : ∀ id, s.Used id → 0 < (s.slabclass id).slabBytes ∧ (s.slabclass id).slabBytes < 2 ^ 32
  unused : ∀ id, ¬s.Used id → (s.slabclass id).slabList = []
  classes : s.powerLargest ≤ ChaosCache.powerLargest
  limit : 0 < s.memLimit
  lens : ∀ id, (s.slabclass id).slabList ≠ [] → (s.slabclass id).len = (s.slabclass id).slabBytes
  heap : s.memBase = none → Pages s
  arena : s.memBase ≠ none → s.memAvail ≤ s.memLimit ∧ s.memLimit ≤ userSpace
  accounts : s.memMalloced = s.ownedBytes
  honoured : s.memMalloced ≤ s.memLimit + s.exemptBytes

theorem used_iff_mem : s.Used id ↔ id ∈ Finset.Icc powerSmallest s.powerLargest := by
  simp [Used]

/-- A sum over the classes, when the summand of one class grows. -/
theorem sum_add_of_used {f f' : ℕ → ℕ} {d : ℕ} (used : s.Used id)
    (same : ∀ i, f' i = f i + if i = id then d else 0) :
    ∑ i ∈ Finset.Icc powerSmallest s.powerLargest, f' i =
      ∑ i ∈ Finset.Icc powerSmallest s.powerLargest, f i + d := by
  simp only [same, Finset.sum_add_distrib, Finset.sum_ite_eq', used_iff_mem.mp used, if_true]

theorem ownedBytes_of_keeps (keeps : KeepsSlabs s s') : s'.ownedBytes = s.ownedBytes := by
  simp only [ownedBytes, keeps.table.powerLargest, keeps.table.slabBytes, keeps.slabList]

theorem exemptBytes_of_keeps (keeps : KeepsSlabs s s') : s'.exemptBytes = s.exemptBytes := by
  simp only [exemptBytes, keeps.table.powerLargest, keeps.table.slabBytes, keeps.slabList]

theorem ownedBytes_of_adds (used : s.Used id) (adds : AddsSlab s s' id ptr os) :
    s'.ownedBytes = s.ownedBytes + (s.slabclass id).slabBytes := by
  simp only [ownedBytes, adds.table.powerLargest, adds.table.slabBytes, adds.slabList]
  apply sum_add_of_used used
  intro i
  by_cases same : i = id
  · subst same
    simp only [if_true, List.length_cons, Nat.mul_add, Nat.mul_one]
  · simp only [same, if_false, Nat.add_zero]

theorem exemptBytes_of_adds (used : s.Used id) (adds : AddsSlab s s' id ptr os) :
    s'.exemptBytes = s.exemptBytes +
      if (s.slabclass id).slabList = [] then (s.slabclass id).slabBytes else 0 := by
  simp only [exemptBytes, adds.table.powerLargest, adds.table.slabBytes, adds.slabList]
  apply sum_add_of_used used
  intro i
  by_cases same : i = id
  · subst same
    by_cases first : (s.slabclass i).slabList = []
    · simp [first]
    · simp [first]
  · simp only [same, if_false, Nat.add_zero]

/-- Slabs that share no byte take up at most the user space. -/
theorem ownedBytes_le (pages : Pages s)
    (lens : ∀ id, (s.slabclass id).slabList ≠ [] →
      (s.slabclass id).len = (s.slabclass id).slabBytes) : s.ownedBytes ≤ userSpace := by
  have total : ∑ x ∈ (Finset.Icc powerSmallest s.powerLargest).sigma
      (fun id => (s.slabclass id).slabList.toFinset), (s.slabclass x.1).len ≤ userSpace := by
    refine @sum_le_of_apart _ _ _ (fun x => x.2) _ _ ?_ ?_
    · rintro ⟨id, b⟩ isSlab ⟨id', b'⟩ isSlab' differ
      simp only [Finset.mem_sigma, List.mem_toFinset] at isSlab isSlab'
      apply pages.apart id b isSlab.2 id' b' isSlab'.2
      by_contra same
      simp only [not_or, not_not] at same
      exact differ (by rw [same.1, same.2])
    · rintro ⟨id, b⟩ isSlab
      simp only [Finset.mem_sigma, List.mem_toFinset] at isSlab
      exact (pages.user id b isSlab.2).2
  refine le_of_eq_of_le ?_ total
  rw [Finset.sum_sigma]
  apply Finset.sum_congr rfl
  intro id _
  simp only [Finset.sum_const, List.toFinset_card_of_nodup (pages.distinct id), smul_eq_mul]
  rw [Nat.mul_comm]
  by_cases none : (s.slabclass id).slabList = []
  · simp [none]
  · rw [lens id none]

theorem exemptBytes_le (inv : LimitInv s) : s.exemptBytes ≤ 200 * 2 ^ 32 := by
  have each : ∀ id ∈ Finset.Icc powerSmallest s.powerLargest,
      (if (s.slabclass id).slabList = [] then 0 else (s.slabclass id).slabBytes) ≤ 2 ^ 32 := by
    intro id used
    have fits := inv.fits id (used_iff_mem.mpr used)
    split <;> omega
  have total := Finset.sum_le_card_nsmul _ _ _ each
  have classes := inv.classes
  simp only [Nat.card_Icc, smul_eq_mul] at total
  simp only [ChaosCache.powerLargest] at classes
  simp only [powerSmallest, Nat.add_sub_cancel] at total
  apply total.trans
  exact Nat.mul_le_mul_right _ classes

theorem LimitInv.of_keeps (inv : LimitInv s) (keeps : KeepsSlabs s s') : LimitInv s' where
  fits i used := by
    rw [keeps.table.slabBytes]
    exact inv.fits i (keeps.table.used_iff.mp used)
  unused i notUsed := by
    rw [keeps.slabList]
    exact inv.unused i fun used => notUsed (keeps.table.used_iff.mpr used)
  classes := by
    rw [keeps.table.powerLargest]
    exact inv.classes
  limit := by
    rw [keeps.memLimit]
    exact inv.limit
  lens i owns := by
    rw [keeps.slabList] at owns
    rw [keeps.table.len, keeps.table.slabBytes]
    exact inv.lens i owns
  heap heap := (inv.heap (keeps.memBase ▸ heap)).congr keeps.slabList keeps.table.len
  arena arena := by
    rw [keeps.memAvail, keeps.memLimit]
    exact inv.arena (keeps.memBase ▸ arena)
  accounts := by
    rw [keeps.memMalloced, ownedBytes_of_keeps keeps]
    exact inv.accounts
  honoured := by
    rw [keeps.memMalloced, keeps.memLimit, exemptBytes_of_keeps keeps]
    exact inv.honoured

/-- A page that is granted has the length of a slab. -/
theorem LimitInv.len_eq (inv : LimitInv s) (used : s.Used id)
    (fresh : s.memBase = none → s.MallocFresh os) (adds : AddsSlab s s' id ptr os) :
    (s.slabclass id).len = (s.slabclass id).slabBytes := by
  apply SlabClass.len_eq (inv.fits id used).2
  by_cases heap : s.memBase = none
  · have user := (fresh heap _ ptr (adds.heap heap)).2.1
    omega
  · have enough := (adds.arena heap).1
    have arena := inv.arena heap
    omega

theorem LimitInv.of_adds (inv : LimitInv s) (used : s.Used id)
    (fresh : s.memBase = none → s.MallocFresh os) (adds : AddsSlab s s' id ptr os) :
    LimitInv s' := by
  have len := inv.len_eq used fresh adds
  have fits := inv.fits id used
  have owned := ownedBytes_of_adds used adds
  have exempt := exemptBytes_of_adds used adds
  have lens (i : ℕ) (owns : (s'.slabclass i).slabList ≠ []) :
      (s'.slabclass i).len = (s'.slabclass i).slabBytes := by
    rw [adds.table.len, adds.table.slabBytes]
    by_cases same : i = id
    · rw [same]
      exact len
    · rw [adds.slabList, if_neg same] at owns
      exact inv.lens i owns
  have pages (heap : s.memBase = none) : Pages s' := by
    rcases fresh heap _ ptr (adds.heap heap) with ⟨nonNull, inUser, apart⟩
    exact (inv.heap heap).addPage adds.slabList adds.table.len (len ▸ fits.1) nonNull inUser apart
  -- the sum does not leave `size_t`: slabs of the heap are disjoint, those of an arena are
  -- bounded by the limit
  have noWrap : s.memMalloced + (s.slabclass id).len < 2 ^ 64 := by
    by_cases heap : s.memBase = none
    · have total := ownedBytes_le (pages heap) lens
      rw [owned, ← inv.accounts, ← len] at total
      simp only [userSpace] at total
      omega
    · have bound := exemptBytes_le inv
      have honoured := inv.honoured
      have arena := inv.arena heap
      simp only [userSpace] at arena
      omega
  have malloced := adds.memMalloced
  rw [Nat.mod_eq_of_lt noWrap] at malloced
  refine
    { fits := fun i used => ?_
      unused := fun i notUsed => ?_
      classes := ?_
      limit := ?_
      lens := lens
      heap := fun heap => pages (adds.memBase ▸ heap)
      arena := fun arena => ?_
      accounts := ?_
      honoured := ?_ }
  · rw [adds.table.slabBytes]
    exact inv.fits i (adds.table.used_iff.mp used)
  · have wasUnused : ¬s.Used i := fun used => notUsed (adds.table.used_iff.mpr used)
    have other : i ≠ id := by
      rintro rfl
      exact wasUnused used
    rw [adds.slabList, if_neg other]
    exact inv.unused i wasUnused
  · rw [adds.table.powerLargest]
    exact inv.classes
  · rw [adds.memLimit]
    exact inv.limit
  · rw [adds.memBase] at arena
    have less := (adds.arena arena).2
    have bounds := inv.arena arena
    rw [adds.memLimit]
    omega
  · rw [malloced, owned, inv.accounts, len]
  · rw [malloced, adds.memLimit, exempt]
    have honoured := inv.honoured
    by_cases first : (s.slabclass id).slabList = []
    · rw [if_pos first]
      omega
    · -- the class is not exempt, so the limit was tested
      rw [if_neg first]
      have tested := adds.mayGrow
      have positive := inv.limit
      have owns := List.length_pos_iff.mpr first
      simp only [MayGrow, Nat.mod_eq_of_lt noWrap] at tested
      omega

theorem LimitInv.of_call {x y : SlabAllocator × Mem} (inv : LimitInv x.1) (call : SlabCall x y) :
    LimitInv y.1 := by
  cases call with
  | alloc size id os fresh run =>
      rcases doSlabsAlloc_ok run with keeps | ⟨ptr, used, adds⟩
      · exact inv.of_keeps keeps
      · exact inv.of_adds used fresh adds
  | free ptr size id os run => exact inv.of_keeps (doSlabsFree_ok run)

theorem LimitInv.of_unspent (unspent : s.Unspent)
    (fit : ∀ id, s.Used id → (s.slabclass id).size * (s.slabclass id).perslab < 2 ^ 32) :
    LimitInv s where
  fits id used :=
    ⟨Nat.mul_pos (unspent.positive id used).1 (unspent.positive id used).2, fit id used⟩
  unused id _ := unspent.slabList id
  classes := unspent.classes
  limit := unspent.limit
  lens id owns := absurd (unspent.slabList id) owns
  heap _ := by
    constructor
    all_goals simp [unspent.slabList]
  arena := unspent.arena
  accounts := by simp [ownedBytes, unspent.memMalloced, unspent.slabList]
  honoured := by simp [unspent.memMalloced]

/-- In every sequence of calls, for slabs below `2 ^ 32` bytes, `mem_malloced` is the size of
all slabs, and it exceeds the limit by at most one slab for each class that owns one. -/
theorem limitHonoured_of_run {x y : SlabAllocator × Mem} (unspent : x.1.Unspent)
    (fit : ∀ id, x.1.Used id → (x.1.slabclass id).size * (x.1.slabclass id).perslab < 2 ^ 32)
    (run : ReflTransGen SlabCall x y) : y.1.LimitHonoured := by
  have inv : LimitInv y.1 := by
    induction run with
    | refl => exact .of_unspent unspent fit
    | tail _ call ih => exact ih.of_call call
  exact ⟨inv.accounts, inv.honoured, fun _ _ _ _ _ refused => untouched_of_refused refused⟩

/-- Two classes and a limit of one byte. -/
def oneByte (perslab : ℕ) : SlabAllocator × Mem :=
  ({ (SlabState.twoClasses perslab).slabs with memLimit := 1 }, .zero)

theorem unspent_oneByte {perslab : ℕ} (positive : 0 < perslab) : (oneByte perslab).1.Unspent where
  memMalloced := rfl
  slabList id := by
    by_cases first : id = 1
    · simp [oneByte, SlabState.twoClasses, first, SlabClass.zero]
    · by_cases second : id = 2
      · simp [oneByte, SlabState.twoClasses, second, SlabClass.zero]
      · simp [oneByte, SlabState.twoClasses, first, second, SlabClass.zero]
  positive id used := by
    rcases SlabState.used_twoClasses (p := perslab) used with rfl | rfl
    · exact ⟨Nat.succ_pos 95, positive⟩
    · exact ⟨Nat.succ_pos 127, Nat.one_pos⟩
  limit := Nat.one_pos
  classes := (by decide : 2 ≤ 200)
  arena arena := absurd rfl arena

theorem mallocFresh_oneByte {perslab n a : ℕ} (user : 0 < a ∧ a + n ≤ userSpace) :
    (oneByte perslab).1.MallocFresh (SlabState.oneBlock n a) :=
  SlabState.mallocFresh_twoClasses user

/-- The first slab of a class is 192 bytes behind a limit of one. -/
theorem limitHonoured_oneByte : ∃ y : SlabAllocator × Mem,
    y.1.memMalloced = 192 ∧ y.1.LimitHonoured := by
  have call := @SlabCall.alloc (oneByte 2).1 _ .zero _ _ 96 1 (SlabState.oneBlock 192 4096)
    (fun _ => mallocFresh_oneByte (by decide)) rfl
  refine ⟨_, ?_, limitHonoured_of_run (unspent_oneByte (by decide)) ?_ (.single call)⟩
  · rfl
  · intro id used
    rcases SlabState.used_twoClasses (p := 2) used with rfl | rfl
    · decide
    · decide

/-- A slab of `2 ^ 32 + 32` bytes is charged as one of 32. -/
theorem not_limitHonoured_of_truncated : ∃ x y : SlabAllocator × Mem,
    x.1.Unspent ∧ ReflTransGen SlabCall x y ∧ ¬y.1.LimitHonoured := by
  have call := @SlabCall.alloc (oneByte 44739243).1 _ .zero _ _ 96 1
    (SlabState.oneBlock 32 4096) (fun _ => mallocFresh_oneByte (by decide)) rfl
  refine ⟨_, _, unspent_oneByte (by decide), .single call, ?_⟩
  intro honoured
  have accounts := honoured.accounts
  revert accounts
  decide

end SlabAllocator

end ChaosCache
