import Mathlib.Logic.Relation
import ChaosCache.Slabs.Operations

/-!
# Runs of the allocator

Any sequence of allocations and frees, on any classes, where a free names a chunk that is
handed out. Lengths of pages and sizes of arrays are 32-bit values, so the partition
needs pages below `2 ^ 32` bytes and less than `2 ^ 31` chunks in a class.
-/

namespace ChaosCache

open Blocks Relation

/-- An allocator, the memory, and the chunks that each class has handed out. -/
structure SlabState where
  slabs : SlabAllocator
  mem : Mem
  out : ℕ → List ℕ

/-- The system grants every array. -/
def Os.Grants (os : Os) : Prop := ∀ n, os.realloc n = true

inductive SlabStep : SlabState → SlabState → Prop
  | alloc {x : SlabState} {s' : SlabAllocator} {mem' : Mem} {ret : Option ℕ} (size id : ℕ) (os : Os)
      (fresh : x.slabs.MallocFresh os) (grants : os.Grants)
      (run : x.slabs.doSlabsAlloc x.mem size id os = .ok (s', mem', ret)) :
      SlabStep x ⟨s', mem', Function.update x.out id (ret.toList ++ x.out id)⟩
  | free {x : SlabState} {s' : SlabAllocator} (ptr size id : ℕ) (os : Os)
      (handedOut : ptr ∈ x.out id) (grants : os.Grants)
      (run : x.slabs.doSlabsFree ptr size id os = .ok s') :
      SlabStep x ⟨s', x.mem, Function.update x.out id ((x.out id).erase ptr)⟩

namespace SlabState

variable {x y : SlabState}

/-- Nothing has been allocated, there is no arena, and the class table is sensible. -/
def Initial (x : SlabState) : Prop :=
  x.slabs.memBase = none ∧ (∀ id, x.out id = []) ∧
    ∀ id, ∃ size perslab, x.slabs.slabclass id = { SlabClass.zero with size, perslab } ∧
      size < 2 ^ 32 ∧ perslab < 2 ^ 32 ∧ (x.slabs.Used id → 0 < size ∧ 0 < perslab)

/-- The pages of every class have less than `2 ^ 32` bytes. -/
def PagesFit (x : SlabState) : Prop :=
  ∀ id, x.slabs.Used id → (x.slabs.slabclass id).size * (x.slabs.slabclass id).perslab < 2 ^ 32

/-- Every class has less than `2 ^ 31` chunks. -/
def Bounded (x : SlabState) : Prop :=
  ∀ id, (x.slabs.slabclass id).perslab * (x.slabs.slabclass id).slabList.length < 2 ^ 31

/-- Every chunk is in exactly one of its three places. -/
def Partitioned (x : SlabState) : Prop :=
  ∀ id, (x.slabs.slabclass id).chunks.Nodup ∧
    (x.out id ++ (x.slabs.slabclass id).slots ++ (x.slabs.slabclass id).endRun).Perm
      (x.slabs.slabclass id).chunks

/-- Chunks that are handed out do not overlap. -/
def Separate (x : SlabState) : Prop :=
  ∀ id, ∀ a ∈ x.out id, ∀ id', ∀ a' ∈ x.out id', id ≠ id' ∨ a ≠ a' →
    Apart a (x.slabs.slabclass id).size a' (x.slabs.slabclass id').size

/-- Each chunk that is handed out lies inside the block of one slab. -/
def Enclosed (x : SlabState) : Prop :=
  ∀ id, ∀ a ∈ x.out id, ∃ b ∈ (x.slabs.slabclass id).slabList,
    b ≤ a ∧ a + (x.slabs.slabclass id).size ≤ b + (x.slabs.slabclass id).len

/-- The calls that may come next return: they write inside the two arrays, and the
assertion holds. -/
def NeverFaults (x : SlabState) : Prop :=
  (∀ size id os, x.slabs.MallocFresh os → os.Grants →
      ∃ result, x.slabs.doSlabsAlloc x.mem size id os = .ok result) ∧
    ∀ ptr size id os, ptr ∈ x.out id → os.Grants →
      ∃ result, x.slabs.doSlabsFree ptr size id os = .ok result

def Sound (x : SlabState) : Prop :=
  x.Partitioned ∧ x.Separate ∧ x.Enclosed ∧ x.NeverFaults

theorem Initial.slabInv (initial : x.Initial) (fit : x.PagesFit) :
    SlabInv x.slabs x.out (fun _ => []) := by
  rcases initial with ⟨heap, nothing, classes⟩
  have noSlabs (id : ℕ) : (x.slabs.slabclass id).slabList = [] := by
    rcases classes id with ⟨size, perslab, cls, -⟩
    simp [cls, SlabClass.zero]
  refine
    { classes := fun id => ?_
      heap := heap
      sized := fun id used => ?_
      unused := fun id _ => noSlabs id
      distinct := fun id => by simp [noSlabs]
      apart := by simp [noSlabs]
      user := by simp [noSlabs] }
  · rcases classes id with ⟨size, perslab, cls, -⟩
    rw [cls, nothing]
    exact ⟨by simp [SlabClass.zero, SlabClass.endRun, SlabClass.chunks], by simp [SlabClass.zero],
      le_rfl, le_rfl⟩
  · rcases classes id with ⟨size, perslab, cls, sizeBound, perslabBound, positive⟩
    have fits := fit id used
    rw [cls] at fits ⊢
    exact ⟨(positive used).1, (positive used).2, perslabBound, fits⟩

theorem Bounded.listGrows (bounded : x.Bounded) (inv : SlabInv x.slabs x.out (fun _ => []))
    (id : ℕ) (os : Os) : (x.slabs.slabclass id).ListGrows os := by
  apply SlabClass.listGrows
  by_cases used : x.slabs.Used id
  · exact (Nat.le_mul_of_pos_left _ (inv.sized id used).2.1).trans_lt (bounded id)
  · simp [inv.unused id used]

theorem Bounded.slotsGrow (bounded : x.Bounded) (inv : SlabInv x.slabs x.out (fun _ => []))
    (id : ℕ) (os : Os) : (x.slabs.slabclass id).SlotsGrow os := by
  intro full _
  rw [← full]
  refine grown_gt ?_
  have total := SlabClass.length_chunks (x.slabs.slabclass id)
  have parts := (inv.classes id).partition.length_eq
  have bound := bounded id
  simp only [List.length_append] at parts
  omega

theorem slabInv_of_step (inv : SlabInv x.slabs x.out (fun _ => [])) (bounded : x.Bounded)
    (step : SlabStep x y) : SlabInv y.slabs y.out (fun _ => []) := by
  cases step with
  | @alloc s' mem' ret size id os fresh grants run =>
      rcases SlabAllocator.doSlabsAlloc_cases inv fresh (bounded.listGrows inv id os) x.mem
          size with
        ⟨listSize, room, run', -⟩ | ⟨s', mem', a, run', -, -, -, -, inv', -⟩
      · cases run.symm.trans run'
        simpa using inv.resize room
      · cases run.symm.trans run'
        exact inv'
  | free ptr size id os handedOut grants run =>
      rcases SlabAllocator.doSlabsFree_eq inv handedOut (bounded.slotsGrow inv id os) size with
        ⟨s', lost', run', -, inv', noLoss⟩
      cases run.symm.trans run'
      rwa [noLoss grants] at inv'

theorem sound_of_slabInv (inv : SlabInv x.slabs x.out (fun _ => [])) (bounded : x.Bounded) :
    x.Sound := by
  refine ⟨fun id => ⟨inv.nodup_chunks id, by simpa using (inv.classes id).partition⟩,
    fun id a handedOut id' a' handedOut' differ => ?_, fun id a handedOut => ?_,
    fun size id os fresh grants => ?_, fun ptr size id os handedOut grants => ?_⟩
  · have isChunk := inv.mem_chunks_of_mem_out handedOut
    have isChunk' := inv.mem_chunks_of_mem_out handedOut'
    rcases inv.apart_of_mem_chunks isChunk isChunk' with same | apart
    · tauto
    · exact apart
  · rcases SlabClass.mem_chunks.mp (inv.mem_chunks_of_mem_out handedOut) with ⟨b, isSlab, inSlab⟩
    exact ⟨b, isSlab, inv.inside_slab isSlab inSlab⟩
  · rcases SlabAllocator.doSlabsAlloc_cases inv fresh (bounded.listGrows inv id os) x.mem size
      with ⟨listSize, room, run, -⟩ | ⟨s', mem', a, run, -⟩
    · exact ⟨_, run⟩
    · exact ⟨_, run⟩
  · rcases SlabAllocator.doSlabsFree_eq inv handedOut (bounded.slotsGrow inv id os) size with
      ⟨s', lost', run, -⟩
    exact ⟨_, run⟩

/-- In every run with pages and classes of these sizes the slabs are partitioned, the chunks
that are handed out lie apart in their slabs, and no call faults. -/
theorem sound_of_run (initial : x.Initial) (fit : x.PagesFit)
    (run : ReflTransGen (fun y z => SlabStep y z ∧ z.Bounded) x y) : y.Sound := by
  have reached : SlabInv y.slabs y.out (fun _ => []) ∧ y.Bounded := by
    induction run with
    | refl =>
        refine ⟨initial.slabInv fit, fun id => ?_⟩
        rcases initial.2.2 id with ⟨size, perslab, cls, -⟩
        simp [cls, SlabClass.zero]
    | tail _ step ih => exact ⟨slabInv_of_step ih.1 ih.2 step.1, step.2⟩
  exact sound_of_slabInv reached.1 reached.2

/-- Classes of 96 and 128 bytes, with the given number of the first in a page. -/
def twoClasses (perslab : ℕ) : SlabState where
  slabs :=
    { slabclass := fun id =>
        if id = 1 then { SlabClass.zero with size := 96, perslab }
        else if id = 2 then { SlabClass.zero with size := 128, perslab := 1 }
        else .zero
      memLimit := 0
      memMalloced := 0
      powerLargest := 2
      memBase := none
      memCurrent := 0
      memAvail := 0 }
  mem := .zero
  out _ := []

/-- A system that has one block, for one size, and grants every array. -/
def oneBlock (size ptr : ℕ) : Os where
  malloc n := if n = size then some ptr else none
  realloc _ := true

/-- What holds of classes 1 and 2 and of classes without slabs holds of all. -/
theorem forall_class {s : SlabAllocator} {p : ℕ → SlabClass → Prop} (first : p 1 (s.slabclass 1))
    (second : p 2 (s.slabclass 2)) (rest : ∀ id, id ≠ 1 → id ≠ 2 → p id (s.slabclass id))
    (id : ℕ) : p id (s.slabclass id) := by
  by_cases isFirst : id = 1
  · exact isFirst ▸ first
  · by_cases isSecond : id = 2
    · exact isSecond ▸ second
    · exact rest id isFirst isSecond

theorem used_twoClasses {p id : ℕ} (used : (twoClasses p).slabs.Used id) : id = 1 ∨ id = 2 := by
  rcases used with ⟨lower, upper⟩
  change 1 ≤ id at lower
  change id ≤ 2 at upper
  omega

theorem initial_twoClasses {p : ℕ} (positive : 0 < p) (bound : p < 2 ^ 32) :
    (twoClasses p).Initial := by
  refine ⟨rfl, fun _ => rfl, fun id => ?_⟩
  by_cases first : id = 1
  · exact ⟨96, p, by simp [twoClasses, first], by decide, bound, fun _ => ⟨by decide, positive⟩⟩
  · by_cases second : id = 2
    · exact ⟨128, 1, by simp [twoClasses, second], by decide, by decide, fun _ => by decide⟩
    · refine ⟨0, 0, by simp [twoClasses, first, second, SlabClass.zero], by decide, by decide,
        fun used => ?_⟩
      have isClass := used_twoClasses used
      omega

theorem mallocFresh_oneBlock {s : SlabAllocator} {n a : ℕ} (user : 0 < a ∧ a + n ≤ userSpace)
    (apart : ∀ id, ∀ b ∈ (s.slabclass id).slabList, Apart a n b (s.slabclass id).len) :
    s.MallocFresh (oneBlock n a) := by
  intro m ptr answer
  by_cases same : m = n
  · subst same
    obtain rfl : a = ptr := by simpa [oneBlock] using answer
    exact ⟨user.1, user.2, apart⟩
  · simp [oneBlock, same] at answer

theorem mallocFresh_twoClasses {p n a : ℕ} (user : 0 < a ∧ a + n ≤ userSpace) :
    (twoClasses p).slabs.MallocFresh (oneBlock n a) := by
  refine mallocFresh_oneBlock user fun id b isSlab => ?_
  simp only [twoClasses] at isSlab
  split at isSlab
  · simp [SlabClass.zero] at isSlab
  · split at isSlab <;> simp [SlabClass.zero] at isSlab

/-- A chunk is handed out and taken back. -/
theorem sound_twoClasses : ∃ y : SlabState, (y.slabs.slabclass 1).slots = [4096] ∧ y.Sound := by
  have bounded {y : SlabState}
      (rest : ∀ id, id ≠ 1 → id ≠ 2 → y.slabs.slabclass id = .zero)
      (first : (y.slabs.slabclass 1).perslab * (y.slabs.slabclass 1).slabList.length < 2 ^ 31)
      (second : (y.slabs.slabclass 2).perslab * (y.slabs.slabclass 2).slabList.length < 2 ^ 31) :
      y.Bounded :=
    forall_class (p := fun _ cls => cls.perslab * cls.slabList.length < 2 ^ 31) first second
      fun id notFirst notSecond => by simp [rest id notFirst notSecond, SlabClass.zero]
  have alloc := SlabStep.alloc (x := twoClasses 2) 96 1 (oneBlock 192 4096)
    (mallocFresh_twoClasses (by decide)) (fun _ => rfl) rfl
  have run := (ReflTransGen.single (r := fun y z => SlabStep y z ∧ z.Bounded) ⟨alloc, ?_⟩).tail
    ⟨.free 4096 96 1 (oneBlock 0 0) (by decide) (fun _ => rfl) rfl, ?_⟩
  · refine ⟨_, rfl, sound_of_run (initial_twoClasses (by decide) (by decide)) ?_ run⟩
    intro id used
    rcases used_twoClasses used with rfl | rfl
    · decide
    · decide
  · refine bounded (fun id notFirst notSecond => ?_) (by decide) (by decide)
    simp [SlabAllocator.setClass, twoClasses, notFirst, notSecond]
  · refine bounded (fun id notFirst notSecond => ?_) (by decide) (by decide)
    simp [SlabAllocator.setClass, twoClasses, notFirst, notSecond]

/-- A page of `2 ^ 32 + 32` bytes is requested as one of 32, and its first chunk overlaps
the next page. -/
theorem not_sound_of_truncated : ∃ x y, SlabState.Initial x ∧ ReflTransGen SlabStep x y ∧
    ¬y.Sound := by
  have first := SlabStep.alloc (x := twoClasses 44739243) 96 1 (oneBlock 32 4096)
    (mallocFresh_twoClasses (by decide)) (fun _ => rfl) rfl
  have second := (ReflTransGen.single first).tail
    (.alloc 128 2 (oneBlock 128 4128) (mallocFresh_oneBlock (by decide) ?_) (fun _ => rfl) rfl)
  · refine ⟨_, _, initial_twoClasses (by decide) (by decide), second, ?_⟩
    rintro ⟨-, separate, -⟩
    have apart := separate 1 4096 (by decide) 2 4128 (by decide) (Or.inl (by decide))
    revert apart
    unfold Apart
    decide
  · refine forall_class (p := fun _ cls => ∀ b ∈ cls.slabList, Apart 4128 128 b cls.len) ?_ ?_ ?_
    · unfold Apart
      decide
    · unfold Apart
      decide
    · intro id notFirst notSecond
      simp [SlabAllocator.setClass, twoClasses, notFirst, notSecond, SlabClass.zero]

end SlabState

end ChaosCache
