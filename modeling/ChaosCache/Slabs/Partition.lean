import Mathlib.Data.List.Perm.Basic
import Mathlib.Data.List.Flatten
import Mathlib.Tactic.Ring
import ChaosCache.Slabs
import ChaosCache.Library.Blocks

/-!
# The partition of the slabs

Every chunk of a class is handed out, on the free list, in the run at the end of the
last page, or lost. A chunk is lost only when the free list cannot grow while the chunk
is freed.
-/

namespace ChaosCache

open Blocks

namespace SlabClass

/-- The chunks of all slabs of a class. -/
def chunks (p : SlabClass) : List ℕ := p.slabList.flatMap (run · p.size p.perslab)

/-- The chunks at the end of the last page that were never handed out. -/
def endRun (p : SlabClass) : List ℕ :=
  match p.endPagePtr with
  | some ptr => run ptr p.size p.endPageFree
  | none => []

theorem mem_chunks {p : SlabClass} {a : ℕ} :
    a ∈ p.chunks ↔ ∃ b ∈ p.slabList, a ∈ run b p.size p.perslab := by
  simp [chunks]

theorem length_chunks (p : SlabClass) : p.chunks.length = p.perslab * p.slabList.length := by
  simp only [chunks, List.length_flatMap, Blocks.length_run, List.map_const',
    List.sum_replicate_nat]
  exact Nat.mul_comm _ _

/-- A length that a block in user space can have was not truncated. -/
theorem len_eq {p : SlabClass} (fits : p.size * p.perslab < 2 ^ 32) (block : p.len ≤ userSpace) :
    p.len = p.size * p.perslab := by
  unfold len signExtend userSpace at *
  rw [Nat.mod_eq_of_lt fits] at block ⊢
  by_cases small : p.size * p.perslab < 2 ^ 31
  · rw [if_pos small]
  · rw [if_neg small] at block
    omega

end SlabClass

/-- The partition of one class, and the bounds of its arrays. -/
structure ClassInv (p : SlabClass) (out lost : List ℕ) : Prop where
  partition : (out ++ p.slots ++ p.endRun ++ lost).Perm p.chunks
  cursor : p.endPagePtr ≠ none → 0 < p.endPageFree ∧ p.endPageFree < 2 ^ 32
  slotsRoom : p.slots.length ≤ p.slTotal
  slabsRoom : p.slabList.length ≤ p.listSize

namespace SlabAllocator

/-- A class id that the allocator accepts. -/
def Used (s : SlabAllocator) (id : ℕ) : Prop := powerSmallest ≤ id ∧ id ≤ s.powerLargest

/-- `malloc` returns blocks in user space apart from all slabs. -/
def MallocFresh (s : SlabAllocator) (os : Os) : Prop :=
  ∀ n ptr, os.malloc n = some ptr → 0 < ptr ∧ ptr + n ≤ userSpace ∧
    ∀ id, ∀ b ∈ (s.slabclass id).slabList, Apart ptr n b (s.slabclass id).len

end SlabAllocator

namespace SlabClass

/-- A class after `do_slabs_newslab` obtained a page. -/
def addPage (p : SlabClass) (ptr listSize : ℕ) : SlabClass :=
  { p with
    endPagePtr := some ptr
    endPageFree := p.perslab
    slabList := ptr :: p.slabList
    listSize := listSize }

end SlabClass

/-- The slabs lie in user space and share no byte. -/
structure Pages (s : SlabAllocator) : Prop where
  distinct : ∀ id, (s.slabclass id).slabList.Nodup
  apart : ∀ id, ∀ b ∈ (s.slabclass id).slabList, ∀ id', ∀ b' ∈ (s.slabclass id').slabList,
    id ≠ id' ∨ b ≠ b' → Apart b (s.slabclass id).len b' (s.slabclass id').len
  user : ∀ id, ∀ b ∈ (s.slabclass id).slabList, 0 < b ∧ b + (s.slabclass id).len ≤ userSpace

namespace Pages

variable {s next : SlabAllocator}

/-- Only the slab lists and the lengths of the slabs matter. -/
theorem congr (pages : Pages s)
    (slabList : ∀ i, (next.slabclass i).slabList = (s.slabclass i).slabList)
    (len : ∀ i, (next.slabclass i).len = (s.slabclass i).len) : Pages next where
  distinct i := by simpa only [slabList] using pages.distinct i
  apart := by simpa only [slabList, len] using pages.apart
  user := by simpa only [slabList, len] using pages.user

/-- A fresh slab of at least one byte. -/
theorem addPage (pages : Pages s) {id ptr : ℕ}
    (slabList : ∀ i, (next.slabclass i).slabList =
      if i = id then ptr :: (s.slabclass i).slabList else (s.slabclass i).slabList)
    (lens : ∀ i, (next.slabclass i).len = (s.slabclass i).len)
    (positive : 0 < (s.slabclass id).len) (nonNull : 0 < ptr)
    (inUser : ptr + (s.slabclass id).len ≤ userSpace)
    (fresh : ∀ i, ∀ b ∈ (s.slabclass i).slabList,
      Apart ptr (s.slabclass id).len b (s.slabclass i).len) : Pages next := by
  have mem_slabs (i b : ℕ) : b ∈ (next.slabclass i).slabList ↔
      (i = id ∧ b = ptr) ∨ b ∈ (s.slabclass i).slabList := by
    rw [slabList]
    by_cases same : i = id
    · simp [same]
    · simp [same]
  refine
    { distinct := fun i => ?_
      apart := fun i b isSlab i' b' isSlab' differ => ?_
      user := fun i b isSlab => ?_ }
  · rw [slabList]
    split
    · rename_i same
      subst same
      refine List.nodup_cons.mpr ⟨fun again => ?_, pages.distinct i⟩
      rcases fresh i ptr again with before | behind <;> omega
    · exact pages.distinct i
  · rw [lens, lens]
    rcases (mem_slabs i b).mp isSlab with ⟨rfl, rfl⟩ | isOld <;>
      rcases (mem_slabs i' b').mp isSlab' with ⟨rfl, rfl⟩ | isOld'
    · simp at differ
    · exact fresh i' b' isOld'
    · exact (fresh i b isOld).symm
    · exact pages.apart i b isOld i' b' isOld' differ
  · rw [lens]
    rcases (mem_slabs i b).mp isSlab with ⟨rfl, rfl⟩ | isOld
    · exact ⟨nonNull, inUser⟩
    · exact pages.user i b isOld

end Pages

/-- The invariant of the allocator, with the chunks of each class that are handed out and
those that are lost. -/
structure SlabInv (s : SlabAllocator) (out lost : ℕ → List ℕ) : Prop where
  classes : ∀ id, ClassInv (s.slabclass id) (out id) (lost id)
  heap : s.memBase = none
  sized : ∀ id, s.Used id → 0 < (s.slabclass id).size ∧ 0 < (s.slabclass id).perslab ∧
    (s.slabclass id).perslab < 2 ^ 32 ∧ (s.slabclass id).size * (s.slabclass id).perslab < 2 ^ 32
  unused : ∀ id, ¬s.Used id → (s.slabclass id).slabList = []
  distinct : ∀ id, (s.slabclass id).slabList.Nodup
  apart : ∀ id, ∀ b ∈ (s.slabclass id).slabList, ∀ id', ∀ b' ∈ (s.slabclass id').slabList,
    id ≠ id' ∨ b ≠ b' → Apart b (s.slabclass id).len b' (s.slabclass id').len
  user : ∀ id, ∀ b ∈ (s.slabclass id).slabList, 0 < b ∧ b + (s.slabclass id).len ≤ userSpace

namespace SlabInv

variable {s : SlabAllocator} {out lost : ℕ → List ℕ}

theorem pages (inv : SlabInv s out lost) : Pages s where
  distinct := inv.distinct
  apart := inv.apart
  user := inv.user

theorem used_of_mem (inv : SlabInv s out lost) {id b : ℕ}
    (isSlab : b ∈ (s.slabclass id).slabList) : s.Used id := by
  by_contra notUsed
  rw [inv.unused id notUsed] at isSlab
  simp at isSlab

theorem len_eq (inv : SlabInv s out lost) {id b : ℕ}
    (isSlab : b ∈ (s.slabclass id).slabList) :
    (s.slabclass id).len = (s.slabclass id).size * (s.slabclass id).perslab := by
  rcases inv.sized id (inv.used_of_mem isSlab) with ⟨-, -, -, fits⟩
  have inUser := (inv.user id b isSlab).2
  exact SlabClass.len_eq fits (by omega)

theorem inside_slab (inv : SlabInv s out lost) {id b a : ℕ}
    (isSlab : b ∈ (s.slabclass id).slabList)
    (inSlab : a ∈ run b (s.slabclass id).size (s.slabclass id).perslab) :
    b ≤ a ∧ a + (s.slabclass id).size ≤ b + (s.slabclass id).len := by
  have bounds := bounds_of_mem_run inSlab
  rw [inv.len_eq isSlab, Nat.mul_comm]
  exact bounds

/-- A chunk that is handed out, and one that is not, are chunks of their class. -/
theorem mem_chunks_of_mem_out (inv : SlabInv s out lost) {id a : ℕ} (handedOut : a ∈ out id) :
    a ∈ (s.slabclass id).chunks :=
  (inv.classes id).partition.subset (by simp [handedOut])

theorem used_of_mem_chunks (inv : SlabInv s out lost) {id a : ℕ}
    (isChunk : a ∈ (s.slabclass id).chunks) : s.Used id := by
  rcases SlabClass.mem_chunks.mp isChunk with ⟨b, isSlab, -⟩
  exact inv.used_of_mem isSlab

theorem used_of_mem_out (inv : SlabInv s out lost) {id a : ℕ} (handedOut : a ∈ out id) :
    s.Used id :=
  inv.used_of_mem_chunks (inv.mem_chunks_of_mem_out handedOut)

theorem apart_of_mem_chunks (inv : SlabInv s out lost) {id id' a a' : ℕ}
    (isChunk : a ∈ (s.slabclass id).chunks) (isChunk' : a' ∈ (s.slabclass id').chunks) :
    (id = id' ∧ a = a') ∨ Apart a (s.slabclass id).size a' (s.slabclass id').size := by
  rcases SlabClass.mem_chunks.mp isChunk with ⟨b, isSlab, inSlab⟩
  rcases SlabClass.mem_chunks.mp isChunk' with ⟨b', isSlab', inSlab'⟩
  by_cases same : id = id' ∧ b = b'
  · rcases same with ⟨rfl, rfl⟩
    rcases eq_or_apart_of_mem_run inSlab inSlab' with rfl | apart
    · exact Or.inl ⟨rfl, rfl⟩
    · exact Or.inr apart
  · have apart := inv.apart id b isSlab id' b' isSlab' (by tauto)
    exact Or.inr (apart.mono (inv.inside_slab isSlab inSlab) (inv.inside_slab isSlab' inSlab'))

theorem nodup_chunks (inv : SlabInv s out lost) (id : ℕ) : (s.slabclass id).chunks.Nodup := by
  refine List.nodup_flatMap.mpr ⟨fun b isSlab => ?_, ?_⟩
  · exact nodup_run (inv.sized id (inv.used_of_mem isSlab)).1
  · refine (inv.distinct id).imp_of_mem fun {b b'} isSlab isSlab' differ => ?_
    intro a inSlab inSlab'
    have positive := (inv.sized id (inv.used_of_mem isSlab)).1
    have first := inv.inside_slab isSlab inSlab
    have second := inv.inside_slab isSlab' inSlab'
    rcases inv.apart id b isSlab id b' isSlab' (Or.inr differ) with before | behind <;> omega

theorem setClass (inv : SlabInv s out lost) (id : ℕ) {p : SlabClass} {out' lost' : List ℕ}
    (cls : ClassInv p out' lost') (size : p.size = (s.slabclass id).size)
    (perslab : p.perslab = (s.slabclass id).perslab)
    (slabList : p.slabList = (s.slabclass id).slabList) :
    SlabInv (s.setClass id p) (Function.update out id out') (Function.update lost id lost') := by
  have slabs (i : ℕ) : ((s.setClass id p).slabclass i).slabList = (s.slabclass i).slabList := by
    by_cases same : i = id
    · subst same
      simp [SlabAllocator.setClass, slabList]
    · simp [SlabAllocator.setClass, same]
  have sizes (i : ℕ) : ((s.setClass id p).slabclass i).size = (s.slabclass i).size := by
    by_cases same : i = id
    · subst same
      simp [SlabAllocator.setClass, size]
    · simp [SlabAllocator.setClass, same]
  have counts (i : ℕ) : ((s.setClass id p).slabclass i).perslab = (s.slabclass i).perslab := by
    by_cases same : i = id
    · subst same
      simp [SlabAllocator.setClass, perslab]
    · simp [SlabAllocator.setClass, same]
  have lens (i : ℕ) : ((s.setClass id p).slabclass i).len = (s.slabclass i).len := by
    simp only [SlabClass.len, sizes, counts]
  refine
    { inv.pages.congr slabs lens with
      classes := fun i => ?_
      heap := inv.heap
      sized := fun i used => by simpa only [sizes, counts] using inv.sized i used
      unused := fun i notUsed => (slabs i).trans (inv.unused i notUsed) }
  by_cases same : i = id
  · subst same
    simpa [SlabAllocator.setClass] using cls
  · simpa [SlabAllocator.setClass, same] using inv.classes i

end SlabInv

namespace ClassInv

variable {p : SlabClass} {out lost : List ℕ}

theorem addPage (inv : ClassInv p out lost) (noSlots : p.slots = []) (noPage : p.endPagePtr = none)
    (positive : 0 < p.perslab ∧ p.perslab < 2 ^ 32) {listSize : ℕ}
    (room : p.slabList.length < listSize) (ptr : ℕ) :
    ClassInv (p.addPage ptr listSize) out lost where
  partition := by
    have before := inv.partition
    simp only [noSlots, SlabClass.endRun, noPage, List.append_nil] at before
    simp only [SlabClass.addPage, SlabClass.endRun, SlabClass.chunks, noSlots, List.append_nil,
      List.flatMap_cons]
    calc (out ++ run ptr p.size p.perslab ++ lost).Perm (run ptr p.size p.perslab ++ out ++ lost) :=
          List.perm_append_comm.append_right lost
      _ = run ptr p.size p.perslab ++ (out ++ lost) := List.append_assoc ..
      List.Perm _ (run ptr p.size p.perslab ++ p.chunks) := before.append_left _
  cursor _ := positive
  slotsRoom := inv.slotsRoom
  slabsRoom := room

end ClassInv

namespace SlabInv

variable {s : SlabAllocator} {out lost : ℕ → List ℕ}

/-- Adding a fresh slab to a class that has nothing free. -/
theorem addSlab (inv : SlabInv s out lost) (memMalloced : ℕ) {id ptr listSize : ℕ}
    (used : s.Used id) (noSlots : (s.slabclass id).slots = [])
    (noPage : (s.slabclass id).endPagePtr = none)
    (room : (s.slabclass id).slabList.length < listSize) (nonNull : 0 < ptr)
    (inUser : ptr + (s.slabclass id).len ≤ userSpace)
    (fresh : ∀ i, ∀ b ∈ (s.slabclass i).slabList,
      Apart ptr (s.slabclass id).len b (s.slabclass i).len) :
    SlabInv
      { s.setClass id ((s.slabclass id).addPage ptr listSize) with memMalloced := memMalloced }
      out lost := by
  rcases inv.sized id used with ⟨size, perslab, bound, fits⟩
  have positive : 0 < (s.slabclass id).len := by
    rw [SlabClass.len_eq fits (by omega)]
    exact Nat.mul_pos size perslab
  generalize next_eq : { s.setClass id ((s.slabclass id).addPage ptr listSize) with
    memMalloced := memMalloced } = next
  have classes (i : ℕ) : next.slabclass i =
      if i = id then (s.slabclass id).addPage ptr listSize else s.slabclass i := by
    subst next_eq
    exact Function.update_apply ..
  have slabs (i : ℕ) : (next.slabclass i).slabList =
      if i = id then ptr :: (s.slabclass i).slabList else (s.slabclass i).slabList := by
    rw [classes]
    by_cases same : i = id
    · subst same
      simp [SlabClass.addPage]
    · simp [same]
  have sizes (i : ℕ) : (next.slabclass i).size = (s.slabclass i).size ∧
      (next.slabclass i).perslab = (s.slabclass i).perslab := by
    rw [classes]
    split
    · rename_i same
      subst same
      exact ⟨rfl, rfl⟩
    · exact ⟨rfl, rfl⟩
  have lens (i : ℕ) : (next.slabclass i).len = (s.slabclass i).len := by
    simp only [SlabClass.len, sizes]
  have sameUsed (i : ℕ) : next.Used i ↔ s.Used i := by
    subst next_eq
    exact Iff.rfl
  refine
    { inv.pages.addPage slabs lens positive nonNull inUser fresh with
      classes := fun i => ?_
      heap := by subst next_eq; exact inv.heap
      sized := fun i used => ?_
      unused := fun i notUsed => ?_ }
  · rw [classes]
    split
    · rename_i same
      subst same
      exact (inv.classes i).addPage noSlots noPage ⟨perslab, bound⟩ room ptr
    · exact inv.classes i
  · rw [(sizes i).1, (sizes i).2]
    exact inv.sized i ((sameUsed i).mp used)
  · have other : i ≠ id := by
      rintro rfl
      exact notUsed ((sameUsed i).mpr used)
    rw [slabs, if_neg other]
    exact inv.unused i fun used => notUsed ((sameUsed i).mpr used)

end SlabInv

namespace SlabInv

variable {s : SlabAllocator} {out lost : ℕ → List ℕ}

theorem class_unique (inv : SlabInv s out lost) {id id' a : ℕ}
    (isChunk : a ∈ (s.slabclass id).chunks) (isChunk' : a ∈ (s.slabclass id').chunks) :
    id = id' := by
  have positive := (inv.sized id (inv.used_of_mem_chunks isChunk)).1
  have positive' := (inv.sized id' (inv.used_of_mem_chunks isChunk')).1
  rcases inv.apart_of_mem_chunks isChunk isChunk' with ⟨same, -⟩ | before | behind
  · exact same
  · omega
  · omega

theorem nodup_parts (inv : SlabInv s out lost) (id : ℕ) :
    (out id ++ (s.slabclass id).slots ++ (s.slabclass id).endRun ++ lost id).Nodup :=
  (inv.classes id).partition.nodup_iff.mpr (inv.nodup_chunks id)

theorem nodup_out (inv : SlabInv s out lost) (id : ℕ) : (out id).Nodup := by
  have distinct := inv.nodup_parts id
  rw [List.append_assoc, List.append_assoc] at distinct
  exact distinct.of_append_left

/-- The slabs of a class lie in user space. -/
theorem slabs_le (inv : SlabInv s out lost) (id : ℕ) :
    (s.slabclass id).slabList.length * (s.slabclass id).len ≤ userSpace := by
  refine length_mul_le (inv.distinct id) (fun b isSlab b' isSlab' differ => ?_)
    fun b isSlab => (inv.user id b isSlab).2
  exact inv.apart id b isSlab id b' isSlab' (Or.inr differ)

/-- So do its chunks. -/
theorem chunks_le (inv : SlabInv s out lost) (id : ℕ) :
    (s.slabclass id).chunks.length * (s.slabclass id).size ≤ userSpace := by
  rw [SlabClass.length_chunks]
  cases slabs : (s.slabclass id).slabList with
  | nil => simp
  | cons b rest =>
      have len := inv.len_eq (show b ∈ (s.slabclass id).slabList by simp [slabs])
      calc (s.slabclass id).perslab * (b :: rest).length * (s.slabclass id).size
          = (s.slabclass id).slabList.length * (s.slabclass id).len := by
            rw [len, slabs]
            ring
        _ ≤ userSpace := inv.slabs_le id

end SlabInv

end ChaosCache
