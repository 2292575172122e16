import ChaosCache.ConstTypes

/-!
# The slab allocator

`SlabAllocator` of `slabs.hpp` and `slabs.cpp`. An array with a counter of the elements
in use is the list of these elements, the last one first: `slots` with `sl_curr`, and
`slab_list` with `slabs`. The sizes allocated for the two arrays stay fields of their
own, and a write past them is a fault.

The members are 32-bit and 64-bit unsigned integers. Where an operation can leave that
range it is reduced explicitly, and `int` values converted to `size_t` are extended by
their sign.
-/

namespace ChaosCache

/-- An unsigned 32-bit value converted to `int` and then to `size_t`. -/
def signExtend (x : ℕ) : ℕ := if x < 2 ^ 31 then x else x + (2 ^ 64 - 2 ^ 32)

/-- The next size of an array that is full. -/
def grown (total : ℕ) : ℕ := if total ≠ 0 then total * 2 % 2 ^ 32 else 16

/-- `size` rounded up to a multiple of `CHUNK_ALIGN_BYTES` -/
def align (size : ℕ) : ℕ :=
  if size % chunkAlignBytes = 0 then size
  else size + (chunkAlignBytes - size % chunkAlignBytes)

theorem le_align (size : ℕ) : size ≤ align size := by
  unfold align
  split
  · exact Nat.le_refl _
  · exact Nat.le_add_right _ _

theorem align_le (size : ℕ) : align size ≤ size + 7 := by
  unfold align
  split
  · exact Nat.le_add_right _ _
  · have positive := Nat.pos_of_ne_zero ‹_›
    simp only [chunkAlignBytes] at positive ⊢
    omega

/-- `slabclass_t` -/
structure SlabClass where
  size : ℕ
  perslab : ℕ
  slots : List ℕ
  slTotal : ℕ
  endPagePtr : Option ℕ
  endPageFree : ℕ
  slabList : List ℕ
  listSize : ℕ
  requested : ℕ

structure SlabAllocator where
  slabclass : ℕ → SlabClass
  memLimit : ℕ
  memMalloced : ℕ
  powerLargest : ℕ
  memBase : Option ℕ
  memCurrent : ℕ
  memAvail : ℕ

namespace SlabClass

/-- A class after `memset` -/
def zero : SlabClass where
  size := 0
  perslab := 0
  slots := []
  slTotal := 0
  endPagePtr := none
  endPageFree := 0
  slabList := []
  listSize := 0
  requested := 0

/-- `len` of `do_slabs_newslab`, as the `size_t` it is used as -/
def len (p : SlabClass) : ℕ := signExtend (p.size * p.perslab % 2 ^ 32)

end SlabClass

namespace SlabAllocator

/-- An allocator whose bytes are zero before the constructor runs. -/
def zero : SlabAllocator where
  slabclass _ := .zero
  memLimit := 0
  memMalloced := 0
  powerLargest := 0
  memBase := none
  memCurrent := 0
  memAvail := 0

/-- The loop of the constructor from class `i` on: the class after the last one filled,
and the classes. `remaining` counts down to `POWER_LARGEST`. -/
def fillClasses (settings : Config) :
    ℕ → ℕ → ℕ → (ℕ → SlabClass) → ℕ × (ℕ → SlabClass)
  | 0, i, _, classes => (i, classes)
  | remaining + 1, i, size, classes =>
      if size * settings.factorNum ≤ settings.itemSizeMax * settings.factorDen then
        let size := align size % 2 ^ 32
        let perslab := settings.itemSizeMax / size % 2 ^ 32
        fillClasses settings remaining (i + 1)
          (size * settings.factorNum / settings.factorDen % 2 ^ 32)
          (Function.update classes i { SlabClass.zero with size, perslab })
      else (i, classes)

/-- The constructor, on memory that held `prior`. `initialMalloc` is the number in the
environment variable `T_MEMD_INITIAL_MALLOC`, if it is set. -/
def create (prior : SlabAllocator) (settings : Config) (os : Os)
    (initialMalloc : Option ℕ) : Result SlabAllocator := do
  let s := { prior with memLimit := settings.maxbytes }
  let s ←
    if settings.preallocate then
      match os.malloc s.memLimit with
      | some base =>
          pure { s with memBase := some base, memCurrent := base, memAvail := s.memLimit }
      | none => .error .abort
    else pure s
  let (i, classes) := fillClasses settings
    (ChaosCache.powerLargest - powerSmallest) powerSmallest
    ((sizeofHashItem + settings.chunkSize) % 2 ^ 32) (fun _ => .zero)
  let largest := { classes i with size := settings.itemSizeMax % 2 ^ 32, perslab := 1 }
  return { s with
    slabclass := Function.update classes i largest
    powerLargest := i
    memMalloced := initialMalloc.getD s.memMalloced }

variable (s : SlabAllocator)

def setClass (id : ℕ) (p : SlabClass) : SlabAllocator :=
  { s with slabclass := Function.update s.slabclass id p }

/-- The loop of `slabs_clsid`, which ends at the largest class at the latest. -/
def clsidFrom (size : ℕ) : ℕ → ℕ → ℕ
  | 0, res => res
  | remaining + 1, res =>
      if (s.slabclass res).size < size then clsidFrom size remaining (res + 1) else res

/-- `slabs_clsid` -/
def slabsClsid (size : ℕ) : ℕ :=
  if size = 0 ∨ (s.slabclass s.powerLargest).size < size then 0
  else s.clsidFrom size s.powerLargest powerSmallest

/-- `grow_slab_list` -/
def growSlabList (id : ℕ) (os : Os) : Option SlabAllocator :=
  let p := s.slabclass id
  if p.slabList.length = p.listSize then
    let newSize := grown p.listSize
    if os.realloc (newSize * sizeofPointer) then
      some (s.setClass id { p with listSize := newSize })
    else none
  else some s

/-- `memory_allocate` -/
def memoryAllocate (size : ℕ) (os : Os) : SlabAllocator × Option ℕ :=
  match s.memBase with
  | none => (s, os.malloc size)
  | some _ =>
      if s.memAvail < size then (s, none)
      else
        let aligned := align size % 2 ^ 64
        ({ s with
            memCurrent := (s.memCurrent + aligned) % 2 ^ 64
            memAvail := s.memAvail - (if aligned < s.memAvail then aligned else 0) },
          some s.memCurrent)

/-- `do_slabs_newslab` -/
def doSlabsNewslab (mem : Mem) (id : ℕ) (os : Os) : Result (SlabAllocator × Mem × Bool) :=
  let len := (s.slabclass id).len
  if s.memLimit ≠ 0 ∧ s.memLimit < (s.memMalloced + len) % 2 ^ 64 ∧
      0 < (s.slabclass id).slabList.length then
    .ok (s, mem, false)
  else
    match s.growSlabList id os with
    | none => .ok (s, mem, false)
    | some s =>
        match s.memoryAllocate len os with
        | (s, none) => .ok (s, mem, false)
        | (s, some ptr) =>
            let p := s.slabclass id
            if p.listSize ≤ p.slabList.length then .error .outOfBounds
            else
              let p := { p with
                endPagePtr := some ptr
                endPageFree := p.perslab
                slabList := ptr :: p.slabList }
              .ok ({ s.setClass id p with memMalloced := (s.memMalloced + len) % 2 ^ 64 },
                mem.clear ptr len, true)

/-- The part of `do_slabs_alloc` behind the check that something is free. -/
def takeChunk (size : ℕ) (id : ℕ) : Result (SlabAllocator × Option ℕ) :=
  let p := s.slabclass id
  let requested := (p.requested + size) % 2 ^ 64
  match p.slots, p.endPagePtr with
  | ret :: slots, _ => .ok (s.setClass id { p with slots, requested }, some ret)
  | [], none => .error (.assertion "p->end_page_ptr != NULL")
  | [], some ret =>
      let endPageFree := (p.endPageFree + (2 ^ 32 - 1)) % 2 ^ 32
      let endPagePtr := if endPageFree ≠ 0 then some (ret + p.size) else none
      .ok (s.setClass id { p with endPagePtr, endPageFree, requested }, some ret)

/-- `do_slabs_alloc` -/
def doSlabsAlloc (mem : Mem) (size : ℕ) (id : ℕ) (os : Os) :
    Result (SlabAllocator × Mem × Option ℕ) := do
  if id < powerSmallest ∨ s.powerLargest < id then
    return (s, mem, none)
  else
    let p := s.slabclass id
    let (s, mem, available) ←
      if p.endPagePtr = none ∧ p.slots = [] then s.doSlabsNewslab mem id os
      else pure (s, mem, true)
    if available then
      let (s, ret) ← s.takeChunk size id
      return (s, mem, ret)
    else
      return (s, mem, none)

/-- `do_slabs_free` -/
def doSlabsFree (ptr : ℕ) (size : ℕ) (id : ℕ) (os : Os) : Result SlabAllocator :=
  if id < powerSmallest ∨ s.powerLargest < id then .ok s
  else
    let p := s.slabclass id
    let newSize := grown p.slTotal
    if p.slots.length = p.slTotal ∧
        !os.realloc (signExtend newSize * sizeofPointer % 2 ^ 64) then .ok s
    else
      let slTotal := if p.slots.length = p.slTotal then newSize else p.slTotal
      if slTotal ≤ p.slots.length then .error .outOfBounds
      else
        .ok (s.setClass id { p with
          slTotal
          slots := ptr :: p.slots
          requested := (p.requested + (2 ^ 64 - size)) % 2 ^ 64 })

end SlabAllocator

end ChaosCache
