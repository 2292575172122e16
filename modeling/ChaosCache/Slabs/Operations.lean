import ChaosCache.Slabs.Partition

/-!
# What the slab operations do

One lemma for each operation: how it can end, and that the partition is kept.
-/

namespace ChaosCache

open Blocks

theorem grown_gt {total : ℕ} (bound : total < 2 ^ 31) : total < grown total := by
  unfold grown
  split <;> omega

namespace SlabClass

/-- The slab list grows if it is full and the system grants it the next size. -/
def ListGrows (p : SlabClass) (os : Os) : Prop :=
  p.slabList.length = p.listSize → os.realloc (grown p.listSize * sizeofPointer) = true →
    p.listSize < grown p.listSize

/-- The slab list has room for another slab, or the system grants it the next size. -/
def ListRoom (p : SlabClass) (os : Os) : Prop :=
  p.slabList.length = p.listSize → os.realloc (grown p.listSize * sizeofPointer) = true

/-- The free list grows if it is full and the system grants it the next size. -/
def SlotsGrow (p : SlabClass) (os : Os) : Prop :=
  p.slots.length = p.slTotal →
    os.realloc (signExtend (grown p.slTotal) * sizeofPointer % 2 ^ 64) = true →
      p.slTotal < grown p.slTotal

end SlabClass

namespace ClassInv

variable {p : SlabClass} {out lost : List ℕ}

theorem resize (inv : ClassInv p out lost) {listSize : ℕ} (room : p.slabList.length ≤ listSize) :
    ClassInv { p with listSize } out lost :=
  { inv with slabsRoom := room }

theorem pop (inv : ClassInv p out lost) {a : ℕ} {slots : List ℕ} (first : p.slots = a :: slots)
    (requested : ℕ) : ClassInv { p with slots, requested } (a :: out) lost where
  partition := by
    have before := inv.partition
    rw [first, List.append_assoc, List.append_assoc] at before
    rw [List.append_assoc, List.append_assoc]
    exact List.perm_middle.symm.trans before
  cursor := inv.cursor
  slotsRoom := by
    have room := inv.slotsRoom
    rw [first] at room
    exact Nat.le_of_succ_le room
  slabsRoom := inv.slabsRoom

/-- Handing out the first chunk of the run at the end of the page. -/
theorem advance (inv : ClassInv p out lost) {a : ℕ} (first : p.endPagePtr = some a)
    (requested : ℕ) :
    ClassInv
      { p with
        endPagePtr :=
          if (p.endPageFree + (2 ^ 32 - 1)) % 2 ^ 32 ≠ 0 then some (a + p.size) else none
        endPageFree := (p.endPageFree + (2 ^ 32 - 1)) % 2 ^ 32
        requested }
      (a :: out) lost := by
  rcases inv.cursor (by simp [first]) with ⟨positive, bound⟩
  rcases Nat.exists_eq_succ_of_ne_zero (Nat.pos_iff_ne_zero.mp positive) with ⟨free, free_eq⟩
  have decremented : (p.endPageFree + (2 ^ 32 - 1)) % 2 ^ 32 = free := by omega
  have before := inv.partition
  simp only [SlabClass.endRun, first, free_eq, run_succ] at before
  rw [decremented]
  have rest : SlabClass.endRun
      { p with
        endPagePtr := if free ≠ 0 then some (a + p.size) else none
        endPageFree := free
        requested } = run (a + p.size) p.size free := by
    by_cases last : free = 0
    · simp [SlabClass.endRun, last]
    · simp [SlabClass.endRun, last]
  refine
    { partition := ?_
      cursor := fun goesOn => ?_
      slotsRoom := inv.slotsRoom
      slabsRoom := inv.slabsRoom }
  · rw [rest]
    refine List.Perm.trans (List.perm_iff_count.mpr fun x => ?_) before
    simp only [List.cons_append, List.count_append, List.count_cons]
    omega
  · refine ⟨?_, by change free < _; omega⟩
    by_contra last
    simp [show free = 0 by simpa using last] at goesOn

theorem push (inv : ClassInv p out lost) {a slTotal : ℕ} (handedOut : a ∈ out)
    (room : p.slots.length < slTotal) (requested : ℕ) :
    ClassInv { p with slTotal, slots := a :: p.slots, requested } (out.erase a) lost where
  partition := by
    refine List.Perm.trans (List.perm_iff_count.mpr fun x => ?_) inv.partition
    have occurs : 0 < out.count a := List.count_pos_iff.mpr handedOut
    simp only [SlabClass.endRun, List.count_append, List.count_cons, List.count_erase]
    by_cases same : a = x
    · subst same
      simp only [beq_self_eq_true, if_true]
      omega
    · simp [same]
  cursor := inv.cursor
  slotsRoom := room
  slabsRoom := inv.slabsRoom

theorem lose (inv : ClassInv p out lost) {a : ℕ} (handedOut : a ∈ out) :
    ClassInv p (out.erase a) (a :: lost) where
  partition := by
    refine List.Perm.trans (List.perm_iff_count.mpr fun x => ?_) inv.partition
    have occurs : 0 < out.count a := List.count_pos_iff.mpr handedOut
    simp only [List.count_append, List.count_cons, List.count_erase]
    by_cases same : a = x
    · subst same
      simp only [beq_self_eq_true, if_true]
      omega
    · simp [same]
  cursor := inv.cursor
  slotsRoom := inv.slotsRoom
  slabsRoom := inv.slabsRoom

end ClassInv

theorem SlabInv.resize {s : SlabAllocator} {out lost : ℕ → List ℕ} (inv : SlabInv s out lost)
    {id listSize : ℕ} (room : (s.slabclass id).slabList.length ≤ listSize) :
    SlabInv (s.setClass id { s.slabclass id with listSize }) out lost := by
  simpa using inv.setClass id ((inv.classes id).resize room) rfl rfl rfl

theorem SlabClass.listGrows {p : SlabClass} (few : p.slabList.length < 2 ^ 31) (os : Os) :
    p.ListGrows os := by
  intro full _
  rw [← full]
  exact grown_gt few

/-- The pages of all classes are large. -/
def SlabAllocator.LargePages (s : SlabAllocator) : Prop :=
  ∀ id, s.Used id → 2 ^ 17 ≤ (s.slabclass id).size * (s.slabclass id).perslab

/-- There is room in user space for few large pages. -/
theorem SlabInv.few {s : SlabAllocator} {out lost : ℕ → List ℕ} (inv : SlabInv s out lost)
    (pages : s.LargePages) (id : ℕ) : (s.slabclass id).slabList.length < 2 ^ 31 := by
  by_cases used : s.Used id
  · have total := inv.slabs_le id
    have large := pages id used
    cases slabs : (s.slabclass id).slabList with
    | nil => simp
    | cons b rest =>
        have len := inv.len_eq (show b ∈ (s.slabclass id).slabList by simp [slabs])
        rw [slabs, len] at total
        have least := Nat.mul_le_mul_left (b :: rest).length large
        simp only [userSpace] at total
        omega
  · simp [inv.unused id used]

namespace SlabAllocator

/-- Two allocators have the same class sizes. -/
structure SameTable (s s' : SlabAllocator) : Prop where
  powerLargest : s'.powerLargest = s.powerLargest
  size : ∀ i, (s'.slabclass i).size = (s.slabclass i).size
  perslab : ∀ i, (s'.slabclass i).perslab = (s.slabclass i).perslab

/-- What a call does to the slabs and to memory: nothing, or it adds a slab, cleared and
apart from all others. -/
def AddsPages (s s' : SlabAllocator) (id : ℕ) (mem mem' : Mem) : Prop :=
  ((∀ i, (s'.slabclass i).slabList = (s.slabclass i).slabList) ∧ mem' = mem) ∨
    ∃ ptr,
      (∀ i, (s'.slabclass i).slabList =
        if i = id then ptr :: (s.slabclass i).slabList else (s.slabclass i).slabList) ∧
      (∀ i, ∀ b ∈ (s.slabclass i).slabList,
        Apart ptr (s.slabclass id).len b (s.slabclass i).len) ∧
      mem' = mem.clear ptr (s.slabclass id).len

/-- The limit on memory allows the class another page. -/
def MayGrow (s : SlabAllocator) (id : ℕ) : Prop :=
  ¬(s.memLimit ≠ 0 ∧ s.memLimit < (s.memMalloced + (s.slabclass id).len) % 2 ^ 64 ∧
    0 < (s.slabclass id).slabList.length)

/-- A request gets a page, when those in `earlier` got none. -/
def PageGranted (s : SlabAllocator) (id : ℕ) (earlier : List Os) (os : Os) : Prop :=
  s.MayGrow id ∧ (∃ os' ∈ os :: earlier, (s.slabclass id).ListRoom os') ∧
    (os.malloc (s.slabclass id).len).isSome = true

/-- A class hands out a chunk. -/
def Offers (s : SlabAllocator) (id : ℕ) (earlier : List Os) (os : Os) : Prop :=
  (s.slabclass id).slots ≠ [] ∨ (s.slabclass id).endPagePtr ≠ none ∨ s.PageGranted id earlier os

/-- A class has nothing left, and a page request fails. It may leave the slab list with more
room. -/
structure Refuses (s : SlabAllocator) (id listSize : ℕ) (os : Os) : Prop where
  slots : (s.slabclass id).slots = []
  endPagePtr : (s.slabclass id).endPagePtr = none
  page : ¬s.PageGranted id [] os
  listRoom : s.MayGrow id → ∀ os', SlabClass.ListRoom { s.slabclass id with listSize } os' ↔
    (s.slabclass id).ListRoom os ∨ (s.slabclass id).ListRoom os'

variable {s s' s'' : SlabAllocator} {out lost : ℕ → List ℕ} {id : ℕ} {os : Os} {mem : Mem}

theorem SameTable.refl (s : SlabAllocator) : SameTable s s := ⟨rfl, fun _ => rfl, fun _ => rfl⟩

theorem SameTable.trans (first : SameTable s s') (second : SameTable s' s'') :
    SameTable s s'' where
  powerLargest := second.powerLargest.trans first.powerLargest
  size i := (second.size i).trans (first.size i)
  perslab i := (second.perslab i).trans (first.perslab i)

theorem SameTable.largePages (table : SameTable s s') (pages : s.LargePages) : s'.LargePages := by
  intro i used
  rw [Used, table.powerLargest] at used
  simpa only [table.size, table.perslab] using pages i used

theorem SameTable.len (table : SameTable s s') (i : ℕ) :
    (s'.slabclass i).len = (s.slabclass i).len := by
  simp only [SlabClass.len, table.size, table.perslab]

theorem MallocFresh.congr (fresh : s.MallocFresh os) (table : SameTable s s')
    (slabList : ∀ i, (s'.slabclass i).slabList = (s.slabclass i).slabList) :
    s'.MallocFresh os := by
  intro n ptr answer
  rcases fresh n ptr answer with ⟨nonNull, user, apart⟩
  refine ⟨nonNull, user, fun id b isSlab => ?_⟩
  rw [slabList] at isSlab
  rw [table.len]
  exact apart id b isSlab

theorem Refuses.not_offers {listSize : ℕ} (refuses : s.Refuses id listSize os) :
    ¬s.Offers id [] os := by
  rintro (slots | page | granted)
  · exact slots refuses.slots
  · exact page refuses.endPagePtr
  · exact refuses.page granted

@[simp]
theorem slabclass_setClass_self (s : SlabAllocator) (id : ℕ) (p : SlabClass) :
    (s.setClass id p).slabclass id = p :=
  Function.update_self ..

theorem slabclass_setClass_of_ne {i : ℕ} (other : i ≠ id) (p : SlabClass) :
    (s.setClass id p).slabclass i = s.slabclass i :=
  Function.update_of_ne other ..

@[simp]
theorem setClass_setClass (s : SlabAllocator) (id : ℕ) (p p' : SlabClass) :
    (s.setClass id p).setClass id p' = s.setClass id p' := by
  simp [setClass]

theorem setClass_self (s : SlabAllocator) (id : ℕ) : s.setClass id (s.slabclass id) = s := by
  simp [setClass]

/-- After a refused request the next one finds the slab list as that left it. -/
theorem Refuses.pageGranted_iff {listSize : ℕ} (refuses : s.Refuses id listSize os)
    (earlier : List Os) (os' : Os) :
    (s.setClass id { s.slabclass id with listSize }).PageGranted id earlier os' ↔
      s.PageGranted id (earlier ++ [os]) os' := by
  have sameMay : (s.setClass id { s.slabclass id with listSize }).MayGrow id ↔ s.MayGrow id := by
    simp only [MayGrow, slabclass_setClass_self, SlabClass.len]
    rfl
  simp only [PageGranted, sameMay, slabclass_setClass_self]
  refine and_congr_right fun may => and_congr_left fun _ => ?_
  simp only [refuses.listRoom may, List.mem_cons, List.mem_append, List.not_mem_nil, or_false]
  constructor
  · rintro ⟨first, isFirst, listRoom | listRoom⟩
    · exact ⟨os, Or.inr (Or.inr rfl), listRoom⟩
    · exact ⟨first, isFirst.imp_right Or.inl, listRoom⟩
  · rintro ⟨first, isFirst | isFirst | rfl, listRoom⟩
    · exact ⟨first, Or.inl isFirst, Or.inr listRoom⟩
    · exact ⟨first, Or.inr isFirst, Or.inr listRoom⟩
    · exact ⟨os', Or.inl rfl, Or.inl listRoom⟩

theorem SameTable.setClass {p : SlabClass} (size : p.size = (s.slabclass id).size)
    (perslab : p.perslab = (s.slabclass id).perslab) : SameTable s (s.setClass id p) where
  powerLargest := rfl
  size i := by
    by_cases same : i = id
    · subst same
      simpa using size
    · rw [slabclass_setClass_of_ne same]
  perslab i := by
    by_cases same : i = id
    · subst same
      simpa using perslab
    · rw [slabclass_setClass_of_ne same]

/-! ## Pages -/

theorem growSlabList_cases (room : (s.slabclass id).slabList.length ≤ (s.slabclass id).listSize)
    (grows : (s.slabclass id).ListGrows os) :
    (s.growSlabList id os = none ∧ ¬(s.slabclass id).ListRoom os) ∨
      ∃ listSize, (s.slabclass id).slabList.length < listSize ∧
        s.growSlabList id os = some (s.setClass id { s.slabclass id with listSize }) ∧
        (s.slabclass id).ListRoom os := by
  simp only [growSlabList]
  by_cases full : (s.slabclass id).slabList.length = (s.slabclass id).listSize
  · rw [if_pos full]
    by_cases granted : os.realloc (grown (s.slabclass id).listSize * sizeofPointer) = true
    · refine Or.inr ⟨grown (s.slabclass id).listSize, ?_, if_pos granted, fun _ => granted⟩
      exact full ▸ grows full granted
    · exact Or.inl ⟨if_neg granted, fun listRoom => granted (listRoom full)⟩
  · rw [if_neg full]
    refine Or.inr ⟨_, Nat.lt_of_le_of_ne room full, ?_, fun full' => absurd full' full⟩
    rw [setClass_self]

/-- A page request ends without a page, or with a fresh one. -/
theorem doSlabsNewslab_cases (mem : Mem) (inv : SlabInv s out lost)
    (grows : (s.slabclass id).ListGrows os) :
    (∃ listSize, (s.slabclass id).slabList.length ≤ listSize ∧
        s.doSlabsNewslab mem id os =
          .ok (s.setClass id { s.slabclass id with listSize }, mem, false) ∧
        ¬s.PageGranted id [] os ∧
        (s.MayGrow id → ∀ os', SlabClass.ListRoom { s.slabclass id with listSize } os' ↔
          (s.slabclass id).ListRoom os ∨ (s.slabclass id).ListRoom os')) ∨
      ∃ listSize ptr, (s.slabclass id).slabList.length < listSize ∧
        os.malloc (s.slabclass id).len = some ptr ∧
        s.doSlabsNewslab mem id os =
          .ok ({ s.setClass id ((s.slabclass id).addPage ptr listSize) with
              memMalloced := (s.memMalloced + (s.slabclass id).len) % 2 ^ 64 },
            mem.clear ptr (s.slabclass id).len, true) ∧
        s.PageGranted id [] os := by
  have room := (inv.classes id).slabsRoom
  simp only [doSlabsNewslab]
  by_cases limited : s.memLimit ≠ 0 ∧
      s.memLimit < (s.memMalloced + (s.slabclass id).len) % 2 ^ 64 ∧
      0 < (s.slabclass id).slabList.length
  · rw [if_pos limited]
    refine Or.inl ⟨_, room, ?_, fun granted => granted.1 limited, fun may => absurd limited may⟩
    rw [setClass_self]
  · rw [if_neg limited]
    rcases growSlabList_cases room grows with
      ⟨refused, noRoom⟩ | ⟨listSize, larger, granted, listRoom⟩
    · simp only [refused]
      refine Or.inl ⟨_, room, ?_, ?_, fun _ os' => ?_⟩
      · rw [setClass_self]
      · rintro ⟨-, ⟨os', isFirst, listRoom⟩, -⟩
        rw [List.mem_singleton] at isFirst
        exact noRoom (isFirst ▸ listRoom)
      · exact (or_iff_right noRoom).symm
    · simp only [granted, memoryAllocate]
      have heap : (s.setClass id { s.slabclass id with listSize }).memBase = none := inv.heap
      simp only [heap]
      cases answer : os.malloc (s.slabclass id).len with
      | none =>
          refine Or.inl ⟨listSize, Nat.le_of_lt larger, rfl, ?_, fun _ os' => ?_⟩
          · rintro ⟨-, -, some⟩
            simp [answer] at some
          · exact iff_of_true (fun full => absurd full larger.ne) (Or.inl listRoom)
      | some ptr =>
          refine Or.inr ⟨listSize, ptr, larger, rfl, ?_, limited, ⟨os, by simp, listRoom⟩, ?_⟩
          · simp only [slabclass_setClass_self, Nat.not_le.mpr larger, if_false, setClass_setClass]
            rfl
          · rw [answer]
            rfl

/-! ## Allocation -/

theorem takeChunk_eq (inv : SlabInv s out lost) (size id : ℕ)
    (available : (s.slabclass id).slots ≠ [] ∨ (s.slabclass id).endPagePtr ≠ none) :
    ∃ a s', s.takeChunk size id = .ok (s', some a) ∧ SameTable s s' ∧
      (∀ i, (s'.slabclass i).slabList = (s.slabclass i).slabList) ∧
      (∀ i, (s'.slabclass i).slTotal = (s.slabclass i).slTotal) ∧
      SlabInv s' (Function.update out id (a :: out id)) lost := by
  have result (a : ℕ) (p : SlabClass) (sameSize : p.size = (s.slabclass id).size)
      (perslab : p.perslab = (s.slabclass id).perslab)
      (slabList : p.slabList = (s.slabclass id).slabList)
      (slTotal : p.slTotal = (s.slabclass id).slTotal)
      (cls : ClassInv p (a :: out id) (lost id)) :
      SameTable s (s.setClass id p) ∧
        (∀ i, ((s.setClass id p).slabclass i).slabList = (s.slabclass i).slabList) ∧
        (∀ i, ((s.setClass id p).slabclass i).slTotal = (s.slabclass i).slTotal) ∧
        SlabInv (s.setClass id p) (Function.update out id (a :: out id)) lost := by
    refine ⟨.setClass sameSize perslab, fun i => ?_, fun i => ?_, ?_⟩
    · by_cases same : i = id
      · subst same
        simpa using slabList
      · rw [slabclass_setClass_of_ne same]
    · by_cases same : i = id
      · subst same
        simpa using slTotal
      · rw [slabclass_setClass_of_ne same]
    · simpa using inv.setClass id cls sameSize perslab slabList
  cases first : (s.slabclass id).slots with
  | cons a slots =>
      refine ⟨a, _, by simp only [takeChunk, first]; rfl, ?_⟩
      exact result a _ rfl rfl rfl rfl ((inv.classes id).pop first _)
  | nil =>
      cases page : (s.slabclass id).endPagePtr with
      | none => simp [first, page] at available
      | some a =>
          refine ⟨a, _, by simp only [takeChunk, first, page]; rfl, ?_⟩
          exact result a _ rfl rfl rfl rfl
                (by simpa [first] using (inv.classes id).advance page _)

/-- `do_slabs_alloc` fails, because the class has nothing left, and changes at most the room
of its slab list, or it hands out a chunk. -/
theorem doSlabsAlloc_cases (inv : SlabInv s out lost) (fresh : s.MallocFresh os)
    (grows : (s.slabclass id).ListGrows os) (mem : Mem) (size : ℕ) :
    (∃ listSize, (s.slabclass id).slabList.length ≤ listSize ∧
        s.doSlabsAlloc mem size id os =
          .ok (s.setClass id { s.slabclass id with listSize }, mem, none) ∧
        (s.Used id → s.Refuses id listSize os)) ∨
      ∃ s' mem' a, s.doSlabsAlloc mem size id os = .ok (s', mem', some a) ∧ s.Used id ∧
        SameTable s s' ∧ s.AddsPages s' id mem mem' ∧
        (∀ i, (s'.slabclass i).slTotal = (s.slabclass i).slTotal) ∧
        SlabInv s' (Function.update out id (a :: out id)) lost ∧ s.Offers id [] os := by
  by_cases refused : id < powerSmallest ∨ s.powerLargest < id
  · refine Or.inl ⟨_, (inv.classes id).slabsRoom, ?_, fun used => ?_⟩
    · rw [setClass_self]
      exact if_pos refused
    · unfold Used at used
      omega
  · have used : s.Used id := by
      unfold Used
      omega
    simp only [doSlabsAlloc, if_neg refused]
    by_cases nothing : (s.slabclass id).endPagePtr = none ∧ (s.slabclass id).slots = []
    · rcases nothing with ⟨noPage, noSlots⟩
      rw [if_pos ⟨noPage, noSlots⟩]
      rcases doSlabsNewslab_cases mem inv grows with
        ⟨listSize, room, run, noGrant, listRoom⟩ | ⟨listSize, ptr, room, answer, run, granted⟩
      · refine Or.inl ⟨listSize, room, ?_, fun _ => ⟨noSlots, noPage, noGrant, listRoom⟩⟩
        rw [run]
        rfl
      · rcases fresh _ ptr answer with ⟨nonNull, inUser, apart⟩
        have added := inv.addSlab ((s.memMalloced + (s.slabclass id).len) % 2 ^ 64) used noSlots
          noPage room nonNull inUser apart
        rcases takeChunk_eq added size id (Or.inr (by simp [SlabClass.addPage])) with
          ⟨a, s', taken, table, slabs, totals, inv'⟩
        refine Or.inr ⟨s', _, a, ?_, used, ?_, Or.inr ⟨ptr, fun i => ?_, apart, rfl⟩,
          fun i => ?_, inv', Or.inr (Or.inr granted)⟩
        · rw [run]
          simp only [ok_bind, if_true, taken]
          rfl
        · have paged : SameTable s (s.setClass id ((s.slabclass id).addPage ptr listSize)) :=
            .setClass rfl rfl
          exact ⟨table.powerLargest, fun i => (table.size i).trans (paged.size i),
            fun i => (table.perslab i).trans (paged.perslab i)⟩
        · rw [slabs]
          by_cases same : i = id
          · subst same
            simp [SlabClass.addPage]
          · rw [if_neg same]
            exact congrArg SlabClass.slabList (slabclass_setClass_of_ne same _)
        · rw [totals]
          by_cases same : i = id
          · subst same
            simp [SlabClass.addPage]
          · exact congrArg SlabClass.slTotal (slabclass_setClass_of_ne same _)
    · rw [if_neg nothing]
      rcases takeChunk_eq inv size id (by tauto) with ⟨a, s', taken, table, slabs, totals, inv'⟩
      refine Or.inr ⟨s', mem, a, ?_, used, table, Or.inl ⟨slabs, rfl⟩, totals, inv', ?_⟩
      · simp only [pure_eq_ok, ok_bind, if_true, taken]
      · rw [not_and_or] at nothing
        exact nothing.elim (fun page => Or.inr (Or.inl page)) Or.inl

/-! ## Release -/

/-- `do_slabs_free` puts the chunk on the free list, or drops it if the list cannot grow. -/
theorem doSlabsFree_cases (used : s.Used id)
    (room : (s.slabclass id).slots.length ≤ (s.slabclass id).slTotal)
    (grows : (s.slabclass id).SlotsGrow os) (ptr size : ℕ) :
    (∃ slTotal, (s.slabclass id).slots.length < slTotal ∧
        (slTotal = (s.slabclass id).slTotal ∨ slTotal = grown (s.slabclass id).slTotal ∧
          os.realloc (signExtend (grown (s.slabclass id).slTotal) * sizeofPointer % 2 ^ 64) =
            true) ∧
        s.doSlabsFree ptr size id os = .ok (s.setClass id { s.slabclass id with
          slTotal
          slots := ptr :: (s.slabclass id).slots
          requested := ((s.slabclass id).requested + (2 ^ 64 - size)) % 2 ^ 64 })) ∨
      s.doSlabsFree ptr size id os = .ok s ∧
        (s.slabclass id).slots.length = (s.slabclass id).slTotal ∧
        os.realloc (signExtend (grown (s.slabclass id).slTotal) * sizeofPointer % 2 ^ 64) =
          false := by
  have accepted : ¬(id < powerSmallest ∨ s.powerLargest < id) := by
    unfold Used at used
    omega
  simp only [doSlabsFree, if_neg accepted]
  by_cases full : (s.slabclass id).slots.length = (s.slabclass id).slTotal
  · by_cases granted :
        os.realloc (signExtend (grown (s.slabclass id).slTotal) * sizeofPointer % 2 ^ 64) = true
    · have larger := grows full granted
      refine Or.inl ⟨grown (s.slabclass id).slTotal, by omega, Or.inr ⟨rfl, granted⟩, ?_⟩
      simp only [granted, full, Bool.not_true, Bool.false_eq_true, and_false, if_false, if_true,
        Nat.not_le.mpr larger]
    · rw [Bool.not_eq_true] at granted
      exact Or.inr ⟨if_pos ⟨full, by rw [granted]; rfl⟩, full, granted⟩
  · have larger := Nat.lt_of_le_of_ne room full
    refine Or.inl ⟨_, larger, Or.inl rfl, ?_⟩
    simp only [full, false_and, if_false, Nat.not_le.mpr larger]

/-- With sizes that fit in user space no free list has room for `2 ^ 31` elements. -/
theorem grown_lt_of_fits {os : Os} {total : ℕ} (fits : ∀ n, os.realloc n = true → n ≤ userSpace)
    (granted : os.realloc (signExtend (grown total) * sizeofPointer % 2 ^ 64) = true) :
    grown total < 2 ^ 31 := by
  by_contra large
  have size := fits _ granted
  have range : grown total < 2 ^ 32 := by
    unfold grown
    split <;> omega
  simp only [signExtend, if_neg large, sizeofPointer, userSpace] at size
  omega

/-- What `do_slabs_free` did to the free lists: the chunk is on the list of its class, or that
list could not grow. -/
structure Frees (s s' : SlabAllocator) (id ptr : ℕ) (os : Os) : Prop where
  table : SameTable s s'
  slabList : ∀ i, (s'.slabclass i).slabList = (s.slabclass i).slabList
  slots : (s'.slabclass id).slots = ptr :: (s.slabclass id).slots ∧
      ((s.slabclass id).slots.length = (s.slabclass id).slTotal →
        os.realloc (signExtend (grown (s.slabclass id).slTotal) * sizeofPointer % 2 ^ 64) = true) ∨
    s' = s ∧ (s.slabclass id).slots.length = (s.slabclass id).slTotal ∧
      os.realloc (signExtend (grown (s.slabclass id).slTotal) * sizeofPointer % 2 ^ 64) = false
  room : (∀ n, os.realloc n = true → n ≤ userSpace) → (∀ i, (s.slabclass i).slTotal < 2 ^ 31) →
    ∀ i, (s'.slabclass i).slTotal < 2 ^ 31

/-- Freeing a chunk that is handed out keeps the partition. It loses the chunk only if
`realloc` fails. -/
theorem doSlabsFree_eq (inv : SlabInv s out lost) {ptr : ℕ} (handedOut : ptr ∈ out id)
    (grows : (s.slabclass id).SlotsGrow os) (size : ℕ) :
    ∃ s' lost', s.doSlabsFree ptr size id os = .ok s' ∧ Frees s s' id ptr os ∧
      SlabInv s' (Function.update out id ((out id).erase ptr)) lost' ∧
      ((∀ n, os.realloc n = true) → lost' = lost) := by
  have used := inv.used_of_mem_out handedOut
  rcases doSlabsFree_cases used (inv.classes id).slotsRoom grows ptr size with
    ⟨slTotal, room, total, run⟩ | ⟨run, full, refused⟩
  · refine ⟨_, lost, run,
      { table := .setClass rfl rfl
        slabList := fun i => ?_
        slots := Or.inl ⟨by simp, fun full => ?_⟩
        room := fun fits small i => ?_ }, ?_, fun _ => rfl⟩
    · by_cases same : i = id
      · subst same
        simp
      · rw [slabclass_setClass_of_ne same]
    · rcases total with rfl | ⟨-, granted⟩
      · exact absurd full room.ne
      · exact granted
    · by_cases same : i = id
      · subst same
        rw [slabclass_setClass_self]
        rcases total with rfl | ⟨rfl, granted⟩
        · exact small i
        · exact grown_lt_of_fits fits granted
      · rw [slabclass_setClass_of_ne same]
        exact small i
    · simpa using inv.setClass id ((inv.classes id).push handedOut room _) rfl rfl rfl
  · refine ⟨s, Function.update lost id (ptr :: lost id), run,
      { table := ⟨rfl, fun _ => rfl, fun _ => rfl⟩
        slabList := fun _ => rfl
        slots := Or.inr ⟨rfl, full, refused⟩
        room := fun _ small => small }, ?_, fun grants => ?_⟩
    · have dropped := inv.setClass id ((inv.classes id).lose handedOut) rfl rfl rfl
      rwa [setClass_self] at dropped
    · rw [grants] at refused
      simp at refused

end SlabAllocator

end ChaosCache
