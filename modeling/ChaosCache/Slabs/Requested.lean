import Mathlib.Algebra.BigOperators.Group.List.Basic
import Mathlib.Algebra.Order.BigOperators.Group.List
import ChaosCache.Slabs.Limit

/-!
# The accounts of the classes

`requested` of a class is what was asked for when its chunks were handed out, as long as each chunk
is taken back with the size that it was asked with. A chunk that is lost stays on the account.
-/

namespace ChaosCache

open Blocks

/-- `realloc` grants nothing beyond user space and, if it grants all it can, everything else. -/
structure Os.Reallocs (os : Os) (all : Prop) : Prop where
  fits : ∀ n, os.realloc n = true → n ≤ userSpace
  grants : all → ∀ n ≤ userSpace, os.realloc n = true

namespace SlabAllocator

/-- The account of each class is the sum of what was asked for its chunks, which they hold. -/
structure Charged (s : SlabAllocator) (out lost : ℕ → List ℕ) (asked : ℕ → ℕ) : Prop where
  slabs : SlabInv s out lost
  fits : ∀ id, ∀ a ∈ out id ++ lost id, 0 < asked a ∧ asked a ≤ (s.slabclass id).size
  requested : ∀ id, (s.slabclass id).requested = ((out id ++ lost id).map asked).sum
  pages : s.LargePages
  room : ∀ id, (s.slabclass id).slTotal < 2 ^ 31

/-- Classes with few chunks lose none of them. A free list with room for `2 ^ 30` elements cannot
grow, as its next size in bytes is negative. -/
def Spares (s s' : SlabAllocator) (lost lost' : ℕ → List ℕ) : Prop :=
  ∀ i, (s'.slabclass i).chunks.length < 2 ^ 30 →
    (s.slabclass i).chunks.length < 2 ^ 30 ∧ lost' i = lost i

variable {s s' s'' : SlabAllocator} {out lost lost' lost'' : ℕ → List ℕ} {asked : ℕ → ℕ}
  {mem mem' : Mem} {id size : ℕ} {os : Os}

namespace Spares

theorem refl (s : SlabAllocator) (lost : ℕ → List ℕ) : s.Spares s lost lost :=
  fun _ few => ⟨few, rfl⟩

theorem trans (first : s.Spares s' lost lost') (second : s'.Spares s'' lost' lost'') :
    s.Spares s'' lost lost'' := by
  intro i few
  rcases second i few with ⟨few, same₂⟩
  rcases first i few with ⟨few, same₁⟩
  exact ⟨few, same₂.trans same₁⟩

/-- Slabs are only added. -/
theorem of_table (table : SameTable s s')
    (slabs : ∀ i, (s.slabclass i).slabList.length ≤ (s'.slabclass i).slabList.length) :
    s.Spares s' lost lost := by
  intro i few
  refine ⟨?_, rfl⟩
  rw [SlabClass.length_chunks, table.perslab] at few
  rw [SlabClass.length_chunks]
  have more := Nat.mul_le_mul_left (s.slabclass i).perslab (slabs i)
  omega

theorem of_addsPages (table : SameTable s s') (pages : s.AddsPages s' id mem mem') :
    s.Spares s' lost lost := by
  apply of_table table
  intro i
  rcases pages with ⟨slabList, -⟩ | ⟨ptr, slabList, -⟩
  · rw [slabList]
  · rw [slabList]
    split <;> simp

end Spares

theorem requested_of_takeChunk {chunk : Option ℕ} (run : s.takeChunk size id = .ok (s', chunk)) :
    chunk.isSome ∧ ∀ i, (s'.slabclass i).requested =
      if i = id then ((s.slabclass i).requested + size) % 2 ^ 64
      else (s.slabclass i).requested := by
  have charged (p : SlabClass)
      (requested : p.requested = ((s.slabclass id).requested + size) % 2 ^ 64) (i : ℕ) :
      ((s.setClass id p).slabclass i).requested =
        if i = id then ((s.slabclass i).requested + size) % 2 ^ 64
        else (s.slabclass i).requested := by
    by_cases same : i = id
    · subst same
      simpa using requested
    · simp [slabclass_setClass_of_ne, same]
  simp only [takeChunk] at run
  split at run
  · cases run
    exact ⟨rfl, charged _ rfl⟩
  · cases run
  · cases run
    exact ⟨rfl, charged _ rfl⟩

theorem requested_of_doSlabsNewslab {available : Bool}
    (run : s.doSlabsNewslab mem id os = .ok (s', mem', available)) (i : ℕ) :
    (s'.slabclass i).requested = (s.slabclass i).requested := by
  simp only [doSlabsNewslab] at run
  split at run
  · cases run
    rfl
  · split at run
    · cases run
      rfl
    · rename_i s₁ grew
      rcases growSlabList_ok grew with ⟨listSize, rfl⟩
      have resized : ((s.setClass id { s.slabclass id with listSize }).slabclass i).requested =
          (s.slabclass i).requested := by
        by_cases same : i = id
        · subst same
          simp
        · rw [slabclass_setClass_of_ne same]
      split at run
      · rename_i next refused
        cases run
        rw [(memoryAllocate_ok refused).1 rfl]
        exact resized
      · rename_i next ptr allocated
        rcases (memoryAllocate_ok allocated).2 ptr rfl with ⟨memCurrent, memAvail, -, rfl, -⟩
        split at run
        · cases run
        · cases run
          by_cases same : i = id
          · subst same
            simp
          · rw [← resized]
            simp [setClass, same]

/-- A call that hands out a chunk charges the class with the size. -/
theorem requested_of_doSlabsAlloc {chunk : Option ℕ}
    (run : s.doSlabsAlloc mem size id os = .ok (s', mem', chunk)) (i : ℕ) :
    (s'.slabclass i).requested =
      if chunk.isSome ∧ i = id then ((s.slabclass i).requested + size) % 2 ^ 64
      else (s.slabclass i).requested := by
  have taken (s₁ : SlabAllocator) (mem₁ : Mem) (available : Bool)
      (kept : ∀ i, (s₁.slabclass i).requested = (s.slabclass i).requested)
      (rest : (if available = true then do
        let took ← s₁.takeChunk size id
        pure (took.1, mem₁, took.2)
      else pure (s₁, mem₁, none)) = Except.ok (s', mem', chunk)) :
      (s'.slabclass i).requested =
        if chunk.isSome ∧ i = id then ((s.slabclass i).requested + size) % 2 ^ 64
        else (s.slabclass i).requested := by
    split at rest
    · rcases bind_eq_ok.mp rest with ⟨⟨s₂, chunk₂⟩, took, done⟩
      cases done
      rcases requested_of_takeChunk took with ⟨isSome, charged⟩
      simp only [charged, isSome, true_and, kept]
    · cases rest
      simp [kept]
  simp only [doSlabsAlloc] at run
  split at run
  · cases run
    simp
  · split at run
    · rcases bind_eq_ok.mp run with ⟨⟨s₁, mem₁, available⟩, paged, rest⟩
      exact taken s₁ mem₁ available (requested_of_doSlabsNewslab paged) rest
    · exact taken s mem true (fun _ => rfl) run

end SlabAllocator

namespace SlabInv

variable {s : SlabAllocator} {out lost : ℕ → List ℕ} {asked : ℕ → ℕ} {id a : ℕ}

/-- Chunks that are handed out or lost fill at most the chunks of their class. -/
theorem sum_le (inv : SlabInv s out lost)
    (fits : ∀ a ∈ out id ++ lost id, asked a ≤ (s.slabclass id).size) :
    ((out id ++ lost id).map asked).sum ≤ userSpace := by
  have parts := (inv.classes id).partition.length_eq
  have few : (out id ++ lost id).length ≤ (s.slabclass id).chunks.length := by
    simp only [List.length_append] at parts ⊢
    omega
  calc ((out id ++ lost id).map asked).sum
      ≤ ((out id ++ lost id).map asked).length * (s.slabclass id).size := by
        apply List.sum_le_card_nsmul
        intro size isSize
        rcases List.mem_map.mp isSize with ⟨a, isChunk, rfl⟩
        exact fits a isChunk
    _ ≤ (s.slabclass id).chunks.length * (s.slabclass id).size := by
        rw [List.length_map]
        exact Nat.mul_le_mul_right _ few
    _ ≤ userSpace := inv.chunks_le id

/-- A chunk that has just been handed out was neither out nor lost. -/
theorem notMem_of_new (inv : SlabInv s (Function.update out id (a :: out id)) lost) (i : ℕ) :
    a ∉ out i ++ lost i := by
  intro again
  have isNew : a ∈ (s.slabclass id).chunks := inv.mem_chunks_of_mem_out (by simp)
  have isChunk : a ∈ (s.slabclass i).chunks := by
    apply (inv.classes i).partition.subset
    by_cases same : i = id
    · subst same
      simp
    · rw [Function.update_of_ne same]
      rcases List.mem_append.mp again with isOut | isLost
      · simp [isOut]
      · simp [isLost]
  have same := inv.class_unique isChunk isNew
  subst same
  have distinct := inv.nodup_parts i
  rw [Function.update_self] at distinct
  simp only [List.cons_append, List.nodup_cons, List.mem_append] at distinct
  rcases List.mem_append.mp again with isOut | isLost
  · exact distinct.1 (Or.inl (Or.inl (Or.inl isOut)))
  · exact distinct.1 (Or.inr isLost)

end SlabInv

namespace SlabAllocator.Charged

variable {s s' : SlabAllocator} {out lost : ℕ → List ℕ} {asked : ℕ → ℕ} {mem mem' : Mem}
  {id size a : ℕ} {os : Os}

theorem table (charged : s.Charged out lost asked) (slabs : SlabInv s' out lost)
    (same : SameTable s s') (room : ∀ i, (s'.slabclass i).slTotal = (s.slabclass i).slTotal)
    (requested : ∀ i, (s'.slabclass i).requested = (s.slabclass i).requested) :
    s'.Charged out lost asked where
  slabs := slabs
  fits i := by simpa only [same.size] using charged.fits i
  requested i := (requested i).trans (charged.requested i)
  pages i used := by
    rw [same.size, same.perslab]
    apply charged.pages i
    simpa only [Used, same.powerLargest] using used
  room i := by
    rw [room]
    exact charged.room i

theorem sum_lt (charged : s.Charged out lost asked) (id : ℕ) :
    ((out id ++ lost id).map asked).sum < 2 ^ 64 := by
  have bound := charged.slabs.sum_le fun a isChunk => (charged.fits id a isChunk).2
  simp only [userSpace] at bound
  omega

/-- The chunk that a class hands out goes on its account. -/
theorem hand (charged : s.Charged out lost asked)
    (slabs : SlabInv s' (Function.update out id (a :: out id)) lost) (same : SameTable s s')
    (room : ∀ i, (s'.slabclass i).slTotal = (s.slabclass i).slTotal) (positive : 0 < size)
    (enough : size ≤ (s.slabclass id).size)
    (requested : ∀ i, (s'.slabclass i).requested =
      if i = id then ((s.slabclass i).requested + size) % 2 ^ 64
      else (s.slabclass i).requested) :
    s'.Charged (Function.update out id (a :: out id)) lost (Function.update asked a size) := by
  have other (i b : ℕ) (isChunk : b ∈ out i ++ lost i) :
      Function.update asked a size b = asked b := by
    apply Function.update_of_ne
    rintro rfl
    exact slabs.notMem_of_new i isChunk
  have fits : ∀ i, ∀ b ∈ Function.update out id (a :: out id) i ++ lost i,
      0 < Function.update asked a size b ∧
        Function.update asked a size b ≤ (s'.slabclass i).size := by
    intro i b isChunk
    rw [same.size]
    by_cases isId : i = id
    · subst isId
      rw [Function.update_self, List.cons_append, List.mem_cons] at isChunk
      rcases isChunk with rfl | isChunk
      · simp [positive, enough]
      · rw [other i b isChunk]
        exact charged.fits i b isChunk
    · rw [Function.update_of_ne isId] at isChunk
      rw [other i b isChunk]
      exact charged.fits i b isChunk
  have sums (i : ℕ) : ((out i ++ lost i).map (Function.update asked a size)).sum =
      ((out i ++ lost i).map asked).sum := by
    rw [List.map_congr_left fun b isChunk => other i b isChunk]
  have bound := slabs.sum_le fun b isChunk => (fits id b isChunk).2
  refine ⟨slabs, fits, ?_, ?_, ?_⟩
  · intro i
    rw [requested, charged.requested]
    by_cases isId : i = id
    · subst isId
      simp only [Function.update_self, List.cons_append, List.map_cons, List.sum_cons,
        sums, if_true] at bound ⊢
      rw [Nat.mod_eq_of_lt (by simp only [userSpace] at bound; omega)]
      exact Nat.add_comm _ _
    · rw [if_neg isId, Function.update_of_ne isId, sums]
  · intro i used
    rw [same.size, same.perslab]
    apply charged.pages i
    simpa only [Used, same.powerLargest] using used
  · intro i
    rw [room]
    exact charged.room i

/-- A call that fails leaves the accounts, and one that hands out a chunk charges the class. -/
theorem doSlabsAlloc (charged : s.Charged out lost asked) (fresh : s.MallocFresh os)
    {chunk : Option ℕ} (positive : 0 < size) (enough : size ≤ (s.slabclass id).size)
    (run : s.doSlabsAlloc mem size id os = .ok (s', mem', chunk)) :
    SameTable s s' ∧ s.AddsPages s' id mem mem' ∧
      ((chunk = none ∧ (∀ i, (s'.slabclass i).slabList = (s.slabclass i).slabList) ∧
          s'.Charged out lost asked) ∨
        ∃ a, chunk = some a ∧ (∀ i, a ∉ out i) ∧ a ∈ (s'.slabclass id).chunks ∧
          s'.Charged (Function.update out id (a :: out id)) lost
            (Function.update asked a size)) := by
  have requested := requested_of_doSlabsAlloc run
  have grows := SlabClass.listGrows (charged.slabs.few charged.pages id) os
  rcases doSlabsAlloc_cases charged.slabs fresh grows mem size with
    ⟨listSize, room, run', -⟩ | ⟨s₁, mem₁, a, run', -, same, pages, totals, slabs, -⟩
  · cases run.symm.trans run'
    have kept (i : ℕ) :
        ((s.setClass id { s.slabclass id with listSize }).slabclass i).slabList =
            (s.slabclass i).slabList ∧
          ((s.setClass id { s.slabclass id with listSize }).slabclass i).slTotal =
            (s.slabclass i).slTotal := by
      by_cases isId : i = id
      · subst isId
        simp
      · simp [slabclass_setClass_of_ne, isId]
    refine ⟨.setClass rfl rfl, Or.inl ⟨fun i => (kept i).1, rfl⟩,
      Or.inl ⟨rfl, fun i => (kept i).1, ?_⟩⟩
    apply charged.table (charged.slabs.resize room) (.setClass rfl rfl) fun i => (kept i).2
    simpa using requested
  · cases run.symm.trans run'
    refine ⟨same, pages, Or.inr ⟨a, rfl, ?_, ?_, ?_⟩⟩
    · exact fun i isOut => slabs.notMem_of_new i (List.mem_append_left _ isOut)
    · exact slabs.mem_chunks_of_mem_out (by simp)
    · exact charged.hand slabs same totals positive enough (by simpa using requested)

/-- The chunk comes off the account of its class. -/
theorem takeBack (charged : s.Charged out lost asked) (handedOut : a ∈ out id) {slTotal : ℕ}
    (room : (s.slabclass id).slots.length < slTotal) (small : slTotal < 2 ^ 31) :
    (s.setClass id { s.slabclass id with
      slTotal
      slots := a :: (s.slabclass id).slots
      requested := ((s.slabclass id).requested + (2 ^ 64 - asked a)) % 2 ^ 64 }).Charged
        (Function.update out id ((out id).erase a)) lost asked := by
  generalize requested_eq : ((s.slabclass id).requested + (2 ^ 64 - asked a)) % 2 ^ 64 = requested
  have slabs := charged.slabs.setClass id
    ((charged.slabs.classes id).push handedOut room requested) rfl rfl rfl
  rw [Function.update_eq_self] at slabs
  have same : SameTable s (s.setClass id { s.slabclass id with
      slTotal
      slots := a :: (s.slabclass id).slots
      requested }) := .setClass rfl rfl
  refine ⟨slabs, ?_, ?_, ?_, ?_⟩
  · intro i b isChunk
    rw [same.size]
    apply charged.fits i b
    by_cases isId : i = id
    · subst isId
      rw [Function.update_self] at isChunk
      rcases List.mem_append.mp isChunk with isOut | isLost
      · exact List.mem_append_left _ (List.mem_of_mem_erase isOut)
      · exact List.mem_append_right _ isLost
    · rwa [Function.update_of_ne isId] at isChunk
  · intro i
    by_cases isId : i = id
    · subst isId
      have before := charged.requested i
      have bound := charged.sum_lt i
      have parts : ((out i ++ lost i).map asked).sum =
          asked a + (((out i).erase a ++ lost i).map asked).sum := by
        have perm : (out i ++ lost i).Perm (a :: ((out i).erase a ++ lost i)) :=
          (List.perm_cons_erase handedOut).append_right (lost i)
        simpa using (perm.map asked).sum_eq
      rw [slabclass_setClass_self, Function.update_self]
      change requested = _
      omega
    · rw [slabclass_setClass_of_ne isId, Function.update_of_ne isId]
      exact charged.requested i
  · intro i used
    rw [same.size, same.perslab]
    exact charged.pages i used
  · intro i
    by_cases isId : i = id
    · subst isId
      rwa [slabclass_setClass_self]
    · rw [slabclass_setClass_of_ne isId]
      exact charged.room i

/-- A chunk that is lost stays on the account. -/
theorem lose (charged : s.Charged out lost asked) (handedOut : a ∈ out id) :
    s.Charged (Function.update out id ((out id).erase a))
      (Function.update lost id (a :: lost id)) asked := by
  have slabs := charged.slabs.setClass id ((charged.slabs.classes id).lose handedOut) rfl rfl rfl
  rw [setClass_self] at slabs
  have perm (i : ℕ) : (Function.update out id ((out id).erase a) i ++
      Function.update lost id (a :: lost id) i).Perm (out i ++ lost i) := by
    by_cases isId : i = id
    · subst isId
      rw [Function.update_self, Function.update_self]
      exact List.perm_middle.trans
        ((List.perm_cons_erase handedOut).symm.append_right (lost i))
    · rw [Function.update_of_ne isId, Function.update_of_ne isId]
  refine ⟨slabs, ?_, ?_, charged.pages, charged.room⟩
  · intro i b isChunk
    exact charged.fits i b ((perm i).mem_iff.mp isChunk)
  · intro i
    rw [((perm i).map asked).sum_eq]
    exact charged.requested i

/-- The next size of a full free list is one that `realloc` can grant, if the class has few
chunks. -/
theorem grown_le (charged : s.Charged out lost asked) (handedOut : a ∈ out id)
    (large : 16 ≤ asked a) (full : (s.slabclass id).slots.length = (s.slabclass id).slTotal)
    (few : (s.slabclass id).chunks.length < 2 ^ 30) :
    signExtend (grown (s.slabclass id).slTotal) * sizeofPointer % 2 ^ 64 ≤ userSpace := by
  have parts := (charged.slabs.classes id).partition.length_eq
  simp only [List.length_append] at parts
  have bytes := charged.slabs.chunks_le id
  have size : 16 ≤ (s.slabclass id).size :=
    large.trans (charged.fits id a (List.mem_append_left _ handedOut)).2
  have total := Nat.mul_le_mul_left (s.slabclass id).chunks.length size
  have next : grown (s.slabclass id).slTotal ≤ max 16 (2 * (s.slabclass id).slTotal) := by
    unfold grown
    split <;> omega
  have short : grown (s.slabclass id).slTotal < 2 ^ 31 := by omega
  simp only [signExtend, if_pos short, sizeofPointer, userSpace] at bytes ⊢
  omega

/-- A chunk is taken back with the size that it was asked with, or it is lost. -/
theorem doSlabsFree (charged : s.Charged out lost asked) {all : Prop} (reallocs : os.Reallocs all)
    (handedOut : a ∈ out id) (large : 16 ≤ asked a)
    (run : s.doSlabsFree a (asked a) id os = .ok s') :
    ∃ lost', s'.Charged (Function.update out id ((out id).erase a)) lost' asked ∧
      (all → s.Spares s' lost lost') := by
  have used := charged.slabs.used_of_mem_out handedOut
  have keeps := doSlabsFree_ok run
  have grows : (s.slabclass id).SlotsGrow os := fun _ _ => grown_gt (charged.room id)
  rcases doSlabsFree_cases used (charged.slabs.classes id).slotsRoom grows a (asked a) with
    ⟨slTotal, room, total, run'⟩ | ⟨run', full, refused⟩
  · cases run.symm.trans run'
    refine ⟨lost, charged.takeBack handedOut room ?_,
      fun _ => .of_table keeps.table fun i => (congrArg List.length (keeps.slabList i)).ge⟩
    rcases total with rfl | ⟨rfl, granted⟩
    · exact charged.room id
    · exact grown_lt_of_fits reallocs.fits granted
  · cases run.symm.trans run'
    refine ⟨_, charged.lose handedOut, ?_⟩
    intro grants i few
    by_cases isId : i = id
    · subst isId
      have granted := reallocs.grants grants _ (charged.grown_le handedOut large full few)
      exact absurd (refused.symm.trans granted) Bool.false_ne_true
    · exact ⟨few, Function.update_of_ne isId _ _⟩

end SlabAllocator.Charged

end ChaosCache
