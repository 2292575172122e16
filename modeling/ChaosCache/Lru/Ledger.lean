import Mathlib.Algebra.BigOperators.Ring.Finset
import ChaosCache.DataCache.Initial
import ChaosCache.Lru.Accounting
import ChaosCache.Lru.Clients

/-!
# The ledger

What was asked for the items that are allocated, next to the records that the items keep of it and
the accounts of the slab allocator. `do_item_alloc` asks for `nkey` and `nbytes` as they are, while
the item has 16 bits for the one and no sign for the other.
-/

namespace ChaosCache

open Relation SlabAllocator

/-! ## Records -/

namespace LruLists

variable {c c' : LruLists} {it id now : ℕ} {os : Os} {sys : System}

/-- An item records what was asked for. -/
structure Records (c : LruLists) (it : ℕ) (key : List UInt8) (nbytes : ℤ) : Prop where
  fits : (sizeofHashItem + key.length + nbytes : ℤ) ≤
    (c.slabs.slabclass (c.mem.slabsClsid it)).size
  positive : 0 ≤ nbytes
  nkey : c.mem.nkey it = key.length
  nbytes : (c.mem.nbytes it : ℤ) = nbytes
  /-- `item_get_data` points right behind it. -/
  key : c.mem.key it = key

/-- An item records what was asked for if and only if the key is short and the length of the value
is not negative. -/
theorem records_iff {key : List UInt8} {nbytes : ℤ}
    (range : powerSmallest ≤ c.slabs.powerLargest ∧ c.slabs.powerLargest < powerLargest)
    (isInt : nbytes < 2 ^ 31) (run : c.doItemAlloc key nbytes sys = .ok (c', some it)) :
    c'.Records it key nbytes ↔ key.length < 2 ^ 16 ∧ 0 ≤ nbytes := by
  simp only [doItemAlloc] at run
  split at run
  · cases run
  rename_i accepted
  rcases of_slabsClsid range.1 accepted with ⟨used, enough, -⟩
  generalize c.slabs.slabsClsid (ntotal key.length nbytes) = id at *
  rcases bind_eq_ok.mp run with ⟨⟨c₁, chunk⟩, obtained, rest⟩
  have same := sameTable_of_obtainChunk obtained
  cases chunk with
  | none => cases rest
  | some a =>
      rcases bind_eq_ok.mp rest with ⟨c₂, filled, done⟩
      cases done
      rcases bind_eq_ok.mp filled with ⟨-, -, rest⟩
      rcases bind_eq_ok.mp rest with ⟨head, -, rest⟩
      rcases bind_eq_ok.mp rest with ⟨-, -, rest⟩
      split at rest
      · cases rest
      cases rest
      have idRange : id % 2 ^ 8 = id := by
        have largest := range.2
        have upper := used.2
        simp only [powerLargest] at largest
        omega
      have size : (c₁.slabs.slabclass (id % 2 ^ 8)).size = (c.slabs.slabclass id).size := by
        rw [idRange, same.size]
      constructor
      · intro records
        have nkey := records.nkey
        simp only [Function.update_self] at nkey
        exact ⟨by omega, records.positive⟩
      · rintro ⟨short, positive⟩
        have nkey : key.length % 2 ^ 16 = key.length := Nat.mod_eq_of_lt short
        rw [ntotal_eq short positive isInt] at enough
        refine ⟨?_, positive, ?_, ?_, ?_⟩
        · simp only [Function.update_self, size]
          omega
        · simpa using nkey
        · simp only [Function.update_self]
          omega
        · simp only [Mem.key, Function.update_self, nkey, readBytes_writeBytes_zero]

end LruLists

/-! ## The ledger -/

structure Ledger where
  cache : LruLists
  /-- The items that `item_alloc` has ever returned -/
  returned : Finset ℕ
  /-- Those among them that were not freed since -/
  allocated : Finset ℕ
  /-- `sizeof(hash_item) + nkey + nbytes` when the item was allocated -/
  asked : ℕ → ℤ

/-- Lengths that an item can record -/
def Operation.Sized : Operation → Prop
  | alloc key nbytes _ => key.length < 2 ^ 16 ∧ 0 ≤ nbytes
  | _ => True

/-- `realloc` succeeds whenever it can. -/
def Operation.Grants : Operation → Prop
  | alloc _ _ sys => ∀ i, ∀ n ≤ userSpace, (sys.os i).realloc n = true
  | release _ sys => ∀ i, ∀ n ≤ userSpace, (sys.os i).realloc n = true
  | unlink _ sys => ∀ i, ∀ n ≤ userSpace, (sys.os i).realloc n = true
  | store _ sys => ∀ i, ∀ n ≤ userSpace, (sys.os i).realloc n = true
  | _ => True

/-- `nbytes` is an `int`. -/
def Operation.IsInt : Operation → Prop
  | alloc _ nbytes _ => -2 ^ 31 ≤ nbytes ∧ nbytes < 2 ^ 31
  | _ => True

namespace Ledger

def init (cache : LruLists) : Ledger where
  cache := cache
  returned := ∅
  allocated := ∅
  asked _ := 0

variable (l : Ledger)

/-- The ledger after a section, which has freed the items that are new in `freed`. -/
def after (cache : LruLists) : Ledger :=
  { l with
    cache
    allocated := l.allocated \
      (cache.freed.take (cache.freed.length - l.cache.freed.length)).toFinset }

/-- An item is returned. -/
def hand (it : ℕ) (size : ℤ) : Ledger :=
  { l with
    returned := insert it l.returned
    allocated := insert it l.allocated
    asked := Function.update l.asked it size }

def step : Operation → Result Ledger
  | .alloc key nbytes sys => do
      let (cache, it) ← l.cache.itemAlloc key nbytes sys
      match it with
      | none => return l.after cache
      | some it => return (l.after cache).hand it (sizeofHashItem + key.length + nbytes)
  | .get key sys => do
      let (cache, _) ← l.cache.itemGet key sys
      return l.after cache
  | .release it sys => do
      let cache ← l.cache.itemRelease it sys
      return l.after cache
  | .unlink it sys => do
      let cache ← l.cache.itemUnlink it sys
      return l.after cache
  | .store it sys => do
      let cache ← l.cache.storeItem it sys
      return l.after cache
  | .fill it bytes =>
      let mem := { l.cache.mem with bytes := Function.update l.cache.mem.bytes it bytes }
      .ok (l.after { l.cache with mem })
  | .forget _ => .ok l
  | .maintain => do
      let cache ← l.cache.maintenance
      return l.after cache

/-- Clients use items that they were given once. Whether they still hold them does not matter. -/
def Permitted : Operation → Prop
  | .release it _ => it ∈ l.returned
  | .unlink it _ => it ∈ l.returned
  | .store it _ => it ∈ l.returned
  | .fill it _ => it ∈ l.returned
  | _ => True

/-- A step that the interface admits, with lengths that an item can record. -/
def SizedStep (l l' : Ledger) : Prop :=
  ∃ operation : Operation, l.Permitted operation ∧ operation.IsInt ∧
    operation.Sane l.cache.slabs ∧ operation.Sized ∧ l.step operation = .ok l'

/-- Such a step in which no free list is refused its growth by the system. -/
def GrantedStep (l l' : Ledger) : Prop :=
  ∃ operation : Operation, l.Permitted operation ∧ operation.IsInt ∧
    operation.Sane l.cache.slabs ∧ operation.Sized ∧ operation.Grants ∧ l.step operation = .ok l'

/-- The account of a class is what was asked for its items. -/
def Balanced (id : ℕ) : Prop :=
  ((l.cache.slabs.slabclass id).requested : ℤ) =
    ∑ a ∈ l.allocated with l.cache.mem.slabsClsid a = id, l.asked a

/-- Every chunk of a class is allocated or free. -/
def Complete (id : ℕ) : Prop :=
  ∀ a ∈ (l.cache.slabs.slabclass id).chunks, a ∈ l.allocated ∨
    a ∈ (l.cache.slabs.slabclass id).slots ∨ a ∈ (l.cache.slabs.slabclass id).endRun

/-- The ledger says what the accounts say. -/
structure Inv (l : Ledger) (out lost : ℕ → List ℕ) (asked : ℕ → ℕ) : Prop where
  accounts : l.cache.Accounts ↑l.returned out lost asked
  mem_out : ∀ a, a ∈ l.allocated ↔ ∃ id, a ∈ out id
  asked : ∀ a ∈ l.allocated, l.asked a = asked a

variable {l l' : Ledger} {out lost : ℕ → List ℕ} {asked : ℕ → ℕ} {cache : LruLists}
  {operation : Operation} {all : Prop}

namespace Inv

/-- The items that are left after a section. -/
theorem mem_after (inv : l.Inv out lost asked) {out' : ℕ → List ℕ} {gone : List ℕ}
    (freed : cache.freed = gone ++ l.cache.freed)
    (mem_out : ∀ i a, a ∈ out' i ↔ a ∈ out i ∧ a ∉ gone) (a : ℕ) :
    a ∈ (l.after cache).allocated ↔ ∃ i, a ∈ out' i := by
  have isGone : cache.freed.take (cache.freed.length - l.cache.freed.length) = gone := by
    rw [freed, List.length_append, Nat.add_sub_cancel, List.take_left]
  simp only [after, isGone, Finset.mem_sdiff, List.mem_toFinset, inv.mem_out, mem_out,
    exists_and_right]

theorem settle (inv : l.Inv out lost asked)
    (settled : l.cache.SettlesTo cache ↑l.returned out lost asked all) :
    ∃ out' lost' asked', (l.after cache).Inv out' lost' asked' ∧
      (all → l.cache.slabs.Spares cache.slabs lost lost') := by
  rcases settled with ⟨out', lost', gone, accounts, settles, spares⟩
  refine ⟨out', lost', asked, ⟨accounts, inv.mem_after settles.freed settles.mem_out, ?_⟩, spares⟩
  intro a isAllocated
  exact inv.asked a (Finset.mem_sdiff.mp isAllocated).1

theorem alloc (inv : l.Inv out lost asked) {key : List UInt8} {nbytes : ℤ} {sys : System}
    (sane : ∀ i, (sys.os i).Sane l.cache.slabs) (reallocs : ∀ i, (sys.os i).Reallocs all)
    (short : key.length < 2 ^ 16)
    (positive : 0 ≤ nbytes) (bound : nbytes < 2 ^ 31)
    (run : l.step (.alloc key nbytes sys) = .ok l') :
    ∃ out' lost' asked', l'.Inv out' lost' asked' ∧
      (all → l.cache.slabs.Spares l'.cache.slabs lost lost') := by
  rcases bind_eq_ok.mp run with ⟨⟨cache, found⟩, allocated, done⟩
  rcases inv.accounts.itemAlloc sane reallocs short positive bound allocated with
    ⟨rfl, settled⟩ | ⟨a, id, out', lost', gone, rfl, freed, mem_out, notOut, accounts, spares⟩
  · cases done
    exact inv.settle settled
  · cases done
    have left := inv.mem_after freed mem_out
    refine ⟨Function.update out' id (a :: out' id), lost',
      Function.update asked a (LruLists.ntotal key.length nbytes), ⟨?_, ?_, ?_⟩, spares⟩
    · simpa [Ledger.hand, Ledger.after] using accounts
    · intro b
      simp only [Ledger.hand, Finset.mem_insert, left]
      constructor
      · rintro (rfl | ⟨i, isOut⟩)
        · exact ⟨id, by simp⟩
        · refine ⟨i, ?_⟩
          by_cases same : i = id
          · subst same
            simp [isOut]
          · simpa [same] using isOut
      · rintro ⟨i, isOut⟩
        by_cases same : i = id
        · subst same
          rw [Function.update_self] at isOut
          exact (List.mem_cons.mp isOut).imp_right fun isOut => ⟨i, isOut⟩
        · exact Or.inr ⟨i, by simpa [same] using isOut⟩
    · intro b isAllocated
      by_cases same : b = a
      · subst same
        simp only [Ledger.hand, Function.update_self, LruLists.ntotal_eq short positive bound]
        omega
      · have wasAllocated : b ∈ l.allocated := by
          have before := (Finset.mem_insert.mp isAllocated).resolve_left same
          exact (Finset.mem_sdiff.mp before).1
        simpa [Ledger.hand, Ledger.after, same] using inv.asked b wasAllocated

theorem step (inv : l.Inv out lost asked) (permitted : l.Permitted operation)
    (isInt : operation.IsInt) (sane : operation.Sane l.cache.slabs) (sized : operation.Sized)
    (run : l.step operation = .ok l') :
    ∃ out' lost' asked', l'.Inv out' lost' asked' ∧
      (operation.Grants → l.cache.slabs.Spares l'.cache.slabs lost lost') := by
  have accounts := inv.accounts
  have reallocs {sys : System} (sane : ∀ i, (sys.os i).Sane l.cache.slabs) (i : ℕ) :
      (sys.os i).Reallocs (∀ i, ∀ n ≤ userSpace, (sys.os i).realloc n = true) :=
    ⟨(sane i).fits, fun grants => grants i⟩
  cases operation with
  | alloc key nbytes sys => exact inv.alloc sane (reallocs sane) sized.1 sized.2 isInt.2 run
  | get key sys =>
      rcases bind_eq_ok.mp run with ⟨⟨cache, found⟩, got, done⟩
      cases done
      exact inv.settle (accounts.keepTo (accounts.closed.doItemGet got).1 (.of_doItemGet got))
  | release it sys =>
      rcases bind_eq_ok.mp run with ⟨cache, released, done⟩
      cases done
      exact inv.settle (accounts.doItemRelease permitted (reallocs sane 0) released)
  | unlink it sys =>
      rcases bind_eq_ok.mp run with ⟨cache, unlinked, done⟩
      cases done
      exact inv.settle (accounts.doItemUnlink permitted (reallocs sane 0) unlinked)
  | store it sys =>
      rcases bind_eq_ok.mp run with ⟨cache, stored, done⟩
      cases done
      exact inv.settle (accounts.storeItem permitted (reallocs sane) stored)
  | fill it bytes =>
      cases run
      apply inv.settle
      apply accounts.keepTo
      · exact accounts.closed.congr (accounts.closed.table.congr rfl rfl rfl) rfl rfl rfl rfl
      · exact ⟨rfl, rfl, rfl, rfl, rfl⟩
  | forget it =>
      cases run
      exact ⟨out, lost, asked, inv, fun _ => .refl l.cache.slabs lost⟩
  | maintain =>
      rcases bind_eq_ok.mp run with ⟨cache, passed, done⟩
      cases done
      exact inv.settle
        (accounts.keepTo (accounts.closed.maintenance passed) (.of_maintenance passed))

theorem lost_eq_nil_iff (inv : l.Inv out lost asked) (id : ℕ) :
    lost id = [] ↔ l.Complete id := by
  have slabs := inv.accounts.charged.slabs
  have parts := (slabs.classes id).partition
  constructor
  · intro nothing a isChunk
    have isPart := parts.mem_iff.mpr isChunk
    simp only [nothing, List.append_nil, List.mem_append] at isPart
    rcases isPart with (isOut | isSlot) | atEnd
    · exact Or.inl ((inv.mem_out a).mpr ⟨id, isOut⟩)
    · exact Or.inr (Or.inl isSlot)
    · exact Or.inr (Or.inr atEnd)
  · intro complete
    apply List.eq_nil_iff_forall_not_mem.mpr
    intro a isLost
    have isChunk : a ∈ (l.cache.slabs.slabclass id).chunks := parts.subset (by simp [isLost])
    have distinct := slabs.nodup_parts id
    rw [List.nodup_append] at distinct
    have elsewhere : a ∈ out id ++ (l.cache.slabs.slabclass id).slots ++
        (l.cache.slabs.slabclass id).endRun := by
      simp only [List.mem_append]
      rcases complete a isChunk with isAllocated | isSlot | atEnd
      · rcases (inv.mem_out a).mp isAllocated with ⟨i, isOut⟩
        have same := slabs.class_unique (slabs.mem_chunks_of_mem_out isOut) isChunk
        exact Or.inl (Or.inl (same ▸ isOut))
      · exact Or.inl (Or.inr isSlot)
      · exact Or.inr atEnd
    exact distinct.2.2 a elsewhere a isLost rfl

/-- The items of a class are those that it has handed out. -/
theorem items_of_class (inv : l.Inv out lost asked) (id : ℕ) :
    {a ∈ l.allocated | l.cache.mem.slabsClsid a = id} = (out id).toFinset := by
  ext a
  simp only [Finset.mem_filter, List.mem_toFinset, inv.mem_out]
  constructor
  · rintro ⟨⟨i, isOut⟩, clsid⟩
    rw [inv.accounts.clsid i a isOut] at clsid
    exact clsid ▸ isOut
  · exact fun isOut => ⟨⟨id, isOut⟩, inv.accounts.clsid id a isOut⟩

theorem balanced_iff (inv : l.Inv out lost asked) (id : ℕ) : l.Balanced id ↔ l.Complete id := by
  rw [← inv.lost_eq_nil_iff]
  have charged := inv.accounts.charged
  have items : ∑ a ∈ l.allocated with l.cache.mem.slabsClsid a = id, l.asked a =
      ((out id).map asked).sum := by
    have same : ∀ a ∈ (out id).toFinset, l.asked a = asked a := by
      intro a isOut
      exact inv.asked a ((inv.mem_out a).mpr ⟨id, List.mem_toFinset.mp isOut⟩)
    rw [inv.items_of_class, Finset.sum_congr rfl same, ← Nat.cast_sum,
      List.sum_toFinset asked (charged.slabs.nodup_out id)]
  rw [Balanced, items, charged.requested, List.map_append, List.sum_append]
  constructor
  · intro balanced
    have nothing : ((lost id).map asked).sum = 0 := by omega
    apply List.eq_nil_iff_forall_not_mem.mpr
    intro a isLost
    have positive := (charged.fits id a (List.mem_append_right _ isLost)).1
    have zero := List.sum_eq_zero_iff.mp nothing (asked a) (List.mem_map_of_mem isLost)
    omega
  · intro nothing
    simp [nothing]

end Inv

/-! ## Runs -/

theorem inv_new (mem : Mem) (cacheSize memMalloced : ℕ) :
    (init (DataCache.new mem cacheSize memMalloced)).Inv (fun _ => []) (fun _ => [])
      fun _ => 0 := by
  have cacheInv := DataCache.cacheInv_new ∅ mem cacheSize memMalloced
  have charged : (DataCache.new mem cacheSize memMalloced).slabs.Charged (fun _ => []) (fun _ => [])
      fun _ => 0 := by
    refine ⟨cacheInv.slabs, by simp, ?_, cacheInv.pages, cacheInv.room⟩
    intro id
    rcases DataCache.newSlabs_class cacheSize memMalloced id with ⟨size, perslab, cls, -⟩
    change ((DataCache.newSlabs cacheSize memMalloced).slabclass id).requested = 0
    rw [cls]
    rfl
  have closed : (DataCache.new mem cacheSize memMalloced).Closed ∅ := by
    refine ⟨.of_empty rfl rfl, ?_, ?_, ?_, ?_⟩
    · intro id _ a isHead
      cases isHead
    · intro id _ a isTail
      cases isTail
    · simp [LeadsInto]
    · simp [LeadsInto]
  refine ⟨⟨?_, charged, ?_, ?_, ?_, ?_, ?_, cacheInv.range⟩, ?_, ?_⟩
  · simpa [init] using closed
  · simp [init]
  · simp
  · simp
  · simp [init]
  · simp
  · simp [init]
  · simp [init]

theorem inv_of_run {mem : Mem} {cacheSize memMalloced : ℕ}
    (run : ReflTransGen SizedStep (init (DataCache.new mem cacheSize memMalloced)) l) :
    ∃ out lost asked, l.Inv out lost asked := by
  induction run with
  | refl => exact ⟨_, _, _, inv_new mem cacheSize memMalloced⟩
  | tail _ last ih =>
      rcases ih with ⟨out, lost, asked, inv⟩
      rcases last with ⟨operation, permitted, isInt, sane, sized, run⟩
      rcases inv.step permitted isInt sane sized run with ⟨out', lost', asked', inv', -⟩
      exact ⟨out', lost', asked', inv'⟩

/-- As long as the free lists can grow, classes with few chunks lose none. -/
theorem inv_of_grantedRun {mem : Mem} {cacheSize memMalloced : ℕ}
    (run : ReflTransGen GrantedStep (init (DataCache.new mem cacheSize memMalloced)) l) :
    ∃ out lost asked, l.Inv out lost asked ∧
      ∀ id, (l.cache.slabs.slabclass id).chunks.length < 2 ^ 30 → lost id = [] := by
  induction run with
  | refl => exact ⟨_, _, _, inv_new mem cacheSize memMalloced, fun _ _ => rfl⟩
  | tail _ last ih =>
      rcases ih with ⟨out, lost, asked, inv, nothing⟩
      rcases last with ⟨operation, permitted, isInt, sane, sized, grants, run⟩
      rcases inv.step permitted isInt sane sized run with ⟨out', lost', asked', inv', spares⟩
      refine ⟨out', lost', asked', inv', ?_⟩
      intro id few
      rcases spares grants id few with ⟨few, same⟩
      exact same.trans (nothing id few)

/-- An item records what was asked for if and only if it fits its fields. As long as only that is
asked, the account of a class is exact if and only if no chunk has been lost, and none is as long as
the free lists can grow. -/
theorem balanced_of_run {c : LruLists} {mem : Mem} {cacheSize : ℕ} {os : Os}
    {initialMalloc : Option ℕ}
    (created : DataCache.create .zero .zero mem cacheSize os initialMalloc = .ok c) :
    (∀ (c c' : LruLists) (key : List UInt8) (nbytes : ℤ) (sys : System) (it : ℕ),
      powerSmallest ≤ c.slabs.powerLargest ∧ c.slabs.powerLargest < powerLargest →
        nbytes < 2 ^ 31 → c.doItemAlloc key nbytes sys = .ok (c', some it) →
          (c'.Records it key nbytes ↔ key.length < 2 ^ 16 ∧ 0 ≤ nbytes)) ∧
      (∀ l, ReflTransGen SizedStep (init c) l → ∀ id, l.Balanced id ↔ l.Complete id) ∧
        ∀ l, ReflTransGen GrantedStep (init c) l →
          ∀ id, (l.cache.slabs.slabclass id).chunks.length < 2 ^ 30 → l.Balanced id := by
  cases (DataCache.create_eq mem cacheSize os initialMalloc).symm.trans created
  refine ⟨fun _ _ _ _ _ _ range isInt run => LruLists.records_iff range isInt run, ?_, ?_⟩
  · intro l run id
    rcases inv_of_run run with ⟨out, lost, asked, inv⟩
    exact inv.balanced_iff id
  · intro l run id few
    rcases inv_of_grantedRun run with ⟨out, lost, asked, inv, nothing⟩
    apply (inv.balanced_iff id).mpr
    exact (inv.lost_eq_nil_iff id).mp (nothing id few)

/-- A system that has one block, and grants every array that fits in user space. -/
def roomySystem : System where
  now _ := 1000
  os _ := { malloc := fun n => if n = 1048512 then some 4096 else none, realloc := (· ≤ userSpace) }
  expansion := .callocFails

open DataCache in
theorem sane_roomySystem (i : ℕ) : (roomySystem.os i).Sane (newSlabs 64 0) where
  fresh n a answer := by
    by_cases same : n = 1048512
    · subst same
      obtain rfl : 4096 = a := by simpa [roomySystem] using answer
      refine ⟨by decide, by decide, fun id b isSlab => ?_⟩
      simp [noSlabs_new] at isSlab
    · simp [roomySystem, same] at answer
  fits n granted := by simpa [roomySystem] using granted

open DataCache in
/-- A new cache allocates an item, which records its lengths and is charged with them. -/
theorem balanced_alloc : ∃ (c : LruLists) (l : Ledger),
    (new .zero 64 0).doItemAlloc [107] 1 roomySystem = .ok (c, some 4096) ∧
      c.Records 4096 [107] 1 ∧ l.allocated = {4096} ∧ l.asked 4096 = 50 ∧
        l.Balanced 1 ∧ l.Complete 1 := by
  have created := create_eq .zero 64 ((onePage 0 0 0).os 0) none
  have range : powerSmallest ≤ (newSlabs 64 0).powerLargest ∧
      (newSlabs 64 0).powerLargest < powerLargest := by
    decide +kernel
  have decided : ((new .zero 64 0).doItemAlloc [107] 1 roomySystem).toOption.any
      (fun r => r.2 = some 4096) = true := by
    decide +kernel
  rcases (Option.any_eq_true _ _).mp decided with ⟨⟨c, it⟩, returned, isItem⟩
  have allocated := toOption_eq_some.mp returned
  obtain rfl : it = some 4096 := by simpa using isItem
  have decided : ((init (new .zero 64 0)).step (.alloc [107] 1 roomySystem)).toOption.any
      (fun l => l.allocated = {4096} ∧ l.asked 4096 = 50 ∧
        (l.cache.slabs.slabclass 1).perslab * (l.cache.slabs.slabclass 1).slabList.length <
          2 ^ 30) = true := by
    decide +kernel
  rcases (Option.any_eq_true _ _).mp decided with ⟨l, returned, facts⟩
  rw [decide_eq_true_eq, ← SlabClass.length_chunks] at facts
  have run := toOption_eq_some.mp returned
  have isInt : (Operation.alloc [107] 1 roomySystem).IsInt := ⟨by decide, by decide⟩
  have sized : (Operation.alloc [107] 1 roomySystem).Sized := ⟨by decide, by decide⟩
  have grants : (Operation.alloc [107] 1 roomySystem).Grants := by
    intro i n fits
    simpa [roomySystem] using fits
  have step : GrantedStep (init (new .zero 64 0)) l :=
    ⟨.alloc [107] 1 roomySystem, trivial, isInt, sane_roomySystem, sized, grants, run⟩
  have sizedStep : SizedStep (init (new .zero 64 0)) l :=
    ⟨.alloc [107] 1 roomySystem, trivial, isInt, sane_roomySystem, sized, run⟩
  rcases balanced_of_run created with ⟨records, complete, balanced⟩
  have isBalanced := balanced l (.single step) 1 facts.2.2
  refine ⟨c, l, allocated, ?_, facts.1, facts.2.1, isBalanced, ?_⟩
  · exact (records _ _ _ _ _ _ range (by decide) allocated).mpr ⟨by decide, by decide⟩
  · exact (complete l (.single sizedStep) 1).mp isBalanced

open DataCache in
/-- An item with a length of -5 does not record it, and once the item is freed its class is charged
for nothing at all. -/
theorem not_balanced_negative : ∃ l₁ l₂ : Ledger,
    (init (new .zero 64 0)).step (.alloc [107] (-5) roomySystem) = .ok l₁ ∧
      l₁.allocated = {4096} ∧ ¬ l₁.cache.Records 4096 [107] (-5) ∧
        l₁.cache.mem.nbytes 4096 = 2 ^ 32 - 5 ∧
          l₁.step (.release 4096 roomySystem) = .ok l₂ ∧ ¬ l₂.Balanced 1 := by
  have decided : ((init (new .zero 64 0)).step (.alloc [107] (-5) roomySystem)).toOption.any
      (fun l₁ => l₁.allocated = {4096} ∧ l₁.cache.mem.nbytes 4096 = 2 ^ 32 - 5 ∧
        (l₁.step (.release 4096 roomySystem)).toOption.any (fun l₂ =>
          l₂.allocated = ∅ ∧ (l₂.cache.slabs.slabclass 1).requested = 2 ^ 64 - 2 ^ 32)) = true := by
    decide +kernel
  rcases (Option.any_eq_true _ _).mp decided with ⟨l₁, returned, facts⟩
  rw [decide_eq_true_eq] at facts
  rcases facts with ⟨allocated, nbytes, released⟩
  rcases (Option.any_eq_true _ _).mp released with ⟨l₂, freed, facts⟩
  rw [decide_eq_true_eq] at facts
  refine ⟨l₁, l₂, toOption_eq_some.mp returned, allocated, ?_, nbytes,
    toOption_eq_some.mp freed, ?_⟩
  · intro records
    exact absurd records.positive (by decide)
  · intro balanced
    simp [Balanced, facts.1, facts.2] at balanced

end Ledger

end ChaosCache
