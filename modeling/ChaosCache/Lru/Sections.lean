import ChaosCache.Lru.Allocation

/-!
# The sections of the public operations

What is left of the public operations: the hash that `store_item` writes before it takes
the lock, the store itself with both of its cases, and the passes of the maintenance thread.
-/

namespace ChaosCache

open Hash

variable {keys : Set (List UInt8)} {c : LruLists} {v : View} {it : ℕ}

/-- Writing the hash value or the bytes of items that are not stored. -/
theorem CacheInv.setContents (inv : CacheInv keys c v) {hv : ℕ → UInt32} {bytes : ℕ → ℕ → UInt8}
    (keptHash : ∀ a ∈ v.stored, hv a = c.mem.hv a)
    (keptBytes : ∀ a ∈ v.stored, bytes a = c.mem.bytes a) :
    CacheInv keys { c with mem := { c.mem with hv, bytes } } v := by
  have key {a : ℕ} (isStored : a ∈ v.stored) :
      Mem.key { c.mem with hv, bytes } a = c.mem.key a := by
    simp only [Mem.key, keptBytes a isStored]
  exact
    { inv with
      table := inv.table.congr (fun _ _ => rfl) keptHash
      hashes := fun a isStored => by
        rw [key isStored]
        exact (keptHash a isStored).trans (inv.hashes a isStored)
      keys := fun a isStored => (key isStored).symm ▸ inv.keys a isStored
      distinct := fun a isStored b isStored' sameKey =>
        inv.distinct a isStored b isStored'
          ((key isStored).symm.trans (sameKey.trans (key isStored'))) }

/-- What a store does: it links the new item in place of the one with the same key, if any.
That one is given back if nobody else refers to it, as far as its counter tells. -/
structure Stores (c c' : LruLists) (v v' : View) (it : ℕ) (gone : List ℕ) : Prop where
  nkey : c'.mem.nkey = c.mem.nkey
  nbytes : c'.mem.nbytes = c.mem.nbytes
  bytes : c'.mem.bytes = c.mem.bytes
  hv : ∀ a, a ≠ it → c'.mem.hv a = c.mem.hv a
  stored : ∀ a, a ∈ v'.stored ↔ a = it ∨ (a ∈ v.stored ∧ c.mem.key a ≠ c.mem.key it)
  live : ∀ a, v'.Live a ↔ v.Live a ∧ a ∉ gone
  mem_gone : ∀ a, a ∈ gone ↔ a ∈ v.stored ∧ c.mem.key a = c.mem.key it ∧
    (c.mem.refcount a + 1) % 2 ^ 16 ≤ 1
  refcount_old : ∀ a ∈ v.stored, c.mem.key a = c.mem.key it →
    c'.mem.refcount a = (c.mem.refcount a + 1) % 2 ^ 16 - 1
  refcount : ∀ a, (a ∈ v.stored → c.mem.key a ≠ c.mem.key it) →
    c'.mem.refcount a = c.mem.refcount a
  chunks : ∀ i, (c'.slabs.slabclass i).chunks = (c.slabs.slabclass i).chunks
  card : v'.stored.card ≤ v.stored.card + 1
  freed : c'.freed = gone ++ c.freed
  repaired : c'.repaired = c.repaired

namespace Stores

variable {c' : LruLists} {v' : View} {gone : List ℕ}

theorem key (stores : Stores c c' v v' it gone) (a : ℕ) : c'.mem.key a = c.mem.key a := by
  simp only [Mem.key, stores.nkey, stores.bytes]

theorem data (stores : Stores c c' v v' it gone) (a : ℕ) : c'.mem.data a = c.mem.data a := by
  simp only [Mem.data, stores.nkey, stores.nbytes, stores.bytes]

end Stores

namespace LruLists

theorem itemHash_eq (mem : Mem) (it : ℕ) : itemHash mem it = hashKey (mem.key it) := by
  have length : (mem.key it).length = mem.nkey it := length_readBytes _ _
  have hashed : Hash.hash (fun a => mem.bytes it (a - (it + sizeofHashItem))) (it + sizeofHashItem)
      (mem.key it).length 0 = hashKey (mem.key it) := by
    refine hash_eq_hashKey fun i inRange => ?_
    rw [length] at inRange
    simp [Mem.key, readBytes, inRange]
  rwa [length] at hashed

theorem storeItem_eq (inv : CacheInv keys c v) (keySet : KeySet keys) (live : v.Live it)
    (notStored : it ∉ v.stored) (isKey : c.mem.key it ∈ keys) (few : v.stored.card < 2 ^ 30)
    (sys : System) (fits : ∀ i n, (sys.os i).realloc n = true → n ≤ userSpace) :
    ∃ c' v' gone, c.storeItem it sys = .ok c' ∧ CacheInv keys c' v' ∧
      Stores c c' v v' it gone := by
  have other {a : ℕ} (isStored : a ∈ v.stored) : a ≠ it := ne_of_mem_of_not_mem isStored notStored
  have inv₁ : CacheInv keys { c with mem := { c.mem with
      hv := Function.update c.mem.hv it (itemHash c.mem it) } } v :=
    inv.setContents (fun a isStored => Function.update_of_ne (other isStored) _ _) fun _ _ => rfl
  have hashed : (Function.update c.mem.hv it (itemHash c.mem it)) it = hashKey (c.mem.key it) := by
    rw [Function.update_self, itemHash_eq]
  by_cases replaces : ∃ old ∈ v.stored, c.mem.key old = c.mem.key it
  · rcases replaces with ⟨old, isStored, sameKey⟩
    rcases doStoreItem_replace inv₁ keySet live notStored hashed few isStored sameKey sys fits with
      ⟨c', v', gone, run, inv', dropped, isGone, count, repaired, stored⟩
    have only {a : ℕ} (isStored' : a ∈ v.stored) (sameKey' : c.mem.key a = c.mem.key it) :
        a = old := inv.distinct a isStored' old isStored (sameKey'.trans sameKey.symm)
    refine ⟨c', v', gone, run, inv',
      { nkey := dropped.nkey
        nbytes := dropped.nbytes
        bytes := dropped.bytes
        hv := fun a differs => by rw [dropped.hv]; exact Function.update_of_ne differs _ _
        stored := fun a => ?_
        live := dropped.live
        mem_gone := fun a => ?_
        refcount_old := fun a isStored' sameKey' => ?_
        refcount := fun a differs => ?_
        chunks := dropped.chunks
        card := ?_
        freed := dropped.freed
        repaired := repaired }⟩
    · rw [stored, Finset.mem_insert, Finset.mem_erase]
      refine or_congr_right ⟨fun ⟨notOld, isStored'⟩ => ?_, fun ⟨isStored', differs⟩ => ?_⟩
      · exact ⟨isStored', fun sameKey' => notOld (only isStored' sameKey')⟩
      · refine ⟨?_, isStored'⟩
        rintro rfl
        exact differs sameKey
    · rw [isGone]
      constructor
      · rintro ⟨rfl, last⟩
        exact ⟨isStored, sameKey, last⟩
      · rintro ⟨isStored', sameKey', last⟩
        rcases only isStored' sameKey' with rfl
        exact ⟨rfl, last⟩
    · rcases only isStored' sameKey' with rfl
      rw [count]
      exact Function.update_self ..
    · rw [count]
      refine Function.update_of_ne ?_ _ _
      rintro rfl
      exact differs isStored sameKey
    · rw [stored]
      refine (Finset.card_insert_le _ _).trans (Nat.add_le_add_right ?_ 1)
      exact Finset.card_erase_le
  · have unique (a : ℕ) (isStored : a ∈ v.stored) : c.mem.key a ≠ c.mem.key it := fun sameKey =>
      replaces ⟨a, isStored, sameKey⟩
    rcases doStoreItem_fresh inv₁ keySet live notStored isKey hashed unique few sys with
      ⟨c', v', run, inv', dropped, count, repaired, stored⟩
    refine ⟨c', v', [], run, inv',
      { nkey := dropped.nkey
        nbytes := dropped.nbytes
        bytes := dropped.bytes
        hv := fun a differs => by rw [dropped.hv]; exact Function.update_of_ne differs _ _
        stored := fun a => ?_
        live := dropped.live
        mem_gone := fun a => ?_
        refcount_old := fun a isStored sameKey => absurd sameKey (unique a isStored)
        refcount := fun a _ => congrFun count a
        chunks := dropped.chunks
        card := ?_
        freed := dropped.freed
        repaired := repaired }⟩
    · rw [stored, Finset.mem_insert]
      exact or_congr_right ⟨fun isStored => ⟨isStored, unique a isStored⟩, And.left⟩
    · simp only [List.not_mem_nil, false_iff]
      exact fun isGone => unique a isGone.1 isGone.2.1
    · rw [stored]
      exact Finset.card_insert_le _ _

end LruLists

/-- A part of a run that moves items between the chains of the table only. -/
structure Migrates (c c' : LruLists) (v v' : View) : Prop extends Effect c c' where
  out : v'.out = v.out
  stored : v'.stored = v.stored
  linked : c'.mem.itemLinked = c.mem.itemLinked
  slabs : c'.slabs = c.slabs
  tails : c'.tails = c.tails
  prev : c'.mem.prev = c.mem.prev
  time : c'.mem.time = c.mem.time

namespace Migrates

variable {c' c'' : LruLists} {v' v'' : View}

theorem refl (c : LruLists) (v : View) : Migrates c c v v :=
  { Frame.refl c with
    refcount := rfl
    freed := rfl
    repaired := rfl
    out := rfl
    stored := rfl
    linked := rfl
    slabs := rfl
    tails := rfl
    prev := rfl
    time := rfl }

theorem trans (first : Migrates c c' v v') (second : Migrates c' c'' v' v'') :
    Migrates c c'' v v'' :=
  { first.toFrame.trans second.toFrame with
    refcount := second.refcount.trans first.refcount
    freed := second.freed.trans first.freed
    repaired := second.repaired.trans first.repaired
    out := second.out.trans first.out
    stored := second.stored.trans first.stored
    linked := second.linked.trans first.linked
    slabs := second.slabs.trans first.slabs
    tails := second.tails.trans first.tails
    prev := second.prev.trans first.prev
    time := second.time.trans first.time }

theorem toDrops (migrates : Migrates c c' v v') : Drops c c' v v' [] :=
  .of_effect migrates.toEffect migrates.out

theorem live (migrates : Migrates c c' v v') : v'.Live it ↔ v.Live it := by
  simp only [View.Live, migrates.out]

/-- It is of no consequence for allocations. -/
theorem allocatable_iff (migrates : Migrates c c' v v') (nkey : ℕ) (nbytes : ℤ) (sys : System) :
    c'.Allocatable nkey nbytes sys ↔ c.Allocatable nkey nbytes sys := by
  have search (picks : ℕ → Bool) (tries : ℕ) (start : Option ℕ) :
      LruLists.searchTail c'.mem picks tries start =
        LruLists.searchTail c.mem picks tries start := by
    induction tries generalizing start with
    | zero => rfl
    | succ tries ih =>
        cases start with
        | none => rfl
        | some it => simp only [LruLists.searchTail, ih, migrates.prev]
  have evicts : LruLists.evicts c'.mem = LruLists.evicts c.mem := by
    funext a
    simp only [LruLists.evicts, migrates.refcount]
  have repairs (now : ℕ) : LruLists.repairs c'.mem now = LruLists.repairs c.mem now := by
    funext a
    simp only [LruLists.repairs, migrates.refcount, migrates.time]
  simp only [LruLists.Allocatable, LruLists.Obtainable, LruLists.repairSearch, search, evicts,
    repairs, migrates.slabs, migrates.tails]

end Migrates

namespace LruLists

theorem maintenance_eq (inv : CacheInv keys c v) :
    ∃ c' v', c.maintenance = .ok c' ∧ CacheInv keys c' v' ∧ Migrates c c' v v' := by
  rcases inv.table.maintenancePass with ⟨assoc, hNext, chains, run, table⟩
  refine ⟨{ c with assoc, mem := { c.mem with hNext } }, { v with chains }, bind_of_ok run rfl,
    { inv with table := table }, ?_⟩
  exact { Migrates.refl c v with }

end LruLists

end ChaosCache
