import Mathlib.Data.List.TakeWhile
import ChaosCache.DataCache
import ChaosCache.Lru.Sections

/-!
# What the calls do

One lemma for each of `getItem`, `storeItem` and `deleteItem`, run by a single thread: the
call returns, and how it changes the stored items.
-/

namespace ChaosCache

open Hash

variable {keys : Set (List UInt8)} {c : LruLists} {v : View} {it : ℕ}

/-- The system answers sanely in every section of a call. -/
def Env.Sane (env : Env) (c : LruLists) : Prop := ∀ i j, ((env.sys i).os j).Sane c.slabs

theorem KeySet.cString_eq (keySet : KeySet keys) {key : List UInt8} (isKey : key ∈ keys) :
    DataCache.cString key = key := by
  refine List.takeWhile_eq_self_iff.mpr fun byte inKey => ?_
  have nonNul : byte ≠ 0 := ne_of_mem_of_not_mem inKey (keySet.nulFree key isKey)
  simpa using nonNul

theorem keySet_singleton {key : List UInt8} (nulFree : 0 ∉ key) (short : key.length < 2 ^ 16) :
    KeySet {key} where
  nulFree := by simpa using nulFree
  short := by simpa using short
  separated := by simp

/-- The strings of one length -/
def keysOfLength (length : ℕ) : Set (List UInt8) := {key | key.length = length ∧ 0 ∉ key}

theorem keySet_keysOfLength {length : ℕ} (short : length < 2 ^ 16) :
    KeySet (keysOfLength length) where
  nulFree _ isKey := isKey.2
  short key isKey := by
    rw [isKey.1]
    exact short
  separated key isKey key' isKey' _ := isKey.1.trans isKey'.1.symm

theorem CacheInv.nbytes_lt (inv : CacheInv keys c v) (live : v.Live it) :
    c.mem.nbytes it < 2 ^ 31 := by
  have handedOut := inv.mem_out_clsid live
  have fits := inv.fits _ it handedOut
  have size := inv.sizeMax (c.mem.slabsClsid it)
  have small := inv.small
  rw [Mem.itemNtotal] at fits
  omega

/-- As long as few items are linked, the counter of the table is the number of stored items. -/
theorem CacheInv.card_lt (inv : CacheInv keys c v) (card : v.stored.card ≤ 2 ^ 30)
    (few : c.assoc.hashItems < 2 ^ 30) : v.stored.card < 2 ^ 30 := by
  rw [inv.table.count] at few
  omega

theorem CacheInv.assocFind_of_stored (inv : CacheInv keys c v) (keySet : KeySet keys)
    {key : List UInt8} (isKey : key ∈ keys) (isStored : it ∈ v.stored)
    (sameKey : c.mem.key it = key) :
    c.assoc.assocFind c.mem (hashKey key) key = .ok (some it) := by
  rcases inv.table.assocFind_key keySet inv.hashes inv.keys inv.distinct isKey with
    ⟨found, lookup, sound⟩
  rwa [(sound it).mpr ⟨isStored, sameKey⟩] at lookup

namespace DataCache

theorem toInt32_of_lt {x : ℕ} (small : x < 2 ^ 31) : toInt32 x = x := if_pos small

theorem passes_eq (inv : CacheInv keys c v) (n : ℕ) :
    ∃ c' v', passes n c = .ok c' ∧ CacheInv keys c' v' ∧ Migrates c c' v v' := by
  induction n generalizing c v with
  | zero => exact ⟨c, v, rfl, inv, .refl c v⟩
  | succ n ih =>
      rcases LruLists.maintenance_eq inv with ⟨c₁, v₁, pass, inv₁, first⟩
      rcases ih inv₁ with ⟨c₂, v₂, rest, inv₂, second⟩
      exact ⟨c₂, v₂, bind_of_ok pass rest, inv₂, first.trans second⟩

theorem slabs_of_passes {c' : LruLists} {n : ℕ} (run : passes n c = .ok c') :
    c'.slabs = c.slabs := by
  induction n generalizing c with
  | zero =>
      cases run
      rfl
  | succ n ih =>
      rcases bind_eq_ok.mp run with ⟨c₁, pass, rest⟩
      rcases bind_eq_ok.mp pass with ⟨⟨assoc, mem⟩, -, pass⟩
      cases pass
      have kept := ih rest
      exact kept

/-! ## Copying a value in -/

/-- The lists after a value has been written behind the key of an item. -/
def withData (c : LruLists) (it : ℕ) (value : List UInt8) : LruLists :=
  { c with
    mem := { c.mem with
      bytes := Function.update c.mem.bytes it
        (writeBytes (c.mem.bytes it) (c.mem.nkey it) value) } }

theorem key_withData (c : LruLists) (it : ℕ) (value : List UInt8) (a : ℕ) :
    (withData c it value).mem.key a = c.mem.key a := by
  by_cases same : a = it
  · subst same
    refine readBytes_congr fun i inKey => ?_
    simp only [withData, Function.update_self]
    exact writeBytes_of_lt inKey
  · simp [Mem.key, withData, same]

theorem data_withData {value : List UInt8} (length : c.mem.nbytes it = value.length) :
    (withData c it value).mem.data it = value := by
  simp only [Mem.data, withData, Function.update_self, length]
  exact readBytes_eq_iff.mpr fun i inRange => writeBytes_add _ _ inRange

theorem data_withData_of_ne {value : List UInt8} {a : ℕ} (differs : a ≠ it) :
    (withData c it value).mem.data a = c.mem.data a := by
  simp [Mem.data, withData, differs]

theorem cacheInv_withData (inv : CacheInv keys c v) (notStored : it ∉ v.stored)
    (value : List UInt8) : CacheInv keys (withData c it value) v :=
  inv.setContents (fun _ _ => rfl) fun _ isStored =>
    Function.update_of_ne (ne_of_mem_of_not_mem isStored notStored) _ _

theorem copyIn_eq (inv : CacheInv keys c v) (live : v.Live it) (inbuffer : ℕ → UInt8) {bufflen : ℤ}
    (positive : 0 ≤ bufflen) (bound : bufflen < 2 ^ 31)
    (length : c.mem.nbytes it = bufflen.toNat) :
    copyIn c it inbuffer bufflen = .ok (withData c it (readBytes inbuffer bufflen.toNat)) := by
  have fits := inv.fits _ it (inv.mem_out_clsid live)
  have sameLength : (bufflen % 2 ^ 64).toNat = bufflen.toNat := by omega
  rw [Mem.itemNtotal, length] at fits
  simp only [copyIn, sameLength, if_neg (Nat.not_lt.mpr fits), withData]

/-- A negative length, as a `size_t`, fits in no chunk. -/
theorem copyIn_ne_ok {c' : LruLists} {inbuffer : ℕ → UInt8} {bufflen : ℤ}
    (lower : -2 ^ 31 ≤ bufflen) (negative : bufflen < 0)
    (small : ∀ id, (c.slabs.slabclass id).size < 2 ^ 31) :
    copyIn c it inbuffer bufflen ≠ .ok c' := by
  have chunkSize := small (c.mem.slabsClsid it)
  have large : (c.slabs.slabclass (c.mem.slabsClsid it)).size <
      sizeofHashItem + c.mem.nkey it + (bufflen % 2 ^ 64).toNat := by omega
  rw [copyIn, if_pos large]
  simp

/-! ## The calls -/

theorem itemGet_cString (keySet : KeySet keys) {key : List UInt8} (isKey : key ∈ keys)
    (c : LruLists) (sys : System) :
    c.itemGet (cString key) sys = c.doItemGet key (hashKey key) (sys.now 0) := by
  rw [keySet.cString_eq isKey]
  rfl

variable {key : List UInt8} {env : Env}

/-- `getItem` misses a key that no item has, and returns the data of the item that has it. -/
theorem getItem_cases (inv : CacheInv keys c v) (keySet : KeySet keys) (isKey : key ∈ keys)
    (env : Env) :
    (∃ c' v', getItem c key env = .ok (c', -1, none) ∧ CacheInv keys c' v' ∧
        Migrates c c' v v' ∧ ∀ a ∈ v.stored, c.mem.key a ≠ key) ∨
      ∃ c' v' it, getItem c key env =
          .ok (c', 0, some (toInt32 (c.mem.nbytes it), c.mem.data it)) ∧
        it ∈ v.stored ∧ c.mem.key it = key ∧ CacheInv keys c' v' ∧ Drops c c' v v' [] ∧
        v'.stored = v.stored := by
  rcases passes_eq inv (env.passes 0) with ⟨c₁, v₁, pass₁, inv₁, first⟩
  have get_eq := itemGet_cString keySet isKey c₁ (env.sys 0)
  rcases LruLists.doItemGet_eq inv₁ keySet isKey ((env.sys 0).now 0) with
    ⟨get, missed⟩ | ⟨c₂, v₂, it, get, isStored, sameKey, inv₂, dropped, -, -, -, stored₂⟩
  · refine Or.inl ⟨c₁, v₁, bind_of_ok pass₁ (bind_of_ok (get_eq.trans get) rfl), inv₁, first,
      fun a isStored => ?_⟩
    rw [← first.toFrame.key]
    exact missed a (first.stored ▸ isStored)
  · rcases passes_eq inv₂ (env.passes 1) with ⟨c₃, v₃, pass₂, inv₃, second⟩
    have total : Drops c c₃ v v₃ [] := (first.toDrops.trans dropped).trans second.toDrops
    refine Or.inr ⟨c₃, v₃, it, ?_, first.stored ▸ isStored, ?_, inv₃, total, ?_⟩
    · rw [← total.toFrame.data, ← total.nbytes]
      exact bind_of_ok pass₁ (bind_of_ok (get_eq.trans get) (bind_of_ok pass₂ rfl))
    · rw [← first.toFrame.key, sameKey]
    · rw [second.stored, stored₂, first.stored]

theorem deleteItem_cases (inv : CacheInv keys c v) (keySet : KeySet keys) (isKey : key ∈ keys)
    (sane : env.Sane c) :
    (∃ c' v', deleteItem c key env = .ok (c', 0) ∧ CacheInv keys c' v' ∧ Migrates c c' v v' ∧
        ∀ a ∈ v.stored, c.mem.key a ≠ key) ∨
      ∃ c' v' it gone, deleteItem c key env = .ok (c', 0) ∧ it ∈ v.stored ∧ c.mem.key it = key ∧
        CacheInv keys c' v' ∧ Drops c c' v v' gone ∧ v'.stored = v.stored.erase it := by
  rcases passes_eq inv (env.passes 0) with ⟨c₁, v₁, pass₁, inv₁, first⟩
  have get_eq := itemGet_cString keySet isKey c₁ (env.sys 0)
  rcases LruLists.doItemGet_eq inv₁ keySet isKey ((env.sys 0).now 0) with
    ⟨get, missed⟩ | ⟨c₂, v₂, it, get, isStored, sameKey, inv₂, dropped₂, -, -, -, stored₂⟩
  · refine Or.inl ⟨c₁, v₁, bind_of_ok pass₁ (bind_of_ok (get_eq.trans get) rfl), inv₁, first,
      fun a isStored => ?_⟩
    rw [← first.toFrame.key]
    exact missed a (first.stored ▸ isStored)
  · rcases passes_eq inv₂ (env.passes 1) with ⟨c₃, v₃, pass₂, inv₃, second⟩
    have stored₃ : v₃.stored = v₁.stored := second.stored.trans stored₂
    have live₃ : v₃.Live it := inv₃.live_of_stored (stored₃ ▸ isStored)
    rcases LruLists.doItemUnlink_eq inv₃ keySet live₃ (sane 1 0).fits with
      ⟨c₄, v₄, unlinked, inv₄, unlinks⟩
    have dropped₄ := unlinks.drops
    rcases passes_eq inv₄ (env.passes 2) with ⟨c₅, v₅, pass₃, inv₅, third⟩
    have total₅ := (((first.toDrops.trans dropped₂).trans second.toDrops).trans dropped₄).trans
      third.toDrops
    have isChunk : it ∈ (c₅.slabs.slabclass (c₃.mem.slabsClsid it)).chunks := by
      rw [third.chunks, dropped₄.chunks]
      exact inv₃.slabs.mem_chunks_of_mem_out (inv₃.mem_out_clsid live₃)
    have noRef (notLive : ¬v₅.Live it) : c₅.mem.refcount it = 0 := by
      rw [third.refcount, unlinks.refcount]
      by_contra referred
      refine notLive (third.live.mpr ((dropped₄.live it).mpr ⟨live₃, ?_⟩))
      simp [referred]
    rcases LruLists.doItemRelease_eq inv₅ isChunk noRef (sane 2 0).fits with
      ⟨c₆, v₆, released, inv₆, dropped₆, -, -, stored₆⟩
    refine Or.inr ⟨c₆, v₆, it, _, ?_, first.stored ▸ isStored, ?_, inv₆, total₅.trans dropped₆, ?_⟩
    · exact bind_of_ok pass₁ (bind_of_ok (get_eq.trans get) (bind_of_ok pass₂
        (bind_of_ok unlinked (bind_of_ok pass₃ (bind_of_ok released rfl)))))
    · rw [← first.toFrame.key, sameKey]
    · rw [stored₆, third.stored, unlinks.stored, stored₃, first.stored]

/-- What is stored after a store whose allocation, of `a`, led to `c` and `v`. -/
structure Links (c c' : LruLists) (v v' : View) (a : ℕ) (key value : List UInt8) : Prop where
  key_new : c'.mem.key a = key
  data_new : c'.mem.data a = value
  sameKey : ∀ b, b ≠ a → c'.mem.key b = c.mem.key b
  sameData : ∀ b, b ≠ a → c'.mem.data b = c.mem.data b
  stored : ∀ b, b ∈ v'.stored ↔ b = a ∨ (b ∈ v.stored ∧ c.mem.key b ≠ key)
  card : v'.stored.card ≤ v.stored.card + 1

/-- `storeItem` changes nothing but what its failed allocation evicts, or it links the item that
it obtained. -/
theorem storeItem_cases (inv : CacheInv keys c v) (keySet : KeySet keys) (isKey : key ∈ keys)
    (inbuffer : ℕ → UInt8) {bufflen : ℤ} (positive : 0 ≤ bufflen) (bound : bufflen < 2 ^ 31)
    (sane : env.Sane c) (few : v.stored.card < 2 ^ 30) :
    ∃ c₀ v₀, passes (env.passes 0) c = .ok c₀ ∧ CacheInv keys c₀ v₀ ∧ Migrates c c₀ v v₀ ∧
      ((∃ c' v' gone reset, c₀.itemAlloc key bufflen (env.sys 0) = .ok (c', none) ∧
          storeItem c key inbuffer bufflen env = .ok (c', 0) ∧ CacheInv keys c' v' ∧
          Reclaims c₀ c' v₀ v' gone reset ∧ ((env.sys 0).FreeListsStart → gone = []) ∧
          ¬c.Allocatable key.length bufflen (env.sys 0)) ∨
        ∃ c₁ v₁ gone reset a c' v', c₀.itemAlloc key bufflen (env.sys 0) = .ok (c₁, some a) ∧
          CacheInv keys c₁ v₁ ∧ Allocates c₀ c₁ v₀ v₁ gone reset a key bufflen ∧
          storeItem c key inbuffer bufflen env = .ok (c', 0) ∧ CacheInv keys c' v' ∧
          Links c₁ c' v₁ v' a key (readBytes inbuffer bufflen.toNat) ∧
          c.Allocatable key.length bufflen (env.sys 0)) := by
  rcases passes_eq inv (env.passes 0) with ⟨c₀, v₀, pass₁, inv₀, first⟩
  refine ⟨c₀, v₀, pass₁, inv₀, first, ?_⟩
  have alloc_eq : c₀.itemAlloc (cString key) bufflen (env.sys 0) =
      c₀.doItemAlloc key bufflen (env.sys 0) := by
    rw [keySet.cString_eq isKey]
    rfl
  have allocatable_iff := first.allocatable_iff key.length bufflen (env.sys 0)
  rcases LruLists.doItemAlloc_eq inv₀ keySet (fun j => first.sane (sane 0 j))
      (keySet.short key isKey) positive bound with
    ⟨c', v', gone, reset, alloc, inv', reclaims, notAllocatable, keeps⟩ |
      ⟨c₁, v₁, gone, reset, a, alloc, inv₁, allocates, allocatable⟩
  · exact Or.inl ⟨c', v', gone, reset, alloc,
      bind_of_ok pass₁ (bind_of_ok (alloc_eq.trans alloc) rfl), inv', reclaims, keeps,
      fun allocatable => notAllocatable (allocatable_iff.mpr allocatable)⟩
  · have live₁ : v₁.Live a := (allocates.live a).mpr (Or.inr rfl)
    have notStored₁ : a ∉ v₁.stored := fun isStored =>
      have wasStored := (allocates.stored a).mp isStored
      allocates.fresh ⟨inv₀.live_of_stored wasStored.1, wasStored.2⟩
    rcases passes_eq inv₁ (env.passes 1) with ⟨c₂, v₂, pass₂, inv₂, second⟩
    have length₂ : c₂.mem.nbytes a = bufflen.toNat := by rw [second.nbytes, allocates.nbytes_new]
    have copied := copyIn_eq inv₂ (second.live.mpr live₁) inbuffer positive bound length₂
    have notStored₂ : a ∉ v₂.stored := second.stored ▸ notStored₁
    have inv₃ := cacheInv_withData inv₂ notStored₂ (readBytes inbuffer bufflen.toNat)
    rcases passes_eq inv₃ (env.passes 2) with ⟨c₄, v₄, pass₃, inv₄, third⟩
    have key₄ (b : ℕ) : c₄.mem.key b = c₁.mem.key b := by
      rw [third.toFrame.key, key_withData, second.toFrame.key]
    have stored₄ : v₄.stored = v₁.stored := third.stored.trans second.stored
    have isKey₄ : c₄.mem.key a ∈ keys := by rwa [key₄, allocates.key_new]
    have few₄ : v₄.stored.card < 2 ^ 30 := by
      rw [stored₄]
      refine (Finset.card_le_card fun b isStored => ?_).trans_lt few
      rw [← first.stored]
      exact ((allocates.stored b).mp isStored).1
    rcases LruLists.storeItem_eq inv₄ keySet
      (third.live.mpr (second.live.mpr live₁)) (stored₄ ▸ notStored₁) isKey₄ few₄ (env.sys 2)
      fun j => (sane 2 j).fits with ⟨c₅, v₅, old, stored, inv₅, stores⟩
    refine Or.inr ⟨c₁, v₁, gone, reset, a, c₅, v₅, alloc, inv₁, allocates, ?_, inv₅,
      { key_new := by rw [stores.key, key₄, allocates.key_new]
        data_new := by
          rw [stores.data, third.toFrame.data]
          exact data_withData (length₂.trans (length_readBytes _ _).symm)
        sameKey := fun b _ => by rw [stores.key, key₄]
        sameData := fun b other => by
          rw [stores.data, third.toFrame.data, data_withData_of_ne other, second.toFrame.data]
        stored := fun b => by rw [stores.stored, stored₄, key₄, key₄, allocates.key_new]
        card := stored₄ ▸ stores.card }, allocatable_iff.mp allocatable⟩
    exact bind_of_ok pass₁ (bind_of_ok (alloc_eq.trans alloc) (bind_of_ok pass₂
      (bind_of_ok copied (bind_of_ok pass₃ (bind_of_ok stored rfl)))))

/-- A store of a negative length that returns has obtained nothing. -/
theorem storeItem_of_negative (inv : CacheInv keys c v) (keySet : KeySet keys) (isKey : key ∈ keys)
    {inbuffer : ℕ → UInt8} {bufflen ret : ℤ} {c' : LruLists} (lower : -2 ^ 31 ≤ bufflen)
    (negative : bufflen < 0) (sane : env.Sane c)
    (run : storeItem c key inbuffer bufflen env = .ok (c', ret)) :
    ∃ c₀ v₀ v' gone reset, passes (env.passes 0) c = .ok c₀ ∧ CacheInv keys c₀ v₀ ∧
      Migrates c c₀ v v₀ ∧ c₀.itemAlloc key bufflen (env.sys 0) = .ok (c', none) ∧
      CacheInv keys c' v' ∧ Reclaims c₀ c' v₀ v' gone reset := by
  rcases passes_eq inv (env.passes 0) with ⟨c₀, v₀, pass, inv₀, first⟩
  rcases bind_eq_ok.mp run with ⟨_, pass', run⟩
  cases pass.symm.trans pass'
  rcases bind_eq_ok.mp run with ⟨⟨c₁, found⟩, alloc, run⟩
  rw [keySet.cString_eq isKey] at alloc
  rcases LruLists.of_doItemAlloc inv₀ keySet (fun j => first.sane (sane 0 j)) alloc with
    ⟨table, reclaimed, -⟩
  cases found with
  | none =>
      cases run
      rcases reclaimed rfl with ⟨v', gone, reset, inv', reclaims⟩
      exact ⟨c₀, v₀, v', gone, reset, pass, inv₀, first, alloc, inv', reclaims⟩
  | some a =>
      rcases bind_eq_ok.mp run with ⟨c₂, pass₂, run⟩
      rcases bind_eq_ok.mp run with ⟨c₃, copied, -⟩
      refine absurd copied (copyIn_ne_ok lower negative fun id => ?_)
      rw [slabs_of_passes pass₂, table.size]
      exact (inv₀.sizeMax id).trans_lt inv₀.small

end DataCache

end ChaosCache
