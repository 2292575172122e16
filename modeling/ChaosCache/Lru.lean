import ChaosCache.Assoc
import ChaosCache.Hash
import ChaosCache.Library.Links
import ChaosCache.Slabs

/-!
# The LRU lists

`LRU_Lists` of `lru.hpp` and `lru.cpp`: the items of each slab class in a doubly linked
list, most recently used first, over the hash table and the slab allocator.

Each public operation is one section under the cache lock. A section takes the answers
of the system in the order in which it asks for them: clock readings, outcomes of
allocations, and the outcome of an expansion of the hash table.

`freed` and `repaired` are no members of the class. They record the calls of `item_free`
and the items that the tail-repair search picked, the last ones first, so that properties
can speak of the moment at which a chunk is recycled.
-/

namespace ChaosCache

open Links

/-- The answers of the system in one section. -/
structure System where
  now : ℕ → ℕ
  os : ℕ → Os
  expansion : Expansion

structure LruLists where
  settings : Config
  assoc : AssociativeArray
  slabs : SlabAllocator
  heads : ℕ → Option ℕ
  tails : ℕ → Option ℕ
  sizes : ℕ → ℕ
  mem : Mem
  freed : List ℕ
  repaired : List ℕ

namespace LruLists

/-- The constructor, on memory that held the two `prior` values. -/
def create (priorAssoc : AssociativeArray) (priorSlabs : SlabAllocator) (mem : Mem)
    (settings : Config) (os : Os) (initialMalloc : Option ℕ) : Result LruLists := do
  let assoc := AssociativeArray.create priorAssoc settings.hashpower
  let slabs ← SlabAllocator.create priorSlabs settings os initialMalloc
  return {
    settings, assoc, slabs, mem
    heads := fun _ => none
    tails := fun _ => none
    sizes := fun _ => 0
    freed := []
    repaired := [] }

variable (c : LruLists)

/-- Reading `heads[id]`, inside the array. -/
def head (id : ℕ) : Result (Option ℕ) :=
  if id < powerLargest then .ok (c.heads id) else .error .outOfBounds

/-- Reading `tails[id]`, inside the array. -/
def tail (id : ℕ) : Result (Option ℕ) :=
  if id < powerLargest then .ok (c.tails id) else .error .outOfBounds

/-- `item_link_q` -/
def itemLinkQ (it : ℕ) : Result LruLists := do
  let id := c.mem.slabsClsid it
  check (id < powerLargest) "it->slabs_clsid < POWER_LARGEST"
  check (c.mem.itemSlabbed it = false) "(it->iflag & ITEM_SLABBED) == NO_FLAGS"
  check (c.heads id ≠ some it) "it != *head"
  check ((c.heads id).isSome = (c.tails id).isSome)
    "(*head && *tail) || (*head == NULL && *tail == NULL)"
  return { c with
    mem := { c.mem with
      next := Function.update c.mem.next it (c.heads id)
      prev := assign (Function.update c.mem.prev it none) (c.heads id) (some it) }
    heads := Function.update c.heads id (some it)
    tails := Function.update c.tails id ((c.tails id).or (some it))
    sizes := Function.update c.sizes id ((c.sizes id + 1) % 2 ^ 32) }

/-- `item_unlink_q` -/
def itemUnlinkQ (it : ℕ) : Result LruLists := do
  let id := c.mem.slabsClsid it
  check (id < powerLargest) "it->slabs_clsid < POWER_LARGEST"
  check (c.heads id = some it → c.mem.prev it = none) "it->prev == NULL"
  let head := if c.heads id = some it then c.mem.next it else c.heads id
  check (c.tails id = some it → c.mem.next it = none) "it->next == NULL"
  let tail := if c.tails id = some it then c.mem.prev it else c.tails id
  check (c.mem.next it ≠ some it) "it->next != it"
  check (c.mem.prev it ≠ some it) "it->prev != it"
  return { c with
    mem := { c.mem with
      prev := assign c.mem.prev (c.mem.next it) (c.mem.prev it)
      next := assign c.mem.next (c.mem.prev it) (c.mem.next it) }
    heads := Function.update c.heads id head
    tails := Function.update c.tails id tail
    sizes := Function.update c.sizes id ((c.sizes id + (2 ^ 32 - 1)) % 2 ^ 32) }

/-- `item_free` -/
def itemFree (it : ℕ) (os : Os) : Result LruLists := do
  let ntotal := c.mem.itemNtotal it
  let clsid := c.mem.slabsClsid it
  let head ← c.head clsid
  let tail ← c.tail clsid
  check (c.mem.itemLinked it = false) "(it->iflag & ITEM_LINKED) == NO_FLAGS"
  check (some it ≠ head) "it != this->heads[it->slabs_clsid]"
  check (some it ≠ tail) "it != this->tails[it->slabs_clsid]"
  check (c.mem.refcount it = 0) "it->refcount == 0"
  let mem := { c.mem with
    slabsClsid := Function.update c.mem.slabsClsid it 0
    itemSlabbed := Function.update c.mem.itemSlabbed it true }
  let slabs ← c.slabs.doSlabsFree it ntotal clsid os
  return { c with slabs, mem, freed := it :: c.freed }

/-- The part of `do_item_unlink` before `item_free` -/
def detach (it : ℕ) : Result LruLists := do
  let mem := { c.mem with itemLinked := Function.update c.mem.itemLinked it false }
  let (assoc, mem) ← c.assoc.assocDelete mem (mem.hv it) (mem.key it)
  { c with assoc, mem }.itemUnlinkQ it

/-- `do_item_unlink` -/
def doItemUnlink (it : ℕ) (os : Os) : Result LruLists := do
  if c.mem.itemLinked it then
    let c ← c.detach it
    if c.mem.refcount it = 0 then c.itemFree it os else return c
  else
    return c

/-- `do_item_link` -/
def doItemLink (it : ℕ) (now : ℕ) (expansion : Expansion) : Result LruLists := do
  check (c.mem.itemLinked it = false ∧ c.mem.itemSlabbed it = false)
    "(it->iflag & (ITEM_LINKED | ITEM_SLABBED)) == NO_FLAGS"
  check (c.mem.nbytes it < c.settings.itemSizeMax) "it->nbytes < this->settings.item_size_max"
  let mem := { c.mem with
    itemLinked := Function.update c.mem.itemLinked it true
    time := Function.update c.mem.time it (now % 2 ^ 32) }
  let (assoc, mem) ← c.assoc.assocInsert mem it expansion
  { c with assoc, mem }.itemLinkQ it

/-- `do_item_release` -/
def doItemRelease (it : ℕ) (os : Os) : Result LruLists :=
  let c := { c with
    mem := { c.mem with
      refcount := Function.update c.mem.refcount it (c.mem.refcount it - 1) } }
  if c.mem.refcount it = 0 ∧ c.mem.itemLinked it = false then c.itemFree it os else .ok c

/-- `do_item_update` -/
def doItemUpdate (it : ℕ) (now : ℕ) : Result LruLists := do
  let now := now % 2 ^ 32
  if c.mem.time it < (now + (2 ^ 32 - itemUpdateInterval)) % 2 ^ 32 then
    check (c.mem.itemSlabbed it = false) "(it->iflag & ITEM_SLABBED) == NO_FLAGS"
    if c.mem.itemLinked it then
      let c ← c.itemUnlinkQ it
      let c := { c with mem := { c.mem with time := Function.update c.mem.time it now } }
      c.itemLinkQ it
    else
      return c
  else
    return c

/-- `do_item_get` -/
def doItemGet (key : List UInt8) (hv : UInt32) (now : ℕ) : Result (LruLists × Option ℕ) := do
  let it ← c.assoc.assocFind c.mem hv key
  match it with
  | none => return (c, none)
  | some it =>
      let refcount := Function.update c.mem.refcount it ((c.mem.refcount it + 1) % 2 ^ 16)
      let c ← { c with mem := { c.mem with refcount } }.doItemUpdate it now
      return (c, some it)

/-- `do_item_replace` -/
def doItemReplace (it newIt : ℕ) (now : ℕ) (expansion : Expansion) (os : Os) :
    Result LruLists := do
  check (c.mem.itemSlabbed it = false) "(it->iflag & ITEM_SLABBED) == NO_FLAGS"
  let c ← c.doItemUnlink it os
  c.doItemLink newIt now expansion

/-- `do_store_item` -/
def doStoreItem (it : ℕ) (sys : System) : Result LruLists := do
  let (c, oldIt) ← c.doItemGet (c.mem.key it) (c.mem.hv it) (sys.now 0)
  match oldIt with
  | some oldIt =>
      let c ← c.doItemReplace oldIt it (sys.now 1) sys.expansion (sys.os 0)
      c.doItemRelease oldIt (sys.os 1)
  | none => c.doItemLink it (sys.now 1) sys.expansion

/-! ## Allocation -/

/-- The search from the tail: the first item that is picked, after `tries` items at most. -/
def searchTail (mem : Mem) (picks : ℕ → Bool) : ℕ → Option ℕ → Option ℕ
  | 0, _ => none
  | _ + 1, none => none
  | tries + 1, some it => if picks it then some it else searchTail mem picks tries (mem.prev it)

/-- The first search unlinks an item that nobody refers to. -/
def evicts (mem : Mem) (it : ℕ) : Bool := mem.refcount it = 0

/-- The second search unlinks an item that has been referred to for too long. -/
def repairs (mem : Mem) (now : ℕ) (it : ℕ) : Bool :=
  mem.refcount it ≠ 0 ∧ (mem.time it + tailRepairTime) % 2 ^ 32 < now % 2 ^ 32

/-- `slabs_alloc` -/
def slabsAlloc (ntotal id : ℕ) (os : Os) : Result (LruLists × Option ℕ) := do
  let (slabs, mem, it) ← c.slabs.doSlabsAlloc c.mem ntotal id os
  return ({ c with slabs, mem }, it)

/-- The first search and what it unlinks. -/
def evict (id : ℕ) (os : Os) : Result LruLists :=
  match searchTail c.mem (evicts c.mem) searchItems (c.tails id) with
  | some search => c.doItemUnlink search os
  | none => .ok c

/-- The second search and what it unlinks. -/
def tailRepair (id : ℕ) (now : ℕ) (os : Os) : Result LruLists :=
  match searchTail c.mem (repairs c.mem now) searchItems (c.tails id) with
  | some search =>
      let mem := { c.mem with refcount := Function.update c.mem.refcount search 0 }
      { c with mem, repaired := search :: c.repaired }.doItemUnlink search os
  | none => .ok c

/-- The attempts of `do_item_alloc` to get a chunk. -/
def obtainChunk (ntotal id : ℕ) (sys : System) : Result (LruLists × Option ℕ) := do
  let (c, it) ← c.slabsAlloc ntotal id (sys.os 0)
  match it with
  | some it => return (c, some it)
  | none =>
      let tail ← c.tail id
      match tail with
      | none => return (c, none)
      | some _ =>
          let c ← c.evict id (sys.os 1)
          let (c, it) ← c.slabsAlloc ntotal id (sys.os 2)
          match it with
          | some it => return (c, some it)
          | none =>
              let c ← c.tailRepair id (sys.now 0) (sys.os 3)
              c.slabsAlloc ntotal id (sys.os 4)

/-- The part of `do_item_alloc` that fills in the item. -/
def initItem (it id : ℕ) (key : List UInt8) (nbytes : ℤ) : Result LruLists := do
  check (c.mem.slabsClsid it = 0) "it->slabs_clsid == 0"
  let slabsClsid := id % 2 ^ 8
  let head ← c.head slabsClsid
  check (some it ≠ head) "it != this->heads[it->slabs_clsid]"
  if (c.slabs.slabclass id).size < sizeofHashItem + key.length then
    .error .outOfBounds
  else
    return { c with
      mem := { c.mem with
        next := Function.update c.mem.next it none
        prev := Function.update c.mem.prev it none
        hNext := Function.update c.mem.hNext it none
        nbytes := Function.update c.mem.nbytes it (nbytes % 2 ^ 32).toNat
        nkey := Function.update c.mem.nkey it (key.length % 2 ^ 16)
        refcount := Function.update c.mem.refcount it 1
        itemLinked := Function.update c.mem.itemLinked it false
        itemSlabbed := Function.update c.mem.itemSlabbed it false
        slabsClsid := Function.update c.mem.slabsClsid it slabsClsid
        bytes := Function.update c.mem.bytes it (writeBytes (c.mem.bytes it) 0 key) } }

/-- The size that `do_item_alloc` asks for, as a `size_t`. -/
def ntotal (nkey : ℕ) (nbytes : ℤ) : ℕ := ((sizeofHashItem + nkey + nbytes) % 2 ^ 64).toNat

/-- `do_item_alloc` -/
def doItemAlloc (key : List UInt8) (nbytes : ℤ) (sys : System) :
    Result (LruLists × Option ℕ) := do
  let id := c.slabs.slabsClsid (ntotal key.length nbytes)
  if id = 0 then
    return (c, none)
  else
    let (c, it) ← c.obtainChunk (ntotal key.length nbytes) id sys
    match it with
    | none => return (c, none)
    | some it =>
        let c ← c.initItem it id key nbytes
        return (c, some it)

/-! ## The public operations -/

/-- `item_alloc` -/
def itemAlloc (key : List UInt8) (nbytes : ℤ) (sys : System) : Result (LruLists × Option ℕ) :=
  c.doItemAlloc key nbytes sys

/-- `item_get` -/
def itemGet (key : List UInt8) (sys : System) : Result (LruLists × Option ℕ) :=
  c.doItemGet key (Hash.hashKey key) (sys.now 0)

/-- `item_release` -/
def itemRelease (it : ℕ) (sys : System) : Result LruLists := c.doItemRelease it (sys.os 0)

/-- `item_unlink` -/
def itemUnlink (it : ℕ) (sys : System) : Result LruLists := c.doItemUnlink it (sys.os 0)

/-- The hash of an item's key where it lies, right behind the item. -/
def itemHash (mem : Mem) (it : ℕ) : UInt32 :=
  Hash.hash (fun a => mem.bytes it (a - (it + sizeofHashItem))) (it + sizeofHashItem)
    (mem.nkey it) 0

/-- `store_item` -/
def storeItem (it : ℕ) (sys : System) : Result LruLists :=
  let mem := { c.mem with hv := Function.update c.mem.hv it (itemHash c.mem it) }
  { c with mem }.doStoreItem it sys

/-- One pass of the maintenance thread, a section of its own -/
def maintenance : Result LruLists := do
  let (assoc, mem) ← c.assoc.maintenancePass c.mem
  return { c with assoc, mem }

end LruLists

end ChaosCache
