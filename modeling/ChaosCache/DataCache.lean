import ChaosCache.Lru

/-!
# The cache

`DataCache` of `datacache.hpp`: each call is a sequence of lock sections with copies
between them. Between any two steps of a call the maintenance thread may run any number
of passes.
-/

namespace ChaosCache

/-- An array whose bytes are zero before the constructor runs. -/
def AssociativeArray.zero : AssociativeArray where
  hashpower := 0
  hashItems := 0
  primaryHashtable _ := none
  oldHashtable := none
  expanding := false
  expandBucket := 0

/-- What happens during one call: the answers of the system in each section, and the number
of maintenance passes before each step. -/
structure Env where
  sys : ℕ → System
  passes : ℕ → ℕ

namespace DataCache

/-- The configuration that the constructor fills in. -/
def config (cacheSize : ℕ) : Config where
  maxbytes := cacheSize * 1024 * 1024 % 2 ^ 64
  preallocate := false
  factorNum := 5
  factorDen := 4
  chunkSize := 48
  hashpower := 16
  itemSizeMax := 1024 * 1024

/-- The constructor, on memory that held the two `prior` values. -/
def create (priorAssoc : AssociativeArray) (priorSlabs : SlabAllocator) (mem : Mem)
    (cacheSize : ℕ) (os : Os) (initialMalloc : Option ℕ) : Result LruLists :=
  LruLists.create priorAssoc priorSlabs mem (config cacheSize) os initialMalloc

/-- The bytes of a C string, as many as `strlen` counts. -/
def cString (key : List UInt8) : List UInt8 := key.takeWhile (· ≠ 0)

/-- An unsigned 32-bit value converted to `int32_t` -/
def toInt32 (x : ℕ) : ℤ := if x < 2 ^ 31 then x else x - 2 ^ 32

variable (c : LruLists)

/-- Some passes of the maintenance thread -/
def passes : ℕ → LruLists → Result LruLists
  | 0, c => .ok c
  | n + 1, c => do
      let c ← c.maintenance
      passes n c

/-- `memcpy(this->lru->item_get_data(it), inbuffer, bufflen)`, inside the chunk -/
def copyIn (it : ℕ) (inbuffer : ℕ → UInt8) (bufflen : ℤ) : Result LruLists :=
  let length := (bufflen % 2 ^ 64).toNat
  if (c.slabs.slabclass (c.mem.slabsClsid it)).size < sizeofHashItem + c.mem.nkey it + length then
    .error .outOfBounds
  else
    .ok { c with
      mem := { c.mem with
        bytes := Function.update c.mem.bytes it
          (writeBytes (c.mem.bytes it) (c.mem.nkey it) (readBytes inbuffer length)) } }

/-- `getItem`: the value returned, and `bufflen` and the buffer if they are written -/
def getItem (key : List UInt8) (env : Env) :
    Result (LruLists × ℤ × Option (ℤ × List UInt8)) := do
  let c ← passes (env.passes 0) c
  let (c, it) ← c.itemGet (cString key) (env.sys 0)
  match it with
  | some it =>
      let c ← passes (env.passes 1) c
      return (c, 0, some (toInt32 (c.mem.nbytes it), c.mem.data it))
  | none => return (c, -1, none)

/-- `storeItem` -/
def storeItem (key : List UInt8) (inbuffer : ℕ → UInt8) (bufflen : ℤ) (env : Env) :
    Result (LruLists × ℤ) := do
  let c ← passes (env.passes 0) c
  let (c, it) ← c.itemAlloc (cString key) bufflen (env.sys 0)
  -- `ret = (it != NULL)`
  let ret := if it = none then 0 else 1
  match it with
  | some it =>
      let c ← passes (env.passes 1) c
      let c ← copyIn c it inbuffer bufflen
      let c ← passes (env.passes 2) c
      let c ← c.storeItem it (env.sys 2)
      return (c, 0)
  | none => return (c, ret)

/-- `deleteItem` -/
def deleteItem (key : List UInt8) (env : Env) : Result (LruLists × ℤ) := do
  let c ← passes (env.passes 0) c
  let (c, it) ← c.itemGet (cString key) (env.sys 0)
  -- `ret = (it != NULL)`
  let ret := if it = none then 0 else 1
  match it with
  | some it =>
      let c ← passes (env.passes 1) c
      let c ← c.itemUnlink it (env.sys 1)
      let c ← passes (env.passes 2) c
      let c ← c.itemRelease it (env.sys 2)
      return (c, 0)
  | none => return (c, ret)

end DataCache

end ChaosCache
