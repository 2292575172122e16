import ChaosCache.ConstTypes

/-!
# The hash table

`AssociativeArray` of `assoc.hpp` and `assoc.cpp`: chained buckets, doubled by an
expansion that migrates one bucket in each pass of the maintenance thread.

A table is an array of chain heads, kept as a map from bucket numbers. The old table
is `none` once `free` was called on it, and reading it then is a fault. The chains
themselves lie in the items: `mem.hNext`. What the system decides in `assoc_expand`,
whether `calloc` and the creation of the thread succeed, is an argument.

Loops that follow a chain are bounded by the size of the address space. A chain that
ends has fewer nodes than that, so running out means that the loop does not end.
-/

namespace ChaosCache

/-- `hashsize(n)`, in 32 bits -/
def hashsize (n : ℕ) : ℕ := 2 ^ n % 2 ^ 32

/-- `hashmask(n)`, in 32 bits -/
def hashmask (n : ℕ) : ℕ := (hashsize n + (2 ^ 32 - 1)) % 2 ^ 32

/-- How an attempt to expand the table ends. -/
inductive Expansion where
  | succeeds
  | callocFails
  | threadFails
  deriving DecidableEq

/-- A bucket of one of the two tables. -/
inductive Slot where
  | old (bucket : ℕ)
  | primary (bucket : ℕ)
  deriving DecidableEq

/-- What a `hash_item **` of the table points to: a bucket or the link of an item. -/
inductive Position where
  | slot (slot : Slot)
  | hNext (it : ℕ)

structure AssociativeArray where
  hashpower : ℕ
  hashItems : ℕ
  primaryHashtable : ℕ → Option ℕ
  oldHashtable : Option (ℕ → Option ℕ)
  expanding : Bool
  expandBucket : ℕ

namespace Mem

/-- The table's own match test: equal hash values, and the item's first bytes are the
searched key. The length of the item's key is not compared. -/
def Matches (mem : Mem) (hash : UInt32) (key : List UInt8) (it : ℕ) : Prop :=
  hash = mem.hv it ∧ readBytes (mem.bytes it) key.length = key

instance (mem : Mem) (hash : UInt32) (key : List UInt8) (it : ℕ) :
    Decidable (mem.Matches hash key it) :=
  inferInstanceAs (Decidable (_ ∧ _))

end Mem

namespace AssociativeArray

/-- The constructor, on memory that held `prior`. It assigns the power and the
primary table only. -/
def create (prior : AssociativeArray) (hashpower : ℕ) : AssociativeArray :=
  { prior with hashpower, primaryHashtable := fun _ => none }

variable (t : AssociativeArray)

/-- `which_hashtable`: the old table's bucket for a hash whose bucket has not migrated yet. -/
def whichHashtable (hash : UInt32) : Option ℕ :=
  let bucket := hash.toNat &&& hashmask (t.hashpower - 1)
  if t.expanding ∧ t.expandBucket ≤ bucket then some bucket else none

/-- `get_bucket` -/
def getBucket (hash : UInt32) : ℕ := hashmask t.hashpower &&& hash.toNat

/-- The bucket that lookups, insertions and deletions of a hash use. -/
def slot (hash : UInt32) : Slot :=
  match t.whichHashtable hash with
  | some bucket => .old bucket
  | none => .primary (t.getBucket hash)

/-- Read a bucket. -/
def load : Slot → Result (Option ℕ)
  | .old bucket =>
      match t.oldHashtable with
      | some buckets => .ok (buckets bucket)
      | none => .error .useAfterFree
  | .primary bucket => .ok (t.primaryHashtable bucket)

/-- Write a bucket. -/
def store (slot : Slot) (head : Option ℕ) : AssociativeArray :=
  match slot with
  | .old bucket =>
      { t with oldHashtable := t.oldHashtable.map (Function.update · bucket head) }
  | .primary bucket =>
      { t with primaryHashtable := Function.update t.primaryHashtable bucket head }

/-- The loop of `assoc_find`. -/
def findFrom (mem : Mem) (hash : UInt32) (key : List UInt8) :
    ℕ → Option ℕ → Result (Option ℕ)
  | 0, _ => .error .endless
  | _ + 1, none => .ok none
  | fuel + 1, some it =>
      if mem.Matches hash key it then .ok (some it)
      else findFrom mem hash key fuel (mem.hNext it)

/-- `assoc_find` -/
def assocFind (mem : Mem) (hash : UInt32) (key : List UInt8) : Result (Option ℕ) := do
  let it ← t.load (t.slot hash)
  findFrom mem hash key (addressSpace + 1) it

/-- `assoc_expand` -/
def assocExpand (expansion : Expansion) : AssociativeArray :=
  match expansion with
  | .succeeds =>
      { t with
        oldHashtable := some t.primaryHashtable
        primaryHashtable := fun _ => none
        hashpower := t.hashpower + 1
        expanding := true
        expandBucket := 0 }
  | .callocFails => { t with oldHashtable := some t.primaryHashtable }
  | .threadFails =>
      -- the power is restored and the new table freed before anything was stored in it
      { t with
        oldHashtable := some t.primaryHashtable
        expanding := false
        expandBucket := 0 }

/-- `assoc_insert` -/
def assocInsert (mem : Mem) (it : ℕ) (expansion : Expansion) :
    Result (AssociativeArray × Mem) := do
  let found ← t.assocFind mem (mem.hv it) (mem.key it)
  check (found = none) "assoc_find(it->hv, this->lru->item_get_key(it), it->nkey) == NULL"
  let slot := t.slot (mem.hv it)
  let head ← t.load slot
  let mem := { mem with hNext := Function.update mem.hNext it head }
  let t := t.store slot (some it)
  let t := { t with hashItems := (t.hashItems + 1) % 2 ^ 32 }
  if !t.expanding ∧ hashsize t.hashpower * 3 % 2 ^ 32 / 2 < t.hashItems then
    return (t.assocExpand expansion, mem)
  else
    return (t, mem)

/-- The loop of `hashitem_before`, with the position and the item it points to. -/
def beforeFrom (mem : Mem) (hash : UInt32) (key : List UInt8) :
    ℕ → Position → Option ℕ → Result (Position × Option ℕ)
  | 0, _, _ => .error .endless
  | _ + 1, pos, none => .ok (pos, none)
  | fuel + 1, pos, some it =>
      if mem.Matches hash key it then .ok (pos, some it)
      else beforeFrom mem hash key fuel (.hNext it) (mem.hNext it)

/-- `hashitem_before` -/
def hashitemBefore (mem : Mem) (hash : UInt32) (key : List UInt8) :
    Result (Position × Option ℕ) := do
  let slot := t.slot hash
  let it ← t.load slot
  beforeFrom mem hash key (addressSpace + 1) (.slot slot) it

/-- `assoc_delete` -/
def assocDelete (mem : Mem) (hash : UInt32) (key : List UInt8) :
    Result (AssociativeArray × Mem) := do
  let (before, found) ← t.hashitemBefore mem hash key
  match found with
  | none => .error (.assertion "*before != NULL")
  | some it =>
      let t := { t with hashItems := (t.hashItems + (2 ^ 32 - 1)) % 2 ^ 32 }
      let next := mem.hNext it
      let mem := { mem with hNext := Function.update mem.hNext it none }
      match before with
      | .slot slot => return (t.store slot next, mem)
      | .hNext item => return (t, { mem with hNext := Function.update mem.hNext item next })

/-- The loop of a pass, which puts every item of a chain in front of its primary bucket. -/
def migrateFrom : ℕ → Option ℕ → AssociativeArray → Mem → Result (AssociativeArray × Mem)
  | 0, _, _, _ => .error .endless
  | _ + 1, none, t, mem => .ok (t, mem)
  | fuel + 1, some it, t, mem =>
      let next := mem.hNext it
      let bucket := t.getBucket (mem.hv it)
      let mem := { mem with hNext := Function.update mem.hNext it (t.primaryHashtable bucket) }
      let t := t.store (.primary bucket) (some it)
      migrateFrom fuel next t mem

/-- The end of a pass: the bucket at the cursor is empty, and the old table is freed
after its last bucket. -/
def advance : AssociativeArray :=
  let t := t.store (.old t.expandBucket) none
  let t := { t with expandBucket := (t.expandBucket + 1) % 2 ^ 32 }
  if t.expandBucket = hashsize (t.hashpower - 1) then
    { t with expanding := false, oldHashtable := none }
  else t

/-- One pass of `assoc_maintenance_thread`, from `lock_cache` to `unlock_cache`. The
thread ends after a pass that leaves the table not expanding. -/
def maintenancePass (mem : Mem) : Result (AssociativeArray × Mem) := do
  if t.expanding then
    let first ← t.load (.old t.expandBucket)
    let (t, mem) ← migrateFrom (addressSpace + 1) first t mem
    return (t.advance, mem)
  else
    return (t, mem)

end AssociativeArray

end ChaosCache
