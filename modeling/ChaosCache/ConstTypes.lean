import Mathlib.Algebra.Ring.Nat
import Mathlib.Data.Finset.Card
import Mathlib.Logic.Function.Basic

/-!
# Constants, items and outcomes

The constants and the `hash_item` of `const_types.h`, in the form shared by the
slab allocator, the hash table and the LRU lists.

Addresses are natural numbers, and a pointer that may be `NULL` is an `Option ℕ`.
The heap of items is kept field by field: `mem.next a` is `a->next`, `mem.nkey a`
is `a->nkey`, and so on. An assignment to one field is then an update of one
map, and everything else is untouched by definition. The two bits of `iflag` are
the two maps `itemLinked` and `itemSlabbed`. `mem.bytes a i` is the byte at
`item_get_key(a) + i`: the key, then the data, then whatever follows in memory.

The program runs with its assertions enabled (no makefile defines `NDEBUG`), so
a failed `assert` is an outcome of its own, next to the accesses the language
leaves undefined.
-/

namespace ChaosCache

/-- Addresses have 64 bits, so a chain without repetition has at most this many nodes. -/
def addressSpace : ℕ := 2 ^ 64

/-- User addresses lie below `2 ^ 47`, which bounds the blocks `malloc` can return. -/
def userSpace : ℕ := 2 ^ 47

def powerSmallest : ℕ := 1
def powerLargest : ℕ := 200
def chunkAlignBytes : ℕ := 8
def tailRepairTime : ℕ := 3 * 3600
def itemUpdateInterval : ℕ := 60
def searchItems : ℕ := 50

/-- `sizeof(hash_item)`: three pointers, three 32-bit and two 16-bit fields and
two bytes, padded to a multiple of eight. -/
def sizeofHashItem : ℕ := 48

/-- `sizeof(void *)` -/
def sizeofPointer : ℕ := 8

/-- What ends a lock section other than by returning. -/
inductive Fault where
  /-- An `assert` whose condition does not hold. -/
  | assertion (condition : String)
  /-- A read through a pointer to freed or never allocated memory. -/
  | useAfterFree
  /-- A write past the end of an array or of a chunk. -/
  | outOfBounds
  /-- A walk along a cyclic chain, which never returns. -/
  | endless
  /-- `abort()` -/
  | abort
  deriving DecidableEq, Repr

abbrev Result := Except Fault

@[simp]
theorem ok_bind {ε α β : Type} (value : α) (rest : α → Except ε β) :
    (Except.ok value >>= rest) = rest value :=
  rfl

theorem bind_of_ok {ε α β : Type} {first : Except ε α} {value : α} {rest : α → Except ε β}
    {result : Except ε β} (returns : first = .ok value) (continues : rest value = result) :
    (first >>= rest) = result := by
  rw [returns]
  exact continues

theorem bind_eq_ok {ε α β : Type} {first : Except ε α} {rest : α → Except ε β} {result : β} :
    (first >>= rest) = .ok result ↔ ∃ value, first = .ok value ∧ rest value = .ok result := by
  cases first with
  | ok value => simp
  | error fault => simp [bind, Except.bind]

theorem bind_eq_error {ε α β : Type} {first : Except ε α} {rest : α → Except ε β} {fault : ε} :
    (first >>= rest) = .error fault ↔
      first = .error fault ∨ ∃ value, first = .ok value ∧ rest value = .error fault := by
  cases first with
  | ok value => simp
  | error fault' => simp [bind, Except.bind]

theorem exists_ok_of_isOk {α : Type} {result : Result α} (isOk : result.isOk = true) :
    ∃ value, result = .ok value := by
  cases result with
  | ok value => exact ⟨value, rfl⟩
  | error fault => simp [Except.isOk, Except.toBool] at isOk

theorem toOption_eq_some {ε α : Type} {result : Except ε α} {value : α} :
    result.toOption = some value ↔ result = .ok value := by
  cases result <;> simp [Except.toOption]

/-- `assert(condition)` -/
def check (condition : Prop) [Decidable condition] (text : String) : Result Unit :=
  if condition then .ok () else .error (.assertion text)

@[simp]
theorem check_true (text : String) : check True text = .ok () := rfl

@[simp]
theorem pure_eq_ok {ε α : Type} (value : α) : (pure value : Except ε α) = .ok value := rfl

theorem check_eq_ok {condition : Prop} [Decidable condition] {text : String}
    (holds : condition) : check condition text = .ok () :=
  if_pos holds

theorem of_check {condition : Prop} [Decidable condition] {text : String} {value : Unit}
    (passed : check condition text = .ok value) : condition := by
  by_contra fails
  simp [check, fails] at passed

/-- The engine's configuration. The growth factor is the exact rational
`factorNum / factorDen`. -/
structure Config where
  maxbytes : ℕ
  preallocate : Bool
  factorNum : ℕ
  factorDen : ℕ
  chunkSize : ℕ
  hashpower : ℕ
  itemSizeMax : ℕ

/-- What the system answers to the allocations made in one call. -/
structure Os where
  /-- The block returned for a size, if any. -/
  malloc : ℕ → Option ℕ
  /-- Whether an array grows to a size. -/
  realloc : ℕ → Bool

/-- The heap of `hash_item`s, one map for each field. -/
structure Mem where
  next : ℕ → Option ℕ
  prev : ℕ → Option ℕ
  hNext : ℕ → Option ℕ
  time : ℕ → ℕ
  hv : ℕ → UInt32
  nbytes : ℕ → ℕ
  nkey : ℕ → ℕ
  refcount : ℕ → ℕ
  itemLinked : ℕ → Bool
  itemSlabbed : ℕ → Bool
  slabsClsid : ℕ → ℕ
  bytes : ℕ → ℕ → UInt8

/-- One `hash_item` and the bytes behind it. -/
structure HashItem where
  next : Option ℕ
  prev : Option ℕ
  hNext : Option ℕ
  time : ℕ
  hv : UInt32
  nbytes : ℕ
  nkey : ℕ
  refcount : ℕ
  itemLinked : Bool
  itemSlabbed : Bool
  slabsClsid : ℕ
  bytes : ℕ → UInt8

/-- The `length` bytes of `contents` from its start. -/
def readBytes (contents : ℕ → UInt8) (length : ℕ) : List UInt8 :=
  (List.range length).map contents

/-- `memcpy` of `source` to `offset`. -/
def writeBytes (contents : ℕ → UInt8) (offset : ℕ) (source : List UInt8) : ℕ → UInt8 :=
  fun i => if offset ≤ i ∧ i < offset + source.length then source.getD (i - offset) 0
    else contents i

@[simp]
theorem length_readBytes (contents : ℕ → UInt8) (length : ℕ) :
    (readBytes contents length).length = length := by
  simp [readBytes]

theorem readBytes_eq_iff {contents : ℕ → UInt8} {source : List UInt8} :
    readBytes contents source.length = source ↔
      ∀ i, i < source.length → contents i = source.getD i 0 := by
  constructor
  · intro same i inRange
    have atIndex := congrArg (fun bytes => bytes.getD i 0) same
    simpa [readBytes, inRange] using atIndex
  · intro same
    apply List.ext_getElem (by simp)
    intro i _ inRange
    simp [readBytes, same i inRange, inRange]

theorem readBytes_congr {left right : ℕ → UInt8} {length : ℕ}
    (agree : ∀ i, i < length → left i = right i) :
    readBytes left length = readBytes right length := by
  apply List.map_congr_left
  intro i mem
  exact agree i (List.mem_range.mp mem)

theorem writeBytes_of_lt {contents : ℕ → UInt8} {offset i : ℕ} {source : List UInt8}
    (before : i < offset) : writeBytes contents offset source i = contents i := by
  simp [writeBytes, Nat.not_le.mpr before]

theorem writeBytes_add (contents : ℕ → UInt8) (offset : ℕ) {i : ℕ} {source : List UInt8}
    (inRange : i < source.length) :
    writeBytes contents offset source (offset + i) = source.getD i 0 := by
  simp [writeBytes, inRange]

theorem readBytes_writeBytes_zero (contents : ℕ → UInt8) (source : List UInt8) :
    readBytes (writeBytes contents 0 source) source.length = source := by
  rw [readBytes_eq_iff]
  intro i inRange
  simpa using writeBytes_add contents 0 inRange

theorem readBytes_writeBytes_of_le (contents : ℕ → UInt8) {source : List UInt8} {length : ℕ}
    (inside : length ≤ source.length) :
    readBytes (writeBytes contents 0 source) length = source.take length := by
  have size : (source.take length).length = length := List.length_take_of_le inside
  have reads : readBytes (writeBytes contents 0 source) (source.take length).length =
      source.take length := by
    rw [readBytes_eq_iff, size]
    intro i inRange
    have written := writeBytes_add contents 0 (Nat.lt_of_lt_of_le inRange inside)
    rw [Nat.zero_add] at written
    rw [written, List.getD_eq_getElem?_getD, List.getD_eq_getElem?_getD,
      List.getElem?_take_of_lt inRange]
  rwa [size] at reads

/-- One field of the items after `memset(start, 0, length)`. -/
def clearRange {α : Type} (start length : ℕ) (zero : α) (field : ℕ → α) : ℕ → α :=
  fun a => if start ≤ a ∧ a < start + length then zero else field a

theorem clearRange_of_mem {α : Type} {start length : ℕ} {zero : α} {field : ℕ → α}
    {a : ℕ} (inside : start ≤ a ∧ a < start + length) :
    clearRange start length zero field a = zero :=
  if_pos inside

theorem clearRange_of_notMem {α : Type} {start length : ℕ} {zero : α} {field : ℕ → α}
    {a : ℕ} (outside : ¬(start ≤ a ∧ a < start + length)) :
    clearRange start length zero field a = field a :=
  if_neg outside

namespace Mem

variable (mem : Mem)

/-- The key of an item: its first `nkey` bytes. -/
def key (it : ℕ) : List UInt8 := readBytes (mem.bytes it) (mem.nkey it)

/-- The `nbytes` bytes from `item_get_data` on, right behind the key. -/
def data (it : ℕ) : List UInt8 :=
  readBytes (fun i => mem.bytes it (mem.nkey it + i)) (mem.nbytes it)

/-- `ITEM_ntotal` -/
def itemNtotal (it : ℕ) : ℕ := sizeofHashItem + mem.nkey it + mem.nbytes it

/-- `memset(start, 0, length)`: every item that starts in the range is cleared. -/
def clear (start length : ℕ) : Mem where
  next := clearRange start length none mem.next
  prev := clearRange start length none mem.prev
  hNext := clearRange start length none mem.hNext
  time := clearRange start length 0 mem.time
  hv := clearRange start length 0 mem.hv
  nbytes := clearRange start length 0 mem.nbytes
  nkey := clearRange start length 0 mem.nkey
  refcount := clearRange start length 0 mem.refcount
  itemLinked := clearRange start length false mem.itemLinked
  itemSlabbed := clearRange start length false mem.itemSlabbed
  slabsClsid := clearRange start length 0 mem.slabsClsid
  bytes := clearRange start length (fun _ => 0) mem.bytes

/-- All fields of one item. -/
def item (a : ℕ) : HashItem where
  next := mem.next a
  prev := mem.prev a
  hNext := mem.hNext a
  time := mem.time a
  hv := mem.hv a
  nbytes := mem.nbytes a
  nkey := mem.nkey a
  refcount := mem.refcount a
  itemLinked := mem.itemLinked a
  itemSlabbed := mem.itemSlabbed a
  slabsClsid := mem.slabsClsid a
  bytes := mem.bytes a

theorem item_clear_of_notMem {mem : Mem} {start length a : ℕ}
    (outside : ¬(start ≤ a ∧ a < start + length)) :
    (mem.clear start length).item a = mem.item a := by
  simp only [item, clear, clearRange_of_notMem outside]

/-- Memory that was never written reads as zero. -/
def zero : Mem where
  next _ := none
  prev _ := none
  hNext _ := none
  time _ := 0
  hv _ := 0
  nbytes _ := 0
  nkey _ := 0
  refcount _ := 0
  itemLinked _ := false
  itemSlabbed _ := false
  slabsClsid _ := 0
  bytes _ _ := 0

theorem item_clear_of_mem {mem : Mem} {start length a : ℕ}
    (inside : start ≤ a ∧ a < start + length) :
    (mem.clear start length).item a = zero.item a := by
  simp only [item, clear, clearRange_of_mem inside, zero]

end Mem

end ChaosCache
