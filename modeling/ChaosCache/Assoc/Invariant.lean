import Mathlib.Data.Finset.Card
import Mathlib.Data.Fintype.Basic
import ChaosCache.Assoc
import ChaosCache.Library.Links

/-!
# The invariant of the hash table

`TableInv` says which items each bucket's chain holds: the stored items whose hash
selects that bucket now. Everything the table promises follows from it, whatever the
progress of a migration, because `slot` is the one function by which lookups,
insertions and deletions choose their chain.
-/

namespace ChaosCache.AssociativeArray

open Links

theorem hashsize_of_lt {n : ℕ} (small : n < 32) : hashsize n = 2 ^ n :=
  Nat.mod_eq_of_lt (Nat.pow_lt_pow_right (by decide) small)

theorem hashmask_of_lt {n : ℕ} (small : n < 32) : hashmask n = 2 ^ n - 1 := by
  have bound : 2 ^ n ≤ 2 ^ 31 := Nat.pow_le_pow_right (by decide) (by omega)
  have positive : 0 < 2 ^ n := Nat.two_pow_pos n
  rw [hashmask, hashsize_of_lt small]
  omega

theorem and_hashmask {n : ℕ} (small : n < 32) (x : ℕ) : x &&& hashmask n = x % 2 ^ n := by
  rw [hashmask_of_lt small, Nat.and_two_pow_sub_one_eq_mod]

variable {t : AssociativeArray} {mem : Mem} {stored : Finset ℕ} {chains : Slot → List ℕ}

theorem slot_eq (power : t.hashpower < 31) (hash : UInt32) :
    t.slot hash =
      if t.expanding = true ∧ t.expandBucket ≤ hash.toNat % 2 ^ (t.hashpower - 1) then
        .old (hash.toNat % 2 ^ (t.hashpower - 1))
      else .primary (hash.toNat % 2 ^ t.hashpower) := by
  have migrating : t.hashpower - 1 < 32 := by omega
  have current : t.hashpower < 32 := by omega
  simp only [slot, whichHashtable, getBucket, and_hashmask migrating, Nat.and_comm (hashmask _),
    and_hashmask current]
  split <;> rename_i found <;> split at found <;> simp_all

/-- The first item of a bucket in use. The old table is in use while expanding. -/
def head (t : AssociativeArray) : Slot → Option ℕ
  | .old bucket => if t.expanding then t.oldHashtable.bind (· bucket) else none
  | .primary bucket => t.primaryHashtable bucket

/-- Each chain holds the stored items whose hash selects its bucket. -/
structure TableInv (t : AssociativeArray) (mem : Mem) (stored : Finset ℕ)
    (chains : Slot → List ℕ) : Prop where
  chain : ∀ slot, Chain mem.hNext (t.head slot) (chains slot)
  mem_chain : ∀ slot a, a ∈ chains slot ↔ a ∈ stored ∧ t.slot (mem.hv a) = slot
  count : t.hashItems = stored.card % 2 ^ 32
  power : t.hashpower < 31
  cursor : t.expanding = true → 0 < t.hashpower ∧ t.expandBucket < 2 ^ (t.hashpower - 1)
  oldLive : t.expanding = true → t.oldHashtable.isSome = true
  address : ∀ a ∈ stored, a < addressSpace

theorem slot_old {hash : UInt32} {bucket : ℕ} (selects : t.slot hash = .old bucket) :
    t.expanding = true := by
  simp only [slot, whichHashtable] at selects
  split at selects <;> rename_i found
  · split at found <;> simp_all
  · simp at selects

theorem bucket_of_slot_old (power : t.hashpower < 31) {hash : UInt32} {bucket : ℕ}
    (selects : t.slot hash = .old bucket) :
    t.expandBucket ≤ bucket ∧ bucket < 2 ^ (t.hashpower - 1) := by
  rw [slot_eq power] at selects
  split at selects
  · rename_i migrating
    rcases Slot.old.inj selects with rfl
    exact ⟨migrating.2, Nat.mod_lt _ (Nat.two_pow_pos _)⟩
  · simp at selects

section Fields

@[simp]
theorem slot_store (slot' : Slot) (target : Option ℕ) (hash : UInt32) :
    (t.store slot' target).slot hash = t.slot hash := by
  cases slot' <;> rfl

@[simp]
theorem hashpower_store (slot : Slot) (target : Option ℕ) :
    (t.store slot target).hashpower = t.hashpower := by
  cases slot <;> rfl

@[simp]
theorem hashItems_store (slot : Slot) (target : Option ℕ) :
    (t.store slot target).hashItems = t.hashItems := by
  cases slot <;> rfl

@[simp]
theorem expanding_store (slot : Slot) (target : Option ℕ) :
    (t.store slot target).expanding = t.expanding := by
  cases slot <;> rfl

@[simp]
theorem expandBucket_store (slot : Slot) (target : Option ℕ) :
    (t.store slot target).expandBucket = t.expandBucket := by
  cases slot <;> rfl

@[simp]
theorem isSome_oldHashtable_store (slot : Slot) (target : Option ℕ) :
    (t.store slot target).oldHashtable.isSome = t.oldHashtable.isSome := by
  cases slot <;> simp [store]

end Fields

namespace TableInv

theorem nodup (inv : TableInv t mem stored chains) (slot : Slot) : (chains slot).Nodup :=
  (inv.chain slot).nodup

theorem length_lt (inv : TableInv t mem stored chains) (slot : Slot) :
    (chains slot).length < addressSpace + 1 := by
  have below : ∀ a ∈ chains slot, a ∈ Finset.range addressSpace := fun a mem =>
    Finset.mem_range.mpr (inv.address a ((inv.mem_chain slot a).mp mem).1)
  have card : (chains slot).toFinset.card ≤ (Finset.range addressSpace).card :=
    Finset.card_le_card fun a mem => below a (List.mem_toFinset.mp mem)
  rw [List.toFinset_card_of_nodup (inv.nodup slot), Finset.card_range] at card
  omega

theorem slot_unique (inv : TableInv t mem stored chains) {slot slot' : Slot} {a : ℕ}
    (here : a ∈ chains slot) (there : a ∈ chains slot') : slot = slot' := by
  rw [← ((inv.mem_chain slot a).mp here).2, ((inv.mem_chain slot' a).mp there).2]

/-- The old buckets in use lie from the cursor to the end of the old table. -/
theorem chains_old_eq_nil (inv : TableInv t mem stored chains) {bucket : ℕ}
    (unused : bucket < t.expandBucket ∨ 2 ^ (t.hashpower - 1) ≤ bucket) :
    chains (.old bucket) = [] := by
  rw [List.eq_nil_iff_forall_not_mem]
  intro a inChain
  have bounds := bucket_of_slot_old inv.power ((inv.mem_chain _ a).mp inChain).2
  omega

theorem load_slot (inv : TableInv t mem stored chains) (hash : UInt32) :
    t.load (t.slot hash) = .ok (t.head (t.slot hash)) := by
  rcases selects : t.slot hash with bucket | bucket
  · have expanding := slot_old selects
    rcases Option.isSome_iff_exists.mp (inv.oldLive expanding) with ⟨buckets, live⟩
    simp [load, head, expanding, live]
  · rfl

end TableInv

/-! ## Lookup -/

theorem findFrom_eq {hash : UInt32} {key : List UInt8} {fuel : ℕ} {start : Option ℕ}
    {nodes : List ℕ} (chain : Chain mem.hNext start nodes) (enough : nodes.length < fuel) :
    findFrom mem hash key fuel start = .ok (nodes.find? (mem.Matches hash key ·)) := by
  induction nodes generalizing fuel start with
  | nil =>
      rcases Nat.exists_eq_add_of_lt enough with ⟨fuel, rfl⟩
      rcases chain with rfl
      rfl
  | cons a rest ih =>
      rcases chain with ⟨rfl, tail⟩
      rcases fuel with _ | fuel
      · simp at enough
      · rw [findFrom, List.find?_cons]
        by_cases found : mem.Matches hash key a
        · simp [found]
        · simpa [found] using ih tail (by simpa using enough)

namespace TableInv

/-- A lookup returns the first match of the chain its hash selects. -/
theorem assocFind_eq (inv : TableInv t mem stored chains) (hash : UInt32) (key : List UInt8) :
    t.assocFind mem hash key =
      .ok ((chains (t.slot hash)).find? (mem.Matches hash key ·)) := by
  rw [assocFind, inv.load_slot]
  exact findFrom_eq (inv.chain _) (inv.length_lt _)

/-- A stored item that matches lies in the chain that is searched. -/
theorem mem_chain_of_matches (inv : TableInv t mem stored chains) {hash : UInt32}
    {key : List UInt8} {a : ℕ} (isStored : a ∈ stored) (found : mem.Matches hash key a) :
    a ∈ chains (t.slot hash) :=
  (inv.mem_chain _ a).mpr ⟨isStored, by rw [found.1]⟩

/-- A lookup misses exactly when no stored item passes the table's test. -/
theorem assocFind_eq_none_iff (inv : TableInv t mem stored chains) (hash : UInt32)
    (key : List UInt8) :
    t.assocFind mem hash key = .ok none ↔ ∀ a ∈ stored, ¬mem.Matches hash key a := by
  rw [inv.assocFind_eq, Except.ok.injEq, List.find?_eq_none]
  constructor
  · intro noMatch a isStored found
    exact noMatch a (inv.mem_chain_of_matches isStored found) (by simpa using found)
  · intro noMatch a mem_chain found
    exact noMatch a ((inv.mem_chain _ a).mp mem_chain).1 (by simpa using found)

end TableInv

/-! ## Insertion and expansion -/

theorem head_store (inv : TableInv t mem stored chains) (hash : UInt32) (target : Option ℕ) :
    (t.store (t.slot hash) target).head =
      Function.update t.head (t.slot hash) target := by
  funext slot
  rcases selects : t.slot hash with bucket | bucket
  · have expanding := slot_old selects
    rcases Option.isSome_iff_exists.mp (inv.oldLive expanding) with ⟨buckets, live⟩
    cases slot <;> simp [store, head, expanding, live, Function.update_apply]
  · cases slot with
    | old other => rfl
    | primary other => simp [store, head, Function.update_apply]

/-- The state `assoc_insert` reaches before it decides whether to expand. -/
def linked (t : AssociativeArray) (mem : Mem) (it : ℕ) : AssociativeArray × Mem :=
  let slot := t.slot (mem.hv it)
  let filled := t.store slot (some it)
  ({ filled with hashItems := (filled.hashItems + 1) % 2 ^ 32 },
    { mem with hNext := Function.update mem.hNext it (t.head slot) })

namespace TableInv

theorem insert (inv : TableInv t mem stored chains) {it : ℕ} (fresh : it ∉ stored)
    (address : it < addressSpace) :
    TableInv (t.linked mem it).1 (t.linked mem it).2 (Insert.insert it stored)
      (Function.update chains (t.slot (mem.hv it)) (it :: chains (t.slot (mem.hv it)))) := by
  have outside (slot : Slot) : it ∉ chains slot := fun mem_chain =>
    fresh ((inv.mem_chain slot it).mp mem_chain).1
  refine
    { chain := fun slot => ?_
      mem_chain := fun slot a => ?_
      count := ?_
      power := by simpa [linked] using inv.power
      cursor := by simpa [linked] using inv.cursor
      oldLive := by simpa [linked] using inv.oldLive
      address := ?_ }
  · change Chain _ ((t.store _ _).head slot) _
    rw [head_store inv]
    by_cases here : slot = t.slot (mem.hv it)
    · subst here
      rw [Function.update_self, Function.update_self]
      exact (inv.chain _).push (outside _)
    · rw [Function.update_of_ne here, Function.update_of_ne here]
      exact (inv.chain slot).update _ (outside slot)
  · change _ ↔ _ ∧ (t.store _ _).slot _ = slot
    rw [slot_store, Finset.mem_insert]
    by_cases here : slot = t.slot (mem.hv it)
    · subst here
      rw [Function.update_self, List.mem_cons, inv.mem_chain]
      constructor
      · rintro (rfl | ⟨isStored, selects⟩)
        · exact ⟨Or.inl rfl, rfl⟩
        · exact ⟨Or.inr isStored, selects⟩
      · rintro ⟨rfl | isStored, selects⟩
        · exact Or.inl rfl
        · exact Or.inr ⟨isStored, selects⟩
    · rw [Function.update_of_ne here, inv.mem_chain]
      constructor
      · exact fun ⟨isStored, selects⟩ => ⟨Or.inr isStored, selects⟩
      · rintro ⟨rfl | isStored, selects⟩
        · exact absurd selects.symm here
        · exact ⟨isStored, selects⟩
  · rw [Finset.card_insert_of_notMem fresh]
    simp only [linked, hashItems_store, inv.count, Nat.mod_add_mod]
  · intro a mem_insert
    rcases Finset.mem_insert.mp mem_insert with rfl | isStored
    · exact address
    · exact inv.address a isStored

end TableInv

/-- The chains after an attempt to expand. -/
def expandedChains (expansion : Expansion) (chains : Slot → List ℕ) : Slot → List ℕ :=
  match expansion with
  | .succeeds => fun
      | .old bucket => chains (.primary bucket)
      | .primary _ => []
  | _ => chains

namespace TableInv

/-- An expansion keeps every item findable, whether it succeeds or not. -/
theorem expand (inv : TableInv t mem stored chains) (still : t.expanding = false)
    {expansion : Expansion} (power : (t.assocExpand expansion).hashpower < 31) :
    TableInv (t.assocExpand expansion) mem stored (expandedChains expansion chains) := by
  have slot_still (hash : UInt32) : t.slot hash = .primary (hash.toNat % 2 ^ t.hashpower) := by
    simp [slot_eq inv.power, still]
  cases expansion with
  | succeeds =>
      have slot_expanding (hash : UInt32) :
          (t.assocExpand .succeeds).slot hash = .old (hash.toNat % 2 ^ t.hashpower) := by
        rw [slot_eq power]
        simp [assocExpand]
      refine
        { chain := fun slot => ?_
          mem_chain := fun slot a => ?_
          count := inv.count
          power := power
          cursor := fun _ => ⟨Nat.succ_pos _, Nat.two_pow_pos _⟩
          oldLive := fun _ => rfl
          address := inv.address }
      · cases slot with
        | old bucket => exact inv.chain (.primary bucket)
        | primary bucket => rfl
      · cases slot with
        | old bucket =>
            simp only [expandedChains, inv.mem_chain, slot_still, slot_expanding,
              Slot.primary.injEq, Slot.old.injEq]
        | primary bucket => simp [expandedChains, slot_expanding]
  | callocFails =>
      refine { inv with
        chain := fun slot => ?_
        oldLive := fun _ => rfl }
      cases slot with
      | old bucket =>
          simpa [assocExpand, head, still, expandedChains] using inv.chain (.old bucket)
      | primary bucket => exact inv.chain (.primary bucket)
  | threadFails =>
      refine
        { chain := fun slot => ?_
          mem_chain := fun slot a => ?_
          count := inv.count
          power := inv.power
          cursor := by simp [assocExpand]
          oldLive := by simp [assocExpand]
          address := inv.address }
      · cases slot with
        | old bucket =>
            simpa [assocExpand, head, still, expandedChains] using inv.chain (.old bucket)
        | primary bucket => exact inv.chain (.primary bucket)
      · rw [expandedChains, inv.mem_chain, slot_still, slot_eq power]
        · simp [assocExpand]
        · simp

end TableInv

theorem assocInsert_eq (inv : TableInv t mem stored chains) {it : ℕ} (expansion : Expansion)
    (misses : t.assocFind mem (mem.hv it) (mem.key it) = .ok none) :
    t.assocInsert mem it expansion =
      let after := t.linked mem it
      if !after.1.expanding ∧ hashsize after.1.hashpower * 3 % 2 ^ 32 / 2 < after.1.hashItems then
        .ok (after.1.assocExpand expansion, after.2)
      else .ok after := by
  simp only [AssociativeArray.assocInsert, misses, ok_bind, check_true, inv.load_slot]
  rfl

/-- An insertion that leaves the power below 31 stores its item and changes no other field
of the heap than the links. -/
theorem TableInv.assocInsert (inv : TableInv t mem stored chains) {it : ℕ}
    (fresh : it ∉ stored) (address : it < addressSpace) (expansion : Expansion)
    (misses : t.assocFind mem (mem.hv it) (mem.key it) = .ok none)
    (power : ∀ t' mem', t.assocInsert mem it expansion = .ok (t', mem') → t'.hashpower < 31) :
    ∃ t' hNext' chains',
      t.assocInsert mem it expansion = .ok (t', { mem with hNext := hNext' }) ∧
        TableInv t' { mem with hNext := hNext' } (Insert.insert it stored) chains' := by
  have inserted := inv.insert fresh address
  have run := assocInsert_eq inv expansion misses
  by_cases grows : !(t.linked mem it).1.expanding ∧
      hashsize (t.linked mem it).1.hashpower * 3 % 2 ^ 32 / 2 < (t.linked mem it).1.hashItems
  · rw [if_pos grows] at run
    have still : (t.linked mem it).1.expanding = false := by simpa using grows.1
    exact ⟨_, _, _, run, inserted.expand still (power _ _ run)⟩
  · rw [if_neg grows] at run
    exact ⟨_, _, _, run, inserted⟩

/-- Fewer than `2 ^ 30` items never make the table grow to `2 ^ 31` buckets. -/
theorem TableInv.power_of_card (inv : TableInv t mem stored chains) {it : ℕ}
    (few : stored.card < 2 ^ 30) {expansion : Expansion}
    (misses : t.assocFind mem (mem.hv it) (mem.key it) = .ok none) (t' : AssociativeArray)
    (mem' : Mem) (run : t.assocInsert mem it expansion = .ok (t', mem')) : t'.hashpower < 31 := by
  have power := inv.power
  have inserted := assocInsert_eq inv expansion misses
  have unchanged : (t.linked mem it).1.hashpower = t.hashpower := by simp [linked]
  have items : (t.linked mem it).1.hashItems = stored.card + 1 := by
    simp only [linked, hashItems_store, inv.count]
    omega
  simp only [unchanged, items] at inserted
  split at inserted
  · rename_i grows
    cases run.symm.trans inserted
    have small : t.hashpower < 30 := by
      by_contra large
      have same : t.hashpower = 30 := by omega
      rw [hashsize_of_lt (by omega), same] at grows
      omega
    cases expansion with
    | succeeds =>
        change (t.linked mem it).1.hashpower + 1 < 31
        omega
    | callocFails =>
        change (t.linked mem it).1.hashpower < 31
        omega
    | threadFails =>
        change (t.linked mem it).1.hashpower < 31
        omega
  · cases run.symm.trans inserted
    change (t.linked mem it).1.hashpower < 31
    omega

/-! ## Deletion -/

/-- The position behind `front` in a chain that starts at `pos`. -/
def positionAfter (pos : Position) (front : List ℕ) : Position :=
  match front.getLast? with
  | some a => .hNext a
  | none => pos

theorem beforeFrom_eq {hash : UInt32} {key : List UInt8} {fuel : ℕ} (pos : Position)
    {start : Option ℕ} {front back : List ℕ} {it : ℕ}
    (chain : Chain mem.hNext start (front ++ it :: back)) (enough : front.length < fuel)
    (skipped : ∀ a ∈ front, ¬mem.Matches hash key a) (found : mem.Matches hash key it) :
    beforeFrom mem hash key fuel pos start = .ok (positionAfter pos front, some it) := by
  induction front generalizing fuel pos start with
  | nil =>
      rcases Nat.exists_eq_add_of_lt enough with ⟨fuel, rfl⟩
      rcases chain with ⟨rfl, -⟩
      simp [beforeFrom, found, positionAfter]
  | cons a front ih =>
      rcases chain with ⟨rfl, tail⟩
      rcases fuel with _ | fuel
      · simp at enough
      · have passes : ¬mem.Matches hash key a := skipped a List.mem_cons_self
        rw [beforeFrom, if_neg passes,
          ih _ tail (by simpa using enough) fun b mem => skipped b (List.mem_cons_of_mem a mem)]
        rcases List.eq_nil_or_concat front with rfl | ⟨front, b, rfl⟩ <;>
          simp [positionAfter, List.getLast?_cons]

/-- The writes of `assoc_delete` at a position, with `count` the new number of items. -/
def unlinkAt (t : AssociativeArray) (mem : Mem) (count : ℕ) (pos : Position) (it : ℕ) :
    AssociativeArray × Mem :=
  let next := mem.hNext it
  let mem := { mem with hNext := Function.update mem.hNext it none }
  match pos with
  | .slot slot => ({ t.store slot next with hashItems := count }, mem)
  | .hNext item =>
      ({ t with hashItems := count },
        { mem with hNext := Function.update mem.hNext item next })

theorem assocDelete_eq (inv : TableInv t mem stored chains) {hash : UInt32} {key : List UInt8}
    {front back : List ℕ} {it : ℕ} (nodes : chains (t.slot hash) = front ++ it :: back)
    (skipped : ∀ a ∈ front, ¬mem.Matches hash key a) (found : mem.Matches hash key it) :
    t.assocDelete mem hash key =
      .ok (t.unlinkAt mem ((t.hashItems + (2 ^ 32 - 1)) % 2 ^ 32)
        (positionAfter (.slot (t.slot hash)) front) it) := by
  have chain := inv.chain (t.slot hash)
  have short := inv.length_lt (t.slot hash)
  rw [nodes] at chain short
  rw [List.length_append] at short
  have enough : front.length < addressSpace + 1 := by omega
  have walk := beforeFrom_eq (.slot (t.slot hash)) chain enough skipped found
  simp only [assocDelete, hashitemBefore, inv.load_slot, ok_bind, walk]
  cases positionAfter (.slot (t.slot hash)) front with
  | slot slot => cases slot <;> rfl
  | hNext item => rfl

namespace TableInv

theorem mem_chain_erase (inv : TableInv t mem stored chains) {slot : Slot} {front back : List ℕ}
    {it : ℕ} (nodes : chains slot = front ++ it :: back) (slot' : Slot) (a : ℕ) :
    a ∈ Function.update chains slot (front ++ back) slot' ↔
      a ∈ stored.erase it ∧ t.slot (mem.hv a) = slot' := by
  have distinct := inv.nodup slot
  rw [nodes] at distinct
  have notTwice : it ∉ front ++ back := (List.nodup_middle.mp distinct).notMem
  by_cases same : slot' = slot
  · subst same
    have before := inv.mem_chain slot' a
    rw [nodes] at before
    rw [Function.update_self, Finset.mem_erase, and_assoc, ← before]
    constructor
    · intro mem_rest
      refine ⟨ne_of_mem_of_not_mem mem_rest notTwice, ?_⟩
      simp only [List.mem_append, List.mem_cons] at mem_rest ⊢
      tauto
    · rintro ⟨differs, mem_chain⟩
      simp only [List.mem_append, List.mem_cons] at mem_chain ⊢
      tauto
  · have selects := ((inv.mem_chain slot it).mp (by simp [nodes])).2
    rw [Function.update_of_ne same, inv.mem_chain, Finset.mem_erase]
    constructor
    · rintro ⟨isStored, selects'⟩
      refine ⟨⟨?_, isStored⟩, selects'⟩
      rintro rfl
      exact same (selects'.symm.trans selects)
    · exact fun ⟨⟨_, isStored⟩, selects'⟩ => ⟨isStored, selects'⟩

theorem unlink (inv : TableInv t mem stored chains) {hash : UInt32} {front back : List ℕ}
    {it count : ℕ} (nodes : chains (t.slot hash) = front ++ it :: back)
    (counts : count = (stored.erase it).card % 2 ^ 32) :
    ∃ t' hNext',
      t.unlinkAt mem count (positionAfter (.slot (t.slot hash)) front) it =
          (t', { mem with hNext := hNext' }) ∧
        TableInv t' { mem with hNext := hNext' } (stored.erase it)
          (Function.update chains (t.slot hash) (front ++ back)) := by
  have members := inv.mem_chain_erase nodes
  have chain := inv.chain (t.slot hash)
  have distinct := inv.nodup (t.slot hash)
  rw [nodes] at chain distinct
  have outside : it ∉ front ++ back := (List.nodup_middle.mp distinct).notMem
  have elsewhere (slot : Slot) (other : slot ≠ t.slot hash) (a : ℕ)
      (inChain : a ∈ front ++ it :: back) : a ∉ chains slot := fun mem_slot =>
    other (inv.slot_unique mem_slot (nodes ▸ inChain))
  have addresses (a : ℕ) (mem_erase : a ∈ stored.erase it) : a < addressSpace :=
    inv.address a (Finset.mem_of_mem_erase mem_erase)
  rcases List.eq_nil_or_concat front with rfl | ⟨front, b, rfl⟩
  · refine ⟨_, _, rfl,
      { chain := fun slot => ?_
        mem_chain := fun slot a => (members slot a).trans (by rw [← slot_store]; rfl)
        count := counts
        power := by simpa using inv.power
        cursor := by simpa using inv.cursor
        oldLive := by simpa using inv.oldLive
        address := addresses }⟩
    change Chain _ ((t.store _ _).head slot) _
    rw [head_store inv]
    by_cases same : slot = t.slot hash
    · subst same
      rw [Function.update_self, Function.update_self]
      exact chain.2.update none outside
    · rw [Function.update_of_ne same, Function.update_of_ne same]
      exact (inv.chain slot).update none (elsewhere slot same it (by simp))
  · rw [List.concat_eq_append] at *
    have last : positionAfter (.slot (t.slot hash)) (front ++ [b]) = .hNext b := by
      simp [positionAfter]
    rw [last]
    refine ⟨_, _, rfl,
      { chain := fun slot => ?_
        mem_chain := members
        count := counts
        power := inv.power
        cursor := inv.cursor
        oldLive := inv.oldLive
        address := addresses }⟩
    change Chain (Function.update (Function.update mem.hNext it none) b (mem.hNext it))
      (t.head slot) _
    have differs : it ≠ b := by
      rintro rfl
      simp at outside
    rw [Function.update_comm differs]
    by_cases same : slot = t.slot hash
    · subst same
      rw [Function.update_self]
      refine Chain.update ?_ none outside
      rw [List.append_assoc] at chain ⊢
      exact chain.bypass
    · rw [Function.update_of_ne same]
      exact ((inv.chain slot).update _ (elsewhere slot same b (by simp))).update none
        (elsewhere slot same it (by simp))

/-- A deletion takes the item a lookup returns out of its chain, and nothing else. -/
theorem assocDelete (inv : TableInv t mem stored chains) {hash : UInt32} {key : List UInt8}
    {it : ℕ} (found : t.assocFind mem hash key = .ok (some it)) :
    ∃ t' hNext',
      t.assocDelete mem hash key = .ok (t', { mem with hNext := hNext' }) ∧
        TableInv t' { mem with hNext := hNext' } (stored.erase it)
          (fun slot => (chains slot).erase it) := by
  rw [inv.assocFind_eq, Except.ok.injEq, List.find?_eq_some_iff_append] at found
  rcases found with ⟨matched, front, back, nodes, skipped⟩
  have isStored := ((inv.mem_chain _ it).mp (by rw [nodes]; simp)).1
  have run := assocDelete_eq inv nodes (by simpa using skipped) (by simpa using matched)
  have counts : (t.hashItems + (2 ^ 32 - 1)) % 2 ^ 32 = (stored.erase it).card % 2 ^ 32 := by
    have positive := Finset.card_pos.mpr ⟨it, isStored⟩
    rw [Finset.card_erase_of_mem isStored, inv.count]
    omega
  rcases inv.unlink nodes counts with ⟨t', hNext', result, after⟩
  refine ⟨t', hNext', by rw [run, result], ?_⟩
  convert after using 1
  have distinct := inv.nodup (t.slot hash)
  funext slot
  by_cases same : slot = t.slot hash
  · subst same
    have notBefore : it ∉ front := by
      rw [nodes] at distinct
      exact fun before => (List.nodup_middle.mp distinct).notMem (by simp [before])
    rw [Function.update_self, nodes, List.erase_append_right _ notBefore, List.erase_cons_head]
  · rw [Function.update_of_ne same]
    refine List.erase_of_not_mem fun inChain => same ?_
    exact inv.slot_unique inChain (by rw [nodes]; simp)

end TableInv

/-! ## Migration -/

/-- A migrated chain ends up in front of the primary chains its items' hashes select. -/
theorem migrateFrom_eq {start : Option ℕ} {nodes : List ℕ} {fuel : ℕ}
    {primary : ℕ → List ℕ} (chain : Chain mem.hNext start nodes) (enough : nodes.length < fuel)
    (primaries : ∀ bucket, Chain mem.hNext (t.primaryHashtable bucket) (primary bucket))
    (apart : ∀ bucket, ∀ a ∈ nodes, a ∉ primary bucket) :
    ∃ (table' hNext' : ℕ → Option ℕ) (primary' : ℕ → List ℕ),
      migrateFrom fuel start t mem =
          .ok ({ t with primaryHashtable := table' }, { mem with hNext := hNext' }) ∧
        (∀ bucket, Chain hNext' (table' bucket) (primary' bucket)) ∧
        (∀ bucket a, a ∈ primary' bucket ↔
          a ∈ primary bucket ∨ (a ∈ nodes ∧ t.getBucket (mem.hv a) = bucket)) ∧
        ∀ a, a ∉ nodes → hNext' a = mem.hNext a := by
  induction nodes generalizing fuel start t mem primary with
  | nil =>
      rcases Nat.exists_eq_add_of_lt enough with ⟨fuel, rfl⟩
      rcases chain with rfl
      exact ⟨t.primaryHashtable, mem.hNext, primary, rfl, primaries, by simp, fun _ _ => rfl⟩
  | cons a rest ih =>
      have distinct := List.nodup_cons.mp chain.nodup
      rcases chain with ⟨rfl, tail⟩
      rcases fuel with _ | fuel
      · simp at enough
      · have outside (bucket : ℕ) : a ∉ primary bucket := apart bucket a List.mem_cons_self
        let mem' := { mem with
          hNext := Function.update mem.hNext a (t.primaryHashtable (t.getBucket (mem.hv a))) }
        have tail' : Chain mem'.hNext (mem.hNext a) rest := tail.update _ distinct.1
        have pushed (bucket : ℕ) :
            Chain mem'.hNext
              ((t.store (.primary (t.getBucket (mem.hv a))) (some a)).primaryHashtable bucket)
              (Function.update primary (t.getBucket (mem.hv a))
                (a :: primary (t.getBucket (mem.hv a))) bucket) := by
          by_cases here : bucket = t.getBucket (mem.hv a)
          · subst here
            simpa [mem', store] using (primaries _).push (outside _)
          · simpa [mem', store, here] using (primaries bucket).update _ (outside bucket)
        have apart' (bucket b : ℕ) (mem_rest : b ∈ rest) :
            b ∉ Function.update primary (t.getBucket (mem.hv a))
              (a :: primary (t.getBucket (mem.hv a))) bucket := by
          have differs : b ≠ a := ne_of_mem_of_not_mem mem_rest distinct.1
          have apartRest := apart bucket b (List.mem_cons_of_mem a mem_rest)
          by_cases here : bucket = t.getBucket (mem.hv a)
          · subst here
            simpa [differs] using apartRest
          · simpa [here] using apartRest
        have shorter : rest.length < fuel := by simpa using enough
        rcases ih tail' shorter pushed apart' with
          ⟨table', hNext', primary', run, chains', members, frame⟩
        refine ⟨table', hNext', primary', run, chains', fun bucket b => ?_, fun b outside => ?_⟩
        · rw [members]
          change (_ ∨ b ∈ rest ∧ t.getBucket (mem.hv b) = bucket) ↔ _
          by_cases here : bucket = t.getBucket (mem.hv a)
          · subst here
            rw [Function.update_self, List.mem_cons, List.mem_cons]
            constructor
            · rintro ((rfl | before) | ⟨mem_rest, selects⟩)
              · exact Or.inr ⟨Or.inl rfl, rfl⟩
              · exact Or.inl before
              · exact Or.inr ⟨Or.inr mem_rest, selects⟩
            · rintro (before | ⟨rfl | mem_rest, selects⟩)
              · exact Or.inl (Or.inr before)
              · exact Or.inl (Or.inl rfl)
              · exact Or.inr ⟨mem_rest, selects⟩
          · rw [Function.update_of_ne here, List.mem_cons]
            constructor
            · rintro (before | ⟨mem_rest, selects⟩)
              · exact Or.inl before
              · exact Or.inr ⟨Or.inr mem_rest, selects⟩
            · rintro (before | ⟨rfl | mem_rest, selects⟩)
              · exact Or.inl before
              · exact absurd selects.symm here
              · exact Or.inr ⟨mem_rest, selects⟩
        · rw [List.mem_cons, not_or] at outside
          rw [frame b outside.2]
          exact Function.update_of_ne outside.1 _ _

/-- The cursor is at the last bucket of the old table. -/
def atLast (t : AssociativeArray) : Bool :=
  (t.expandBucket + 1) % 2 ^ 32 = hashsize (t.hashpower - 1)

/-- The table after a pass that moved the items of the bucket at the cursor. -/
def passed (t : AssociativeArray) (table' : ℕ → Option ℕ) : AssociativeArray :=
  { t with
    primaryHashtable := table'
    oldHashtable :=
      if t.atLast then none
      else t.oldHashtable.map (Function.update · t.expandBucket none)
    expanding := !t.atLast
    expandBucket := (t.expandBucket + 1) % 2 ^ 32 }

theorem atLast_iff (inv : TableInv t mem stored chains) (expanding : t.expanding = true) :
    t.atLast = true ↔ t.expandBucket + 1 = 2 ^ (t.hashpower - 1) := by
  rcases inv.cursor expanding with ⟨positive, cursor⟩
  have power := inv.power
  have bound : 2 ^ (t.hashpower - 1) ≤ 2 ^ 29 := Nat.pow_le_pow_right (by decide) (by omega)
  have next : (t.expandBucket + 1) % 2 ^ 32 = t.expandBucket + 1 := by omega
  rw [atLast, decide_eq_true_iff, hashsize_of_lt (by omega), next]

theorem expandBucket_passed (inv : TableInv t mem stored chains)
    (expanding : t.expanding = true) (table' : ℕ → Option ℕ) :
    (t.passed table').expandBucket = t.expandBucket + 1 := by
  rcases inv.cursor expanding with ⟨positive, cursor⟩
  have power := inv.power
  have bound : 2 ^ (t.hashpower - 1) ≤ 2 ^ 29 := Nat.pow_le_pow_right (by decide) (by omega)
  change (t.expandBucket + 1) % 2 ^ 32 = _
  omega

/-- A pass redirects the hashes of the bucket at the cursor, and no other. -/
theorem slot_passed (inv : TableInv t mem stored chains) (expanding : t.expanding = true)
    (table' : ℕ → Option ℕ) (hash : UInt32) :
    (t.passed table').slot hash =
      if t.slot hash = .old t.expandBucket then .primary (t.getBucket hash)
      else t.slot hash := by
  rcases inv.cursor expanding with ⟨-, cursor⟩
  have power := inv.power
  have bucket : t.getBucket hash = hash.toNat % 2 ^ t.hashpower := by
    rw [getBucket, Nat.and_comm, and_hashmask (by omega)]
  have below : hash.toNat % 2 ^ (t.hashpower - 1) < 2 ^ (t.hashpower - 1) :=
    Nat.mod_lt _ (Nat.two_pow_pos _)
  have next := expandBucket_passed inv expanding table'
  have last := atLast_iff inv expanding
  have unchanged : (t.passed table').hashpower = t.hashpower := rfl
  have ends : (t.passed table').expanding = !t.atLast := rfl
  rw [slot_eq (by rw [unchanged]; exact power), slot_eq power, unchanged, bucket, next, ends,
    expanding]
  generalize hash.toNat % 2 ^ (t.hashpower - 1) = old at below ⊢
  by_cases same : old = t.expandBucket
  · simp [same]
  · by_cases here : t.expandBucket ≤ old
    · have after : t.expandBucket + 1 ≤ old := by omega
      have goesOn : t.atLast = false := by
        rw [Bool.eq_false_iff, Ne, last]
        omega
      simp [here, after, same, goesOn]
    · have before : ¬t.expandBucket + 1 ≤ old := by omega
      simp [here, before]

theorem advance_eq (expanding : t.expanding = true) (table' : ℕ → Option ℕ) :
    { t with primaryHashtable := table' }.advance = t.passed table' := by
  by_cases last : (t.expandBucket + 1) % 2 ^ 32 = hashsize (t.hashpower - 1)
  · have atLast : t.atLast = true := decide_eq_true last
    refine (if_pos last).trans ?_
    simp [passed, atLast, store]
  · have notLast : t.atLast = false := decide_eq_false last
    refine (if_neg last).trans ?_
    simp [passed, notLast, store, expanding]

theorem maintenancePass_eq (expanding : t.expanding = true) {first : Option ℕ}
    (loaded : t.load (.old t.expandBucket) = .ok first) {table' hNext' : ℕ → Option ℕ}
    (run : migrateFrom (addressSpace + 1) first t mem =
      .ok ({ t with primaryHashtable := table' }, { mem with hNext := hNext' })) :
    t.maintenancePass mem = .ok (t.passed table', { mem with hNext := hNext' }) := by
  rw [← advance_eq expanding]
  simp only [maintenancePass, expanding, if_true, loaded, ok_bind, run]
  rfl

namespace TableInv

/-- A maintenance pass keeps every item in the chain that its hash selects, under the
selection in force after the pass. -/
theorem maintenancePass (inv : TableInv t mem stored chains) :
    ∃ t' hNext' chains',
      t.maintenancePass mem = .ok (t', { mem with hNext := hNext' }) ∧
        TableInv t' { mem with hNext := hNext' } stored chains' := by
  cases expanding : t.expanding with
  | false =>
      refine ⟨t, mem.hNext, chains, ?_, inv⟩
      simp only [AssociativeArray.maintenancePass, expanding]
      rfl
  | true =>
      have loaded : t.load (.old t.expandBucket) = .ok (t.head (.old t.expandBucket)) := by
        rcases Option.isSome_iff_exists.mp (inv.oldLive expanding) with ⟨buckets, live⟩
        simp [load, head, expanding, live]
      rcases migrateFrom_eq (inv.chain (.old t.expandBucket)) (inv.length_lt _)
          (fun bucket => inv.chain (.primary bucket))
          (fun bucket a inOld inPrimary => by simpa using inv.slot_unique inOld inPrimary) with
        ⟨table', hNext', primary', run, chain', members, frame⟩
      refine ⟨_, _, fun
          | .old bucket => if bucket = t.expandBucket then [] else chains (.old bucket)
          | .primary bucket => primary' bucket,
        maintenancePass_eq expanding loaded run,
        { chain := fun slot => ?_
          mem_chain := fun slot a => ?_
          count := inv.count
          power := inv.power
          cursor := fun goesOn => ?_
          oldLive := fun goesOn => ?_
          address := inv.address }⟩
      · cases slot with
        | primary bucket => exact chain' bucket
        | old bucket =>
            have before := inv.chain (.old bucket)
            rcases Option.isSome_iff_exists.mp (inv.oldLive expanding) with ⟨buckets, live⟩
            by_cases here : bucket = t.expandBucket
            · cases last : t.atLast <;> simp [passed, head, here, last, live]
            · have apart (a : ℕ) (inChain : a ∈ chains (.old bucket)) :
                  a ∉ chains (.old t.expandBucket) := fun inOld =>
                here (by simpa using inv.slot_unique inChain inOld)
              have kept := before.congr fun a inChain => frame a (apart a inChain)
              cases last : t.atLast with
              | false => simpa [passed, head, here, last, live, expanding] using kept
              | true =>
                  -- every bucket but the one at the cursor has been emptied before
                  have size := (atLast_iff inv expanding).mp last
                  have unused := inv.chains_old_eq_nil (show bucket < _ ∨ _ ≤ bucket by omega)
                  simp [passed, head, here, last, unused]
      · rw [slot_passed inv expanding]
        cases slot with
        | old bucket =>
            by_cases here : bucket = t.expandBucket
            · subst here
              simp only [if_true, List.not_mem_nil, false_iff, not_and]
              intro isStored
              split <;> simp_all
            · simp only [here, if_false, inv.mem_chain]
              refine and_congr_right fun isStored => ?_
              split <;> rename_i selects
              · simp [selects, Ne.symm here]
              · rfl
        | primary bucket =>
            simp only [members, inv.mem_chain]
            split <;> rename_i selects
            · simp [selects]
            · simp [selects]
      · rcases inv.cursor expanding with ⟨positive, cursor⟩
        refine ⟨positive, ?_⟩
        have notLast : ¬t.expandBucket + 1 = 2 ^ (t.hashpower - 1) := by
          rw [← atLast_iff inv expanding]
          simpa [passed] using goesOn
        rw [expandBucket_passed inv expanding]
        change _ < 2 ^ (t.hashpower - 1)
        omega
      · have notLast : t.atLast = false := by simpa [passed] using goesOn
        simpa [passed, notLast] using inv.oldLive expanding

/-- The table reads only the links and the hash values of its items. -/
theorem congr (inv : TableInv t mem stored chains) {mem' : Mem}
    (agreeNext : ∀ a ∈ stored, mem'.hNext a = mem.hNext a)
    (agreeHash : ∀ a ∈ stored, mem'.hv a = mem.hv a) :
    TableInv t mem' stored chains := by
  refine { inv with
    chain := fun slot => (inv.chain slot).congr fun a inChain =>
      agreeNext a ((inv.mem_chain slot a).mp inChain).1
    mem_chain := fun slot a => ?_ }
  rw [inv.mem_chain]
  refine and_congr_right fun isStored => ?_
  rw [agreeHash a isStored]

theorem empty (still : t.expanding = false) (buckets : t.primaryHashtable = fun _ => none)
    (items : t.hashItems = 0) (power : t.hashpower < 31) :
    TableInv t mem ∅ (fun _ => []) where
  chain slot := by cases slot <;> simp [head, still, buckets]
  mem_chain := by simp
  count := by simp [items]
  power := power
  cursor := by simp [still]
  oldLive := by simp [still]
  address := by simp

end TableInv

end ChaosCache.AssociativeArray
