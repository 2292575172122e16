import ChaosCache.DataCache.Refinement

/-!
# What the calls report

`getItem` returns zero exactly on a hit. `storeItem` and `deleteItem` return zero whenever they
return: the comparison with `NULL` that they assign to the code before the branch is zero
when it fails. So their codes are right exactly where they succeed.
-/

namespace ChaosCache.DataCache

open LossyMap Relation

variable {keys : Set (List UInt8)} {c c₀ c' : LruLists} {v : View} {history : List Event}
  {key : List UInt8} {env : Env}

/-- Every binding, list and reference count is as before. -/
structure Unchanged (c c' : LruLists) : Prop where
  lookups : ∀ hash key, c'.assoc.assocFind c'.mem hash key = c.assoc.assocFind c.mem hash key
  heads : c'.heads = c.heads
  tails : c'.tails = c.tails
  next : c'.mem.next = c.mem.next
  prev : c'.mem.prev = c.mem.prev
  refcount : c'.mem.refcount = c.mem.refcount

/-- The key is bound in the history that led to the state. -/
def Present (history : List Event) (key : List UInt8) : Prop :=
  ∃ it value, Bound history key it value

/-- The store from `c` to `c'` allocated an item and linked it, and a `getItem` that follows
hits with the value. -/
def Stored (c c' : LruLists) (key : List UInt8) (inbuffer : ℕ → UInt8) (bufflen : ℤ) (env : Env) :
    Prop :=
  (∃ c₀ c₁ it, passes (env.passes 0) c = .ok c₀ ∧
      c₀.itemAlloc (cString key) bufflen (env.sys 0) = .ok (c₁, some it) ∧
      c'.mem.itemLinked it = true) ∧
    ∀ env' d ret out, getItem c' key env' = .ok (d, ret, out) →
      ret = 0 ∧ out = some (bufflen, readBytes inbuffer bufflen.toNat)

def StoreTruthful (c : LruLists) (key : List UInt8) (inbuffer : ℕ → UInt8) (bufflen : ℤ)
    (env : Env) : Prop :=
  ∃ c' ret, storeItem c key inbuffer bufflen env = .ok (c', ret) ∧
    (ret = 0 ↔ Stored c c' key inbuffer bufflen env) ∧ (ret ≠ 0 → Unchanged c c')

def DeleteTruthful (c : LruLists) (history : List Event) (key : List UInt8) (env : Env) : Prop :=
  ∃ c' ret, deleteItem c key env = .ok (c', ret) ∧ (ret = 0 ↔ Present history key) ∧
    (ret ≠ 0 → Unchanged c c')

def GetTruthful (c : LruLists) (history : List Event) (key : List UInt8) (env : Env) : Prop :=
  ∃ c' ret out, getItem c key env = .ok (c', ret, out) ∧ (ret = 0 ↔ Present history key)

theorem getTruthful (keySet : KeySet keys) (inv : Invariant keys (c, history)) (isKey : key ∈ keys)
    (env : Env) (sane : env.Sane c) : GetTruthful c history key env := by
  rcases (returns keySet inv key isKey env sane).1 with ⟨⟨c', ret, out⟩, run⟩
  exact ⟨c', ret, out, run, (hitsExactly keySet inv key isKey env c' ret out run).1⟩

theorem deleteTruthful_iff (keySet : KeySet keys) (inv : Invariant keys (c, history))
    (isKey : key ∈ keys) (sane : env.Sane c) :
    DeleteTruthful c history key env ↔ Present history key := by
  rcases inv with ⟨v, inv, -, binding⟩
  rcases deleteItem_cases inv keySet isKey sane with
    ⟨c', v', run, -, -, missed⟩ | ⟨c', v', it, gone, run, isStored, sameKey, -⟩
  · have absent : ¬Present history key := by
      rintro ⟨it, value, bound⟩
      have isBound := (binding key it value).mp bound
      exact missed it isBound.1 isBound.2.1
    refine iff_of_false ?_ absent
    rintro ⟨_, _, run', truthful, -⟩
    cases run.symm.trans run'
    exact absent (truthful.mp rfl)
  · have present : Present history key :=
      ⟨it, _, (binding key it _).mpr ⟨isStored, sameKey, rfl⟩⟩
    exact iff_of_true
      ⟨c', 0, run, iff_of_true rfl present, fun nonzero => absurd rfl nonzero⟩ present

/-! ## Stores -/

variable {inbuffer : ℕ → UInt8} {bufflen ret : ℤ}

/-- `ret` is the comparison of the item with `NULL` until the branch on it overwrites it. -/
theorem ret_of_storeItem (run : storeItem c key inbuffer bufflen env = .ok (c', ret)) :
    ret = 0 := by
  rcases bind_eq_ok.mp run with ⟨c₀, -, run⟩
  rcases bind_eq_ok.mp run with ⟨⟨c₁, it⟩, -, run⟩
  cases it with
  | none =>
      cases run
      rfl
  | some it =>
      rcases bind_eq_ok.mp run with ⟨c₂, -, run⟩
      rcases bind_eq_ok.mp run with ⟨c₃, -, run⟩
      rcases bind_eq_ok.mp run with ⟨c₄, -, run⟩
      rcases bind_eq_ok.mp run with ⟨c₅, -, run⟩
      cases run
      rfl

theorem stored_of_links {c₁ : LruLists} {v₁ v' : View} {it : ℕ} (keySet : KeySet keys)
    (isKey : key ∈ keys) (inv' : CacheInv keys c' v')
    (links : Links c₁ c' v₁ v' it key (readBytes inbuffer bufflen.toNat))
    (positive : 0 ≤ bufflen) (passed : passes (env.passes 0) c = .ok c₀)
    (alloc : c₀.itemAlloc key bufflen (env.sys 0) = .ok (c₁, some it)) :
    Stored c c' key inbuffer bufflen env := by
  have isStored : it ∈ v'.stored := (links.stored it).mpr (Or.inl rfl)
  refine ⟨⟨c₀, c₁, it, passed, ?_, inv'.linked_of_stored isStored⟩, ?_⟩
  · rwa [keySet.cString_eq isKey]
  intro env' d ret out run
  rcases of_getItem inv' keySet isKey run with ⟨-, missed⟩ | ⟨hit, isStored', sameKey, result⟩
  · exact absurd links.key_new (missed it isStored)
  · rcases inv'.distinct hit isStored' it isStored (sameKey.trans links.key_new.symm) with rfl
    cases result
    rw [links.data_new, length_readBytes, Int.toNat_of_nonneg positive]
    exact ⟨rfl, rfl⟩

theorem storeTruthful_iff (keySet : KeySet keys) (inv : Invariant keys (c, history))
    (isKey : key ∈ keys) (lower : -2 ^ 31 ≤ bufflen) (bound : bufflen < 2 ^ 31)
    (sane : env.Sane c) (few : c.assoc.hashItems < 2 ^ 30) :
    StoreTruthful c key inbuffer bufflen env ↔
      0 ≤ bufflen ∧ c.Allocatable key.length bufflen (env.sys 0) := by
  rcases inv with ⟨v, inv, card, -⟩
  -- what the code reports as done has obtained an item
  have obtains {c' : LruLists} {ret : ℤ}
      (run : storeItem c key inbuffer bufflen env = .ok (c', ret))
      (truthful : ret = 0 ↔ Stored c c' key inbuffer bufflen env) :
      ∃ c₀ c₁ it, passes (env.passes 0) c = .ok c₀ ∧
        c₀.itemAlloc key bufflen (env.sys 0) = .ok (c₁, some it) := by
    rcases truthful.mp (ret_of_storeItem run) with ⟨⟨c₀, c₁, it, passed, alloc, -⟩, -⟩
    rw [keySet.cString_eq isKey] at alloc
    exact ⟨c₀, c₁, it, passed, alloc⟩
  by_cases positive : 0 ≤ bufflen
  · rcases storeItem_cases inv keySet isKey inbuffer positive bound sane (inv.card_lt card few) with
      ⟨c₀, v₀, passed, -, -,
      ⟨c', v', gone, reset, alloc, run, -, -, -, notAllocatable⟩ |
      ⟨c₁, v₁, gone, reset, it, c', v', alloc, -, -, run, inv', links, allocatable⟩⟩
    · refine iff_of_false ?_ fun ⟨_, allocatable⟩ => notAllocatable allocatable
      rintro ⟨_, _, run', truthful, -⟩
      rcases obtains run' truthful with ⟨_, _, it, passed', alloc'⟩
      cases passed.symm.trans passed'
      cases alloc.symm.trans alloc'
    · refine iff_of_true ⟨c', 0, run, iff_of_true rfl ?_, fun nonzero => absurd rfl nonzero⟩
        ⟨positive, allocatable⟩
      exact stored_of_links keySet isKey inv' links positive passed alloc
  · refine iff_of_false ?_ fun ⟨isPositive, _⟩ => positive isPositive
    rintro ⟨c', ret, run, truthful, -⟩
    rcases storeItem_of_negative inv keySet isKey lower (Int.not_le.mp positive) sane run with
      ⟨c₀, v₀, v', gone, reset, passed, -, -, alloc, -⟩
    rcases obtains run truthful with ⟨_, _, it, passed', alloc'⟩
    cases passed.symm.trans passed'
    cases alloc.symm.trans alloc'

/-! ## The theorem -/

/-- After every history `getItem` reports truthfully, `deleteItem` does so exactly for the keys
that are present, and `storeItem` exactly when an item can be allocated. -/
theorem truthful_iff (keySet : KeySet keys) {mem : Mem} {cacheSize : ℕ} {os : Os}
    {initialMalloc : Option ℕ}
    (created : create .zero .zero mem cacheSize os initialMalloc = .ok c₀)
    (run : ReflTransGen (CallStep keys) (c₀, []) (c, history)) :
    ∀ key ∈ keys, ∀ env : Env, env.Sane c →
      GetTruthful c history key env ∧
        (DeleteTruthful c history key env ↔ Present history key) ∧
        ∀ inbuffer bufflen, -2 ^ 31 ≤ bufflen → bufflen < 2 ^ 31 → c.assoc.hashItems < 2 ^ 30 →
          (StoreTruthful c key inbuffer bufflen env ↔
            0 ≤ bufflen ∧ c.Allocatable key.length bufflen (env.sys 0)) := by
  have inv := invariant_of_run keySet created run
  intro key isKey env sane
  exact ⟨getTruthful keySet inv isKey env sane, deleteTruthful_iff keySet inv isKey sane,
    fun inbuffer bufflen lower bound few =>
      storeTruthful_iff keySet inv isKey lower bound sane few⟩

/-- A cache without items reports the store of one byte truthfully. -/
theorem truthful_firstEnv : GetTruthful (new .zero 64 0) [] [107] firstEnv ∧
    StoreTruthful (new .zero 64 0) [107] (fun _ => 7) 1 firstEnv := by
  have keySet : KeySet {[107]} := keySet_singleton (by decide) (by decide)
  have created := create_eq .zero 64 ((onePage 0 0 0).os 0) none
  rcases truthful_iff keySet created .refl [107] (Set.mem_singleton _) firstEnv
    (sane_firstEnv .zero 64 0) with ⟨get, -, store⟩
  refine ⟨get, (store (fun _ => 7) 1 (by decide) (by decide) ?_).mpr ⟨by decide, ?_, ?_⟩⟩
  · exact show 0 < 2 ^ 30 by decide
  · decide +kernel
  · refine Or.inl (Or.inr (Or.inr ⟨?_, ⟨_, List.mem_cons_self, ?_⟩, ?_⟩))
    · unfold SlabAllocator.MayGrow
      decide +kernel
    · unfold SlabClass.ListRoom
      decide +kernel
    · decide +kernel

theorem ret_of_deleteItem (run : deleteItem c key env = .ok (c', ret)) : ret = 0 := by
  rcases bind_eq_ok.mp run with ⟨c₀, -, run⟩
  rcases bind_eq_ok.mp run with ⟨⟨c₁, it⟩, -, run⟩
  cases it with
  | none =>
      cases run
      rfl
  | some it =>
      rcases bind_eq_ok.mp run with ⟨c₂, -, run⟩
      rcases bind_eq_ok.mp run with ⟨c₃, -, run⟩
      rcases bind_eq_ok.mp run with ⟨c₄, -, run⟩
      rcases bind_eq_ok.mp run with ⟨c₅, -, run⟩
      cases run
      rfl

/-- Deleting from a new cache, and storing more than a chunk can hold, are reported as done. -/
theorem not_truthful_of_new : ∃ c, create .zero .zero .zero 64 ((onePage 0 0 0).os 0) none = .ok c ∧
    firstEnv.Sane c ∧ ¬DeleteTruthful c [] [107] firstEnv ∧
      ¬StoreTruthful c [107] (fun _ => 7) (2 ^ 20) firstEnv := by
  have keySet : KeySet {[107]} := keySet_singleton (by decide) (by decide)
  have created := create_eq .zero 64 ((onePage 0 0 0).os 0) none
  have sane := sane_firstEnv .zero 64 0
  refine ⟨_, created, sane, ?_, ?_⟩
  · rintro ⟨c', ret, run, truthful, -⟩
    rcases truthful.mp (ret_of_deleteItem run) with ⟨it, value, bound⟩
    exact not_bound_nil bound
  · rw [storeTruthful_iff keySet (invariant_of_run keySet created .refl) (Set.mem_singleton _)
      (by decide) (by decide) sane (show 0 < 2 ^ 30 by decide)]
    rintro ⟨-, hasClass, -⟩
    exact hasClass (by decide +kernel)

end ChaosCache.DataCache
