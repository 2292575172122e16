import Mathlib.Logic.Relation
import ChaosCache.DataCache.Calls
import ChaosCache.DataCache.Initial
import ChaosCache.Library.LossyMap

/-!
# The cache as a map

In every history of complete calls the cache is a map from keys to values that loses the
bindings of the items that an allocation evicts, and no others.
-/

namespace ChaosCache.DataCache

open LossyMap Relation

abbrev Event := LossyMap.Event (List UInt8) (List UInt8) ℕ

/-- The items that an allocation has unlinked. -/
def evicted (before after : LruLists) : Set ℕ :=
  {a | before.mem.itemLinked a = true ∧ after.mem.itemLinked a = false}

/-- A complete call, and the event that it adds to the history. -/
inductive CallStep (keys : Set (List UInt8)) :
    LruLists × List Event → LruLists × List Event → Prop
  | store {c c₀ c₁ c' : LruLists} {history : List Event} {obtained : Option ℕ} {ret : ℤ}
      (key : List UInt8) (inbuffer : ℕ → UInt8) (bufflen : ℤ) (env : Env) (isKey : key ∈ keys)
      (lower : -2 ^ 31 ≤ bufflen) (bound : bufflen < 2 ^ 31) (sane : env.Sane c)
      (few : c.assoc.hashItems < 2 ^ 30) (passed : passes (env.passes 0) c = .ok c₀)
      (alloc : c₀.itemAlloc key bufflen (env.sys 0) = .ok (c₁, obtained))
      (run : storeItem c key inbuffer bufflen env = .ok (c', ret)) :
      CallStep keys (c, history) (c', .store key (readBytes inbuffer bufflen.toNat) obtained
        (evicted c₀ c₁) :: history)
  | get {c c' : LruLists} {history : List Event} {result : ℤ × Option (ℤ × List UInt8)}
      (key : List UInt8) (env : Env) (isKey : key ∈ keys)
      (run : getItem c key env = .ok (c', result)) :
      CallStep keys (c, history) (c', .read key :: history)
  | delete {c c' : LruLists} {history : List Event} {ret : ℤ} (key : List UInt8) (env : Env)
      (isKey : key ∈ keys) (sane : env.Sane c) (run : deleteItem c key env = .ok (c', ret)) :
      CallStep keys (c, history) (c', .delete key :: history)

variable {keys : Set (List UInt8)} {c c₀ c₁ c' : LruLists} {v v₀ v₁ : View}
  {history : List Event}

/-- The stored items are the bindings of the history. -/
def Binding (c : LruLists) (v : View) (history : List Event) : Prop :=
  ∀ key it value, Bound history key it value ↔
    it ∈ v.stored ∧ c.mem.key it = key ∧ c.mem.data it = value

def Invariant (keys : Set (List UInt8)) (s : LruLists × List Event) : Prop :=
  ∃ v, CacheInv keys s.1 v ∧ v.stored.card ≤ 2 ^ 30 ∧ Binding s.1 v s.2

theorem mem_evicted_iff (inv₀ : CacheInv keys c₀ v₀) (inv₁ : CacheInv keys c₁ v₁)
    (chunks : ∀ i, ∀ b ∈ (c₀.slabs.slabclass i).chunks, b ∈ (c₁.slabs.slabclass i).chunks)
    {gone : List ℕ} (stored : ∀ b, b ∈ v₁.stored ↔ b ∈ v₀.stored ∧ b ∉ gone) {a : ℕ}
    (isStored : a ∈ v₀.stored) : a ∈ evicted c₀ c₁ ↔ a ∈ gone := by
  have isChunk := inv₀.slabs.mem_chunks_of_mem_out (inv₀.mem_out_of_stored isStored)
  change (c₀.mem.itemLinked a = true ∧ c₁.mem.itemLinked a = false) ↔ _
  rw [← Bool.not_eq_true, inv₁.linked_iff_of_chunk (chunks _ a isChunk), stored,
    inv₀.linked_of_stored isStored]
  simp [isStored]

/-- A store that obtains nothing loses the bindings of the items that it evicts. -/
theorem binding_of_reclaims (inv₀ : CacheInv keys c₀ v₀) (inv₁ : CacheInv keys c₁ v₁)
    {gone reset : List ℕ} (reclaims : Reclaims c₀ c₁ v₀ v₁ gone reset)
    (binding : Binding c₀ v₀ history) (key value : List UInt8) :
    Binding c₁ v₁ (.store key value none (evicted c₀ c₁) :: history) := by
  intro k it w
  have gone_iff := mem_evicted_iff inv₀ inv₁ (fun i b => (reclaims.chunks i ▸ ·)) reclaims.stored
    (a := it)
  rw [bound_cons, binding, reclaims.stored, reclaims.toFrame.key, reclaims.toFrame.data]
  constructor
  · rintro (⟨_, binds⟩ | ⟨⟨-, notEvicted⟩, isStored, sameKey, sameData⟩)
    · simp at binds
    · have notGone : it ∉ gone := fun isGone => notEvicted ((gone_iff isStored).mpr isGone)
      exact ⟨⟨isStored, notGone⟩, sameKey, sameData⟩
  · rintro ⟨⟨isStored, notGone⟩, sameKey, sameData⟩
    refine Or.inr ⟨⟨fun _ => rfl, fun isEvicted => notGone ((gone_iff isStored).mp isEvicted)⟩,
      isStored, sameKey, sameData⟩

theorem binding_of_links (inv₀ : CacheInv keys c₀ v₀) (inv₁ : CacheInv keys c₁ v₁)
    {gone reset : List ℕ} {a : ℕ} {key value : List UInt8} {nbytes : ℤ} {v' : View}
    (allocates : Allocates c₀ c₁ v₀ v₁ gone reset a key nbytes)
    (links : Links c₁ c' v₁ v' a key value) (binding : Binding c₀ v₀ history) :
    Binding c' v' (.store key value (some a) (evicted c₀ c₁) :: history) := by
  intro k it w
  have gone_iff := mem_evicted_iff inv₀ inv₁ allocates.chunks allocates.stored (a := it)
  have other (isStored : it ∈ v₀.stored) (notGone : it ∉ gone) : it ≠ a := by
    rintro rfl
    exact allocates.fresh ⟨inv₀.live_of_stored isStored, notGone⟩
  have contents (isStored : it ∈ v₀.stored) (notGone : it ∉ gone) :
      SameContents c₀.mem c₁.mem it :=
    allocates.contents it (inv₀.live_of_stored isStored) (other isStored notGone)
  rw [bound_cons, binding, links.stored, allocates.stored]
  constructor
  · rintro (⟨_, binds⟩ | ⟨⟨differs, notEvicted⟩, isStored, rfl, rfl⟩)
    · cases binds
      exact ⟨Or.inl rfl, links.key_new, links.data_new⟩
    · have notGone : it ∉ gone := fun isGone => notEvicted ((gone_iff isStored).mpr isGone)
      have same := contents isStored notGone
      rw [links.sameKey it (other isStored notGone), links.sameData it (other isStored notGone),
        same.key, same.data]
      refine ⟨Or.inr ⟨⟨isStored, notGone⟩, fun sameKey => ?_⟩, rfl, rfl⟩
      simpa using differs sameKey.symm
  · rintro ⟨rfl | ⟨⟨isStored, notGone⟩, differs⟩, rfl, rfl⟩
    · rw [links.key_new, links.data_new]
      exact Or.inl ⟨_, rfl⟩
    · have same := contents isStored notGone
      rw [links.sameKey it (other isStored notGone), links.sameData it (other isStored notGone),
        same.key, same.data]
      rw [same.key] at differs
      exact Or.inr ⟨⟨fun sameKey => absurd sameKey.symm differs,
        fun isEvicted => notGone ((gone_iff isStored).mp isEvicted)⟩, isStored, rfl, rfl⟩

theorem binding_of_frame (frame : Frame c c') (stored : v₁.stored = v.stored)
    (binding : Binding c v history) : Binding c' v₁ history := by
  intro key it value
  rw [binding, stored, frame.key, frame.data]

theorem binding_read (binding : Binding c v history) (key : List UInt8) :
    Binding c v (.read key :: history) := by
  intro key' it value
  rw [bound_cons, binding]
  simp [LossyMap.Event.Binds, LossyMap.Event.Keeps]

theorem binding_delete (binding : Binding c v history) (key : List UInt8) (it : ℕ)
    (value key' : List UInt8) : Bound (.delete key :: history) key' it value ↔
      (it ∈ v.stored ∧ c.mem.key it ≠ key) ∧ c.mem.key it = key' ∧ c.mem.data it = value := by
  rw [bound_cons, binding]
  constructor
  · rintro (⟨_, binds⟩ | ⟨differs, isStored, rfl, rfl⟩)
    · simp at binds
    · exact ⟨⟨isStored, Ne.symm differs⟩, rfl, rfl⟩
  · rintro ⟨⟨isStored, differs⟩, rfl, rfl⟩
    exact Or.inr ⟨Ne.symm differs, isStored, rfl, rfl⟩

theorem invariant_of_reclaims (card : v.stored.card ≤ 2 ^ 30) (inv₀ : CacheInv keys c₀ v₀)
    (inv₁ : CacheInv keys c₁ v₁) (migrates : Migrates c c₀ v v₀) {gone reset : List ℕ}
    (reclaims : Reclaims c₀ c₁ v₀ v₁ gone reset) (binding : Binding c₀ v₀ history)
    (key value : List UInt8) :
    Invariant keys (c₁, .store key value none (evicted c₀ c₁) :: history) := by
  refine ⟨v₁, inv₁, ?_, binding_of_reclaims inv₀ inv₁ reclaims binding key value⟩
  refine (Finset.card_le_card fun b isStored => ?_).trans card
  exact migrates.stored ▸ ((reclaims.stored b).mp isStored).1

theorem invariant_of_callStep (keySet : KeySet keys) {s s' : LruLists × List Event}
    (inv : Invariant keys s) (step : CallStep keys s s') : Invariant keys s' := by
  rcases inv with ⟨v, inv, card, binding⟩
  cases step with
  | store key inbuffer bufflen env isKey lower bound sane few passed alloc run =>
      by_cases positive : 0 ≤ bufflen
      · rcases storeItem_cases inv keySet isKey
          inbuffer positive bound sane (inv.card_lt card few) with
          ⟨c₀, v₀, passed', inv₀, migrates, result⟩
        cases passed.symm.trans passed'
        have binding₀ := binding_of_frame migrates.toFrame migrates.stored binding
        rcases result with
          ⟨c', v', gone, reset, alloc', run', inv', reclaims, -⟩ |
            ⟨c₁, v₁, gone, reset, a, c', v', alloc', inv₁, allocates, run', inv', links, -⟩
        · cases alloc.symm.trans alloc'
          cases run.symm.trans run'
          exact invariant_of_reclaims card inv₀ inv' migrates reclaims binding₀ key _
        · cases alloc.symm.trans alloc'
          cases run.symm.trans run'
          refine ⟨v', inv', ?_, binding_of_links inv₀ inv₁ allocates links binding₀⟩
          have fewer : v₁.stored.card ≤ v.stored.card := Finset.card_le_card fun b isStored =>
            migrates.stored ▸ ((allocates.stored b).mp isStored).1
          have before := inv.card_lt card few
          have after := links.card
          change v'.stored.card ≤ _
          omega
      · rcases storeItem_of_negative inv keySet isKey lower (Int.not_le.mp positive) sane run with
          ⟨c₀, v₀, v', gone, reset, passed', inv₀, migrates, alloc', inv', reclaims⟩
        cases passed.symm.trans passed'
        cases alloc.symm.trans alloc'
        have binding₀ := binding_of_frame migrates.toFrame migrates.stored binding
        exact invariant_of_reclaims card inv₀ inv' migrates reclaims binding₀ key _
  | get key env isKey run =>
      rcases getItem_cases inv keySet isKey env with
        ⟨c', v', run', inv', migrates, -⟩ | ⟨c', v', it, run', -, -, inv', drops, stored⟩
      · cases run.symm.trans run'
        exact ⟨v', inv', migrates.stored ▸ card,
          binding_read (binding_of_frame migrates.toFrame migrates.stored binding) key⟩
      · cases run.symm.trans run'
        exact ⟨v', inv', stored ▸ card,
          binding_read (binding_of_frame drops.toFrame stored binding) key⟩
  | delete key env isKey sane run =>
      rcases deleteItem_cases inv keySet isKey sane with
        ⟨c', v', run', inv', migrates, missed⟩ |
          ⟨c', v', it, gone, run', isStored, sameKey, inv', drops, stored⟩
      · cases run.symm.trans run'
        refine ⟨v', inv', migrates.stored ▸ card, fun key' it value => ?_⟩
        rw [binding_delete binding, migrates.stored, migrates.toFrame.key, migrates.toFrame.data]
        exact and_congr_left fun _ => ⟨And.left, fun isStored => ⟨isStored, missed it isStored⟩⟩
      · cases run.symm.trans run'
        refine ⟨v', inv', ?_, fun key' it' value => ?_⟩
        · rw [stored]
          exact Finset.card_erase_le.trans card
        · rw [binding_delete binding, stored, drops.toFrame.key, drops.toFrame.data,
            Finset.mem_erase]
          refine and_congr_left fun _ => ⟨fun ⟨isStored', differs⟩ => ?_,
            fun ⟨differs, isStored'⟩ => ?_⟩
          · refine ⟨?_, isStored'⟩
            rintro rfl
            exact differs sameKey
          · refine ⟨isStored', fun sameKey' => differs ?_⟩
            exact inv.distinct it' isStored' it isStored (sameKey'.trans sameKey.symm)

theorem invariant_of_run (keySet : KeySet keys) {mem : Mem} {cacheSize : ℕ} {os : Os}
    {initialMalloc : Option ℕ} {s : LruLists × List Event}
    (created : create .zero .zero mem cacheSize os initialMalloc = .ok c₀)
    (run : ReflTransGen (CallStep keys) (c₀, []) s) : Invariant keys s := by
  induction run with
  | refl =>
      cases (create_eq mem cacheSize os initialMalloc).symm.trans created
      refine ⟨View.empty, cacheInv_new keys mem cacheSize _, Nat.zero_le _, fun key it value => ?_⟩
      simp [not_bound_nil, View.empty]
  | tail _ step ih => exact invariant_of_callStep keySet ih step

/-! ## The theorem -/

/-- The calls that may come next return. -/
def Returns (keys : Set (List UInt8)) (c : LruLists) : Prop :=
  ∀ key ∈ keys, ∀ env : Env, env.Sane c →
    (∃ result, getItem c key env = .ok result) ∧ (∃ result, deleteItem c key env = .ok result) ∧
      ∀ inbuffer bufflen, 0 ≤ bufflen → bufflen < 2 ^ 31 → c.assoc.hashItems < 2 ^ 30 →
        ∃ result, storeItem c key inbuffer bufflen env = .ok result

/-- `getItem` hits exactly the keys that are bound, with the length and the bytes of the
value. -/
def HitsExactly (keys : Set (List UInt8)) (c : LruLists) (history : List Event) : Prop :=
  ∀ key ∈ keys, ∀ env : Env, ∀ c' ret out, getItem c key env = .ok (c', ret, out) →
    (ret = 0 ↔ ∃ it value, Bound history key it value) ∧
      ∀ it value, Bound history key it value → out = some ((value.length : ℤ), value)

/-- After a store whose allocation fails `getItem` returns what it returned before, if free
lists grow. -/
def FailureHarmless (keys : Set (List UInt8)) (c : LruLists) : Prop :=
  ∀ key ∈ keys, ∀ inbuffer bufflen (env : Env), 0 ≤ bufflen → bufflen < 2 ^ 31 → env.Sane c →
    c.assoc.hashItems < 2 ^ 30 → (env.sys 0).FreeListsStart →
    ∀ c₀ c₁ c' ret, passes (env.passes 0) c = .ok c₀ →
      c₀.itemAlloc key bufflen (env.sys 0) = .ok (c₁, none) →
      storeItem c key inbuffer bufflen env = .ok (c', ret) →
        ∀ key' ∈ keys, ∀ env' env'' d r d' r', getItem c key' env' = .ok (d, r) →
          getItem c' key' env'' = .ok (d', r') → r' = r

theorem returns (keySet : KeySet keys) (inv : Invariant keys (c, history)) : Returns keys c := by
  rcases inv with ⟨v, inv, card, -⟩
  intro key isKey env sane
  refine ⟨?_, ?_, fun inbuffer bufflen positive bound few => ?_⟩
  · rcases getItem_cases inv keySet isKey env with ⟨c', v', run, -⟩ | ⟨c', v', it, run, -⟩
    · exact ⟨_, run⟩
    · exact ⟨_, run⟩
  · rcases deleteItem_cases inv keySet isKey sane with
      ⟨c', v', run, -⟩ | ⟨c', v', it, gone, run, -⟩
    · exact ⟨_, run⟩
    · exact ⟨_, run⟩
  · rcases storeItem_cases inv keySet isKey inbuffer positive bound sane (inv.card_lt card few) with
      ⟨c₀, v₀, -, -, -, ⟨c', v', gone, reset, -, run, -⟩ |
      ⟨c₁, v₁, gone, reset, a, c', v', -, -, -, run, -⟩⟩
    · exact ⟨_, run⟩
    · exact ⟨_, run⟩

theorem of_getItem (inv : CacheInv keys c v) (keySet : KeySet keys) {key : List UInt8}
    (isKey : key ∈ keys) {env : Env} {r : ℤ × Option (ℤ × List UInt8)}
    (run : getItem c key env = .ok (c', r)) :
    (r = (-1, none) ∧ ∀ a ∈ v.stored, c.mem.key a ≠ key) ∨
      ∃ it ∈ v.stored, c.mem.key it = key ∧
        r = (0, some (((c.mem.data it).length : ℤ), c.mem.data it)) := by
  rcases getItem_cases inv keySet isKey env with
    ⟨_, _, run', -, -, missed⟩ | ⟨_, _, it, run', isStored, sameKey, -⟩
  · cases run.symm.trans run'
    exact Or.inl ⟨rfl, missed⟩
  · cases run.symm.trans run'
    refine Or.inr ⟨it, isStored, sameKey, ?_⟩
    have small := inv.nbytes_lt (inv.live_of_stored isStored)
    rw [toInt32_of_lt small, Mem.data, length_readBytes]

theorem hitsExactly (keySet : KeySet keys) (inv : Invariant keys (c, history)) :
    HitsExactly keys c history := by
  rcases inv with ⟨v, inv, -, binding⟩
  intro key isKey env c' ret out run
  rcases of_getItem inv keySet isKey run with ⟨result, missed⟩ | ⟨it, isStored, sameKey, result⟩
  · cases result
    have unbound (it : ℕ) (value : List UInt8) : ¬Bound history key it value := fun bound =>
      have isBound := (binding key it value).mp bound
      missed it isBound.1 isBound.2.1
    refine ⟨⟨fun isZero => absurd isZero (by decide), ?_⟩, fun it value bound => ?_⟩
    · rintro ⟨it, value, bound⟩
      exact absurd bound (unbound it value)
    · exact absurd bound (unbound it value)
  · cases result
    have bound : Bound history key it (c.mem.data it) :=
      (binding key it _).mpr ⟨isStored, sameKey, rfl⟩
    refine ⟨⟨fun _ => ⟨it, _, bound⟩, fun _ => rfl⟩, fun it' value bound' => ?_⟩
    rw [(bound.unique bound').2]

theorem failureHarmless (keySet : KeySet keys) (inv : Invariant keys (c, history)) :
    FailureHarmless keys c := by
  rcases inv with ⟨v, inv, card, -⟩
  intro key isKey inbuffer bufflen env positive bound sane few starts c₀ c₁ c' ret passed alloc run
    key' isKey' env' env'' d r d' r' before after
  rcases storeItem_cases inv keySet isKey inbuffer
    positive bound sane (inv.card_lt card few) with ⟨c₀, v₀, passed', inv₀, migrates, result⟩
  cases passed.symm.trans passed'
  rcases result with ⟨c', v', gone, reset, alloc', run', inv', reclaims, keeps, -⟩ |
    ⟨c₁, v₁, gone, reset, a, c', v', alloc', -⟩
  · cases run.symm.trans run'
    rcases keeps starts with rfl
    have stored (a : ℕ) : a ∈ v'.stored ↔ a ∈ v.stored := by
      rw [reclaims.stored, migrates.stored]
      simp
    have frame := migrates.toFrame.trans reclaims.toFrame
    rcases of_getItem inv keySet isKey' before with ⟨rfl, missed⟩ | ⟨it, isStored, sameKey, rfl⟩ <;>
      rcases of_getItem inv' keySet isKey' after with
        ⟨rfl, missed'⟩ | ⟨it', isStored', sameKey', rfl⟩
    · rfl
    · rw [frame.key] at sameKey'
      exact absurd sameKey' (missed it' ((stored it').mp isStored'))
    · have differs := missed' it ((stored it).mpr isStored)
      rw [frame.key] at differs
      exact absurd sameKey differs
    · rw [frame.key] at sameKey'
      rw [frame.data, inv.distinct it' ((stored it').mp isStored') it isStored
        (sameKey'.trans sameKey.symm)]
  · cases alloc.symm.trans alloc'

/-- In every history of complete calls the next calls return, `getItem` returns exactly what
was last stored and is still bound, and finitely many keys are bound. -/
theorem refines_lossyMap (keySet : KeySet keys) {mem : Mem} {cacheSize : ℕ} {os : Os}
    {initialMalloc : Option ℕ}
    (created : create .zero .zero mem cacheSize os initialMalloc = .ok c₀)
    (run : ReflTransGen (CallStep keys) (c₀, []) (c, history)) :
    Returns keys c ∧ HitsExactly keys c history ∧ FailureHarmless keys c ∧
      {key | ∃ it value, Bound history key it value}.Finite := by
  have inv := invariant_of_run keySet created run
  exact ⟨returns keySet inv, hitsExactly keySet inv, failureHarmless keySet inv,
    finite_bound history⟩

/-- A call of a cache without slabs, whose system has one page. -/
def firstEnv : Env where
  sys _ := onePage 1048512 4096 0
  passes _ := 0

theorem sane_firstEnv (mem : Mem) (cacheSize memMalloced : ℕ) :
    firstEnv.Sane (new mem cacheSize memMalloced) := fun _ j =>
  sane_onePage (noSlabs_new cacheSize memMalloced) (by decide) 0 j

/-- One byte is stored under the key `k`. -/
theorem refines_lossyMap_k : ∃ c history, (∃ it, Bound history [107] it [7]) ∧
    Returns {[107]} c ∧ HitsExactly {[107]} c history ∧ FailureHarmless {[107]} c := by
  have keySet : KeySet {[107]} := keySet_singleton (by decide) (by decide)
  have created := create_eq .zero 64 ((onePage 0 0 0).os 0) none
  have alloc_isSome : (((new .zero 64 0).itemAlloc [107] 1 (firstEnv.sys 0)).toOption.bind
      Prod.snd).isSome = true := by decide +kernel
  have store_isOk : (storeItem (new .zero 64 0) [107] (fun _ => 7) 1 firstEnv).isOk = true := by
    decide +kernel
  rcases exists_ok_of_isOk store_isOk with ⟨⟨c', ret⟩, run⟩
  cases alloc : (new .zero 64 0).itemAlloc [107] 1 (firstEnv.sys 0) with
  | error fault => simp [alloc, Except.toOption] at alloc_isSome
  | ok result =>
      rcases result with ⟨c₁, obtained⟩
      obtain ⟨a, rfl⟩ : ∃ a, obtained = some a := by
        simpa [alloc, Except.toOption, Option.isSome_iff_exists] using alloc_isSome
      have step : CallStep {[107]} (new .zero 64 0, []) (c', [_]) :=
        .store [107] (fun _ => 7) 1 firstEnv (Set.mem_singleton _) (by decide) (by decide)
          (sane_firstEnv .zero 64 0) (show 0 < 2 ^ 30 by decide) rfl alloc run
      rcases refines_lossyMap keySet created (.single step) with ⟨returns, hits, harmless, -⟩
      refine ⟨c', _, ⟨a, ?_⟩, returns, hits, harmless⟩
      exact bound_cons.mpr (Or.inl ⟨_, rfl⟩)

end ChaosCache.DataCache
