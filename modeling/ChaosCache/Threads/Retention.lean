import ChaosCache.Threads.Aging

/-!
# How long an item stays

An item leaves the table for a call that deletes or replaces it, or because the tail repair picks
it. Nothing that was accessed in the last two hours and 59 minutes is picked.
-/

namespace ChaosCache

open Hash Relation

variable {keys : Set (List UInt8)} {c : LruLists} {v : View} {it : ℕ}

/-- The section unlinks an item for `deleteItem`, or because it stores another under its key. -/
def Threads.Removes (s : Threads) (it : ℕ) : Action → Prop
  | .resume thread _ => s.phase thread = .deleting it ∨
      ∃ new, s.phase thread = .copied new ∧ s.cache.mem.key new = s.cache.mem.key it
  | _ => False

/-- An item leaves the table for a call that removes it, or because the tail repair picks it. -/
theorem ThreadsInv.keeps {s s' : Threads} (inv : ThreadsInv keys s v) (keySet : KeySet keys)
    {action : Action} (guarded : Threads.Guarded keys s s' action) (isStored : it ∈ v.stored)
    (stays : ¬s.Removes it action)
    (notPicked : ∀ reset, s'.cache.repaired = reset ++ s.cache.repaired → it ∉ reset) :
    s'.cache.InTable it ∧ SameContents s.cache.mem s'.cache.mem it := by
  have regular := guarded.regular
  have live := inv.cache.live_of_stored isStored
  have found {key : List UInt8} (isKey : key ∈ keys) {sys : System} {c' : LruLists}
      {a : Option ℕ} (got : s.cache.itemGet (DataCache.cString key) sys = .ok (c', a)) :
      c'.InTable it ∧ SameContents s.cache.mem c'.mem it := by
    rw [DataCache.itemGet_cString keySet isKey] at got
    rcases LruLists.doItemGet_eq inv.cache keySet isKey (sys.now 0) with
      ⟨missed, -⟩ | ⟨_, v', _, hit, -, -, inv', drops, -, -, -, stored⟩
    · cases missed.symm.trans got
      exact ⟨inv.cache.inTable_iff.mpr isStored, .of_frame (.refl _) it⟩
    · cases hit.symm.trans got
      exact ⟨inv'.inTable_iff.mpr (stored ▸ isStored), .of_frame drops.toFrame it⟩
  cases action with
  | call thread call sys =>
      rcases regular with ⟨-, valid, sane, -⟩
      rcases bind_eq_ok.mp guarded.run with ⟨⟨_, _⟩, started, next⟩
      cases call with
      | get key =>
          rcases bind_eq_ok.mp started with ⟨⟨c', a⟩, got, rest⟩
          cases rest
          cases next
          exact found valid got
      | store key inbuffer bufflen =>
          rcases bind_eq_ok.mp started with ⟨⟨c', a⟩, obtained, rest⟩
          cases rest
          have nonneg (isSome : a ≠ none) : 0 ≤ bufflen := by
            rcases Option.ne_none_iff_exists'.mp isSome with ⟨new, rfl⟩
            refine guarded.positive.resolve_right ?_
            cases next
            simp [Phase.allocated]
          cases next
          rcases inv.cache.of_itemAlloc keySet valid.1 sane valid.2 nonneg obtained with
            ⟨v', gone, reset, inv', keeps⟩
          have notGone : it ∉ gone := by
            intro isGone
            rcases keeps.noRef it isGone with noRef | isReset
            · exact (inv.refcount_pos live).ne' noRef
            · exact notPicked reset keeps.repaired isReset
          have isStored' := (keeps.stored it).mpr ⟨isStored, notGone⟩
          exact ⟨inv'.inTable_iff.mpr isStored', keeps.contents it isStored'⟩
      | delete key =>
          rcases bind_eq_ok.mp started with ⟨⟨c', a⟩, got, rest⟩
          cases rest
          cases next
          exact found valid got
  | resume thread sys =>
      rcases regular with ⟨busy, -, sane, few⟩
      rcases bind_eq_ok.mp guarded.run with ⟨⟨_, _⟩, resumed, next⟩
      have held := inv.held thread
      cases current : s.phase thread with
      | idle => exact absurd current busy
      | storing new inbuffer bufflen =>
          rw [current] at resumed held
          rcases held with ⟨⟨newLive, notStored, -⟩, length, positive, bound⟩
          rcases bind_eq_ok.mp resumed with ⟨c', copied, rest⟩
          cases rest
          cases next
          cases (DataCache.copyIn_eq inv.cache newLive inbuffer positive bound length).symm.trans
            copied
          have differs := ne_of_mem_of_not_mem isStored notStored
          have inv' := DataCache.cacheInv_withData inv.cache notStored
            (readBytes inbuffer bufflen.toNat)
          exact ⟨inv'.inTable_iff.mpr isStored, rfl, rfl, Function.update_of_ne differs _ _, rfl⟩
      | copied new =>
          rw [current] at resumed held
          rcases held with ⟨newLive, notStored, isKey⟩
          rcases bind_eq_ok.mp resumed with ⟨c', stored, rest⟩
          cases rest
          cases next
          rcases LruLists.storeItem_eq inv.cache keySet newLive notStored isKey
            (inv.card_lt few) sys fun j => (sane j).fits with ⟨_, v', gone, run', inv', stores⟩
          cases run'.symm.trans stored
          have otherKey : s.cache.mem.key it ≠ s.cache.mem.key new := by
            intro same
            exact stays (Or.inr ⟨new, current, same.symm⟩)
          refine ⟨inv'.inTable_iff.mpr ((stores.stored it).mpr (Or.inr ⟨isStored, otherKey⟩)),
            congrFun stores.nkey it, congrFun stores.nbytes it, congrFun stores.bytes it,
            stores.hv it (ne_of_mem_of_not_mem isStored notStored)⟩
      | getting a =>
          rw [current] at resumed
          cases resumed
          cases next
          exact ⟨inv.cache.inTable_iff.mpr isStored, .of_frame (.refl _) it⟩
      | deleting a =>
          rw [current] at resumed held
          rcases bind_eq_ok.mp resumed with ⟨c', isUnlinked, rest⟩
          cases rest
          cases next
          rcases LruLists.doItemUnlink_eq inv.cache keySet held (sane 0).fits with
            ⟨_, v', run', inv', unlinks⟩
          cases run'.symm.trans isUnlinked
          have differs : it ≠ a := by
            rintro rfl
            exact stays (Or.inl current)
          refine ⟨inv'.inTable_iff.mpr ?_, .of_frame unlinks.drops.toFrame it⟩
          rw [unlinks.stored]
          exact Finset.mem_erase.mpr ⟨differs, isStored⟩
      | unlinked a =>
          rw [current] at resumed held
          rcases bind_eq_ok.mp resumed with ⟨c', released, rest⟩
          cases rest
          cases next
          have wasLive : v.Live a := held
          have isChunk := inv.cache.slabs.mem_chunks_of_mem_out (inv.cache.mem_out_clsid wasLive)
          rcases LruLists.doItemRelease_eq inv.cache isChunk (fun notLive => absurd wasLive notLive)
            (sane 0).fits with ⟨_, v', run', inv', drops, -, -, stored⟩
          cases run'.symm.trans released
          exact ⟨inv'.inTable_iff.mpr (stored ▸ isStored), .of_frame drops.toFrame it⟩
  | maintain =>
      rcases bind_eq_ok.mp guarded.run with ⟨c', pass, next⟩
      cases next
      rcases LruLists.maintenance_eq inv.cache with ⟨_, v', run', inv', migrates⟩
      cases run'.symm.trans pass
      exact ⟨inv'.inTable_iff.mpr (migrates.stored ▸ isStored), .of_frame migrates.toFrame it⟩

namespace Aged

variable {s s' : Aged} {start : ℕ}

/-- A section of a brisk run that does not remove an item, and comes at most two hours and 59
minutes after the last access to it. -/
def KeepingStep (keys : Set (List UInt8)) (it : ℕ) (s s' : Aged) : Prop :=
  ∃ action, BriskStep keys s action s' ∧ ¬s.threads.Removes it action ∧
    s'.clock ≤ s.lastAccess it + (tailRepairTime - itemUpdateInterval)

/-- A section of a brisk run that does not remove an item leaves it in the table, if it was accessed
in the last two hours and 59 minutes. -/
theorem keeps_of_step (inv : AgedInv keys s v) (keySet : KeySet keys)
    (inTable : s.threads.cache.InTable it) (step : KeepingStep keys it s s') :
    s'.threads.cache.InTable it ∧
      SameContents s.threads.cache.mem s'.threads.cache.mem it ∧ ∃ v', AgedInv keys s' v' := by
  rcases step with ⟨action, brisk, stays, recent⟩
  rcases inv.step keySet brisk with ⟨guarded, v', gone, reset, new, inv', advances, old⟩
  have notPicked (reset' : List ℕ)
      (repaired : s'.threads.cache.repaired = reset' ++ s.threads.cache.repaired) :
      it ∉ reset' := by
    intro isReset
    obtain rfl : reset' = reset :=
      List.append_cancel_right (repaired.symm.trans advances.repaired)
    have longAgo := (old it isReset).2
    omega
  have isStored := inv.threads.cache.inTable_iff.mp inTable
  rcases inv.threads.keeps keySet guarded isStored stays notPicked with ⟨inTable', same⟩
  exact ⟨inTable', same, v', inv'⟩

/-- In a brisk run an item that nobody deletes or replaces stays in the table with its contents, and
is found under its key, as long as it is accessed at least every two hours and 59 minutes. -/
theorem stays_of_run (keySet : KeySet keys) {mem : Mem} {cacheSize : ℕ} {os : Os}
    {initialMalloc : Option ℕ}
    (created : DataCache.create .zero .zero mem cacheSize os initialMalloc = .ok c)
    (run : ReflTransGen (Step keys) (init c start) s) (inTable : s.threads.cache.InTable it)
    (later : ReflTransGen (KeepingStep keys it) s s') :
    s'.threads.cache.InTable it ∧
      SameContents s.threads.cache.mem s'.threads.cache.mem it ∧
        s'.threads.cache.lookup (s.threads.cache.mem.key it)
          (hashKey (s.threads.cache.mem.key it)) = some it := by
  have kept : s'.threads.cache.InTable it ∧
      SameContents s.threads.cache.mem s'.threads.cache.mem it ∧
        ∃ v', AgedInv keys s' v' := by
    induction later with
    | refl => exact ⟨inTable, ⟨rfl, rfl, rfl, rfl⟩, inv_of_run keySet created run⟩
    | tail _ step ih =>
        rcases ih with ⟨inTable', same, v', inv'⟩
        rcases keeps_of_step inv' keySet inTable' step with ⟨inTable'', same', inv''⟩
        exact ⟨inTable'', same.trans same', inv''⟩
  rcases kept with ⟨inTable', same, v', inv'⟩
  have cache := inv'.threads.cache
  have isStored := cache.inTable_iff.mp inTable'
  have isKey := cache.keys it isStored
  rw [same.key] at isKey
  have found := cache.assocFind_of_stored keySet isKey isStored same.key
  refine ⟨inTable', same, ?_⟩
  simp only [LruLists.lookup, found]

open DataCache in
/-- An item is stored for the key `k`, and found five seconds later. -/
theorem stays_of_run_k : ∃ s s' : Aged, s.clock = 0 ∧ s'.clock = 5 ∧
    s'.threads.cache.InTable 4096 ∧
      SameContents s.threads.cache.mem s'.threads.cache.mem 4096 ∧
        s'.threads.cache.lookup (s.threads.cache.mem.key 4096)
          (hashKey (s.threads.cache.mem.key 4096)) = some 4096 := by
  have keySet : KeySet {[107]} := keySet_singleton (by decide) (by decide)
  have created := create_eq .zero 64 ((onePage 0 0 0).os 0) none
  let first : Action := .call 0 (.store [107] (fun _ => 7) 1) (onePage 1048512 4096 0)
  let others : List Action := [.resume 0 (outOfMemory 0), .resume 0 (outOfMemory 0)]
  let last : Action := .call 1 (.get [107]) (outOfMemory 5)
  have before : ((init (new .zero 64 0) 0).exec (first :: others)).map (fun s =>
      (s.clock, s.lastAccess 4096, s.threads.cache.lookup [107] (hashKey [107]))) =
        some (0, 0, some 4096) := by
    decide +kernel
  have after : ((init (new .zero 64 0) 0).exec (first :: others)).bind (fun s =>
      (s.exec [last]).map (·.clock)) = some 5 := by
    decide +kernel
  rcases Option.map_eq_some_iff.mp before with ⟨s, run, facts⟩
  simp only [Prod.mk.injEq] at facts
  rcases facts with ⟨clock, access, found⟩
  rw [run, Option.bind_some] at after
  rcases Option.map_eq_some_iff.mp after with ⟨s', run', clock'⟩
  have valid : first.Valid {[107]} := ⟨Set.mem_singleton _, by decide⟩
  have positive : first.Positive := show (0 : ℤ) ≤ 1 by decide
  have sane : first.Sane (newSlabs 64 0) := sane_onePage (noSlabs_new 64 0) (by decide) 0
  have early₀ : (init (new .zero 64 0) 0).Early 4 := early_init (by decide) _
  rcases briskStep_of_exec early₀ valid positive sane run with ⟨s₁, stored, early₁, rest⟩
  have contract : ∀ action ∈ others, action.Valid {[107]} ∧ action.Positive ∧
      ∀ slabs, action.Sane slabs := by
    intro action isOther
    simp only [others, List.mem_cons, List.not_mem_nil, or_false] at isOther
    rcases isOther with rfl | rfl <;>
      exact ⟨trivial, trivial, fun slabs => sane_outOfMemory slabs 0⟩
  have early₁' : s₁.Early (1 + others.length) := early₁
  rcases run_of_exec early₁' contract rest with ⟨next, early⟩
  have toItem : ReflTransGen (Step {[107]}) (init (new .zero 64 0) 0) s :=
    .head ⟨first, stored⟩ next
  rcases inv_of_run keySet created toItem with ⟨v, inv⟩
  have inTable := inv.inTable_of_lookup keySet (Set.mem_singleton _) found
  have early' : s.Early (0 + 1) := early
  have valid' : last.Valid {[107]} := Set.mem_singleton _
  have positive' : last.Positive := trivial
  rcases briskStep_of_exec early' valid' positive' (sane_outOfMemory _ 5) run' with
    ⟨_, gets, -, done⟩
  cases done
  have keeping : KeepingStep {[107]} 4096 s s' :=
    ⟨last, gets, id, by rw [clock', access]; decide⟩
  exact ⟨s, s', clock, clock', stays_of_run keySet created toItem inTable (.single keeping)⟩

end Aged

end ChaosCache
