import ChaosCache.Assoc.Rehashing
import ChaosCache.Hash

/-!
# Key matching

Both walks of the table compare the hash value and the searched key's bytes, and leave the
length of the item's key out. So an item whose key, or key and data, starts with the
searched key passes their test when the two hashes collide. Whether that happens is
decided by the chain: the first item that passes is taken.
-/

namespace ChaosCache.AssociativeArray.TableState

open Links Relation Hash

variable {init s : TableState} {key : List UInt8}

/-- Stored items carry the hash of their key. -/
def HashesKeys (s : TableState) : Prop :=
  ∀ a ∈ s.stored, s.mem.hv a = hashKey (s.mem.key a)

/-- Stored items have different keys. -/
def KeysDiffer (s : TableState) : Prop :=
  ∀ a ∈ s.stored, ∀ b ∈ s.stored, s.mem.key a = s.mem.key b → a = b

/-- A lookup returns the item with exactly this key, or nothing if there is none. -/
def FindsExactly (s : TableState) (key : List UInt8) : Prop :=
  ∃ found, s.table.assocFind s.mem (hashKey key) key = .ok found ∧
    ∀ it, found = some it ↔ it ∈ s.stored ∧ s.mem.key it = key

/-- The call of `assoc_delete` in `do_item_unlink` takes its item out of its chain and
leaves the other items and chains as they are. -/
def Unlinks (s : TableState) (it : ℕ) : Prop :=
  ∃ t' mem', s.table.assocDelete s.mem (s.mem.hv it) (s.mem.key it) = .ok (t', mem') ∧
    ∀ slot nodes, Chain s.mem.hNext (s.table.head slot) nodes →
      Chain mem'.hNext (t'.head slot) (nodes.erase it)

def MatchesExactly (s : TableState) (key : List UInt8) : Prop :=
  s.FindsExactly key ∧ ∀ it ∈ s.stored, s.mem.key it = key → s.Unlinks it

/-- In the chain of a key, an item with another key passes the test for it only behind
the item with that key. -/
def Unshadowed (s : TableState) (key : List UInt8) : Prop :=
  ∀ nodes, Chain s.mem.hNext (s.table.head (s.table.slot (hashKey key))) nodes →
    ∀ a ∈ nodes, s.mem.Matches (hashKey key) key a → s.mem.key a ≠ key →
      ∃ it, s.mem.key it = key ∧ [it, a].Sublist nodes

/-- What stands before an element of a list without repetition lies in front of it. -/
theorem mem_of_pair_sublist {α : Type} {front back : List α} {a b : α}
    (distinct : (front ++ b :: back).Nodup) (order : [a, b].Sublist (front ++ b :: back)) :
    a ∈ front := by
  induction front with
  | nil =>
      have notBehind : b ∉ back := (List.nodup_cons.mp distinct).1
      cases order with
      | cons _ rest => exact absurd (rest.subset (by simp)) notBehind
      | cons_cons _ rest => exact absurd (rest.subset (by simp)) notBehind
  | cons c front ih =>
      cases order with
      | cons _ rest => exact List.mem_cons_of_mem c (ih distinct.of_cons rest)
      | cons_cons _ _ => exact List.mem_cons_self

theorem matches_own_key (hashes : s.HashesKeys) {it : ℕ} (isStored : it ∈ s.stored)
    (own : s.mem.key it = key) : s.mem.Matches (hashKey key) key it := by
  subst own
  refine ⟨(hashes it isStored).symm, ?_⟩
  simp [Mem.key]

theorem unshadowed_of_findsExactly (inv : s.Invariant) (exact : s.FindsExactly key) :
    s.Unshadowed key := by
  rcases inv with ⟨chains, inv⟩
  intro nodes chain a inChain matched other
  rcases chain.unique (inv.chain _) with rfl
  rcases exact with ⟨found, run, sound⟩
  rw [inv.assocFind_eq, Except.ok.injEq] at run
  cases found with
  | none =>
      rw [List.find?_eq_none] at run
      exact absurd (decide_eq_true matched) (run a inChain)
  | some it =>
      rcases List.find?_eq_some_iff_append.mp run with ⟨-, front, back, nodes, skipped⟩
      have own := ((sound it).mp rfl).2
      refine ⟨it, own, ?_⟩
      rw [nodes, List.mem_append, List.mem_cons] at inChain
      rcases inChain with before | rfl | behind
      · simpa [matched] using skipped a before
      · exact absurd own other
      · rw [nodes]
        exact ((List.singleton_sublist.mpr behind).cons_cons it).trans
          (List.sublist_append_right ..)

theorem findsExactly_of_unshadowed (inv : s.Invariant) (hashes : s.HashesKeys)
    (differ : s.KeysDiffer) (unshadowed : s.Unshadowed key) : s.FindsExactly key := by
  rcases inv with ⟨chains, inv⟩
  refine ⟨_, inv.assocFind_eq _ _, fun it => ?_⟩
  have inChain {it : ℕ} (isStored : it ∈ s.stored) (own : s.mem.key it = key) :
      it ∈ chains (s.table.slot (hashKey key)) :=
    inv.mem_chain_of_matches isStored (matches_own_key hashes isStored own)
  cases result : (chains (s.table.slot (hashKey key))).find?
      (s.mem.Matches (hashKey key) key ·) with
  | none =>
      rw [List.find?_eq_none] at result
      constructor
      · simp
      · rintro ⟨isStored, own⟩
        have matched := matches_own_key hashes isStored own
        exact absurd (decide_eq_true matched) (result it (inChain isStored own))
  | some first =>
      rcases List.find?_eq_some_iff_append.mp result with ⟨matched, front, back, nodes, skipped⟩
      have firstStored := ((inv.mem_chain _ first).mp (by rw [nodes]; simp)).1
      have own : s.mem.key first = key := by
        by_contra other
        rcases unshadowed _ (inv.chain _) first (by rw [nodes]; simp)
          (by simpa using matched) other with ⟨it, own, order⟩
        -- the item with the key stands before the first match, so it would have matched
        have distinct := inv.nodup (s.table.slot (hashKey key))
        have isStored := ((inv.mem_chain _ it).mp (order.subset (by simp))).1
        rw [nodes] at order distinct
        have before := mem_of_pair_sublist distinct order
        have passes := matches_own_key hashes isStored own
        simpa [passes] using skipped it before
      rw [Option.some.injEq]
      constructor
      · rintro rfl
        exact ⟨firstStored, own⟩
      · rintro ⟨isStored, same⟩
        exact differ first firstStored it isStored (own.trans same.symm)

theorem unlinks_of_findsExactly (inv : s.Invariant) (hashes : s.HashesKeys)
    (exact : s.FindsExactly key) {it : ℕ} (isStored : it ∈ s.stored)
    (own : s.mem.key it = key) : s.Unlinks it := by
  rcases inv with ⟨chains, inv⟩
  rcases exact with ⟨found, run, sound⟩
  rcases (sound it).mpr ⟨isStored, own⟩ with rfl
  rw [← own, ← hashes it isStored] at run
  rcases inv.assocDelete run with ⟨t', hNext', result, after⟩
  refine ⟨t', _, result, fun slot nodes chain => ?_⟩
  rcases chain.unique (inv.chain slot) with rfl
  exact after.chain slot

/-- Matching is exact for a key if and only if no item with another key shadows it. -/
theorem matchesExactly_iff_unshadowed (initial : init.Initial)
    (run : ReflTransGen TableStep init s) (hashes : s.HashesKeys) (differ : s.KeysDiffer)
    (key : List UInt8) : s.MatchesExactly key ↔ s.Unshadowed key := by
  have inv := invariant_of_run initial run
  constructor
  · exact fun exact => unshadowed_of_findsExactly inv exact.1
  · intro unshadowed
    have exact := findsExactly_of_unshadowed inv hashes differ unshadowed
    exact ⟨exact, fun it isStored own => unlinks_of_findsExactly inv hashes exact isStored own⟩

/-- The key "a" in item 1 and the key "ayyjivsd" in item 2, which have the same hash. -/
def collidingMem : Mem :=
  { Mem.zero with
    hv := fun _ => 0x58d68708
    nkey := fun a => if a = 2 then 8 else 1
    bytes := fun a i => if a = 2 then [97, 121, 121, 106, 105, 118, 115, 100].getD i 0
      else [97].getD i 0 }

theorem run_colliding : ∃ s, ReflTransGen TableStep (ofPower 1 collidingMem) s ∧
    s.stored = {1, 2} ∧ s.mem.hv = collidingMem.hv ∧ s.mem.key = collidingMem.key ∧
    s.table.assocFind s.mem (hashKey [97]) [97] = .ok (some 2) := by
  have first := TableStep.insert (s := ofPower 1 collidingMem) 1 .succeeds (by decide) (by decide)
    (by decide) rfl (by decide)
  have second := (ReflTransGen.single first).tail
    (.insert 2 .succeeds (by decide) (by decide) (by decide) rfl (by decide))
  exact ⟨_, second, by decide, rfl, rfl, by decide⟩

theorem hashesKeys_colliding {s : TableState} (items : s.stored = {1, 2})
    (hashes : s.mem.hv = collidingMem.hv) (keys : s.mem.key = collidingMem.key) :
    s.HashesKeys := by
  intro a isStored
  rw [items, Finset.mem_insert, Finset.mem_singleton] at isStored
  rw [hashes, keys]
  rcases isStored with rfl | rfl <;> decide

theorem keysDiffer_colliding {s : TableState} (items : s.stored = {1, 2})
    (keys : s.mem.key = collidingMem.key) : s.KeysDiffer := by
  intro a isStored b isStored' same
  rw [items, Finset.mem_insert, Finset.mem_singleton] at isStored isStored'
  rw [keys] at same
  rcases isStored with rfl | rfl <;> rcases isStored' with rfl | rfl <;> revert same <;> decide

theorem matchesExactly_iff_unshadowed_colliding : ∃ s : TableState, s.stored = {1, 2} ∧
    (s.MatchesExactly [97] ↔ s.Unshadowed [97]) := by
  rcases run_colliding with ⟨s, run, items, hashes, keys, -⟩
  exact ⟨s, items, matchesExactly_iff_unshadowed (initial_ofPower (by decide) _) run
    (hashesKeys_colliding items hashes keys) (keysDiffer_colliding items keys) [97]⟩

/-- The lookup of "a" returns the item with the key "ayyjivsd". -/
theorem not_matchesExactly_colliding : ∃ init s key, TableState.Initial init ∧
    ReflTransGen TableStep init s ∧ s.HashesKeys ∧ s.KeysDiffer ∧ ¬s.MatchesExactly key := by
  rcases run_colliding with ⟨s, run, items, hashes, keys, found⟩
  refine ⟨_, s, [97], initial_ofPower (by decide) _, run, hashesKeys_colliding items hashes keys,
    keysDiffer_colliding items keys, ?_⟩
  rintro ⟨⟨result, run', sound⟩, -⟩
  obtain rfl : some 2 = result := Except.ok.inj (found.symm.trans run')
  have own := ((sound 2).mp rfl).2
  rw [keys] at own
  revert own
  decide

end ChaosCache.AssociativeArray.TableState
