import Mathlib.Data.FinEnum
import Mathlib.SetTheory.Cardinal.Finite
import ChaosCache.Assoc.Invariant
import ChaosCache.Hash.BigEndian

/-!
# How the hash spreads keys

`mix` and `finalmix` can be undone, and so can the addition of a block to the state. So of the keys
that differ in one aligned block of 12 bytes, equally many have each value, and every bucket of the
table gets the same share of them, whatever the rest of the key is.
-/

namespace ChaosCache.Hash

open BigEndian (finalStep exists_mix exists_finalStep wordByte word_of_bytes)
open Function

/-! ## Finite types -/

def internalEquiv : Internal ≃ UInt32 × UInt32 × UInt32 where
  toFun s := (s.a, s.b, s.c)
  invFun s := ⟨s.1, s.2.1, s.2.2⟩
  left_inv _ := rfl
  right_inv _ := rfl

instance : Finite Internal := .of_equiv _ internalEquiv.symm

theorem card_word : Nat.card UInt32 = 2 ^ 32 := by
  rw [Nat.card_congr FinEnum.equiv, Nat.card_fin, FinEnum.card_UInt32]

theorem card_byte : Nat.card UInt8 = 2 ^ 8 := by
  rw [Nat.card_congr FinEnum.equiv, Nat.card_fin, FinEnum.card_UInt8]

theorem card_internal : Nat.card Internal = 2 ^ 96 := by
  rw [Nat.card_congr internalEquiv, Nat.card_prod, Nat.card_prod, card_word]
  norm_num

/-! ## Rounds are permutations of the state -/

theorem bijective_mix : Bijective mix := Finite.surjective_iff_bijective.mp exists_mix

theorem bijective_finalStep (k : UInt32) : Bijective (finalStep k) :=
  Finite.surjective_iff_bijective.mp (exists_finalStep k)

/-- The words of the state in the order in which `finalmix` leaves them. -/
def turn (s : Internal) : Internal := ⟨s.c, s.a, s.b⟩

theorem bijective_turn : Bijective turn :=
  Finite.surjective_iff_bijective.mp fun t => ⟨⟨t.b, t.c, t.a⟩, rfl⟩

theorem finalmix_eq : finalmix = turn ∘ finalStep 24 ∘ finalStep 14 ∘ finalStep 4 ∘ finalStep 16 ∘
    finalStep 25 ∘ finalStep 11 ∘ finalStep 14 := rfl

theorem bijective_finalmix : Bijective finalmix := by
  rw [finalmix_eq]
  exact bijective_turn.comp ((bijective_finalStep 24).comp ((bijective_finalStep 14).comp
    ((bijective_finalStep 4).comp ((bijective_finalStep 16).comp ((bijective_finalStep 25).comp
      ((bijective_finalStep 11).comp (bijective_finalStep 14)))))))

/-- A block is added to the state word by word. -/
def add (words s : Internal) : Internal := ⟨s.a + words.a, s.b + words.b, s.c + words.c⟩

theorem bijective_add (words : Internal) : Bijective (add words) :=
  Finite.surjective_iff_bijective.mp fun t =>
    ⟨⟨t.a - words.a, t.b - words.b, t.c - words.c⟩, by simp only [add, UInt32.sub_add_cancel]⟩

theorem bijective_add_left (s : Internal) : Bijective (add · s) :=
  Finite.surjective_iff_bijective.mp fun t => ⟨⟨t.a - s.a, t.b - s.b, t.c - s.c⟩, by
    simp only [add, UInt32.add_comm s.a, UInt32.add_comm s.b, UInt32.add_comm s.c,
      UInt32.sub_add_cancel]⟩

section Reader

variable (bytes : ℕ → UInt8)

/-- The words of the block at `k`. -/
def words (k : ℕ) : Internal := ⟨k32 bytes k 0, k32 bytes k 1, k32 bytes k 2⟩

theorem block8_eq (k : ℕ) : block8 bytes k = mix ∘ add (words bytes k) := by
  rw [← block32_eq_block8]
  rfl

theorem bijective_block8 (k : ℕ) : Bijective (block8 bytes k) := by
  rw [block8_eq]
  exact bijective_mix.comp (bijective_add _)

theorem bijective_tail8 (k length : ℕ) : Bijective (tail8 bytes k length) := by
  have added : tail8 bytes k length = add ⟨lowBytes (k32 bytes k 0) length,
      lowBytes (k32 bytes k 1) (length - 4), lowBytes (k32 bytes k 2) (length - 8)⟩ := by
    funext s
    exact tail8_eq_lastBlock bytes k length s
  rw [added]
  exact bijective_add _

theorem tail8_full (k : ℕ) : tail8 bytes k 12 = add (words bytes k) := by
  funext s
  exact tail8_eq_lastBlock bytes k 12 s

/-- What `hash` returns after the block loop. -/
def digest (rest : ℕ × ℕ × Internal) : UInt32 :=
  if rest.2.1 = 0 then rest.2.2.c else (finalmix (tail8 bytes rest.1 rest.2.1 rest.2.2)).c

theorem read_eq_digest (key length : ℕ) (s : Internal) :
    read (block8 bytes) (tail8 bytes) key length s =
      digest bytes (blocks (block8 bytes) length key length s) := rfl

end Reader

/-! ## One block of a key -/

/-- The bytes of a block -/
abbrev Block := Fin 12 → UInt8

/-- The memory holds the block at an address, and the same bytes elsewhere for all blocks. -/
structure Varies (memory : Block → ℕ → UInt8) (window : ℕ) : Prop where
  inside : ∀ block (i : Fin 12), memory block (window + i) = block i
  outside : ∀ block block' a, ¬(window ≤ a ∧ a < window + 12) → memory block a = memory block' a

/-- A block with the given words. -/
def blockOf (words : Internal) (i : Fin 12) : UInt8 :=
  if i.val < 4 then wordByte words.a (3 - i.val)
  else if i.val < 8 then wordByte words.b (7 - i.val)
  else wordByte words.c (11 - i.val)

section Window

variable {memory : Block → ℕ → UInt8} {window : ℕ}

theorem add_reverse (x y z w : UInt32) : x + y + z + w = w + z + y + x := by ac_rfl

/-- The words of the block determine it. -/
theorem bijective_words (varies : Varies memory window) :
    Bijective fun block => words (memory block) window := by
  refine Surjective.bijective_of_nat_card_le (fun t => ⟨blockOf t, ?_⟩) ?_
  · have byte (i : ℕ) (inBlock : i < 12) :
        memory (blockOf t) (window + i) = blockOf t ⟨i, inBlock⟩ :=
      varies.inside (blockOf t) ⟨i, inBlock⟩
    have word (w : UInt32) : (wordByte w 3).toUInt32 + ((wordByte w 2).toUInt32 <<< 8) +
        ((wordByte w 1).toUInt32 <<< 16) + ((wordByte w 0).toUInt32 <<< 24) = w := by
      rw [add_reverse, word_of_bytes]
    simp only [words, k32, k8, Nat.reduceMul, Nat.reduceAdd]
    rw [byte 0 (by decide), byte 1 (by decide), byte 2 (by decide), byte 3 (by decide),
      byte 4 (by decide), byte 5 (by decide), byte 6 (by decide), byte 7 (by decide),
      byte 8 (by decide), byte 9 (by decide), byte 10 (by decide), byte 11 (by decide)]
    exact congr (congr (congrArg Internal.mk (word t.a)) (word t.b)) (word t.c)
  · rw [card_internal, Nat.card_fun, card_byte, Nat.card_fin]
    norm_num

/-- A block of memory that is the same for all blocks. -/
theorem Varies.same (varies : Varies memory window) {k length : ℕ}
    (apart : k + length ≤ window ∨ window + 12 ≤ k) (block block' : Block) :
    ∀ i < length, memory block (k + i) = memory block' (k + i) := fun i inside =>
  varies.outside block block' (k + i) (by omega)

/-- Behind the window the value is a word of a state that is a permutation of the state there. -/
theorem exists_digest_behind (varies : Varies memory window) {fuel length k : ℕ}
    (enough : length ≤ fuel) (behind : window + 12 ≤ k) :
    ∃ rest : Internal → Internal, Bijective rest ∧ ∀ block s,
      digest (memory block) (blocks (block8 (memory block)) fuel k length s) = (rest s).c := by
  induction fuel generalizing k length with
  | zero =>
      have empty : length = 0 := Nat.le_zero.mp enough
      exact ⟨id, bijective_id, fun block s => if_pos empty⟩
  | succ fuel ih =>
      let some : Block := fun _ => 0
      by_cases long : 12 < length
      · have enough' : length - 12 ≤ fuel := by omega
        have behind' : window + 12 ≤ k + 12 := by omega
        rcases ih enough' behind' with ⟨rest, bijective, isRest⟩
        refine ⟨rest ∘ block8 (memory some) k, bijective.comp (bijective_block8 _ k),
          fun block s => ?_⟩
        have same := block8_congr (varies.same (Or.inr behind) block some) s
        rw [blocks, if_pos long, isRest, same, comp_apply]
      · by_cases empty : length = 0
        · exact ⟨id, bijective_id, fun block s => by
            rw [blocks, if_neg long]
            exact if_pos empty⟩
        · refine ⟨finalmix ∘ tail8 (memory some) k length,
            bijective_finalmix.comp (bijective_tail8 _ k length), fun block s => ?_⟩
          have same : tail8 (memory block) k length s = tail8 (memory some) k length s :=
            tail8_congr (varies.same (Or.inr behind) block some) s
          rw [blocks, if_neg long, digest, if_neg empty, same, comp_apply]

/-- The value is a word of a state that is in bijection with the block in the window. -/
theorem exists_digest (varies : Varies memory window) {n fuel length k : ℕ}
    (enough : length ≤ fuel + 1) (reaches : window = k + 12 * n)
    (inside : 12 * n + 12 ≤ length) (s : Internal) :
    ∃ state : Block → Internal, Bijective state ∧ ∀ block,
      digest (memory block) (blocks (block8 (memory block)) (fuel + 1) k length s) =
        (state block).c := by
  induction n generalizing fuel length k s with
  | zero =>
      have isHere : window = k := reaches
      subst isHere
      have added := (bijective_add_left s).comp (bijective_words varies)
      by_cases long : 12 < length
      · have enough' : length - 12 ≤ fuel := by omega
        rcases exists_digest_behind varies enough' (le_refl (window + 12)) with
          ⟨rest, bijective, isRest⟩
        refine ⟨_, (bijective.comp bijective_mix).comp added, fun block => ?_⟩
        rw [blocks, if_pos long, isRest, block8_eq]
        rfl
      · have full : length = 12 := by omega
        subst full
        refine ⟨_, bijective_finalmix.comp added, fun block => ?_⟩
        rw [blocks, if_neg long, digest, if_neg (by simp), tail8_full]
        rfl
  | succ n ih =>
      have long : 12 < length := by omega
      obtain ⟨fuel', rfl⟩ : ∃ fuel', fuel = fuel' + 1 := ⟨fuel - 1, by omega⟩
      let some : Block := fun _ => 0
      have enough' : length - 12 ≤ fuel' + 1 := by omega
      have reaches' : window = k + 12 + 12 * n := by omega
      rcases ih enough' reaches' (by omega) (block8 (memory some) k s) with
        ⟨state, bijective, isState⟩
      refine ⟨state, bijective, fun block => ?_⟩
      have before : k + 12 ≤ window ∨ window + 12 ≤ k := by omega
      have same := block8_congr (varies.same before block some) s
      rw [blocks, if_pos long, same, isState]

end Window

/-! ## Every value equally often -/

section Keys

variable (front back : List UInt8)

/-- A key with a block in it. -/
def keyWith (block : Block) : List UInt8 := front ++ List.ofFn block ++ back

theorem length_keyWith (block : Block) :
    (keyWith front back block).length = front.length + 12 + back.length := by
  simp only [keyWith, List.length_append, List.length_ofFn]

theorem varies_keyWith :
    Varies (fun block i => (keyWith front back block).getD i 0) front.length where
  inside block i := by
    have inBlock : i.val < (List.ofFn block).length := by simp only [List.length_ofFn, i.isLt]
    rw [keyWith, List.append_assoc, List.getD_eq_getElem?_getD,
      List.getElem?_append_right (Nat.le_add_right _ _), Nat.add_sub_cancel_left,
      List.getElem?_append_left inBlock, List.getElem?_ofFn, dif_pos i.isLt, Option.getD_some]
  outside block block' a isOutside := by
    simp only [keyWith, List.getD_eq_getElem?_getD, List.getElem?_append, List.length_append,
      List.length_ofFn]
    split
    · split
      · rfl
      · omega
    · rfl

/-- The state that the hash of a key ends in is in bijection with each of its aligned blocks. -/
theorem exists_state (aligned : 12 ∣ front.length) :
    ∃ state : Block → Internal, Bijective state ∧
      ∀ block, hashKey (keyWith front back block) = (state block).c := by
  rcases aligned with ⟨n, isLength⟩
  have varies := varies_keyWith front back
  let start : UInt32 := 0xdeadbeef + UInt32.ofNat (front.length + 12 + back.length) + 0
  have enough : front.length + 12 + back.length ≤ front.length + 11 + back.length + 1 := by omega
  have reaches : front.length = 0 + 12 * n := by omega
  rcases exists_digest varies enough reaches (by omega) ⟨start, start, start⟩ with
    ⟨state, bijective, isState⟩
  refine ⟨state, bijective, fun block => ?_⟩
  have fuel : front.length + 11 + back.length + 1 = front.length + 12 + back.length := by omega
  rw [fuel] at isState
  rw [hashKey, hash_eq_read8, length_keyWith, read_eq_digest, ← isState]

end Keys

/-- Equally many states have each word. -/
theorem card_states (property : UInt32 → Prop) :
    Nat.card {s : Internal // property s.c} = 2 ^ 64 * Nat.card {value // property value} := by
  let equiv : {s : Internal // property s.c} ≃ UInt32 × UInt32 × {value // property value} :=
    { toFun s := (s.1.a, s.1.b, ⟨s.1.c, s.2⟩)
      invFun s := ⟨⟨s.1, s.2.1, s.2.2.1⟩, s.2.2.2⟩
      left_inv _ := rfl
      right_inv _ := rfl }
  rw [Nat.card_congr equiv, Nat.card_prod, Nat.card_prod, card_word, ← mul_assoc]
  norm_num

/-- Equally many words fall in each bucket. -/
theorem card_residues {power residue : ℕ} (small : power ≤ 32) (isResidue : residue < 2 ^ power) :
    Nat.card {value : UInt32 // value.toNat % 2 ^ power = residue} = 2 ^ (32 - power) := by
  have split : 2 ^ 32 = 2 ^ power * 2 ^ (32 - power) := by
    rw [← pow_add, Nat.add_sub_cancel' small]
  have below (q : Fin (2 ^ (32 - power))) : residue + 2 ^ power * q < 2 ^ 32 := by
    calc residue + 2 ^ power * q < 2 ^ power + 2 ^ power * q := by omega
      _ = 2 ^ power * (q + 1) := by rw [Nat.mul_succ, Nat.add_comm]
      _ ≤ 2 ^ power * 2 ^ (32 - power) := Nat.mul_le_mul_left _ q.isLt
      _ = 2 ^ 32 := split.symm
  have toNat (q : Fin (2 ^ (32 - power))) :
      (UInt32.ofNat (residue + 2 ^ power * q)).toNat = residue + 2 ^ power * q :=
    UInt32.toNat_ofNat_of_lt' (below q)
  let equiv : {value : UInt32 // value.toNat % 2 ^ power = residue} ≃ Fin (2 ^ (32 - power)) :=
    { toFun value := ⟨value.1.toNat / 2 ^ power,
        Nat.div_lt_of_lt_mul (split ▸ value.1.toNat_lt)⟩
      invFun q := ⟨UInt32.ofNat (residue + 2 ^ power * q), by
        rw [toNat, Nat.add_mul_mod_self_left, Nat.mod_eq_of_lt isResidue]⟩
      left_inv value := by
        apply Subtype.ext
        apply UInt32.toNat_inj.mp
        have divided := Nat.mod_add_div value.1.toNat (2 ^ power)
        rw [value.2] at divided
        simp only [divided, UInt32.ofNat_toNat]
      right_inv q := by
        apply Fin.ext
        simp only [toNat]
        rw [Nat.add_mul_div_left _ _ (Nat.two_pow_pos power), Nat.div_eq_of_lt isResidue,
          Nat.zero_add] }
  rw [Nat.card_congr equiv, Nat.card_fin]

/-- Of the keys that differ in one aligned block only, equally many have each value, and equally
many fall in each bucket of a table. -/
theorem spreadsEvenly (front back : List UInt8) (aligned : 12 ∣ front.length) :
    (∀ value, Nat.card {block // hashKey (keyWith front back block) = value} = 2 ^ 64) ∧
      ∀ (t : AssociativeArray) (bucket : ℕ), t.hashpower < 32 → bucket < 2 ^ t.hashpower →
        Nat.card {block // t.getBucket (hashKey (keyWith front back block)) = bucket} =
          2 ^ (96 - t.hashpower) := by
  rcases exists_state front back aligned with ⟨state, bijective, isState⟩
  have count (property : UInt32 → Prop) :
      Nat.card {block // property (hashKey (keyWith front back block))} =
        2 ^ 64 * Nat.card {value // property value} := by
    rw [← card_states]
    exact Nat.card_congr ((Equiv.ofBijective state bijective).subtypeEquiv fun block => by
      rw [isState, Equiv.ofBijective_apply])
  constructor
  · intro value
    rw [count (· = value), Nat.card_unique, mul_one]
  · intro t bucket power inTable
    rw [count (t.getBucket · = bucket)]
    simp only [AssociativeArray.getBucket, Nat.and_comm (hashmask _),
      AssociativeArray.and_hashmask power]
    rw [card_residues power.le inTable, ← pow_add]
    congr 1
    omega

/-- The keys of 13 bytes that end in `k`, in a table of `2 ^ 16` buckets. -/
theorem spreadsEvenly_k : ∃ t : AssociativeArray, t.hashpower = 16 ∧
    Nat.card {block // hashKey (keyWith [] [107] block) = 0} = 2 ^ 64 ∧
      Nat.card {block // t.getBucket (hashKey (keyWith [] [107] block)) = 5} = 2 ^ 80 := by
  let t : AssociativeArray :=
    { hashpower := 16
      hashItems := 0
      primaryHashtable := fun _ => none
      oldHashtable := none
      expanding := false
      expandBucket := 0 }
  have ⟨values, buckets⟩ := spreadsEvenly [] [107] (Nat.dvd_zero 12)
  exact ⟨t, rfl, values 0, buckets t 5 (by decide) (by decide)⟩

end ChaosCache.Hash
