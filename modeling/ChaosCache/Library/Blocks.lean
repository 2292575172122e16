import Mathlib.Data.List.Nodup
import Mathlib.Data.List.Range
import Mathlib.Data.Finset.Union
import Mathlib.Algebra.Order.BigOperators.Group.Finset
import Mathlib.Order.Interval.Finset.Nat

/-!
# Blocks of memory

Blocks are given by a start and a size. A run of blocks of one size, each at the end of
the one before, is the list of its starts.
-/

namespace Blocks

/-- Two blocks share no byte. -/
def Apart (start size start' size' : ℕ) : Prop :=
  start + size ≤ start' ∨ start' + size' ≤ start

namespace Apart

variable {start size start' size' : ℕ}

theorem symm (apart : Apart start size start' size') : Apart start' size' start size :=
  Or.symm apart

theorem mono (apart : Apart start size start' size') {part length part' length' : ℕ}
    (inside : start ≤ part ∧ part + length ≤ start + size)
    (inside' : start' ≤ part' ∧ part' + length' ≤ start' + size') :
    Apart part length part' length' := by
  unfold Apart at *
  omega

end Apart

/-- The starts of `count` blocks of the same size, one after the other. -/
def run (start size count : ℕ) : List ℕ :=
  (List.range count).map fun i => start + i * size

variable {start size count a b : ℕ}

@[simp]
theorem run_zero (start size : ℕ) : run start size 0 = [] := rfl

@[simp]
theorem length_run (start size count : ℕ) : (run start size count).length = count := by
  simp [run]

theorem run_succ (start size count : ℕ) :
    run start size (count + 1) = start :: run (start + size) size count := by
  simp only [run, List.range_succ_eq_map, List.map_cons, List.map_map, Nat.zero_mul,
    Nat.add_zero]
  congr 1
  refine List.map_congr_left fun i _ => ?_
  simp only [Function.comp_apply, Nat.succ_eq_add_one, Nat.add_mul]
  omega

theorem mem_run : a ∈ run start size count ↔ ∃ i < count, a = start + i * size := by
  simp only [run, List.mem_map, List.mem_range]
  constructor <;> rintro ⟨i, bound, rfl⟩ <;> exact ⟨i, bound, rfl⟩

theorem bounds_of_mem_run (inRun : a ∈ run start size count) :
    start ≤ a ∧ a + size ≤ start + count * size := by
  rcases mem_run.mp inRun with ⟨i, bound, rfl⟩
  have upTo : (i + 1) * size ≤ count * size := Nat.mul_le_mul_right size bound
  rw [Nat.add_mul] at upTo
  omega

theorem eq_or_apart_of_mem_run (inRun : a ∈ run start size count)
    (inRun' : b ∈ run start size count) : a = b ∨ Apart a size b size := by
  rcases mem_run.mp inRun with ⟨i, -, rfl⟩
  rcases mem_run.mp inRun' with ⟨j, -, rfl⟩
  rcases Nat.lt_trichotomy i j with less | rfl | more
  · have upTo : (i + 1) * size ≤ j * size := Nat.mul_le_mul_right size less
    rw [Nat.add_mul] at upTo
    exact Or.inr (Or.inl (by omega))
  · exact Or.inl rfl
  · have upTo : (j + 1) * size ≤ i * size := Nat.mul_le_mul_right size more
    rw [Nat.add_mul] at upTo
    exact Or.inr (Or.inr (by omega))

theorem nodup_run (positive : 0 < size) : (run start size count).Nodup := by
  refine List.Nodup.map (fun i j same => ?_) List.nodup_range
  exact Nat.eq_of_mul_eq_mul_right positive (Nat.add_left_cancel same)

/-- Blocks that share no byte take up at most the space they lie in. -/
theorem sum_le_of_apart {ι : Type*} [DecidableEq ι] {blocks : Finset ι} {starts sizes : ι → ℕ}
    {space : ℕ} (apart : ∀ i ∈ blocks, ∀ j ∈ blocks, i ≠ j →
      Apart (starts i) (sizes i) (starts j) (sizes j))
    (inside : ∀ i ∈ blocks, starts i + sizes i ≤ space) : ∑ i ∈ blocks, sizes i ≤ space := by
  have disjoint : (blocks : Set ι).PairwiseDisjoint
      fun i => Finset.Ico (starts i) (starts i + sizes i) := by
    intro i isBlock j isBlock' differ
    apply Finset.disjoint_left.mpr
    intro x inBlock inBlock'
    rw [Finset.mem_Ico] at inBlock inBlock'
    rcases apart i isBlock j isBlock' differ with less | more
    · omega
    · omega
  calc ∑ i ∈ blocks, sizes i =
        ∑ i ∈ blocks, (Finset.Ico (starts i) (starts i + sizes i)).card := by simp
    _ = (blocks.biUnion fun i => Finset.Ico (starts i) (starts i + sizes i)).card :=
        (Finset.card_biUnion disjoint).symm
    _ ≤ (Finset.range space).card := by
        apply Finset.card_le_card
        intro x inUnion
        rcases Finset.mem_biUnion.mp inUnion with ⟨i, isBlock, inBlock⟩
        have bound := inside i isBlock
        rw [Finset.mem_Ico] at inBlock
        exact Finset.mem_range.mpr (by omega)
    _ = space := Finset.card_range space

/-- Blocks of one size that share no byte, as the list of their starts. -/
theorem length_mul_le {starts : List ℕ} {space : ℕ} (distinct : starts.Nodup)
    (apart : ∀ b ∈ starts, ∀ b' ∈ starts, b ≠ b' → Apart b size b' size)
    (inside : ∀ b ∈ starts, b + size ≤ space) : starts.length * size ≤ space := by
  have total : ∑ _b ∈ starts.toFinset, size ≤ space := by
    refine @sum_le_of_apart ℕ _ starts.toFinset id (fun _ => size) space ?_ ?_
    · simpa using apart
    · simpa using inside
  simpa [List.toFinset_card_of_nodup distinct] using total

end Blocks
