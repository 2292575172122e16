import Mathlib.Algebra.Order.Ring.Nat
import Mathlib.Data.List.Nodup
import Mathlib.Logic.Function.Basic

/-!
# Lists in order of use, reordered lazily

The elements of a list carry stamps, and stand in the order of their stamps, the latest one first.
An element that is used goes to the front with a new stamp, unless its stamp is younger than an
interval: then it stays where it is, with the stamp that it has.

Stamps lag behind the last uses by no more than the interval. So what is found first from the end
was used at most an interval later than anything else that would have been found.
-/

namespace LazyLru

variable {α ι : Type*} {interval clock now : ℕ} {stamp last stamp' last' : α → ℕ}
  {list : List α} {a b : α}

/-- The list is in the order of its stamps, and no stamp is further behind the last use of its
element than the interval, or ahead of it. -/
structure Ordered (interval : ℕ) (stamp last : α → ℕ) (clock : ℕ) (list : List α) : Prop where
  sorted : list.Pairwise fun a b => stamp b ≤ stamp a
  since : ∀ a ∈ list, stamp a ≤ last a
  lag : ∀ a ∈ list, last a ≤ stamp a + interval
  past : ∀ a ∈ list, last a ≤ clock

namespace Ordered

theorem nil : Ordered interval stamp last clock [] :=
  ⟨List.Pairwise.nil, by simp, by simp, by simp⟩

theorem congr (ordered : Ordered interval stamp last clock list)
    (stamps : ∀ a ∈ list, stamp' a = stamp a) (lasts : ∀ a ∈ list, last' a = last a) :
    Ordered interval stamp' last' clock list where
  sorted := by
    apply ordered.sorted.imp_of_mem
    intro a b inList inList' before
    rwa [stamps a inList, stamps b inList']
  since := by
    intro a inList
    rw [stamps a inList, lasts a inList]
    exact ordered.since a inList
  lag := by
    intro a inList
    rw [stamps a inList, lasts a inList]
    exact ordered.lag a inList
  past := by
    intro a inList
    rw [lasts a inList]
    exact ordered.past a inList

theorem later (ordered : Ordered interval stamp last clock list) (passed : clock ≤ now) :
    Ordered interval stamp last now list :=
  { ordered with past := fun a inList => (ordered.past a inList).trans passed }

theorem sublist {part : List α} (ordered : Ordered interval stamp last clock list)
    (isPart : part.Sublist list) : Ordered interval stamp last clock part where
  sorted := ordered.sorted.sublist isPart
  since a inPart := ordered.since a (isPart.subset inPart)
  lag a inPart := ordered.lag a (isPart.subset inPart)
  past a inPart := ordered.past a (isPart.subset inPart)

theorem stamp_le_clock (ordered : Ordered interval stamp last clock list) (inList : a ∈ list) :
    stamp a ≤ clock :=
  (ordered.since a inList).trans (ordered.past a inList)

/-- What a search from the end finds first was used at most an interval later than anything else
in the list that passes its test. -/
theorem last_le_of_find (ordered : Ordered interval stamp last clock list) {tries : ℕ}
    {picks : α → Bool} (found : (list.reverse.take tries).find? picks = some a) (inList : b ∈ list)
    (picked : picks b = true) : last a ≤ last b + interval := by
  rcases List.find?_eq_some_iff_append.mp found with ⟨-, behind, front, tried, skipped⟩
  have nodes : list.reverse = behind ++ a :: (front ++ list.reverse.drop tries) := by
    rw [← List.cons_append, ← List.append_assoc, ← tried, List.take_append_drop]
  have foundInList : a ∈ list := by
    rw [← List.mem_reverse, nodes]
    simp
  have sorted : list.reverse.Pairwise fun a b => stamp a ≤ stamp b :=
    List.pairwise_reverse.mpr ordered.sorted
  rw [nodes, List.pairwise_append, List.pairwise_cons] at sorted
  have notBefore : stamp a ≤ stamp b := by
    rw [← List.mem_reverse, nodes, List.mem_append, List.mem_cons] at inList
    rcases inList with isBehind | rfl | isInFront
    · have notPicked := skipped b isBehind
      simp [picked] at notPicked
    · exact le_rfl
    · exact sorted.2.1.1 b isInFront
  calc last a
      ≤ stamp a + interval := ordered.lag a foundInList
    _ ≤ stamp b + interval := Nat.add_le_add_right notBefore interval
    _ ≤ last b + interval := Nat.add_le_add_right (ordered.since b inList) interval

variable [DecidableEq α] [DecidableEq ι]

theorem update_of_notMem (ordered : Ordered interval stamp last clock list) (outside : a ∉ list)
    (newStamp newLast : ℕ) :
    Ordered interval (Function.update stamp a newStamp) (Function.update last a newLast) clock
      list := by
  apply ordered.congr
  · intro b inList
    exact Function.update_of_ne (ne_of_mem_of_not_mem inList outside) _ _
  · intro b inList
    exact Function.update_of_ne (ne_of_mem_of_not_mem inList outside) _ _

/-- An element that is used for the first time goes to the front. -/
theorem push (ordered : Ordered interval stamp last clock list) (fresh : a ∉ list)
    (passed : clock ≤ now) :
    Ordered interval (Function.update stamp a now) (Function.update last a now) now
      (a :: list) := by
  have kept := (ordered.later passed).update_of_notMem fresh now now
  constructor
  case sorted =>
    apply List.Pairwise.cons _ kept.sorted
    intro b inList
    rw [Function.update_self]
    exact kept.stamp_le_clock inList
  case since =>
    intro b inList
    rcases List.mem_cons.mp inList with rfl | inList
    · simp
    · exact kept.since b inList
  case lag =>
    intro b inList
    rcases List.mem_cons.mp inList with rfl | inList
    · simp
    · exact kept.lag b inList
  case past =>
    intro b inList
    rcases List.mem_cons.mp inList with rfl | inList
    · simp
    · exact kept.past b inList

/-- An element with an old stamp that is used goes to the front. -/
theorem renew (ordered : Ordered interval stamp last clock list) (nodup : list.Nodup) (a : α)
    (passed : clock ≤ now) :
    Ordered interval (Function.update stamp a now) (Function.update last a now) now
      (a :: list.erase a) :=
  (ordered.sublist List.erase_sublist).push nodup.not_mem_erase passed

/-- An element with a young stamp that is used stays where it is. -/
theorem use (ordered : Ordered interval stamp last clock list) (recent : now ≤ stamp a + interval)
    (passed : clock ≤ now) :
    Ordered interval stamp (Function.update last a now) now list := by
  constructor
  case sorted => exact ordered.sorted
  case since =>
    intro b inList
    by_cases same : b = a
    · subst same
      rw [Function.update_self]
      exact (ordered.stamp_le_clock inList).trans passed
    · rw [Function.update_of_ne same]
      exact ordered.since b inList
  case lag =>
    intro b inList
    by_cases same : b = a
    · subst same
      rwa [Function.update_self]
    · rw [Function.update_of_ne same]
      exact ordered.lag b inList
  case past =>
    intro b inList
    by_cases same : b = a
    · subst same
      rw [Function.update_self]
    · rw [Function.update_of_ne same]
      exact (ordered.past b inList).trans passed

/-! ## Several lists without common elements -/

variable {lists : ι → List α} {i : ι}

theorem push_update (ordered : ∀ i, Ordered interval stamp last clock (lists i))
    (fresh : ∀ i, a ∉ lists i) (passed : clock ≤ now) (i j : ι) :
    Ordered interval (Function.update stamp a now) (Function.update last a now) now
      (Function.update lists i (a :: lists i) j) := by
  by_cases same : j = i
  · subst same
    rw [Function.update_self]
    exact (ordered j).push (fresh j) passed
  · rw [Function.update_of_ne same]
    exact ((ordered j).later passed).update_of_notMem (fresh j) now now

theorem renew_update (ordered : ∀ i, Ordered interval stamp last clock (lists i))
    (nodup : (lists i).Nodup) (apart : ∀ j, j ≠ i → a ∉ lists j) (passed : clock ≤ now) (j : ι) :
    Ordered interval (Function.update stamp a now) (Function.update last a now) now
      (Function.update lists i (a :: (lists i).erase a) j) := by
  by_cases same : j = i
  · subst same
    rw [Function.update_self]
    exact (ordered j).renew nodup a passed
  · rw [Function.update_of_ne same]
    exact ((ordered j).later passed).update_of_notMem (apart j same) now now

end Ordered

end LazyLru
