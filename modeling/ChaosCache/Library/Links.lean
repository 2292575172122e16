import Mathlib.Data.List.Nodup
import Mathlib.Logic.Function.Basic

/-!
# Linked structures over a link field

Singly and doubly linked lists as they lie in memory: a link field is a map from
nodes to an optional node, and a list is what one visits by following the field.
The lemmas say what the usual pointer writes do to the nodes visited.
-/

namespace Links

variable {α : Type*}

/-- Following `next` from `start` visits `nodes` in order and then ends. -/
def Chain (next : α → Option α) : Option α → List α → Prop
  | start, [] => start = none
  | start, a :: rest => start = some a ∧ Chain next (next a) rest

@[simp]
theorem chain_nil {next : α → Option α} {start : Option α} :
    Chain next start [] ↔ start = none :=
  Iff.rfl

@[simp]
theorem chain_cons {next : α → Option α} {start : Option α} {a : α} {rest : List α} :
    Chain next start (a :: rest) ↔ start = some a ∧ Chain next (next a) rest :=
  Iff.rfl

namespace Chain

variable {next next' : α → Option α} {start : Option α} {nodes : List α}

theorem start_eq (chain : Chain next start nodes) : start = nodes.head? := by
  cases nodes with
  | nil => exact chain
  | cons a rest => exact chain.1

theorem unique {other : List α} (chain : Chain next start nodes)
    (chain' : Chain next start other) : nodes = other := by
  induction nodes generalizing start other with
  | nil =>
      cases other with
      | nil => rfl
      | cons b rest => exact absurd (chain.symm.trans chain'.1) (by simp)
  | cons a rest ih =>
      cases other with
      | nil => exact absurd (chain.1.symm.trans chain') (by simp)
      | cons b rest' =>
          have same : a = b := Option.some.inj (chain.1.symm.trans chain'.1)
          subst same
          rw [ih chain.2 chain'.2]

theorem suffix {front back : List α} {a : α} (chain : Chain next start (front ++ a :: back)) :
    Chain next (some a) (a :: back) := by
  induction front generalizing start with
  | nil => exact ⟨rfl, chain.2⟩
  | cons b front ih => exact ih chain.2

theorem link_eq {front back : List α} {a : α} (chain : Chain next start (front ++ a :: back)) :
    next a = back.head? :=
  chain.suffix.2.start_eq

theorem nodup (chain : Chain next start nodes) : nodes.Nodup := by
  induction nodes generalizing start with
  | nil => exact List.nodup_nil
  | cons a rest ih =>
      refine List.nodup_cons.mpr ⟨fun again => ?_, ih chain.2⟩
      rcases List.append_of_mem again with ⟨front, back, rfl⟩
      -- the chain from the second visit is a proper part of itself
      have whole : Chain next (some a) ([] ++ a :: (front ++ a :: back)) := ⟨rfl, chain.2⟩
      have same := chain.2.suffix.unique whole.suffix
      have lengths := congrArg List.length same
      simp only [List.length_cons, List.length_append] at lengths
      omega

theorem congr (chain : Chain next start nodes) (agree : ∀ a ∈ nodes, next' a = next a) :
    Chain next' start nodes := by
  induction nodes generalizing start with
  | nil => exact chain
  | cons a rest ih =>
      refine ⟨chain.1, ?_⟩
      rw [agree a List.mem_cons_self]
      exact ih chain.2 fun b mem => agree b (List.mem_cons_of_mem a mem)

variable [DecidableEq α]

theorem update (chain : Chain next start nodes) {a : α} (target : Option α)
    (outside : a ∉ nodes) : Chain (Function.update next a target) start nodes :=
  chain.congr fun _ mem => Function.update_of_ne (ne_of_mem_of_not_mem mem outside) _ _

theorem push (chain : Chain next start nodes) {a : α} (fresh : a ∉ nodes) :
    Chain (Function.update next a start) (some a) (a :: nodes) := by
  refine ⟨rfl, ?_⟩
  rw [Function.update_self]
  exact chain.update start fresh

/-- Redirecting the link before a node past it takes exactly that node out. -/
theorem bypass {front back : List α} {b a : α}
    (chain : Chain next start (front ++ b :: a :: back)) :
    Chain (Function.update next b (next a)) start (front ++ b :: back) := by
  induction front generalizing start with
  | nil =>
      have distinct := chain.nodup
      rcases chain with ⟨startEq, -, rest⟩
      refine ⟨startEq, ?_⟩
      rw [Function.update_self]
      refine rest.update _ fun mem => ?_
      simp [mem] at distinct
  | cons c front ih =>
      have distinct := List.nodup_cons.mp chain.nodup
      have differs : c ≠ b := by
        rintro rfl
        exact distinct.1 (by simp)
      refine ⟨chain.1, ?_⟩
      rw [Function.update_of_ne differs]
      exact ih chain.2

theorem append {front : List α} {b a : α} (chain : Chain next start (front ++ [b]))
    (fresh : a ∉ front ++ [b]) (ends : next a = none) :
    Chain (Function.update next b (some a)) start (front ++ [b, a]) := by
  induction front generalizing start with
  | nil =>
      have differs : a ≠ b := by simpa using fresh
      refine ⟨chain.1, Function.update_self .., ?_⟩
      rw [Function.update_of_ne differs, ends]
      rfl
  | cons c front ih =>
      have distinct := List.nodup_cons.mp chain.nodup
      have differs : c ≠ b := by
        rintro rfl
        exact distinct.1 (by simp)
      refine ⟨chain.1, ?_⟩
      rw [Function.update_of_ne differs]
      exact ih chain.2 fun mem => fresh (List.mem_cons_of_mem c mem)

end Chain

/-- `if (node) node->field = target`, for a link field. -/
def assign [DecidableEq α] (field : α → Option α) (node target : Option α) : α → Option α :=
  match node with
  | some a => Function.update field a target
  | none => field

theorem assign_of_ne [DecidableEq α] {field : α → Option α} {node target : Option α} {a : α}
    (differs : node ≠ some a) : assign field node target a = field a := by
  cases node with
  | none => rfl
  | some b => exact Function.update_of_ne (fun same => differs (by rw [same])) _ _

/-- A doubly linked list: `next` from the head and `prev` from the tail visit the
same nodes in opposite orders. -/
structure DList (next prev : α → Option α) (head tail : Option α) (nodes : List α) : Prop where
  forward : Chain next head nodes
  backward : Chain prev tail nodes.reverse

namespace DList

variable {next prev next' prev' : α → Option α} {head tail : Option α} {nodes : List α}

theorem empty : DList next prev none none ([] : List α) := ⟨rfl, rfl⟩

theorem reverse (list : DList next prev head tail nodes) :
    DList prev next tail head nodes.reverse :=
  ⟨list.backward, by simpa using list.forward⟩

theorem nodup (list : DList next prev head tail nodes) : nodes.Nodup := list.forward.nodup

theorem head_eq (list : DList next prev head tail nodes) : head = nodes.head? :=
  list.forward.start_eq

theorem tail_eq (list : DList next prev head tail nodes) : tail = nodes.getLast? := by
  rw [list.backward.start_eq, List.head?_reverse]

theorem congr (list : DList next prev head tail nodes)
    (agreeNext : ∀ a ∈ nodes, next' a = next a) (agreePrev : ∀ a ∈ nodes, prev' a = prev a) :
    DList next' prev' head tail nodes :=
  ⟨list.forward.congr agreeNext, list.backward.congr (by simpa using agreePrev)⟩

theorem next_eq {front back : List α} {a : α}
    (list : DList next prev head tail (front ++ a :: back)) : next a = back.head? :=
  list.forward.link_eq

theorem prev_eq {front back : List α} {a : α}
    (list : DList next prev head tail (front ++ a :: back)) : prev a = front.getLast? := by
  have chain := list.backward
  rw [List.reverse_append, List.reverse_cons, List.append_assoc] at chain
  rw [chain.link_eq]
  simp [List.head?_reverse]

variable [DecidableEq α]

theorem push (list : DList next prev head tail nodes) {a : α} (fresh : a ∉ nodes) :
    DList (Function.update next a head)
      (assign (Function.update prev a none) head (some a))
      (some a) (tail.or (some a)) (a :: nodes) := by
  refine ⟨list.forward.push fresh, ?_⟩
  have backward := list.backward
  cases nodes with
  | nil =>
      rcases list.head_eq with rfl
      rcases list.tail_eq with rfl
      simp [assign]
  | cons b rest =>
      rcases list.head_eq with rfl
      rw [List.reverse_cons] at backward
      have last := list.tail_eq
      have someTail : tail.or (some a) = tail := by
        rw [last, List.getLast?_cons, Option.some_or]
      have outside : a ∉ rest.reverse ++ [b] := by simpa [and_comm] using fresh
      rw [someTail, List.reverse_cons, List.reverse_cons, List.append_assoc]
      exact (backward.update none outside).append outside (Function.update_self ..)

/-- One direction of taking a node out: the link before it, or the start, is
redirected to its successor. -/
theorem forward_unlink {front back : List α} {a : α}
    (list : DList next prev head tail (front ++ a :: back)) :
    Chain (assign next (prev a) (next a)) (if head = some a then next a else head)
      (front ++ back) := by
  rw [list.prev_eq]
  rcases List.eq_nil_or_concat front with rfl | ⟨front, b, rfl⟩
  · have isHead : head = some a := list.head_eq
    rw [if_pos isHead]
    exact list.forward.2
  · have distinct := list.nodup
    have notHead : head ≠ some a := by
      rw [list.head_eq]
      intro isHead
      cases front with
      | nil => simp_all
      | cons c front => simp_all
    rw [if_neg notHead]
    have chain := list.forward
    simp only [List.concat_eq_append, List.append_assoc, List.singleton_append] at chain ⊢
    rw [List.getLast?_concat]
    exact chain.bypass

theorem unlink {front back : List α} {a : α}
    (list : DList next prev head tail (front ++ a :: back)) :
    DList (assign next (prev a) (next a)) (assign prev (next a) (prev a))
      (if head = some a then next a else head) (if tail = some a then prev a else tail)
      (front ++ back) := by
  refine ⟨list.forward_unlink, ?_⟩
  have mirrored := list.reverse
  rw [List.reverse_append, List.reverse_cons, List.append_assoc] at mirrored
  rw [List.reverse_append]
  exact mirrored.forward_unlink

end DList

end Links
