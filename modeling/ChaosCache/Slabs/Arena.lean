import ChaosCache.Library.Blocks
import ChaosCache.Slabs

/-!
# The preallocated arena

With `preallocate` all memory comes from one block of `mem_limit` bytes. `memory_allocate`
compares the requested size with what is left, and then moves the cursor by the size
rounded up. What is left is counted down only by rounded sizes below it, so a request
that reaches it leaves the counter as it was, and the next one goes past the block.
-/

namespace ChaosCache

open Blocks

/-- An allocator and the blocks it has returned, the last one first: start and size. -/
structure Arena where
  slabs : SlabAllocator
  blocks : List (ℕ × ℕ)

namespace Arena

variable {os : Os} {base limit size : ℕ} {x : Arena}

/-- A call of `memory_allocate`. -/
def request (os : Os) (x : Arena) (size : ℕ) : Arena :=
  let (slabs, ret) := x.slabs.memoryAllocate size os
  { slabs, blocks := (ret.map (·, size)).toList ++ x.blocks }

/-- All blocks lie in the arena and share no byte, the cursor and the counter stay in it,
and nothing more is returned once it is used up. -/
structure Sound (os : Os) (base limit : ℕ) (x : Arena) : Prop where
  inside : ∀ block ∈ x.blocks, base ≤ block.1 ∧ block.1 + block.2 ≤ base + limit
  apart : x.blocks.Pairwise fun block block' => Apart block.1 block.2 block'.1 block'.2
  cursor : x.slabs.memCurrent + x.slabs.memAvail ≤ base + limit
  usedUp : base + limit ≤ x.slabs.memCurrent →
    ∀ size, 0 < size → (x.slabs.memoryAllocate size os).2 = none

/-- Every state that the requests pass through is sound. -/
def SoundRun (os : Os) (base limit : ℕ) : Arena → List ℕ → Prop
  | x, [] => x.Sound os base limit
  | x, size :: rest => x.Sound os base limit ∧ SoundRun os base limit (x.request os size) rest

/-- The request is refused, or empty, or it leaves something over after rounding. -/
def LeavesRoom (s : SlabAllocator) (size : ℕ) : Prop :=
  s.memAvail < size ∨ size = 0 ∨ align size < s.memAvail

/-- Every request meets the condition when it is made. -/
def RoomRun (os : Os) : Arena → List ℕ → Prop
  | _, [] => True
  | x, size :: rest => LeavesRoom x.slabs size ∧ RoomRun os (x.request os size) rest

/-- The cursor stands right behind the blocks, and the counter is inv. -/
structure Inv (base limit : ℕ) (x : Arena) : Prop where
  memBase : x.slabs.memBase = some base
  user : base + limit ≤ userSpace
  start : base ≤ x.slabs.memCurrent
  sum : x.slabs.memCurrent + x.slabs.memAvail = base + limit
  behind : ∀ block ∈ x.blocks, base ≤ block.1 ∧ block.1 + block.2 ≤ x.slabs.memCurrent
  apart : x.blocks.Pairwise fun block block' => Apart block.1 block.2 block'.1 block'.2

theorem request_refused (inv : x.Inv base limit) (tooMuch : x.slabs.memAvail < size) :
    x.slabs.memoryAllocate size os = (x.slabs, none) := by
  simp [SlabAllocator.memoryAllocate, inv.memBase, tooMuch]

theorem request_granted (inv : x.Inv base limit) (enough : size ≤ x.slabs.memAvail) :
    x.request os size =
      { slabs := { x.slabs with
          memCurrent := x.slabs.memCurrent + align size
          memAvail := x.slabs.memAvail -
            (if align size < x.slabs.memAvail then align size else 0) }
        blocks := (x.slabs.memCurrent, size) :: x.blocks } := by
  have user := inv.user
  have sum := inv.sum
  have rounded := align_le size
  simp only [userSpace] at user
  have sizeFits : align size % 2 ^ 64 = align size := Nat.mod_eq_of_lt (by omega)
  have cursorFits : (x.slabs.memCurrent + align size) % 2 ^ 64 = x.slabs.memCurrent + align size :=
    Nat.mod_eq_of_lt (by omega)
  simp only [request, SlabAllocator.memoryAllocate, inv.memBase, Nat.not_lt.mpr enough, if_false,
    sizeFits, cursorFits, Option.map_some, Option.toList_some, List.singleton_append]

theorem Inv.sound (inv : x.Inv base limit) : x.Sound os base limit where
  inside := by
    intro block mem
    have sum := inv.sum
    have bounds := inv.behind block mem
    omega
  apart := inv.apart
  cursor := Nat.le_of_eq inv.sum
  usedUp := by
    intro atEnd size positive
    have sum := inv.sum
    rw [request_refused inv (by omega)]

/-- A request that leaves room keeps the counter inv. -/
theorem Inv.request (inv : x.Inv base limit) (room : LeavesRoom x.slabs size) :
    (x.request os size).Inv base limit := by
  by_cases tooMuch : x.slabs.memAvail < size
  · simpa [Arena.request, request_refused inv tooMuch] using inv
  · have enough := Nat.not_lt.mp tooMuch
    rw [request_granted inv enough]
    have counted : x.slabs.memCurrent + align size + (x.slabs.memAvail -
        (if align size < x.slabs.memAvail then align size else 0)) = base + limit := by
      have sum := inv.sum
      rcases room with refused | rfl | leaves
      · exact absurd refused tooMuch
      · split
        · exact sum
        · exact sum
      · rw [if_pos leaves]
        omega
    have upTo := le_align size
    exact
      { memBase := inv.memBase
        user := inv.user
        start := inv.start.trans (Nat.le_add_right _ _)
        sum := counted
        behind := by
          intro block mem
          rcases List.mem_cons.mp mem with rfl | old
          · exact ⟨inv.start, Nat.add_le_add_left upTo _⟩
          · have bounds := inv.behind block old
            exact ⟨bounds.1, bounds.2.trans (Nat.le_add_right _ _)⟩
        apart := by
          apply List.pairwise_cons.mpr ⟨_, inv.apart⟩
          intro block old
          exact Or.inr (inv.behind block old).2 }

/-- A request that uses up what is left pushes the cursor and the counter past the end. -/
theorem Inv.not_sound_request (inv : x.Inv base limit)
    (tight : ¬LeavesRoom x.slabs size) : ¬(x.request os size).Sound os base limit := by
  intro sound
  have cursor := sound.cursor
  simp only [LeavesRoom, not_or, Nat.not_lt] at tight
  rcases tight with ⟨enough, nonempty, reaches⟩
  have upTo := le_align size
  have sum := inv.sum
  simp only [request_granted inv enough, Nat.not_lt.mpr reaches, if_false] at cursor
  omega

theorem Inv.sound_iff_roomRun (inv : x.Inv base limit) (sizes : List ℕ) :
    SoundRun os base limit x sizes ↔ RoomRun os x sizes := by
  induction sizes generalizing x with
  | nil => exact iff_of_true inv.sound trivial
  | cons size rest ih =>
      by_cases room : LeavesRoom x.slabs size
      · simp only [SoundRun, RoomRun, inv.sound, room, true_and]
        exact ih (inv.request room)
      · apply iff_of_false
        · rintro ⟨-, soundRest⟩
          have sound : (x.request os size).Sound os base limit := by
            cases rest with
            | nil => exact soundRest
            | cons _ _ => exact soundRest.1
          exact inv.not_sound_request room sound
        · rintro ⟨roomy, -⟩
          exact room roomy

theorem inv_of_create {prior s : SlabAllocator} {settings : Config} {initialMalloc : Option ℕ}
    (created : SlabAllocator.create prior settings os initialMalloc = .ok s)
    (preallocate : settings.preallocate = true)
    (granted : os.malloc settings.maxbytes = some base)
    (user : base + settings.maxbytes ≤ userSpace) :
    ({ slabs := s, blocks := [] } : Arena).Inv base settings.maxbytes := by
  simp only [SlabAllocator.create, preallocate, granted, if_true, pure_eq_ok, ok_bind,
    Except.ok.injEq] at created
  subst created
  exact
    { memBase := rfl
      user := user
      start := Nat.le_refl _
      sum := rfl
      behind := by simp
      apart := .nil }

/-- The arena is never overrun exactly when every request that is granted leaves something
over. -/
theorem soundRun_iff {prior s : SlabAllocator} {settings : Config} {initialMalloc : Option ℕ}
    (created : SlabAllocator.create prior settings os initialMalloc = .ok s)
    (preallocate : settings.preallocate = true)
    (granted : os.malloc settings.maxbytes = some base)
    (user : base + settings.maxbytes ≤ userSpace) (sizes : List ℕ) :
    SoundRun os base settings.maxbytes { slabs := s, blocks := [] } sizes ↔
      RoomRun os { slabs := s, blocks := [] } sizes :=
  (inv_of_create created preallocate granted user).sound_iff_roomRun sizes

/-- An arena of 64 bytes -/
def settings64 : Config where
  maxbytes := 64
  preallocate := true
  factorNum := 5
  factorDen := 4
  chunkSize := 48
  hashpower := 16
  itemSizeMax := 1024 * 1024

/-- The system answers with the block at 4096. -/
def os64 : Os where
  malloc _ := some 4096
  realloc _ := true

theorem exists_create_settings64 :
    ∃ s, SlabAllocator.create .zero settings64 os64 none = .ok s :=
  ⟨_, rfl⟩

/-- Two requests for 24 bytes leave room. -/
theorem soundRun_settings64 : ∃ s,
    SlabAllocator.create .zero settings64 os64 none = .ok s ∧
      (SoundRun os64 4096 64 { slabs := s, blocks := [] } [24, 24] ↔
        RoomRun os64 { slabs := s, blocks := [] } [24, 24]) := by
  rcases exists_create_settings64 with ⟨s, created⟩
  exact ⟨s, created, soundRun_iff created rfl rfl (by decide) [24, 24]⟩

/-- A request for all 64 bytes leaves the counter at 64 behind the end of the arena. -/
theorem not_soundRun_of_all :
    ¬∀ (prior s : SlabAllocator) (settings : Config) (os : Os) (initialMalloc : Option ℕ)
      (base : ℕ) (sizes : List ℕ),
      SlabAllocator.create prior settings os initialMalloc = .ok s →
        settings.preallocate = true → os.malloc settings.maxbytes = some base →
          base + settings.maxbytes ≤ userSpace →
            SoundRun os base settings.maxbytes { slabs := s, blocks := [] } sizes := by
  intro soundRun
  rcases exists_create_settings64 with ⟨s, created⟩
  have sound := soundRun .zero s settings64 os64 none 4096 [64] created rfl rfl (by decide)
  have inv := inv_of_create created rfl rfl (by decide)
  apply inv.not_sound_request _ sound.2
  have avail : s.memAvail = 64 := by
    rw [← Except.ok.inj created]
    rfl
  simp [LeavesRoom, avail, align, chunkAlignBytes]

end Arena

end ChaosCache
