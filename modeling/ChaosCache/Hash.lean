import Mathlib.Tactic.IntervalCases
import ChaosCache.ConstTypes

/-!
# The hash function

`hash` of `hash.c`, in its little-endian build. The function picks one of three
readers by the alignment of the key's address: 32-bit words, 16-bit words or
single bytes. Each has its own block loop and its own switch over the last
block, and the wider readers load bytes that lie behind the key and mask them
away.

The byte reader is the plainest of the three, and the others are shown to compute
what it computes: their block bodies are equal, and so are their switches on the
lengths 0 to 12 that the loops can leave. What the byte reader returns depends on
nothing but the key's own bytes.
-/

namespace ChaosCache.Hash

/-- The internal state of the hash. -/
structure Internal where
  a : UInt32
  b : UInt32
  c : UInt32
  deriving DecidableEq

/-- `rot` -/
def rot (x k : UInt32) : UInt32 := (x <<< k) ^^^ (x >>> (32 - k))

/-- `mix` -/
def mix (s : Internal) : Internal :=
  let a := s.a
  let b := s.b
  let c := s.c
  let a := a - c; let a := a ^^^ rot c 4;  let c := c + b
  let b := b - a; let b := b ^^^ rot a 6;  let a := a + c
  let c := c - b; let c := c ^^^ rot b 8;  let b := b + a
  let a := a - c; let a := a ^^^ rot c 16; let c := c + b
  let b := b - a; let b := b ^^^ rot a 19; let a := a + c
  let c := c - b; let c := c ^^^ rot b 4;  let b := b + a
  ⟨a, b, c⟩

/-- `finalmix` -/
def finalmix (s : Internal) : Internal :=
  let a := s.a
  let b := s.b
  let c := s.c
  let c := c ^^^ b; let c := c - rot b 14
  let a := a ^^^ c; let a := a - rot c 11
  let b := b ^^^ a; let b := b - rot a 25
  let c := c ^^^ b; let c := c - rot b 16
  let a := a ^^^ c; let a := a - rot c 4
  let b := b ^^^ a; let b := b - rot a 14
  let c := c ^^^ b; let c := c - rot b 24
  ⟨a, b, c⟩

section Readers

variable (bytes : ℕ → UInt8)

/-- `k[i]` for a `uint8_t *k` -/
def k8 (k : ℕ) (i : ℕ) : UInt32 := (bytes (k + i)).toUInt32

/-- `k[i]` for a `uint16_t *k`, promoted to 32 bits -/
def k16 (k : ℕ) (i : ℕ) : UInt32 :=
  k8 bytes k (2 * i) + (k8 bytes k (2 * i + 1) <<< 8)

/-- `k[i]` for a `uint32_t *k` -/
def k32 (k : ℕ) (i : ℕ) : UInt32 :=
  k8 bytes k (4 * i) + (k8 bytes k (4 * i + 1) <<< 8) + (k8 bytes k (4 * i + 2) <<< 16) +
    (k8 bytes k (4 * i + 3) <<< 24)

/-- The body of the block loop that reads 32-bit words. -/
def block32 (k : ℕ) (s : Internal) : Internal :=
  mix { a := s.a + k32 bytes k 0, b := s.b + k32 bytes k 1, c := s.c + k32 bytes k 2 }

/-- The body of the block loop that reads 16-bit words. -/
def block16 (k : ℕ) (s : Internal) : Internal :=
  mix
    { a := s.a + (k16 bytes k 0 + (k16 bytes k 1 <<< 16))
      b := s.b + (k16 bytes k 2 + (k16 bytes k 3 <<< 16))
      c := s.c + (k16 bytes k 4 + (k16 bytes k 5 <<< 16)) }

/-- The body of the block loop that reads bytes. -/
def block8 (k : ℕ) (s : Internal) : Internal :=
  mix
    { a := s.a + k8 bytes k 0 + (k8 bytes k 1 <<< 8) + (k8 bytes k 2 <<< 16) +
        (k8 bytes k 3 <<< 24)
      b := s.b + k8 bytes k 4 + (k8 bytes k 5 <<< 8) + (k8 bytes k 6 <<< 16) +
        (k8 bytes k 7 <<< 24)
      c := s.c + k8 bytes k 8 + (k8 bytes k 9 <<< 8) + (k8 bytes k 10 <<< 16) +
        (k8 bytes k 11 <<< 24) }

/-- The `switch` behind the loop that reads 32-bit words. -/
def tail32 (k : ℕ) (length : ℕ) (s : Internal) : Internal :=
  let k := k32 bytes k
  match length with
  | 12 => { a := s.a + k 0, b := s.b + k 1, c := s.c + k 2 }
  | 11 => { a := s.a + k 0, b := s.b + k 1, c := s.c + (k 2 &&& 0xffffff) }
  | 10 => { a := s.a + k 0, b := s.b + k 1, c := s.c + (k 2 &&& 0xffff) }
  | 9 => { a := s.a + k 0, b := s.b + k 1, c := s.c + (k 2 &&& 0xff) }
  | 8 => { s with a := s.a + k 0, b := s.b + k 1 }
  | 7 => { s with a := s.a + k 0, b := s.b + (k 1 &&& 0xffffff) }
  | 6 => { s with a := s.a + k 0, b := s.b + (k 1 &&& 0xffff) }
  | 5 => { s with a := s.a + k 0, b := s.b + (k 1 &&& 0xff) }
  | 4 => { s with a := s.a + k 0 }
  | 3 => { s with a := s.a + (k 0 &&& 0xffffff) }
  | 2 => { s with a := s.a + (k 0 &&& 0xffff) }
  | 1 => { s with a := s.a + (k 0 &&& 0xff) }
  | _ => s

/-- The `switch` behind the loop that reads 16-bit words, its fallthroughs written out. -/
def tail16 (k : ℕ) (length : ℕ) (s : Internal) : Internal :=
  let kb := k8 bytes k
  let k := k16 bytes k
  match length with
  | 12 =>
      { c := s.c + (k 4 + (k 5 <<< 16))
        b := s.b + (k 2 + (k 3 <<< 16))
        a := s.a + (k 0 + (k 1 <<< 16)) }
  | 11 =>
      { c := s.c + (kb 10 <<< 16) + k 4
        b := s.b + (k 2 + (k 3 <<< 16))
        a := s.a + (k 0 + (k 1 <<< 16)) }
  | 10 =>
      { c := s.c + k 4
        b := s.b + (k 2 + (k 3 <<< 16))
        a := s.a + (k 0 + (k 1 <<< 16)) }
  | 9 =>
      { c := s.c + kb 8
        b := s.b + (k 2 + (k 3 <<< 16))
        a := s.a + (k 0 + (k 1 <<< 16)) }
  | 8 => { s with b := s.b + (k 2 + (k 3 <<< 16)), a := s.a + (k 0 + (k 1 <<< 16)) }
  | 7 => { s with b := s.b + (kb 6 <<< 16) + k 2, a := s.a + (k 0 + (k 1 <<< 16)) }
  | 6 => { s with b := s.b + k 2, a := s.a + (k 0 + (k 1 <<< 16)) }
  | 5 => { s with b := s.b + kb 4, a := s.a + (k 0 + (k 1 <<< 16)) }
  | 4 => { s with a := s.a + (k 0 + (k 1 <<< 16)) }
  | 3 => { s with a := s.a + (kb 2 <<< 16) + k 0 }
  | 2 => { s with a := s.a + k 0 }
  | 1 => { s with a := s.a + kb 0 }
  | _ => s

/-- The cases `base + 4` down to `base + 1` of the `switch` that reads bytes. All
fall through, so `case n` runs when `n ≤ length`. -/
def fallThrough (k : ℕ) (base length : ℕ) (x : UInt32) : UInt32 :=
  let k := k8 bytes k
  let x := if base + 4 ≤ length then x + (k (base + 3) <<< 24) else x
  let x := if base + 3 ≤ length then x + (k (base + 2) <<< 16) else x
  let x := if base + 2 ≤ length then x + (k (base + 1) <<< 8) else x
  if base + 1 ≤ length then x + k base else x

/-- The `switch` behind the loop that reads bytes: cases 12 to 9 add to `c`,
8 to 5 to `b` and 4 to 1 to `a`. -/
def tail8 (k : ℕ) (length : ℕ) (s : Internal) : Internal where
  c := fallThrough bytes k 8 length s.c
  b := fallThrough bytes k 4 length s.b
  a := fallThrough bytes k 0 length s.a

end Readers

/-- `for (; length > 12; length -= 12, k += 12)`, with the bytes `k` advances by.
The first argument bounds the iterations; the length itself is enough. -/
def blocks (body : ℕ → Internal → Internal) :
    ℕ → ℕ → ℕ → Internal → ℕ × ℕ × Internal
  | 0, k, length, s => (k, length, s)
  | fuel + 1, k, length, s =>
      if 12 < length then blocks body fuel (k + 12) (length - 12) (body k s)
      else (k, length, s)

/-- The block loop, the `switch` and the final mix of one reader. -/
def read (body : ℕ → Internal → Internal) (tail : ℕ → ℕ → Internal → Internal)
    (key : ℕ) (length : ℕ) (s : Internal) : UInt32 :=
  let (k, rest, s) := blocks body length key length s
  if rest = 0 then s.c else (finalmix (tail k rest s)).c

/-- `hash` on the bytes of memory at `key`. -/
def hash (bytes : ℕ → UInt8) (key : ℕ) (length : ℕ) (initval : UInt32) : UInt32 :=
  let start := 0xdeadbeef + UInt32.ofNat length + initval
  let s : Internal := ⟨start, start, start⟩
  if key % 4 = 0 then read (block32 bytes) (tail32 bytes) key length s
  else if key % 2 = 0 then read (block16 bytes) (tail16 bytes) key length s
  else read (block8 bytes) (tail8 bytes) key length s

/-- The hash of a key with these bytes, wherever it lies in memory. -/
def hashKey (key : List UInt8) : UInt32 := hash (fun i => key.getD i 0) 0 key.length 0

/-! ## The readers agree -/

theorem add_shiftLeft_16 (x y : UInt32) : (x + y) <<< 16 = (x <<< 16) + (y <<< 16) := by
  apply UInt32.toNat_inj.mp
  simp only [UInt32.toNat_shiftLeft, UInt32.toNat_add, UInt32.reduceToNat, Nat.shiftLeft_eq,
    Nat.reduceMod, Nat.reducePow]
  omega

theorem shiftLeft_8_16 (x : UInt32) : (x <<< 8) <<< 16 = x <<< 24 := by
  rw [← UInt32.shiftLeft_add (by decide) (by decide) (by decide)]
  rfl

/-- The word of a lane of which the key covers `count` bytes. -/
def lowBytes (word : UInt32) (count : ℕ) : UInt32 :=
  match count with
  | 0 => 0
  | 1 => word &&& 0xff
  | 2 => word &&& 0xffff
  | 3 => word &&& 0xffffff
  | _ => word

theorem lowBytes_of_le {word : UInt32} {count : ℕ} (full : 4 ≤ count) :
    lowBytes word count = word := by
  match count, full with
  | _ + 4, _ => rfl

theorem lowBytes_leWord {w x y z : UInt32} (hw : w.toNat < 256) (hx : x.toNat < 256)
    (hy : y.toNat < 256) :
    lowBytes (w + (x <<< 8) + (y <<< 16) + (z <<< 24)) 1 = w ∧
      lowBytes (w + (x <<< 8) + (y <<< 16) + (z <<< 24)) 2 = w + (x <<< 8) ∧
      lowBytes (w + (x <<< 8) + (y <<< 16) + (z <<< 24)) 3 = w + (x <<< 8) + (y <<< 16) := by
  have low (n : ℕ) (m : UInt32) (mask : m.toNat = 2 ^ n - 1) (v : UInt32) :
      (v &&& m).toNat = v.toNat % 2 ^ n := by
    rw [UInt32.toNat_and, mask, Nat.and_two_pow_sub_one_eq_mod]
  refine ⟨?_, ?_, ?_⟩ <;> apply UInt32.toNat_inj.mp
  · rw [lowBytes, low 8 _ rfl]
    simp only [UInt32.toNat_shiftLeft, UInt32.toNat_add, UInt32.reduceToNat, Nat.shiftLeft_eq,
      Nat.reduceMod, Nat.reducePow]
    omega
  · rw [lowBytes, low 16 _ rfl]
    simp only [UInt32.toNat_shiftLeft, UInt32.toNat_add, UInt32.reduceToNat, Nat.shiftLeft_eq,
      Nat.reduceMod, Nat.reducePow]
    omega
  · rw [lowBytes, low 24 _ rfl]
    simp only [UInt32.toNat_shiftLeft, UInt32.toNat_add, UInt32.reduceToNat, Nat.shiftLeft_eq,
      Nat.reduceMod, Nat.reducePow]
    omega

section Agreement

variable (bytes : ℕ → UInt8)

theorem k8_lt (k : ℕ) (i : ℕ) : (k8 bytes k i).toNat < 256 := by
  simpa [k8] using (bytes (k + i)).toNat_lt

theorem k16_pair (k : ℕ) (i : ℕ) :
    k16 bytes k (2 * i) + (k16 bytes k (2 * i + 1) <<< 16) = k32 bytes k i := by
  have low : 2 * (2 * i) = 4 * i := by omega
  have high : 2 * (2 * i + 1) = 4 * i + 2 := by omega
  rw [k16, k16, k32, low, high, add_shiftLeft_16, shiftLeft_8_16, ← UInt32.add_assoc]

theorem add_k32 (x : UInt32) (k : ℕ) (i : ℕ) :
    x + k32 bytes k i =
      x + k8 bytes k (4 * i) + (k8 bytes k (4 * i + 1) <<< 8) + (k8 bytes k (4 * i + 2) <<< 16) +
        (k8 bytes k (4 * i + 3) <<< 24) := by
  rw [k32, ← UInt32.add_assoc, ← UInt32.add_assoc, ← UInt32.add_assoc]

theorem block32_eq_block8 : block32 bytes = block8 bytes := by
  funext k s
  rw [block32, block8, add_k32, add_k32, add_k32]

theorem block16_eq_block32 : block16 bytes = block32 bytes := by
  funext k s
  rw [block16, block32, ← k16_pair bytes k 0, ← k16_pair bytes k 1, ← k16_pair bytes k 2]

theorem lowBytes_k32 (k : ℕ) (i : ℕ) :
    lowBytes (k32 bytes k i) 1 = k8 bytes k (4 * i) ∧
      lowBytes (k32 bytes k i) 2 = k8 bytes k (4 * i) + (k8 bytes k (4 * i + 1) <<< 8) ∧
      lowBytes (k32 bytes k i) 3 =
        k8 bytes k (4 * i) + (k8 bytes k (4 * i + 1) <<< 8) + (k8 bytes k (4 * i + 2) <<< 16) :=
  lowBytes_leWord (k8_lt bytes k (4 * i)) (k8_lt bytes k (4 * i + 1)) (k8_lt bytes k (4 * i + 2))

/-- Fallthrough adds the bytes of a word from the highest down. -/
theorem add_four (x t u v w : UInt32) : x + w + v + u + t = x + (t + u + v + w) := by ac_rfl

theorem add_three (x u v w : UInt32) : x + w + v + u = x + (u + v + w) := by ac_rfl

theorem fallThrough_eq (k : ℕ) (i length : ℕ) (x : UInt32) :
    fallThrough bytes k (4 * i) length x = x + lowBytes (k32 bytes k i) (length - 4 * i) := by
  rcases lowBytes_k32 bytes k i with ⟨one, two, three⟩
  by_cases full : 4 * i + 4 ≤ length
  · have run (n : ℕ) (small : n ≤ 3) : 4 * i + (n + 1) ≤ length := by omega
    rw [lowBytes_of_le (by omega), k32, ← add_four]
    simp only [fallThrough, run 3 le_rfl, run 2 (by decide), run 1 (by decide),
      run 0 (by decide), if_true]
  by_cases none : length ≤ 4 * i
  · have skip (n : ℕ) : ¬4 * i + (n + 1) ≤ length := by omega
    rw [Nat.sub_eq_zero_of_le none]
    simp only [fallThrough, skip, if_false, lowBytes, UInt32.add_zero]
  rcases Nat.exists_eq_add_of_lt (Nat.lt_of_not_le none) with ⟨count, rfl⟩
  obtain rfl | rfl | rfl : count = 0 ∨ count = 1 ∨ count = 2 := by omega
  · rw [show 4 * i + 0 + 1 - 4 * i = 1 by omega, one]
    simp [fallThrough]
  · rw [show 4 * i + 1 + 1 - 4 * i = 2 by omega, two, UInt32.add_comm (k8 bytes k (4 * i)),
      ← UInt32.add_assoc]
    simp [fallThrough]
  · rw [show 4 * i + 2 + 1 - 4 * i = 3 by omega, three, ← add_three]
    simp [fallThrough]

/-- What all three switches do with the last block: each word of the state takes
the bytes of its lane that the key covers. -/
def lastBlock (k : ℕ) (length : ℕ) (s : Internal) : Internal where
  a := s.a + lowBytes (k32 bytes k 0) length
  b := s.b + lowBytes (k32 bytes k 1) (length - 4)
  c := s.c + lowBytes (k32 bytes k 2) (length - 8)

theorem tail8_eq_lastBlock (k : ℕ) (length : ℕ) (s : Internal) :
    tail8 bytes k length s = lastBlock bytes k length s := by
  rw [tail8, fallThrough_eq bytes k 0, fallThrough_eq bytes k 1, fallThrough_eq bytes k 2]
  rfl

theorem tail32_eq_lastBlock (k : ℕ) {length : ℕ} (short : length ≤ 12) (s : Internal) :
    tail32 bytes k length s = lastBlock bytes k length s := by
  interval_cases length <;> simp [tail32, lastBlock, lowBytes]

theorem lowBytes_k16 (k : ℕ) (i : ℕ) :
    lowBytes (k32 bytes k i) 1 = k8 bytes k (4 * i) ∧
      lowBytes (k32 bytes k i) 2 = k16 bytes k (2 * i) ∧
      lowBytes (k32 bytes k i) 3 = (k8 bytes k (4 * i + 2) <<< 16) + k16 bytes k (2 * i) := by
  rcases lowBytes_k32 bytes k i with ⟨one, two, three⟩
  have half : 2 * (2 * i) = 4 * i := by omega
  rw [one, two, three, k16, half, UInt32.add_comm (k8 bytes k (4 * i + 2) <<< 16)]
  exact ⟨rfl, rfl, rfl⟩

theorem lowBytes_k16_of_le (k : ℕ) (i : ℕ) {count : ℕ} (full : 4 ≤ count) :
    lowBytes (k32 bytes k i) count =
      k16 bytes k (2 * i) + (k16 bytes k (2 * i + 1) <<< 16) := by
  rw [lowBytes_of_le full, k16_pair]

theorem tail16_eq_lastBlock (k : ℕ) {length : ℕ} (short : length ≤ 12) (s : Internal) :
    tail16 bytes k length s = lastBlock bytes k length s := by
  rcases lowBytes_k16 bytes k 0 with ⟨a1, a2, a3⟩
  rcases lowBytes_k16 bytes k 1 with ⟨b1, b2, b3⟩
  rcases lowBytes_k16 bytes k 2 with ⟨c1, c2, c3⟩
  have none (word : UInt32) : lowBytes word 0 = 0 := rfl
  interval_cases length <;>
    simp (disch := omega) only [tail16, lastBlock, Nat.reduceSub, none, a1, a2, a3, b1, b2, b3,
      c1, c2, c3, lowBytes_k16_of_le, UInt32.add_assoc, UInt32.add_zero, Nat.reduceMul,
      Nat.reduceAdd]

theorem tail16_eq_tail8 (k : ℕ) {length : ℕ} (short : length ≤ 12) :
    tail16 bytes k length = tail8 bytes k length := by
  funext s
  rw [tail16_eq_lastBlock bytes k short, tail8_eq_lastBlock]

theorem tail32_eq_tail8 (k : ℕ) {length : ℕ} (short : length ≤ 12) :
    tail32 bytes k length = tail8 bytes k length := by
  funext s
  rw [tail32_eq_lastBlock bytes k short, tail8_eq_lastBlock]

end Agreement

/-! ## The value depends on the key's bytes only -/

theorem blocks_rest_le (body : ℕ → Internal → Internal) {fuel length : ℕ}
    (enough : length ≤ fuel) (k : ℕ) (s : Internal) :
    (blocks body fuel k length s).2.1 ≤ 12 := by
  induction fuel generalizing k length s with
  | zero => simp only [blocks]; omega
  | succ fuel ih =>
      simp only [blocks]
      split
      · exact ih (by omega) _ _
      · simp only; omega

/-- A reader whose switch agrees with the byte reader's on short rests reads the same value. -/
theorem read_eq_read8 {bytes : ℕ → UInt8} {body : ℕ → Internal → Internal}
    {tail : ℕ → ℕ → Internal → Internal} (bodies : body = block8 bytes)
    (tails : ∀ k length, length ≤ 12 → tail k length = tail8 bytes k length)
    (key : ℕ) (length : ℕ) (s : Internal) :
    read body tail key length s = read (block8 bytes) (tail8 bytes) key length s := by
  subst bodies
  simp only [read]
  rw [tails _ _ (blocks_rest_le _ le_rfl key s)]

theorem hash_eq_read8 (bytes : ℕ → UInt8) (key : ℕ) (length : ℕ) (initval : UInt32) :
    hash bytes key length initval =
      let start := 0xdeadbeef + UInt32.ofNat length + initval
      read (block8 bytes) (tail8 bytes) key length ⟨start, start, start⟩ := by
  simp only [hash]
  split
  · exact read_eq_read8 (block32_eq_block8 bytes) (fun k _ => tail32_eq_tail8 bytes k) _ _ _
  split
  · exact read_eq_read8 ((block16_eq_block32 bytes).trans (block32_eq_block8 bytes))
      (fun k _ => tail16_eq_tail8 bytes k) _ _ _
  · rfl

section Placement

variable {left right : ℕ → UInt8}

theorem block8_congr {k k' : ℕ} (same : ∀ i < 12, left (k + i) = right (k' + i))
    (s : Internal) : block8 left k s = block8 right k' s := by
  have byte (i : ℕ) (inBlock : i < 12) : k8 left k i = k8 right k' i := by
    rw [k8, k8, same i inBlock]
  simp only [block8, byte _ (show 0 < 12 by decide), byte _ (show 1 < 12 by decide),
    byte _ (show 2 < 12 by decide), byte _ (show 3 < 12 by decide),
    byte _ (show 4 < 12 by decide), byte _ (show 5 < 12 by decide),
    byte _ (show 6 < 12 by decide), byte _ (show 7 < 12 by decide),
    byte _ (show 8 < 12 by decide), byte _ (show 9 < 12 by decide),
    byte _ (show 10 < 12 by decide), byte _ (show 11 < 12 by decide)]

theorem fallThrough_congr {k k' : ℕ} {length : ℕ}
    (same : ∀ i < length, left (k + i) = right (k' + i)) (base : ℕ) (x : UInt32) :
    fallThrough left k base length x = fallThrough right k' base length x := by
  have byte (i : ℕ) (y z : UInt32) (shift : UInt32 → UInt32) :
      (if base + (i + 1) ≤ length then y + shift (k8 left k (base + i)) else z) =
        if base + (i + 1) ≤ length then y + shift (k8 right k' (base + i)) else z := by
    split
    · rw [k8, k8, same (base + i) (by omega)]
    · rfl
  simp only [fallThrough]
  rw [byte 3 _ _ (· <<< 24), byte 2 _ _ (· <<< 16), byte 1 _ _ (· <<< 8)]
  exact byte 0 _ _ id

theorem tail8_congr {k k' : ℕ} {length : ℕ}
    (same : ∀ i < length, left (k + i) = right (k' + i)) (s : Internal) :
    tail8 left k length s = tail8 right k' length s := by
  simp only [tail8, fallThrough_congr same]

theorem blocks_congr (fuel : ℕ) {length : ℕ} {k k' : ℕ}
    (same : ∀ i < length, left (k + i) = right (k' + i)) (s : Internal) :
    (blocks (block8 left) fuel k length s).2 = (blocks (block8 right) fuel k' length s).2 ∧
      ∀ i < (blocks (block8 left) fuel k length s).2.1,
        left ((blocks (block8 left) fuel k length s).1 + i) =
          right ((blocks (block8 right) fuel k' length s).1 + i) := by
  induction fuel generalizing k k' length s with
  | zero =>
      simp only [blocks]
      exact ⟨trivial, same⟩
  | succ fuel ih =>
      simp only [blocks]
      split
      · rename_i long
        have block : ∀ i < 12, left (k + i) = right (k' + i) := fun i inBlock =>
          same i (Nat.lt_trans inBlock long)
        rw [block8_congr block s]
        have rest : ∀ i < length - 12, left (k + 12 + i) = right (k' + 12 + i) := by
          intro i inRange
          simpa only [Nat.add_assoc] using same (12 + i) (by omega)
        exact ih rest _
      · exact ⟨by simp only, same⟩

theorem read8_congr {key key' : ℕ} {length : ℕ}
    (same : ∀ i < length, left (key + i) = right (key' + i)) (s : Internal) :
    read (block8 left) (tail8 left) key length s =
      read (block8 right) (tail8 right) key' length s := by
  have inStep := blocks_congr length same s
  simp only [read]
  generalize blocks (block8 left) length key length s = leftEnd at inStep ⊢
  generalize blocks (block8 right) length key' length s = rightEnd at inStep ⊢
  rcases leftEnd with ⟨k, rest, t⟩
  rcases rightEnd with ⟨k', rest', t'⟩
  simp only [Prod.mk.injEq] at inStep
  rcases inStep with ⟨⟨rfl, rfl⟩, sameRest⟩
  rw [tail8_congr sameRest]

/-- Equal bytes have equal hashes, at whatever addresses they lie and whatever follows them. -/
theorem hash_eq_of_same_bytes {key key' : ℕ} {length : ℕ}
    (same : ∀ i < length, left (key + i) = right (key' + i)) (initval : UInt32) :
    hash left key length initval = hash right key' length initval := by
  rw [hash_eq_read8, hash_eq_read8]
  exact read8_congr same _

end Placement

/-- The key `abc` at a word address and at an odd one, with different bytes behind it. -/
theorem hash_abc_moved :
    let left : ℕ → UInt8 := fun a => [97, 98, 99].getD (a - 4) 255
    let right : ℕ → UInt8 := fun a => [97, 98, 99].getD (a - 7) 0
    (∀ i < 3, left (4 + i) = right (7 + i)) ∧ hash left 4 3 7 = hash right 7 3 7 :=
  ⟨by decide, hash_eq_of_same_bytes (by decide) 7⟩

/-- Memory that holds `key` from address `start` on has `hashKey key` as its hash there. -/
theorem hash_eq_hashKey {bytes : ℕ → UInt8} {start : ℕ} {key : List UInt8}
    (holds : ∀ i < key.length, bytes (start + i) = key.getD i 0) :
    hash bytes start key.length 0 = hashKey key := by
  rw [hashKey, hash_eq_read8, hash_eq_read8]
  exact read8_congr (fun i inRange => by simpa using holds i inRange) _

end ChaosCache.Hash
