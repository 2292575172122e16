import ChaosCache.Hash

/-!
# The hash function on big-endian machines

`hash` of `hash.c`, in its big-endian build. It has two readers: 32-bit words for keys at word
addresses, and bytes for the others. The loop of the byte reader subtracts a block from the
length twice, once in its body and once in its header.
-/

namespace ChaosCache.Hash.BigEndian

section Readers

variable (bytes : ℕ → UInt8)

/-- `k[i]` for a `uint32_t *k` -/
def k32 (k : ℕ) (i : ℕ) : UInt32 :=
  (k8 bytes k (4 * i) <<< 24) + (k8 bytes k (4 * i + 1) <<< 16) +
    (k8 bytes k (4 * i + 2) <<< 8) + k8 bytes k (4 * i + 3)

/-- The body of the block loop that reads 32-bit words. -/
def block32 (k : ℕ) (s : Internal) : Internal :=
  mix { a := s.a + k32 bytes k 0, b := s.b + k32 bytes k 1, c := s.c + k32 bytes k 2 }

/-- The `switch` behind the loop that reads 32-bit words. -/
def tail32 (k : ℕ) (length : ℕ) (s : Internal) : Internal :=
  let k := k32 bytes k
  match length with
  | 12 => { c := s.c + k 2, b := s.b + k 1, a := s.a + k 0 }
  | 11 => { c := s.c + (k 2 &&& 0xffffff00), b := s.b + k 1, a := s.a + k 0 }
  | 10 => { c := s.c + (k 2 &&& 0xffff0000), b := s.b + k 1, a := s.a + k 0 }
  | 9 => { c := s.c + (k 2 &&& 0xff000000), b := s.b + k 1, a := s.a + k 0 }
  | 8 => { s with b := s.b + k 1, a := s.a + k 0 }
  | 7 => { s with b := s.b + (k 1 &&& 0xffffff00), a := s.a + k 0 }
  | 6 => { s with b := s.b + (k 1 &&& 0xffff0000), a := s.a + k 0 }
  | 5 => { s with b := s.b + (k 1 &&& 0xff000000), a := s.a + k 0 }
  | 4 => { s with a := s.a + k 0 }
  | 3 => { s with a := s.a + (k 0 &&& 0xffffff00) }
  | 2 => { s with a := s.a + (k 0 &&& 0xffff0000) }
  | 1 => { s with a := s.a + (k 0 &&& 0xff000000) }
  | _ => s

/-- The mixing in the body of the block loop that reads bytes. -/
def block8 (k : ℕ) (s : Internal) : Internal :=
  mix
    { a := s.a + (k8 bytes k 0 <<< 24) + (k8 bytes k 1 <<< 16) + (k8 bytes k 2 <<< 8) +
        k8 bytes k 3
      b := s.b + (k8 bytes k 4 <<< 24) + (k8 bytes k 5 <<< 16) + (k8 bytes k 6 <<< 8) +
        k8 bytes k 7
      c := s.c + (k8 bytes k 8 <<< 24) + (k8 bytes k 9 <<< 16) + (k8 bytes k 10 <<< 8) +
        k8 bytes k 11 }

/-- The cases `base + 4` down to `base + 1` of the `switch` that reads bytes. All
fall through, so `case n` runs when `n ≤ length`. -/
def fallThrough (k : ℕ) (base length : ℕ) (x : UInt32) : UInt32 :=
  let k := k8 bytes k
  let x := if base + 4 ≤ length then x + k (base + 3) else x
  let x := if base + 3 ≤ length then x + (k (base + 2) <<< 8) else x
  let x := if base + 2 ≤ length then x + (k (base + 1) <<< 16) else x
  if base + 1 ≤ length then x + (k base <<< 24) else x

/-- The `switch` behind the loop that reads bytes: cases 12 to 9 add to `c`,
8 to 5 to `b` and 4 to 1 to `a`. -/
def tail8 (k : ℕ) (length : ℕ) (s : Internal) : Internal where
  c := fallThrough bytes k 8 length s.c
  b := fallThrough bytes k 4 length s.b
  a := fallThrough bytes k 0 length s.a

/-- `length -= 12` for a `size_t` -/
def subBlock (length : ℕ) : ℕ := (length + (2 ^ 64 - 12)) % 2 ^ 64

/-- The block loop that reads bytes, with the addresses that it has read. There is no result
if the loop has not ended after some iterations. -/
def blocks8 : ℕ → ℕ → ℕ → Internal → List ℕ → Option (ℕ × ℕ × Internal × List ℕ)
  | 0, _, _, _, _ => none
  | fuel + 1, k, length, s, reads =>
      if 12 < length then
        -- the body ends with `length -= 12; k += 12`, and the header of the loop has them again
        blocks8 fuel (k + 12 + 12) (subBlock (subBlock length)) (block8 bytes k s)
          ((List.range 12).map (k + ·) ++ reads)
      else some (k, length, s, reads)

/-- The state at the start -/
def start (length : ℕ) (initval : UInt32) : Internal :=
  let start := 0xdeadbeef + UInt32.ofNat length + initval
  ⟨start, start, start⟩

/-- The branch of `hash` that reads 32-bit words. -/
def hash32 (key : ℕ) (length : ℕ) (initval : UInt32) : UInt32 :=
  read (block32 bytes) (tail32 bytes) key length (start length initval)

/-- The branch of `hash` that reads bytes: its value, and the addresses that it read. -/
def hash8 (fuel : ℕ) (key : ℕ) (length : ℕ) (initval : UInt32) : Option (UInt32 × List ℕ) := do
  let (k, rest, s, reads) ← blocks8 bytes fuel key length (start length initval) []
  let value := if rest = 0 then s.c else (finalmix (tail8 bytes k rest s)).c
  return (value, (List.range rest).map (k + ·) ++ reads)

/-- `hash` on the bytes of memory at `key`. -/
def hash (fuel : ℕ) (key : ℕ) (length : ℕ) (initval : UInt32) : Option UInt32 :=
  if key % 4 = 0 then some (hash32 bytes key length initval)
  else (hash8 bytes fuel key length initval).map Prod.fst

end Readers

/-- On keys of this length the byte reader ends, has read bytes of the key only, and returns what
the word reader returns, wherever the two keys lie and whatever follows them. -/
def Agrees (length : ℕ) : Prop :=
  ∀ (left right : ℕ → UInt8) (key key' : ℕ) (initval : UInt32), key % 4 ≠ 0 → key' % 4 = 0 →
    (∀ i < length, left (key + i) = right (key' + i)) →
      ∃ fuel value reads, hash8 left fuel key length initval = some (value, reads) ∧
        (∀ a ∈ reads, key ≤ a ∧ a < key + length) ∧ value = hash32 right key' length initval

/-! ## Rounds can be undone -/

/-- A step of `mix`, with the word that the next step changes first. -/
def mixStep (k : UInt32) (s : Internal) : Internal := ⟨s.b, s.c + s.b, (s.a - s.c) ^^^ rot s.c k⟩

/-- A step of `finalmix`, with the word that the next step changes last. -/
def finalStep (k : UInt32) (s : Internal) : Internal := ⟨s.b, (s.c ^^^ s.b) - rot s.b k, s.a⟩

theorem mix_eq (s : Internal) :
    mix s = mixStep 4 (mixStep 19 (mixStep 16 (mixStep 8 (mixStep 6 (mixStep 4 s))))) := rfl

theorem finalmix_c_eq (s : Internal) : (finalmix s).c =
    (finalStep 24 (finalStep 14 (finalStep 4 (finalStep 16 (finalStep 25
      (finalStep 11 (finalStep 14 s))))))).b := rfl

theorem exists_mixStep (k : UInt32) (t : Internal) : ∃ s, mixStep k s = t := by
  refine ⟨⟨(t.c ^^^ rot (t.b - t.a) k) + (t.b - t.a), t.a, t.b - t.a⟩, ?_⟩
  simp only [mixStep, UInt32.add_sub_cancel, UInt32.sub_add_cancel, UInt32.xor_assoc,
    UInt32.xor_self, UInt32.xor_zero]

theorem exists_finalStep (k : UInt32) (t : Internal) : ∃ s, finalStep k s = t := by
  refine ⟨⟨t.c, t.a, (t.b + rot t.a k) ^^^ t.a⟩, ?_⟩
  simp only [finalStep, UInt32.add_sub_cancel, UInt32.xor_assoc, UInt32.xor_self,
    UInt32.xor_zero]

/-- Every state comes out of `mix`. -/
theorem exists_mix (t : Internal) : ∃ s, mix s = t := by
  rcases exists_mixStep 4 t with ⟨s₆, rfl⟩
  rcases exists_mixStep 19 s₆ with ⟨s₅, rfl⟩
  rcases exists_mixStep 16 s₅ with ⟨s₄, rfl⟩
  rcases exists_mixStep 8 s₄ with ⟨s₃, rfl⟩
  rcases exists_mixStep 6 s₃ with ⟨s₂, rfl⟩
  rcases exists_mixStep 4 s₂ with ⟨s₁, rfl⟩
  exact ⟨s₁, mix_eq s₁⟩

/-- Every value comes out of `finalmix`. -/
theorem exists_finalmix (value : UInt32) : ∃ s, (finalmix s).c = value := by
  rcases exists_finalStep 24 ⟨0, value, 0⟩ with ⟨s₇, last⟩
  rcases exists_finalStep 14 s₇ with ⟨s₆, rfl⟩
  rcases exists_finalStep 4 s₆ with ⟨s₅, rfl⟩
  rcases exists_finalStep 16 s₅ with ⟨s₄, rfl⟩
  rcases exists_finalStep 25 s₄ with ⟨s₃, rfl⟩
  rcases exists_finalStep 11 s₃ with ⟨s₂, rfl⟩
  rcases exists_finalStep 14 s₂ with ⟨s₁, rfl⟩
  refine ⟨s₁, ?_⟩
  rw [finalmix_c_eq, last]

/-! ## Short keys -/

/-- The word of a lane of which the key covers `count` bytes. -/
def highBytes (word : UInt32) (count : ℕ) : UInt32 :=
  match count with
  | 0 => 0
  | 1 => word &&& 0xff000000
  | 2 => word &&& 0xffff0000
  | 3 => word &&& 0xffffff00
  | _ => word

theorem highBytes_of_le {word : UInt32} {count : ℕ} (full : 4 ≤ count) :
    highBytes word count = word := by
  match count, full with
  | _ + 4, _ => rfl

/-- A mask of the high bits clears the low ones. -/
theorem toNat_and_high (n : ℕ) (below : n ≤ 32) (word mask : UInt32)
    (high : mask.toNat = (2 ^ (32 - n) - 1) <<< n) :
    (word &&& mask).toNat = word.toNat / 2 ^ n * 2 ^ n := by
  rw [UInt32.toNat_and, high, ← Nat.shiftRight_eq_div_pow, ← Nat.shiftLeft_eq]
  apply Nat.eq_of_testBit_eq
  intro i
  simp only [Nat.testBit_and, Nat.testBit_shiftLeft, Nat.testBit_two_pow_sub_one,
    Nat.testBit_shiftRight]
  by_cases above : n ≤ i
  · by_cases inWord : i < 32
    · have inMask : i - n < 32 - n := by omega
      simp [above, inMask]
    · have clear : word.toNat.testBit i = false :=
        Nat.testBit_lt_two_pow
          (word.toNat_lt.trans_le (Nat.pow_le_pow_right (by decide) (by omega)))
      simp [above, clear]
  · simp [above]

theorem highBytes_beWord {w x y z : UInt32} (hx : x.toNat < 256) (hy : y.toNat < 256)
    (hz : z.toNat < 256) :
    highBytes ((w <<< 24) + (x <<< 16) + (y <<< 8) + z) 1 = w <<< 24 ∧
      highBytes ((w <<< 24) + (x <<< 16) + (y <<< 8) + z) 2 = (w <<< 24) + (x <<< 16) ∧
      highBytes ((w <<< 24) + (x <<< 16) + (y <<< 8) + z) 3 =
        (w <<< 24) + (x <<< 16) + (y <<< 8) := by
  refine ⟨?_, ?_, ?_⟩ <;> apply UInt32.toNat_inj.mp
  · rw [highBytes, toNat_and_high 24 (by decide) _ _ rfl]
    simp only [UInt32.toNat_shiftLeft, UInt32.toNat_add, UInt32.reduceToNat, Nat.shiftLeft_eq,
      Nat.reduceMod, Nat.reducePow]
    omega
  · rw [highBytes, toNat_and_high 16 (by decide) _ _ rfl]
    simp only [UInt32.toNat_shiftLeft, UInt32.toNat_add, UInt32.reduceToNat, Nat.shiftLeft_eq,
      Nat.reduceMod, Nat.reducePow]
    omega
  · rw [highBytes, toNat_and_high 8 (by decide) _ _ rfl]
    simp only [UInt32.toNat_shiftLeft, UInt32.toNat_add, UInt32.reduceToNat, Nat.shiftLeft_eq,
      Nat.reduceMod, Nat.reducePow]
    omega

section Agreement

variable (bytes : ℕ → UInt8)

theorem highBytes_k32 (k : ℕ) (i : ℕ) :
    highBytes (k32 bytes k i) 1 = k8 bytes k (4 * i) <<< 24 ∧
      highBytes (k32 bytes k i) 2 =
        (k8 bytes k (4 * i) <<< 24) + (k8 bytes k (4 * i + 1) <<< 16) ∧
      highBytes (k32 bytes k i) 3 =
        (k8 bytes k (4 * i) <<< 24) + (k8 bytes k (4 * i + 1) <<< 16) +
          (k8 bytes k (4 * i + 2) <<< 8) :=
  highBytes_beWord (k8_lt bytes k (4 * i + 1)) (k8_lt bytes k (4 * i + 2))
    (k8_lt bytes k (4 * i + 3))

theorem fallThrough_eq (k : ℕ) (i length : ℕ) (x : UInt32) :
    fallThrough bytes k (4 * i) length x = x + highBytes (k32 bytes k i) (length - 4 * i) := by
  rcases highBytes_k32 bytes k i with ⟨one, two, three⟩
  by_cases full : 4 * i + 4 ≤ length
  · have run (n : ℕ) (small : n ≤ 3) : 4 * i + (n + 1) ≤ length := by omega
    rw [highBytes_of_le (by omega), k32, ← add_four]
    simp only [fallThrough, run 3 le_rfl, run 2 (by decide), run 1 (by decide),
      run 0 (by decide), if_true]
  by_cases none : length ≤ 4 * i
  · have skip (n : ℕ) : ¬4 * i + (n + 1) ≤ length := by omega
    rw [Nat.sub_eq_zero_of_le none]
    simp only [fallThrough, skip, if_false, highBytes, UInt32.add_zero]
  rcases Nat.exists_eq_add_of_lt (Nat.lt_of_not_le none) with ⟨count, rfl⟩
  rcases (by omega : count = 0 ∨ count = 1 ∨ count = 2) with rfl | rfl | rfl
  · rw [show 4 * i + 0 + 1 - 4 * i = 1 by omega, one]
    simp [fallThrough]
  · rw [show 4 * i + 1 + 1 - 4 * i = 2 by omega, two, UInt32.add_comm (k8 bytes k (4 * i) <<< 24),
      ← UInt32.add_assoc]
    simp [fallThrough]
  · rw [show 4 * i + 2 + 1 - 4 * i = 3 by omega, three, ← add_three]
    simp [fallThrough]

/-- What both switches do with the last block. -/
def lastBlock (k : ℕ) (length : ℕ) (s : Internal) : Internal where
  a := s.a + highBytes (k32 bytes k 0) length
  b := s.b + highBytes (k32 bytes k 1) (length - 4)
  c := s.c + highBytes (k32 bytes k 2) (length - 8)

theorem tail8_eq_lastBlock (k : ℕ) (length : ℕ) (s : Internal) :
    tail8 bytes k length s = lastBlock bytes k length s := by
  rw [tail8, fallThrough_eq bytes k 0, fallThrough_eq bytes k 1, fallThrough_eq bytes k 2]
  rfl

theorem tail32_eq_lastBlock (k : ℕ) {length : ℕ} (short : length ≤ 12) (s : Internal) :
    tail32 bytes k length s = lastBlock bytes k length s := by
  interval_cases length <;> simp [tail32, lastBlock, highBytes]

variable {bytes}

theorem fallThrough_congr {left right : ℕ → UInt8} {k k' length : ℕ}
    (same : ∀ i < length, left (k + i) = right (k' + i)) (base : ℕ) (x : UInt32) :
    fallThrough left k base length x = fallThrough right k' base length x := by
  have byte (i : ℕ) (y z : UInt32) (shift : UInt32 → UInt32) :
      (if base + (i + 1) ≤ length then y + shift (k8 left k (base + i)) else z) =
        if base + (i + 1) ≤ length then y + shift (k8 right k' (base + i)) else z := by
    split
    · rw [k8, k8, same (base + i) (by omega)]
    · rfl
  have lowest : (if base + 4 ≤ length then x + k8 left k (base + 3) else x) =
      if base + 4 ≤ length then x + k8 right k' (base + 3) else x := byte 3 _ _ id
  simp only [fallThrough]
  rw [lowest, byte 2 _ _ (· <<< 8), byte 1 _ _ (· <<< 16)]
  exact byte 0 _ _ (· <<< 24)

theorem tail8_congr {left right : ℕ → UInt8} {k k' length : ℕ}
    (same : ∀ i < length, left (k + i) = right (k' + i)) (s : Internal) :
    tail8 left k length s = tail8 right k' length s := by
  simp only [tail8, fallThrough_congr same]

end Agreement

/-- A key of at most one block leaves no round for the loop. -/
theorem agrees_of_le {length : ℕ} (short : length ≤ 12) : Agrees length := by
  intro left right key key' initval _ _ same
  have noLoop : ¬12 < length := Nat.not_lt.mpr short
  have run8 : blocks8 left 1 key length (start length initval) [] =
      some (key, length, start length initval, []) := by
    simp [blocks8, noLoop]
  have run32 : blocks (block32 right) length key' length (start length initval) =
      (key', length, start length initval) := by
    cases length with
    | zero => rfl
    | succ length => simp [blocks, noLoop]
  refine ⟨1, _, _, by rw [hash8, run8]; rfl, ?_, ?_⟩
  · intro a isRead
    simp only [List.append_nil, List.mem_map, List.mem_range] at isRead
    rcases isRead with ⟨i, below, rfl⟩
    omega
  · simp only [hash32, read, run32]
    rw [tail8_congr same, tail8_eq_lastBlock, tail32_eq_lastBlock right key' short]

/-! ## Longer keys -/

section Loop

variable {left right : ℕ → UInt8} {fuel k length : ℕ} {s : Internal} {reads : List ℕ}
  {result : ℕ × ℕ × Internal × List ℕ}

/-- The loop goes forward, and forgets none of its reads. -/
theorem of_blocks8 (run : blocks8 left fuel k length s reads = some result) :
    k ≤ result.1 ∧ reads ⊆ result.2.2.2 ∧
      (12 < length → k ∈ result.2.2.2 ∧ k + 24 ≤ result.1) := by
  induction fuel generalizing k length s reads with
  | zero => cases run
  | succ fuel ih =>
      rw [blocks8] at run
      split at run
      · rcases ih run with ⟨forward, kept, -⟩
        refine ⟨by omega, fun a isRead => kept (List.mem_append_right _ isRead), fun _ => ⟨?_, ?_⟩⟩
        · apply kept
          exact List.mem_append_left _ (List.mem_map.mpr ⟨0, by simp, rfl⟩)
        · omega
      · rename_i ends
        cases run
        exact ⟨le_rfl, fun _ isRead => isRead, fun long => absurd long ends⟩

theorem blocks8_add (run : blocks8 left fuel k length s reads = some result) (more : ℕ) :
    blocks8 left (fuel + more) k length s reads = some result := by
  induction fuel generalizing k length s reads with
  | zero => cases run
  | succ fuel ih =>
      rw [Nat.succ_add]
      rw [blocks8] at run ⊢
      split
      · rename_i long
        rw [if_pos long] at run
        exact ih run
      · rename_i ends
        rw [if_neg ends] at run
        exact run

theorem block8_congr (same : ∀ a, k ≤ a → a < k + 12 → left a = right a) (s : Internal) :
    block8 left k s = block8 right k s := by
  have byte (i : ℕ) (inBlock : i < 12) : k8 left k i = k8 right k i := by
    rw [k8, k8, same (k + i) (by omega) (by omega)]
  simp only [block8, byte _ (show 0 < 12 by decide), byte _ (show 1 < 12 by decide),
    byte _ (show 2 < 12 by decide), byte _ (show 3 < 12 by decide),
    byte _ (show 4 < 12 by decide), byte _ (show 5 < 12 by decide),
    byte _ (show 6 < 12 by decide), byte _ (show 7 < 12 by decide),
    byte _ (show 8 < 12 by decide), byte _ (show 9 < 12 by decide),
    byte _ (show 10 < 12 by decide), byte _ (show 11 < 12 by decide)]

theorem blocks8_congr (same : ∀ a, k ≤ a → left a = right a) :
    blocks8 left fuel k length s reads = blocks8 right fuel k length s reads := by
  induction fuel generalizing k length s reads with
  | zero => rfl
  | succ fuel ih =>
      rw [blocks8, blocks8, block8_congr fun a above _ => same a above,
        ih fun a above => same a (by omega)]

end Loop

section Gap

variable {left right : ℕ → UInt8} {fuel key length : ℕ} {initval : UInt32}

/-- The byte reader steps over the second block of a key. -/
theorem hash8_congr (long : 12 < length)
    (same : ∀ a, key ≤ a → a < key + 12 ∨ key + 24 ≤ a → left a = right a) :
    hash8 left fuel key length initval = hash8 right fuel key length initval := by
  have loops : blocks8 left fuel key length (start length initval) [] =
      blocks8 right fuel key length (start length initval) [] := by
    cases fuel with
    | zero => simp only [blocks8]
    | succ fuel =>
        rw [blocks8, blocks8, block8_congr fun a above below => same a above (Or.inl below),
          blocks8_congr fun a above => same a (by omega) (Or.inr (by omega))]
  rw [hash8, hash8, loops]
  cases run : blocks8 right fuel key length (start length initval) [] with
  | none => simp only [Option.bind_eq_bind, Option.bind_none]
  | some result =>
      have forward := ((of_blocks8 run).2.2 long).2
      rcases result with ⟨k, rest, s, reads⟩
      have tails : tail8 left k rest s = tail8 right k rest s := by
        apply tail8_congr
        intro i _
        exact same (k + i) (by omega) (Or.inr (by omega))
      simp only [Option.bind_eq_bind, Option.bind_some, tails]

theorem hash8_eq_some {value : UInt32} {reads : List ℕ}
    (run : hash8 left fuel key length initval = some (value, reads)) :
    ∃ k rest s before, blocks8 left fuel key length (start length initval) [] =
        some (k, rest, s, before) ∧
      value = (if rest = 0 then s.c else (finalmix (tail8 left k rest s)).c) ∧
        reads = (List.range rest).map (k + ·) ++ before := by
  rcases Option.bind_eq_some_iff.mp run with ⟨⟨k, rest, s, before⟩, loop, done⟩
  cases done
  exact ⟨k, rest, s, before, loop, rfl, rfl⟩

/-- A run with more iterations allowed has the same result. -/
theorem hash8_add {result : UInt32 × List ℕ}
    (run : hash8 left fuel key length initval = some result) (more : ℕ) :
    hash8 left (fuel + more) key length initval = some result := by
  rcases Option.bind_eq_some_iff.mp run with ⟨end_, loop, done⟩
  exact Option.bind_eq_some_iff.mpr ⟨end_, blocks8_add loop more, done⟩

/-- The second subtraction passes zero, and the loop goes on behind the key. -/
theorem not_agrees_of_lt (long : 12 < length) (short : length < 24) : ¬Agrees length := by
  intro agrees
  rcases agrees (fun _ => 0) (fun _ => 0) 1 0 0 (by decide) (by decide) (fun _ _ => rfl) with
    ⟨fuel, value, reads, run, inside, -⟩
  rcases hash8_eq_some run with ⟨k, rest, s, before, loop, -, rfl⟩
  have wrapped : 12 < subBlock (subBlock length) := by
    unfold subBlock
    omega
  cases fuel with
  | zero => cases loop
  | succ fuel =>
      rw [blocks8, if_pos long] at loop
      have isRead := ((of_blocks8 loop).2.2 wrapped).1
      have bound := inside _ (List.mem_append_right _ isRead)
      omega

end Gap

/-! ## The second block changes the value -/

/-- The value that the word reader returns from a state in the middle of a key. -/
def finish (bytes : ℕ → UInt8) (fuel k length : ℕ) (s : Internal) : UInt32 :=
  let (k, rest, s) := blocks (block32 bytes) fuel k length s
  if rest = 0 then s.c else (finalmix (tail32 bytes k rest s)).c

section Values

variable (bytes : ℕ → UInt8)

theorem hash32_eq_finish (key length : ℕ) (initval : UInt32) :
    hash32 bytes key length initval = finish bytes length key length (start length initval) := rfl

theorem finish_of_lt {fuel k length : ℕ} (long : 12 < length) (s : Internal) :
    finish bytes (fuel + 1) k length s =
      finish bytes fuel (k + 12) (length - 12) (block32 bytes k s) := by
  simp only [finish, blocks, if_pos long]

theorem finish_zero (k length : ℕ) (s : Internal) : finish bytes 0 k length s =
    if length = 0 then s.c else (finalmix (tail32 bytes k length s)).c := rfl

theorem finish_of_le (fuel k : ℕ) {length : ℕ} (short : length ≤ 12) (s : Internal) :
    finish bytes fuel k length s =
      if length = 0 then s.c else (finalmix (tail32 bytes k length s)).c := by
  cases fuel with
  | zero => rfl
  | succ fuel => simp only [finish, blocks, if_neg (Nat.not_lt.mpr short)]

theorem exists_block32 (k : ℕ) (t : Internal) : ∃ s, block32 bytes k s = t := by
  rcases exists_mix t with ⟨u, rfl⟩
  refine ⟨⟨u.a - k32 bytes k 0, u.b - k32 bytes k 1, u.c - k32 bytes k 2⟩, ?_⟩
  simp only [block32, UInt32.sub_add_cancel]

/-- Every value is returned from some state. -/
theorem exists_finish (value : UInt32) {fuel length : ℕ} (enough : length ≤ fuel) (k : ℕ) :
    ∃ s, finish bytes fuel k length s = value := by
  induction fuel generalizing k length with
  | zero =>
      have empty : length = 0 := Nat.le_zero.mp enough
      exact ⟨⟨0, 0, value⟩, by rw [finish_zero, if_pos empty]⟩
  | succ fuel ih =>
      by_cases long : 12 < length
      · rcases @ih (length - 12) (by omega) (k + 12) with ⟨t, returns⟩
        rcases exists_block32 bytes k t with ⟨s, rfl⟩
        exact ⟨s, (finish_of_lt bytes long s).trans returns⟩
      · have short := Nat.not_lt.mp long
        by_cases empty : length = 0
        · exact ⟨⟨0, 0, value⟩, by rw [finish_of_le bytes _ k short, if_pos empty]⟩
        · rcases exists_finalmix value with ⟨t, rfl⟩
          refine ⟨⟨t.a - highBytes (k32 bytes k 0) length,
            t.b - highBytes (k32 bytes k 1) (length - 4),
            t.c - highBytes (k32 bytes k 2) (length - 8)⟩, ?_⟩
          simp only [finish_of_le bytes _ k short, if_neg empty, tail32_eq_lastBlock bytes k short,
            lastBlock, UInt32.sub_add_cancel]

variable {bytes}

theorem k32_congr {left right : ℕ → UInt8} {k : ℕ} (same : ∀ a, k ≤ a → left a = right a) :
    k32 left k = k32 right k := by
  funext i
  simp only [k32, k8, same (k + (4 * i)) (by omega), same (k + (4 * i + 1)) (by omega),
    same (k + (4 * i + 2)) (by omega), same (k + (4 * i + 3)) (by omega)]

theorem tail32_congr {left right : ℕ → UInt8} {k : ℕ} (same : ∀ a, k ≤ a → left a = right a) :
    tail32 left k = tail32 right k := by
  unfold tail32
  rw [k32_congr same]

/-- Only the bytes from the state's position on matter. -/
theorem finish_congr {left right : ℕ → UInt8} {fuel k length : ℕ}
    (same : ∀ a, k ≤ a → left a = right a) (s : Internal) :
    finish left fuel k length s = finish right fuel k length s := by
  induction fuel generalizing k length s with
  | zero => rw [finish_zero, finish_zero, tail32_congr same]
  | succ fuel ih =>
      by_cases long : 12 < length
      · rw [finish_of_lt left long, finish_of_lt right long, block32, block32, k32_congr same]
        exact ih (fun a above => same a (by omega)) _
      · have short := Nat.not_lt.mp long
        rw [finish_of_le left _ k short, finish_of_le right _ k short, tail32_congr same]

end Values

/-- The bytes of a word, the highest first. -/
def wordByte (word : UInt32) (i : ℕ) : UInt8 := UInt8.ofNat (word.toNat / 2 ^ (24 - 8 * i))

/-- Memory that is zero but for three words at 12. -/
def secondBlock (words : Internal) (a : ℕ) : UInt8 :=
  if a < 12 then 0
  else if a < 16 then wordByte words.a (a - 12)
  else if a < 20 then wordByte words.b (a - 16)
  else if a < 24 then wordByte words.c (a - 20)
  else 0

theorem word_of_bytes (word : UInt32) :
    ((wordByte word 0).toUInt32 <<< 24) + ((wordByte word 1).toUInt32 <<< 16) +
      ((wordByte word 2).toUInt32 <<< 8) + (wordByte word 3).toUInt32 = word := by
  have bound := word.toNat_lt
  apply UInt32.toNat_inj.mp
  simp only [wordByte, UInt32.toNat_shiftLeft, UInt32.toNat_add, UInt32.reduceToNat,
    UInt8.toNat_toUInt32, UInt8.toNat_ofNat', Nat.shiftLeft_eq, Nat.reduceMod, Nat.reducePow,
    Nat.reduceMul, Nat.reduceSub]
  omega

theorem k32_secondBlock (words : Internal) :
    k32 (secondBlock words) 12 0 = words.a ∧ k32 (secondBlock words) 12 1 = words.b ∧
      k32 (secondBlock words) 12 2 = words.c := by
  refine ⟨?_, ?_, ?_⟩
  · simpa [k32, k8, secondBlock] using word_of_bytes words.a
  · simpa [k32, k8, secondBlock] using word_of_bytes words.b
  · simpa [k32, k8, secondBlock] using word_of_bytes words.c

/-- From two blocks on, the second block alone can give the word reader's value any value. -/
theorem exists_secondBlock {length : ℕ} (long : 24 ≤ length) (initval value : UInt32) :
    ∃ words, hash32 (secondBlock words) 0 length initval = value := by
  rcases Nat.exists_eq_add_of_le' long with ⟨rest, rfl⟩
  -- the state behind the first block, which is zero
  have first (words : Internal) : block32 (secondBlock words) 0 (start (rest + 24) initval) =
      mix (start (rest + 24) initval) := by
    simp [block32, k32, k8, secondBlock]
  have unrolled (words : Internal) : hash32 (secondBlock words) 0 (rest + 24) initval =
      finish (secondBlock words) (rest + 23) 12 (rest + 12) (mix (start (rest + 24) initval)) := by
    rw [hash32_eq_finish, finish_of_lt _ (by omega), first]
    rfl
  generalize mix (start (rest + 24) initval) = s at unrolled
  have chosen (t : Internal) : ∃ words : Internal,
      (⟨s.a + words.a, s.b + words.b, s.c + words.c⟩ : Internal) = t := by
    refine ⟨⟨t.a - s.a, t.b - s.b, t.c - s.c⟩, ?_⟩
    simp only [UInt32.add_comm s.a, UInt32.add_comm s.b, UInt32.add_comm s.c,
      UInt32.sub_add_cancel]
  cases rest with
  | zero =>
      -- the second block is the last
      rcases exists_finalmix value with ⟨t, rfl⟩
      rcases chosen t with ⟨words, rfl⟩
      rcases k32_secondBlock words with ⟨a, b, c⟩
      refine ⟨words, (unrolled words).trans ?_⟩
      rw [finish_of_le _ _ _ (by decide), if_neg (by decide)]
      simp only [tail32, a, b, c]
  | succ rest =>
      have enough : rest + 1 ≤ rest + 23 := by omega
      rcases exists_finish (fun _ => 0) value enough 24 with ⟨t, returns⟩
      rcases exists_mix t with ⟨u, rfl⟩
      rcases chosen u with ⟨words, rfl⟩
      refine ⟨words, (unrolled words).trans ?_⟩
      rcases k32_secondBlock words with ⟨a, b, c⟩
      rw [finish_of_lt _ (by omega), block32, a, b, c, ← returns]
      apply finish_congr
      intro a above
      simp [secondBlock, show ¬a < 12 by omega, show ¬a < 16 by omega, show ¬a < 20 by omega,
        show ¬a < 24 by omega]

/-- The byte reader does not see the second block, the word reader does. -/
theorem not_agrees_of_ge {length : ℕ} (long : 24 ≤ length) : ¬Agrees length := by
  intro agrees
  have reads (value : UInt32) : ∃ words fuel reads,
      hash8 (fun a => secondBlock words (a - 1)) fuel 1 length 0 = some (value, reads) := by
    rcases exists_secondBlock long 0 value with ⟨words, rfl⟩
    rcases agrees (fun a => secondBlock words (a - 1)) (secondBlock words) 1 0 0 (by decide)
      (by decide) (fun i _ => by rw [Nat.add_sub_cancel_left, Nat.zero_add]) with
      ⟨fuel, value, reads, run, -, rfl⟩
    exact ⟨words, fuel, reads, run⟩
  rcases reads 0 with ⟨words, fuel, reads₀, run⟩
  rcases reads 1 with ⟨words', fuel', reads₁, run'⟩
  have same : hash8 (fun a => secondBlock words (a - 1)) (fuel + fuel') 1 length 0 =
      hash8 (fun a => secondBlock words' (a - 1)) (fuel + fuel') 1 length 0 := by
    apply hash8_congr (by omega)
    intro a _ outside
    rcases outside with before | behind
    · simp [secondBlock, show a - 1 < 12 by omega]
    · simp [secondBlock, show ¬a - 1 < 12 by omega, show ¬a - 1 < 16 by omega,
        show ¬a - 1 < 20 by omega, show ¬a - 1 < 24 by omega]
  rw [hash8_add run, Nat.add_comm, hash8_add run'] at same
  simp at same

/-- The two readers agree exactly on keys of at most one block. -/
theorem agrees_iff (length : ℕ) : Agrees length ↔ length ≤ 12 := by
  constructor
  · intro agrees
    by_contra long
    by_cases short : length < 24
    · exact not_agrees_of_lt (Nat.not_le.mp long) short agrees
    · exact not_agrees_of_ge (Nat.not_lt.mp short) agrees
  · exact agrees_of_le

/-- A key of 13 bytes: the reader goes on behind its end. -/
theorem not_agrees_thirteen : ¬Agrees 13 := not_agrees_of_lt (by decide) (by decide)

end ChaosCache.Hash.BigEndian
