import ChaosCache.Reqrep

/-!
# Encoding requests

The constructor of `datarequested` that lays a request out in a buffer, and what the
constructor for received messages makes of the result.

The writer moves an offset over the header, the key, the terminator and the data. The
reader chains its pointers from the key. Both agree where there is a key, or no data.
-/

namespace ChaosCache.Reqrep

/-! ## Bytes in memory -/

/-- The bytes stand in memory from an address on. -/
def Holds (memory : ℕ → UInt8) (start : ℕ) (content : List UInt8) : Prop :=
  readBytes (fun i => memory (start + i)) content.length = content

instance (memory : ℕ → UInt8) (start : ℕ) (content : List UInt8) :
    Decidable (Holds memory start content) :=
  inferInstanceAs (Decidable (_ = _))

section Memory

variable {memory received : ℕ → UInt8} {start dest serialized total : ℕ}
  {content before behind : List UInt8}

theorem holds_iff :
    Holds memory start content ↔
      ∀ i, i < content.length → memory (start + i) = content.getD i 0 :=
  readBytes_eq_iff

@[simp]
theorem holds_nil : Holds memory start [] := rfl

theorem holds_cons {byte : UInt8} :
    Holds memory start (byte :: content) ↔
      memory start = byte ∧ Holds memory (start + 1) content := by
  simp only [holds_iff, List.length_cons]
  constructor
  · intro all
    refine ⟨by simpa using all 0 (Nat.succ_pos _), ?_⟩
    intro i inRange
    simpa [Nat.add_assoc, Nat.add_comm 1] using all (i + 1) (Nat.succ_lt_succ inRange)
  · rintro ⟨first, rest⟩ i inRange
    cases i with
    | zero => simpa using first
    | succ i =>
        simpa [Nat.add_assoc, Nat.add_comm 1] using rest i (Nat.lt_of_succ_lt_succ inRange)

theorem holds_append :
    Holds memory start (before ++ behind) ↔
      Holds memory start before ∧ Holds memory (start + before.length) behind := by
  induction before generalizing start with
  | nil => simp
  | cons byte before ih =>
      simp [holds_cons, ih, and_assoc, Nat.add_comm 1, Nat.add_assoc]

theorem holds_writeBytes : Holds (writeBytes memory start content) start content := by
  apply holds_iff.mpr
  intro i inRange
  exact writeBytes_add memory start inRange

theorem writeBytes_nil : writeBytes memory start [] = memory := by
  funext i
  simp only [writeBytes, List.length_nil, Nat.add_zero, List.getD_nil, ite_eq_right_iff]
  omega

theorem Holds.writeBytes (holds : Holds memory start before) {offset : ℕ}
    (apart : start + before.length ≤ offset) :
    Holds (writeBytes memory offset content) start before := by
  apply holds_iff.mpr
  intro i inRange
  rw [writeBytes_of_lt (by omega)]
  exact holds_iff.mp holds i inRange

theorem Holds.delivered (holds : Holds memory dest content)
    (delivered : ∀ i, i < total → received (serialized + i) = memory (dest + i))
    (inside : content.length ≤ total) : Holds received serialized content := by
  apply holds_iff.mpr
  intro i inRange
  rw [delivered i (by omega)]
  exact holds_iff.mp holds i inRange

end Memory

/-- An unsigned integer of `width` bytes, lowest byte first -/
def leBytes : ℕ → ℕ → List UInt8
  | 0, _ => []
  | width + 1, value => UInt8.ofNat (value % 256) :: leBytes width (value / 256)

@[simp]
theorem length_leBytes (width value : ℕ) : (leBytes width value).length = width := by
  induction width generalizing value with
  | zero => rfl
  | succ width ih => simp [leBytes, ih]

theorem leNat_of_holds {memory : ℕ → UInt8} {start width value : ℕ}
    (holds : Holds memory start (leBytes width value)) (fits : value < 256 ^ width) :
    leNat memory start width = value := by
  induction width generalizing start value with
  | zero =>
      simp only [pow_zero, Nat.lt_one_iff] at fits
      simp [leNat, fits]
  | succ width ih =>
      rw [leBytes, holds_cons] at holds
      rcases holds with ⟨lowest, rest⟩
      have restFits : value / 256 < 256 ^ width := by
        apply Nat.div_lt_of_lt_mul
        rwa [Nat.pow_succ, Nat.mul_comm] at fits
      rw [leNat, lowest, ih rest restFits]
      simp
      omega

/-! ## The encoding constructor -/

/-- A header as it lies in memory. What the four bytes behind the op code hold is up to
the compiler. -/
def ReqHeader.image (padding : ℕ → UInt8) (header : ReqHeader) : List UInt8 :=
  leBytes 4 header.op ++ readBytes padding 4 ++ leBytes 8 header.nkey ++ leBytes 8 header.nbytes

/-- `datarequested(dest, key, nkey, data, nbytes, op)`: the memory after it, and the
object. The buffer lies in user memory, so that its addresses do not wrap around. -/
def datarequestedInto (memory padding : ℕ → UInt8) (dest : ℕ) (key data : List UInt8) (op : ℕ) :
    (ℕ → UInt8) × Datarequested :=
  let header : ReqHeader := { op, nkey := key.length, nbytes := data.length }
  let memory := writeBytes memory dest (header.image padding)
  let offset := sizeofReqHeader
  -- the key, if it is present
  let (memory, keyPtr, offset) :=
    if 0 < header.nkey then
      (writeBytes memory (dest + offset) key, dest + offset, offset + header.nkey)
    else (memory, 0, offset)
  -- the terminator is written in either case
  let memory := writeBytes memory (dest + offset) [0]
  let offset := offset + 1
  -- the data, if it is present
  let (memory, dataPtr) :=
    if 0 < header.nbytes then (writeBytes memory (dest + offset) data, dest + offset)
    else (memory, 0)
  (memory,
    { header
      totbytes := offset + header.nbytes
      serialized := dest
      key := keyPtr
      data := dataPtr })

/-- The message that a request is laid out as. -/
def message (padding : ℕ → UInt8) (key data : List UInt8) (op : ℕ) : List UInt8 :=
  ReqHeader.image padding { op, nkey := key.length, nbytes := data.length } ++ key ++ [0] ++ data

section Encoding

variable {memory padding received : ℕ → UInt8} {dest serialized op : ℕ} {key data : List UInt8}

@[simp]
theorem length_image (header : ReqHeader) :
    (header.image padding).length = sizeofReqHeader := by
  simp [ReqHeader.image, sizeofReqHeader]

@[simp]
theorem length_message :
    (message padding key data op).length = sizeofReqHeader + key.length + 1 + data.length := by
  simp only [message, List.length_append, length_image, List.length_singleton]

@[simp]
theorem header_datarequestedInto :
    (datarequestedInto memory padding dest key data op).2.header =
      { op, nkey := key.length, nbytes := data.length } := by
  simp only [datarequestedInto]

@[simp]
theorem totbytes_datarequestedInto :
    (datarequestedInto memory padding dest key data op).2.totbytes =
      sizeofReqHeader + key.length + 1 + data.length := by
  cases key with
  | nil => rfl
  | cons byte key => rfl

/-- An absent key and absent data are written as empty ones. -/
theorem memory_datarequestedInto :
    (datarequestedInto memory padding dest key data op).1 =
      writeBytes (writeBytes (writeBytes (writeBytes memory dest
        (ReqHeader.image padding { op, nkey := key.length, nbytes := data.length }))
          (dest + sizeofReqHeader) key)
            (dest + (sizeofReqHeader + key.length)) [0])
              (dest + (sizeofReqHeader + key.length + 1)) data := by
  cases key with
  | nil =>
      cases data with
      | nil => simp [datarequestedInto, writeBytes_nil]
      | cons byte data => simp [datarequestedInto, writeBytes_nil]
  | cons byte key =>
      cases data with
      | nil => simp [datarequestedInto, writeBytes_nil]
      | cons first data => simp [datarequestedInto]

theorem holds_datarequestedInto :
    Holds (datarequestedInto memory padding dest key data op).1 dest
      (message padding key data op) := by
  simp only [memory_datarequestedInto, message, holds_append, List.length_append, length_image,
    List.length_singleton, Nat.add_assoc]
  refine ⟨⟨⟨?_, ?_⟩, ?_⟩, holds_writeBytes⟩
  · apply Holds.writeBytes _ (by simp)
    apply Holds.writeBytes _ (by simp)
    apply Holds.writeBytes _ (by simp)
    exact holds_writeBytes
  · apply Holds.writeBytes _ (by omega)
    apply Holds.writeBytes _ (by omega)
    exact holds_writeBytes
  · apply Holds.writeBytes _ (by simp only [List.length_singleton]; omega)
    exact holds_writeBytes

theorem readHeader_of_holds {header : ReqHeader}
    (holds : Holds received serialized (header.image padding)) (opFits : header.op < 2 ^ 32)
    (nkeyFits : header.nkey < 2 ^ 64) (nbytesFits : header.nbytes < 2 ^ 64) :
    readHeader received serialized = header := by
  simp only [ReqHeader.image, holds_append, List.length_append, length_leBytes,
    length_readBytes] at holds
  rcases holds with ⟨⟨⟨opHeld, -⟩, nkeyHeld⟩, nbytesHeld⟩
  simp [readHeader, leNat_of_holds opHeld opFits, leNat_of_holds nkeyHeld nkeyFits,
    leNat_of_holds nbytesHeld nbytesFits]

end Encoding

/-! ## Reading a request back -/

/-- A pointer of the decoded request is `NULL` exactly when there is no content. Otherwise
it points to a run of the message that holds the content and what comes behind it. -/
def Exposes (received : ℕ → UInt8) (serialized totbytes pointer : ℕ)
    (content behind : List UInt8) : Prop :=
  (pointer = 0 ↔ content = []) ∧
    (content ≠ [] →
      (⟨pointer, (content ++ behind).length⟩ : Span).Inside serialized totbytes ∧
        Holds received pointer (content ++ behind))

instance (received : ℕ → UInt8) (serialized totbytes pointer : ℕ)
    (content behind : List UInt8) :
    Decidable (Exposes received serialized totbytes pointer content behind) :=
  inferInstanceAs (Decidable (_ ∧ _))

/-- What decoding yields is what was written: the same op code, sizes and bytes. -/
def RoundTrips (sent : Datarequested) (received : ℕ → UInt8) (serialized : ℕ)
    (key data : List UInt8) : Prop :=
  let (back, _) := datarequested received sent.totbytes serialized
  back.header = sent.header ∧ back.totbytes = sent.totbytes ∧
    Exposes received serialized back.totbytes back.key key [0] ∧
      Exposes received serialized back.totbytes back.data data []

instance (sent : Datarequested) (received : ℕ → UInt8) (serialized : ℕ)
    (key data : List UInt8) : Decidable (RoundTrips sent received serialized key data) :=
  inferInstanceAs (Decidable (_ ∧ _))

section RoundTrip

variable {memory padding received : ℕ → UInt8} {dest serialized op : ℕ} {key data : List UInt8}

/-- The receiver's memory holds the `size()` bytes of `binary()`. -/
def Delivered (written : ℕ → UInt8) (sent : Datarequested) (received : ℕ → UInt8)
    (serialized : ℕ) : Prop :=
  ∀ i, i < sent.totbytes → received (serialized + i) = written (sent.serialized + i)

/-- The pointer to the key is right for every request. -/
theorem exposes_key
    (user : serialized + (sizeofReqHeader + key.length + 1 + data.length) ≤ userSpace)
    (held : Holds received serialized (message padding key data op)) :
    Exposes received serialized (sizeofReqHeader + key.length + 1 + data.length)
      (if 0 < key.length then (serialized + sizeofReqHeader) % addressSpace else 0) key [0] := by
  rw [key_address user (by omega)]
  simp only [message, holds_append, length_image, List.append_assoc] at held
  rcases held with ⟨-, keyHeld, terminator, -⟩
  constructor
  · cases key with
    | nil => simp
    | cons byte key => simp [sizeofReqHeader]
  · intro present
    have positive := List.length_pos_iff.mpr present
    simp only [positive, if_true, Span.Inside, List.length_append, List.length_singleton]
    refine ⟨⟨by omega, by omega⟩, holds_append.mpr ⟨keyHeld, ?_⟩⟩
    exact terminator

/-- Chained from the header the pointer to the data is right as well. -/
theorem exposes_data
    (user : serialized + (sizeofReqHeader + key.length + 1 + data.length) ≤ userSpace)
    (held : Holds received serialized (message padding key data op)) :
    Exposes received serialized (sizeofReqHeader + key.length + 1 + data.length)
      (if 0 < data.length then
        (serialized + sizeofReqHeader + key.length + 1) % addressSpace else 0) data [] := by
  have inUser : (serialized + sizeofReqHeader + key.length + 1) % addressSpace =
      serialized + sizeofReqHeader + key.length + 1 := by
    apply Nat.mod_eq_of_lt
    simp only [userSpace, addressSpace] at *
    omega
  rw [inUser]
  simp only [message, holds_append, length_image, List.length_append, List.length_singleton]
    at held
  rcases held with ⟨-, dataHeld⟩
  constructor
  · cases data with
    | nil => simp
    | cons byte data => simp
  · intro present
    have positive := List.length_pos_iff.mpr present
    simp only [positive, if_true, Span.Inside, List.append_nil]
    refine ⟨⟨by omega, by omega⟩, ?_⟩
    simpa only [Nat.add_assoc] using dataHeld

/-- Decoding undoes encoding exactly for requests that have a key or no data. -/
theorem roundTrips_iff (opFits : op < 2 ^ 32) (mapped : 1 < serialized)
    (user : serialized + (sizeofReqHeader + key.length + 1 + data.length) ≤ userSpace)
    (delivered : Delivered (datarequestedInto memory padding dest key data op).1
      (datarequestedInto memory padding dest key data op).2 received serialized) :
    RoundTrips (datarequestedInto memory padding dest key data op).2 received serialized
      key data ↔ (key ≠ [] ∨ data = []) := by
  have held : Holds received serialized (message padding key data op) := by
    apply holds_datarequestedInto.delivered delivered
    simp
  have header : readHeader received serialized =
      { op, nkey := key.length, nbytes := data.length } := by
    have parts := held
    simp only [message, List.append_assoc, holds_append] at parts
    simp only [userSpace] at user
    apply readHeader_of_holds parts.1 opFits
    · simp only
      omega
    · simp only
      omega
  simp only [RoundTrips, datarequested, header, header_datarequestedInto,
    totbytes_datarequestedInto, true_and, exposes_key user held]
  constructor
  · rintro ⟨isNull, present⟩
    by_contra neither
    rcases not_or.mp neither with ⟨hasKey, someData⟩
    have noKey := not_not.mp hasKey
    -- without a key the data pointer is `NULL + 1`, in front of every message
    have wild := (present someData).1.1
    subst noKey
    simp [List.length_pos_iff.mpr someData, addressSpace] at wild
    omega
  · rintro (hasKey | noData)
    · have positive := List.length_pos_iff.mpr hasKey
      simp only [positive, if_true, key_address user (by omega)]
      exact exposes_data user held
    · subst noData
      simp [Exposes]

/-- A `SET` of the key `k` to one byte, read back where it was written -/
theorem roundTrips_set_k :
    RoundTrips (datarequestedInto (fun _ => 0) (fun _ => 0) 4096 [107] [42] 1).2
        (datarequestedInto (fun _ => 0) (fun _ => 0) 4096 [107] [42] 1).1 4096 [107] [42] ↔
      ([107] ≠ ([] : List UInt8) ∨ [42] = ([] : List UInt8)) :=
  roundTrips_iff (by decide) (by decide) (by decide) (fun _ _ => rfl)

end RoundTrip

/-- One byte of data under an empty key is written, but read back through the pointer 1. -/
theorem not_roundTrips_of_emptyKey :
    ¬∀ (memory padding received : ℕ → UInt8) (dest serialized op : ℕ) (key data : List UInt8),
      op < 2 ^ 32 → 1 < serialized →
        serialized + (sizeofReqHeader + key.length + 1 + data.length) ≤ userSpace →
          Delivered (datarequestedInto memory padding dest key data op).1
            (datarequestedInto memory padding dest key data op).2 received serialized →
            RoundTrips (datarequestedInto memory padding dest key data op).2 received serialized
              key data := by
  intro roundTrips
  have back := roundTrips (fun _ => 0) (fun _ => 0)
    (datarequestedInto (fun _ => 0) (fun _ => 0) 4096 [] [42] 1).1 4096 4096 1 [] [42]
    (by decide) (by decide) (by decide) (fun _ _ => rfl)
  revert back
  decide

end ChaosCache.Reqrep
