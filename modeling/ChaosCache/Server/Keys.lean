import Mathlib.Data.List.TakeWhile
import ChaosCache.Server.Workers

/-!
# The key and the value of a request

A request carries the length of its key. The worker passes a pointer on to the cache, and what
counts there is the string up to the first zero byte. An item holds the length of its key as a
`uint16_t`, so that a value is stored behind no more than the bytes which that counts. The length
of a value is passed on as an `int32_t`.
-/

namespace ChaosCache

open Reqrep

/-- The key of the item that a store with this key obtains: as many bytes as its `nkey` counts. -/
def itemKey (key : List UInt8) : List UInt8 := key.take (key.length % 2 ^ 16)

/-- The key that a call acts on. A lookup takes as many bytes as `strlen` counts. -/
def Call.key : Call → List UInt8
  | get key => DataCache.cString key
  | store key _ _ => itemKey (DataCache.cString key)
  | delete key => DataCache.cString key

/-- The item that the first section of a call has obtained or found has the key of the call. A
lookup compares the hash and the bytes, in the memory before it. -/
def Call.Reaches (call : Call) (before after : Mem) (it : ℕ) : Prop :=
  match call with
  | get _ => before.Matches (Hash.hashKey call.key) call.key it
  | store _ _ _ => after.key it = call.key
  | delete _ => before.Matches (Hash.hashKey call.key) call.key it

namespace LruLists

variable {c c' : LruLists} {it id : ℕ} {key : List UInt8} {nbytes : ℤ} {sys : System}

theorem key_of_initItem (run : c.initItem it id key nbytes = .ok c') :
    c'.mem.key it = itemKey key := by
  rcases bind_eq_ok.mp run with ⟨-, -, run⟩
  rcases bind_eq_ok.mp run with ⟨head, -, run⟩
  rcases bind_eq_ok.mp run with ⟨-, -, run⟩
  split at run
  · cases run
  · cases run
    simp only [Mem.key, Function.update_self]
    exact readBytes_writeBytes_of_le (c.mem.bytes it) (Nat.mod_le key.length (2 ^ 16))

theorem key_of_itemAlloc (run : c.itemAlloc key nbytes sys = .ok (c', some it)) :
    c'.mem.key it = itemKey key := by
  simp only [itemAlloc, doItemAlloc] at run
  split at run
  · cases run
  · rcases bind_eq_ok.mp run with ⟨⟨c₁, obtained⟩, -, run⟩
    cases obtained with
    | none => cases run
    | some it =>
        rcases bind_eq_ok.mp run with ⟨c₂, filled, done⟩
        cases done
        exact key_of_initItem filled

theorem matches_of_findFrom {mem : Mem} {hash : UInt32} {fuel : ℕ} {start : Option ℕ}
    (run : AssociativeArray.findFrom mem hash key fuel start = .ok (some it)) :
    mem.Matches hash key it := by
  induction fuel generalizing start with
  | zero => cases run
  | succ fuel ih =>
      cases start with
      | none => cases run
      | some a =>
          simp only [AssociativeArray.findFrom] at run
          split at run
          case isTrue isMatch =>
            cases run
            exact isMatch
          case isFalse => exact ih run

theorem matches_of_itemGet (run : c.itemGet key sys = .ok (c', some it)) :
    c.mem.Matches (Hash.hashKey key) key it := by
  rcases bind_eq_ok.mp run with ⟨found, walked, rest⟩
  cases found with
  | none => cases rest
  | some a =>
      rcases bind_eq_ok.mp rest with ⟨c₁, -, done⟩
      cases done
      rcases bind_eq_ok.mp walked with ⟨start, -, walked⟩
      exact matches_of_findFrom walked

end LruLists

/-- The item that a thread uses behind the first section of its call has the key of the call. -/
theorem Call.reaches_of_start {call : Call} {c c' : LruLists} {sys : System} {phase : Phase}
    {it : ℕ} (run : call.start c sys = .ok (c', phase)) (isItem : phase.item = some it) :
    call.Reaches c.mem c'.mem it := by
  cases call with
  | get key =>
      rcases bind_eq_ok.mp run with ⟨⟨c₁, found⟩, got, done⟩
      cases done
      cases found with
      | none => cases isItem
      | some a =>
          cases isItem
          exact LruLists.matches_of_itemGet got
  | store key inbuffer bufflen =>
      rcases bind_eq_ok.mp run with ⟨⟨c₁, found⟩, got, done⟩
      cases done
      cases found with
      | none => cases isItem
      | some a =>
          cases isItem
          exact LruLists.key_of_itemAlloc got
  | delete key =>
      rcases bind_eq_ok.mp run with ⟨⟨c₁, found⟩, got, done⟩
      cases done
      cases found with
      | none => cases isItem
      | some a =>
          cases isItem
          exact LruLists.matches_of_itemGet got

/-- The value that a `storeItem` stores is this one. -/
def Call.CarriesValue (data : List UInt8) : Call → Prop
  | get _ => True
  | store _ inbuffer bufflen => bufflen = data.length ∧ readBytes inbuffer bufflen.toNat = data
  | delete _ => True

/-- The call is the one that the op code asks for, with this key and, for a `SET`, this value. -/
def Call.Carries (op : ℕ) (key data : List UInt8) (call : Call) : Prop :=
  op = call.op ∧ call.key = key ∧ call.CarriesValue data

/-- A request to the cache with a key, encoded by a client and received by a worker. -/
structure ReceivedRequest where
  memory : ℕ → UInt8
  padding : ℕ → UInt8
  dest : ℕ
  op : ℕ
  key : List UInt8
  data : List UInt8
  received : ℕ → UInt8
  serialized : ℕ
  isOp : op = codeOpSetKeyValue ∨ op = codeOpGetValueByKey ∨ op = codeOpDeleteByKey
  hasKey : key ≠ []
  mapped : 1 < serialized
  user : serialized + (sizeofReqHeader + key.length + 1 + data.length) ≤ userSpace
  delivered : Delivered (datarequestedInto memory padding dest key data op).1
    (datarequestedInto memory padding dest key data op).2 received serialized

namespace ReceivedRequest

variable (r r' : ReceivedRequest)

/-- The received message -/
def message : Message where
  bytes := r.received
  serialized := r.serialized
  totbytes := (datarequestedInto r.memory r.padding r.dest r.key r.data r.op).2.totbytes

/-- What the worker makes of the message. -/
def operation : Except ServerFault Case :=
  r.message.operation (datarequested r.message.bytes r.message.totbytes r.message.serialized).1

/-- The worker does what the request asks for, with the key and the value that it carries. -/
def ActsExactly : Prop := ∃ call, r.operation = .ok (.cache call) ∧ call.Carries r.op r.key r.data

/-- The worker acts on the entry of a key. -/
def Addresses (key : List UInt8) : Prop := ∃ call, r.operation = .ok (.cache call) ∧ call.key = key

/-- The key of the entry that a request is about. -/
def entryKey : List UInt8 :=
  if r.op = codeOpSetKeyValue then itemKey (DataCache.cString r.key) else DataCache.cString r.key

theorem held : Holds r.received r.serialized (Reqrep.message r.padding r.key r.data r.op) := by
  apply holds_datarequestedInto.delivered r.delivered
  simp

theorem header : readHeader r.received r.serialized =
    { op := r.op, nkey := r.key.length, nbytes := r.data.length } := by
  have parts := r.held
  have user := r.user
  simp only [Reqrep.message, List.append_assoc, holds_append] at parts
  simp only [userSpace] at user
  apply readHeader_of_holds parts.1
  · have isOp := r.isOp
    simp only [codeOpSetKeyValue, codeOpGetValueByKey, codeOpDeleteByKey] at isOp ⊢
    omega
  · simp only
    omega
  · simp only
    omega

/-- `key()` leads to the key, the terminator and the data. -/
theorem bytesFrom_key : r.message.bytesFrom (r.serialized + sizeofReqHeader) =
    r.key ++ [0] ++ r.data := by
  have parts := r.held
  simp only [Reqrep.message, List.append_assoc, holds_append, length_image] at parts
  have held : Holds r.received (r.serialized + sizeofReqHeader) (r.key ++ [0] ++ r.data) := by
    simpa only [List.append_assoc, holds_append] using parts.2
  have length : r.message.serialized + r.message.totbytes - (r.serialized + sizeofReqHeader) =
      (r.key ++ [0] ++ r.data).length := by
    simp only [message, totbytes_datarequestedInto, List.length_append, List.length_singleton]
    omega
  rw [Message.bytesFrom, length]
  exact held

theorem cString_append (key rest : List UInt8) :
    DataCache.cString (key ++ [0] ++ rest) = DataCache.cString key := by
  induction key with
  | nil => simp [DataCache.cString]
  | cons byte key ih =>
      by_cases isZero : byte = 0
      · simp [DataCache.cString, isZero]
      · simpa [DataCache.cString, isZero] using ih

theorem key_eq : (datarequested r.message.bytes r.message.totbytes r.message.serialized).1.key =
    r.serialized + sizeofReqHeader := by
  have header : readHeader r.message.bytes r.message.serialized = _ := r.header
  have present := List.length_pos_iff.mpr r.hasKey
  have user := r.user
  simp only [datarequested, header, present, if_true]
  exact key_address user (by omega)

theorem cString_key : r.message.cString (r.serialized + sizeofReqHeader) =
    .ok (DataCache.cString r.key) := by
  have terminated : (0 : UInt8) ∈ r.key ++ [0] ++ r.data := by simp
  simp only [Message.cString, r.bytesFrom_key, terminated, if_true, cString_append]
  rw [if_neg]
  simp [sizeofReqHeader]

/-- The string of a key is the key exactly when there is no zero byte in it. -/
theorem cString_eq_self {key : List UInt8} : DataCache.cString key = key ↔ 0 ∉ key := by
  rw [DataCache.cString, List.takeWhile_eq_self_iff]
  constructor
  · intro nonZero isIn
    simpa using nonZero 0 isIn
  · intro notIn byte isIn
    simpa using ne_of_mem_of_not_mem isIn notIn

/-- An item takes a key as it is exactly when its `nkey` can count the bytes. -/
theorem itemKey_eq_self {key : List UInt8} : itemKey key = key ↔ key.length < 2 ^ 16 := by
  rw [itemKey, List.take_eq_self_iff]
  constructor
  · intro kept
    exact Nat.lt_of_le_of_lt kept (Nat.mod_lt _ (by decide))
  · intro short
    rw [Nat.mod_eq_of_lt short]

theorem itemKey_cString_eq_self {key : List UInt8} :
    itemKey (DataCache.cString key) = key ↔ 0 ∉ key ∧ key.length < 2 ^ 16 := by
  constructor
  · intro same
    have string : DataCache.cString key = key := by
      have first : (itemKey (DataCache.cString key)).length ≤ (DataCache.cString key).length :=
        List.length_take_le' _ _
      rw [same] at first
      exact (List.takeWhile_prefix _).eq_of_length_le first
    rw [string] at same
    exact ⟨cString_eq_self.mp string, itemKey_eq_self.mp same⟩
  · rintro ⟨nulFree, short⟩
    rw [cString_eq_self.mpr nulFree, itemKey_eq_self.mpr short]

theorem cString_idem (key : List UInt8) :
    DataCache.cString (DataCache.cString key) = DataCache.cString key :=
  List.takeWhile_idem

/-- The memory from `data()` on -/
def inbuffer (i : ℕ) : UInt8 :=
  r.message.bytes
    ((datarequested r.message.bytes r.message.totbytes r.message.serialized).1.data + i)

theorem readBytes_inbuffer : readBytes r.inbuffer r.data.length = r.data := by
  have header : readHeader r.message.bytes r.message.serialized = _ := r.header
  have user := r.user
  have exposed := exposes_data user r.held
  have present := List.length_pos_iff.mpr r.hasKey
  have inUser : (r.message.serialized + sizeofReqHeader) % addressSpace =
      r.serialized + sizeofReqHeader := key_address user (by omega)
  unfold inbuffer
  simp only [datarequested, header, present, if_true, inUser]
  by_cases noData : r.data = []
  · simp [noData, readBytes]
  · have held := (exposed.2 noData).2
    rw [List.append_nil] at held
    exact held

/-- The call that the worker makes. A value gets the length that is left of its own in an
`int32_t`. -/
theorem operation_eq : ∃ call, r.operation = .ok (.cache call) ∧ r.op = call.op ∧
    call.key = r.entryKey ∧
      ∀ key inbuffer bufflen, call = .store key inbuffer bufflen →
        bufflen = DataCache.toInt32 (r.data.length % 2 ^ 32) ∧
          readBytes inbuffer r.data.length = r.data := by
  have header : (datarequested r.message.bytes r.message.totbytes r.message.serialized).1.header =
    { op := r.op, nkey := r.key.length, nbytes := r.data.length } := r.header
  rcases r.isOp with isSet | isGet | isDelete
  · refine ⟨.store (DataCache.cString r.key) r.inbuffer
      (DataCache.toInt32 (r.data.length % 2 ^ 32)), ?_, isSet, ?_, ?_⟩
    · simp only [operation, Message.operation, header, isSet, r.key_eq, r.cString_key, Except.map,
        Datarequested.datasize]
      rfl
    · rw [Call.key, cString_idem, entryKey, if_pos isSet]
    · rintro key inbuffer bufflen ⟨⟩
      exact ⟨rfl, r.readBytes_inbuffer⟩
  · have notSet : r.op ≠ codeOpSetKeyValue := by rw [isGet]; decide
    refine ⟨.get (DataCache.cString r.key), ?_, isGet, ?_, by simp⟩
    · simp only [operation, Message.operation, header, isGet, r.key_eq, r.cString_key, Except.map,
        if_true]
    · rw [Call.key, cString_idem, entryKey, if_neg notSet]
  · have notSet : r.op ≠ codeOpSetKeyValue := by rw [isDelete]; decide
    refine ⟨.delete (DataCache.cString r.key), ?_, isDelete, ?_, by simp⟩
    · simp only [operation, Message.operation, header, isDelete, r.key_eq, r.cString_key,
        Except.map]
      rfl
    · rw [Call.key, cString_idem, entryKey, if_neg notSet]

theorem toInt32_eq_iff {n : ℕ} : DataCache.toInt32 (n % 2 ^ 32) = n ↔ n < 2 ^ 31 := by
  simp only [DataCache.toInt32]
  split <;> omega

/-- The call is the one that the request asks for exactly when the key is a string, which an item
can take if it is to be stored, and the length of a value fits into an `int32_t`. -/
theorem actsExactly_iff_fits : r.ActsExactly ↔
    0 ∉ r.key ∧
      (r.op = codeOpSetKeyValue → r.key.length < 2 ^ 16 ∧ r.data.length < 2 ^ 31) := by
  rcases r.operation_eq with ⟨call, isCall, isOp, isKey, isValue⟩
  have only : r.ActsExactly ↔ call.Carries r.op r.key r.data := by
    constructor
    · rintro ⟨call', isCall', carries⟩
      rw [isCall] at isCall'
      cases isCall'
      exact carries
    · exact fun carries => ⟨call, isCall, carries⟩
  rw [only, Call.Carries, isKey, entryKey]
  cases call with
  | get key =>
      have notSet : r.op ≠ codeOpSetKeyValue := by rw [isOp]; exact Nat.succ_ne_self 1
      simp [Call.CarriesValue, isOp, isOp ▸ notSet, cString_eq_self]
  | store key inbuffer bufflen =>
      rcases isValue key inbuffer bufflen rfl with ⟨rfl, value⟩
      have isSet : r.op = codeOpSetKeyValue := isOp
      simp only [Call.CarriesValue, Call.op, isSet, if_true, true_and, true_implies, toInt32_eq_iff,
        itemKey_cString_eq_self, and_assoc, and_congr_right_iff, and_iff_left_iff_imp]
      intro _ _ fits
      rw [toInt32_eq_iff.mpr fits]
      exact value
  | delete key =>
      have notSet : r.op ≠ codeOpSetKeyValue := by rw [isOp]; exact Nat.succ_succ_ne_one 1
      simp [Call.CarriesValue, isOp, isOp ▸ notSet, cString_eq_self]

/-- The entry that a request is about is the one of its key when the worker acts exactly. -/
theorem entryKey_of_actsExactly (exact : r.ActsExactly) : r.entryKey = r.key := by
  rcases exact with ⟨call, isCall, -, isKey, -⟩
  rcases r.operation_eq with ⟨call', isCall', -, isEntry, -⟩
  rw [isCall] at isCall'
  cases isCall'
  rw [← isEntry, isKey]

/-- Two requests act on the same entry exactly when they are about one. -/
theorem addresses_iff : (∃ key, r.Addresses key ∧ r'.Addresses key) ↔
    r.entryKey = r'.entryKey := by
  rcases r.operation_eq with ⟨call, isCall, -, isKey, -⟩
  rcases r'.operation_eq with ⟨call', isCall', -, isKey', -⟩
  rw [← isKey, ← isKey']
  constructor
  · rintro ⟨key, ⟨call₁, isCall₁, rfl⟩, call₂, isCall₂, same⟩
    rw [isCall] at isCall₁
    rw [isCall'] at isCall₂
    cases isCall₁
    cases isCall₂
    exact same.symm
  · exact fun same => ⟨_, ⟨call, isCall, rfl⟩, call', isCall', same.symm⟩

/-- The worker does what the request asks for exactly when the key has no zero byte, a key to be
stored has fewer than 2^16 bytes, and the length of a value fits into an `int32_t`. Two requests
act on one entry exactly when the bytes of their keys that count are the same, which is when the
keys are, if the worker acts exactly for both. The item that the worker's call obtains or finds is
one of that entry. -/
theorem actsExactly_iff : (r.ActsExactly ↔
      0 ∉ r.key ∧
        (r.op = codeOpSetKeyValue → r.key.length < 2 ^ 16 ∧ r.data.length < 2 ^ 31)) ∧
    ((∃ key, r.Addresses key ∧ r'.Addresses key) ↔ r.entryKey = r'.entryKey) ∧
    (r.ActsExactly → r'.ActsExactly →
      ((∃ key, r.Addresses key ∧ r'.Addresses key) ↔ r.key = r'.key)) ∧
    ∀ call, r.operation = .ok (.cache call) → call.key = r.entryKey ∧
      ∀ (c c' : LruLists) (sys : System) (phase : Phase) (it : ℕ),
        call.start c sys = .ok (c', phase) → phase.item = some it →
          call.Reaches c.mem c'.mem it := by
  refine ⟨r.actsExactly_iff_fits, r.addresses_iff r', ?_, ?_⟩
  · intro exact exact'
    rw [r.addresses_iff r', r.entryKey_of_actsExactly exact, r'.entryKey_of_actsExactly exact']
  · intro call isCall
    rcases r.operation_eq with ⟨call', isCall', -, isKey, -⟩
    rw [isCall] at isCall'
    cases isCall'
    exact ⟨isKey, fun _ _ _ _ _ run isItem => Call.reaches_of_start run isItem⟩

/-- A `GET` of the key `a\0b`. -/
def zeroByte : ReceivedRequest where
  memory _ := 0
  padding _ := 0
  dest := 4096
  op := codeOpGetValueByKey
  key := [97, 0, 98]
  data := []
  received := (datarequestedInto (fun _ => 0) (fun _ => 0) 4096 [97, 0, 98] []
    codeOpGetValueByKey).1
  serialized := 4096
  isOp := Or.inr (Or.inl rfl)
  hasKey := by decide
  mapped := by decide
  user := by decide
  delivered _ _ := rfl

theorem not_actsExactly_of_zeroByte : ¬∀ r : ReceivedRequest, r.ActsExactly := by
  intro always
  have nulFree := (actsExactly_iff_fits zeroByte).mp (always zeroByte)
  exact nulFree.1 (by decide)

end ReceivedRequest

end ChaosCache
