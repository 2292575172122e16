import ChaosCache.ConstTypes

/-!
# Decoding requests

The constructor of `datarequested` in `reqrep.hpp` that gives access to the fields
of a received message. It copies the header out of the message and derives two
pointers from the lengths it finds there. The message is memory, read through
`bytes`; what lies behind it is memory as well, and nothing here says what it holds.

Pointers are plain addresses in this file, with `NULL` the address zero, because the
constructor does arithmetic on them: `_data` is computed from `_key` even where
`_key` is `NULL`. What the constructor reads is reported next to its result.
-/

namespace ChaosCache.Reqrep

/-- `struct req_header`: an `opt_t`, four bytes of padding, and two `size_t`. -/
structure ReqHeader where
  op : ℕ
  nkey : ℕ
  nbytes : ℕ
  deriving DecidableEq

def sizeofReqHeader : ℕ := 24

/-- A run of bytes in memory. -/
structure Span where
  start : ℕ
  length : ℕ
  deriving DecidableEq

/-- The run lies inside `totbytes` bytes at `serialized`. -/
def Span.Inside (span : Span) (serialized : ℕ) (totbytes : ℕ) : Prop :=
  serialized ≤ span.start ∧ span.start + span.length ≤ serialized + totbytes

instance (span : Span) (serialized : ℕ) (totbytes : ℕ) :
    Decidable (span.Inside serialized totbytes) :=
  inferInstanceAs (Decidable (_ ∧ _))

/-- The unsigned integer of `width` bytes at `start`, lowest byte first. -/
def leNat (bytes : ℕ → UInt8) (start : ℕ) : ℕ → ℕ
  | 0 => 0
  | width + 1 => (bytes start).toNat + 256 * leNat bytes (start + 1) width

/-- `memcpy` of a header out of memory. -/
def readHeader (bytes : ℕ → UInt8) (serialized : ℕ) : ReqHeader where
  op := leNat bytes serialized 4
  nkey := leNat bytes (serialized + 8) 8
  nbytes := leNat bytes (serialized + 16) 8

/-- The fields of a `datarequested`. -/
structure Datarequested where
  header : ReqHeader
  totbytes : ℕ
  serialized : ℕ
  key : ℕ
  data : ℕ
  deriving DecidableEq

/-- `datarequested(totbytes, serialized)`, with the bytes it reads. -/
def datarequested (bytes : ℕ → UInt8) (totbytes : ℕ) (serialized : ℕ) :
    Datarequested × List Span :=
  let header := readHeader bytes serialized
  let key := if 0 < header.nkey then (serialized + sizeofReqHeader) % addressSpace else 0
  let data := if 0 < header.nbytes then (key + header.nkey + 1) % addressSpace else 0
  ({ header, totbytes, serialized, key, data }, [⟨serialized, sizeofReqHeader⟩])

namespace Datarequested

variable (req : Datarequested)

def keysize : ℕ := req.header.nkey
def datasize : ℕ := req.header.nbytes

/-- `key()` is `NULL`, or the key and its terminator lie inside the message. -/
def KeyInside : Prop :=
  req.key = 0 ∨ (⟨req.key, req.keysize + 1⟩ : Span).Inside req.serialized req.totbytes

/-- `data()` is `NULL` and empty, or the data lies inside the message. -/
def DataInside : Prop :=
  req.data = 0 ∧ req.datasize = 0 ∨
    (⟨req.data, req.datasize⟩ : Span).Inside req.serialized req.totbytes

instance : Decidable req.KeyInside := inferInstanceAs (Decidable (_ ∨ _))

instance : Decidable req.DataInside := inferInstanceAs (Decidable (_ ∨ _))

end Datarequested

/-- Decoding touches and exposes nothing outside the received message. -/
def Confined (bytes : ℕ → UInt8) (totbytes : ℕ) (serialized : ℕ) : Prop :=
  let (req, reads) := datarequested bytes totbytes serialized
  (∀ span ∈ reads, span.Inside serialized totbytes) ∧ req.KeyInside ∧ req.DataInside

instance (bytes : ℕ → UInt8) (totbytes : ℕ) (serialized : ℕ) :
    Decidable (Confined bytes totbytes serialized) :=
  inferInstanceAs (Decidable (_ ∧ _))

/-- The message holds the header and everything the header announces, and does not
announce data without a key. -/
def Complete (header : ReqHeader) (totbytes : ℕ) : Prop :=
  sizeofReqHeader ≤ totbytes ∧
    (0 < header.nkey → sizeofReqHeader + header.nkey + 1 ≤ totbytes) ∧
    (0 < header.nbytes →
      0 < header.nkey ∧ sizeofReqHeader + header.nkey + 1 + header.nbytes ≤ totbytes)

instance (header : ReqHeader) (totbytes : ℕ) : Decidable (Complete header totbytes) :=
  inferInstanceAs (Decidable (_ ∧ _))

section Exact

variable {header : ReqHeader} {totbytes : ℕ} {serialized : ℕ}

/-- In user memory the key pointer of a message with a key does not wrap around. -/
theorem key_address (user : serialized + totbytes ≤ userSpace)
    (headerFits : sizeofReqHeader ≤ totbytes) :
    (serialized + sizeofReqHeader) % addressSpace = serialized + sizeofReqHeader := by
  simp only [userSpace, sizeofReqHeader, addressSpace] at *
  omega

/-- Neither does the data pointer, once the key lies inside the message. -/
theorem data_address (user : serialized + totbytes ≤ userSpace)
    (keyFits : sizeofReqHeader + header.nkey + 1 ≤ totbytes) :
    (serialized + sizeofReqHeader + header.nkey + 1) % addressSpace =
      serialized + sizeofReqHeader + header.nkey + 1 := by
  simp only [userSpace, sizeofReqHeader, addressSpace] at *
  omega

/-- A message in user memory is decoded within its bounds exactly when it is complete. -/
theorem confined_iff_complete (bytes : ℕ → UInt8) (mapped : 1 < serialized)
    (user : serialized + totbytes ≤ userSpace) :
    Confined bytes totbytes serialized ↔
      Complete (readHeader bytes serialized) totbytes := by
  generalize header_eq : readHeader bytes serialized = header
  simp only [Confined, datarequested, header_eq, List.mem_singleton, forall_eq,
    Datarequested.KeyInside, Datarequested.DataInside, Datarequested.keysize,
    Datarequested.datasize, Span.Inside, Complete]
  by_cases headerFits : sizeofReqHeader ≤ totbytes
  swap
  · constructor <;> intro inside <;> omega
  by_cases noKey : header.nkey = 0
  · -- without a key the data pointer is `NULL + 1`, which lies in no message
    have wild : (0 + 0 + 1) % addressSpace = 1 := rfl
    by_cases noData : header.nbytes = 0
    · simp [noKey, noData, headerFits]
    · simp only [noKey, Nat.pos_of_ne_zero noData, lt_irrefl, if_false, if_true, wild]
      apply iff_of_false
      · rintro ⟨-, -, dataInside⟩
        omega
      · rintro ⟨-, -, needsKey⟩
        exact (needsKey trivial).1
  · have hasKey := Nat.pos_of_ne_zero noKey
    simp only [hasKey, if_true, key_address user headerFits]
    by_cases keyFits : sizeofReqHeader + header.nkey + 1 ≤ totbytes
    · simp only [data_address user keyFits]
      by_cases noData : header.nbytes = 0
      · simp [noData, headerFits, keyFits]
        omega
      · simp only [Nat.pos_of_ne_zero noData, if_true]
        constructor
        · rintro ⟨-, -, dataInside⟩
          exact ⟨headerFits, fun _ => keyFits, fun _ => ⟨trivial, by omega⟩⟩
        · rintro ⟨-, -, needsData⟩
          have dataFits := (needsData trivial).2
          exact ⟨by omega, by omega, by omega⟩
    · constructor
      · rintro ⟨-, keyInside, -⟩
        omega
      · rintro ⟨-, keyInside, -⟩
        exact absurd (keyInside trivial) keyFits

/-- A `SET` of the key `k` to one byte is complete. -/
theorem confined_set_k :
    let request : List UInt8 := [1, 0, 0, 0, 0, 0, 0, 0] ++ [1, 0, 0, 0, 0, 0, 0, 0] ++
      [1, 0, 0, 0, 0, 0, 0, 0] ++ [107, 0, 42]
    Confined (fun a => request.getD (a - 4096) 0) 27 4096 :=
  (confined_iff_complete _ (by decide) (by decide)).mpr (by decide)

end Exact

/-- The request the encoder writes for one byte of data under an empty key: the
header, the terminator and the data byte. Its decoding yields the data pointer 1. -/
def emptyKeyRequest : List UInt8 :=
  [1, 0, 0, 0, 0, 0, 0, 0] ++ [0, 0, 0, 0, 0, 0, 0, 0] ++ [1, 0, 0, 0, 0, 0, 0, 0] ++ [0, 42]

theorem not_confined_of_emptyKeyRequest :
    ¬∀ (bytes : ℕ → UInt8) (totbytes serialized : ℕ),
      1 < serialized → serialized + totbytes ≤ userSpace →
        Confined bytes totbytes serialized := by
  intro confined
  have inside := confined (fun a => emptyKeyRequest.getD (a - 4096) 0) 26 4096 (by decide)
    (by decide)
  revert inside
  decide

end ChaosCache.Reqrep
