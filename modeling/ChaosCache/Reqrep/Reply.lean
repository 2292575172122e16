import ChaosCache.Reqrep.Encoding

/-!
# Replies

The constructor of `datareplied` in `reqrep.hpp` that lays a reply out in a buffer. It is told
how many bytes to copy, but not how large the buffer is. The other constructor gives access to the
fields of a received reply.
-/

namespace ChaosCache.Reqrep

/-- `struct rep_header`: an `opt_t`, a `bool`, three bytes of padding and a `size_t`. -/
structure RepHeader where
  op : ℕ
  valret : Bool
  nbytes : ℕ
  deriving DecidableEq

def sizeofRepHeader : ℕ := 16

/-- A header as it lies in memory. Nothing is assigned to the bytes behind the `bool`. -/
def RepHeader.image (padding : ℕ → UInt8) (header : RepHeader) : List UInt8 :=
  leBytes 4 header.op ++ [if header.valret then 1 else 0] ++ readBytes padding 3 ++
    leBytes 8 header.nbytes

/-- The fields of a `datareplied`. `data` is an offset into its buffer. -/
structure Datareplied where
  header : RepHeader
  totbytes : ℕ
  data : Option ℕ
  deriving DecidableEq

/-- `datareplied(dest, data, nbytes, op, valret)`: the buffer after it, and the object. There is no
result when the copy runs past the `room` bytes of the buffer. -/
def datareplied (room : ℕ) (dest padding : ℕ → UInt8) (data : Option (ℕ → UInt8)) (nbytes op : ℕ)
    (valret : Bool) : Option ((ℕ → UInt8) × Datareplied) :=
  let header : RepHeader := { op, valret, nbytes }
  let totbytes := (sizeofRepHeader + nbytes) % 2 ^ 64
  let dest := writeBytes dest 0 (header.image padding)
  match data with
  | none => some (dest, { header, totbytes, data := none })
  | some data =>
      if nbytes = 0 then some (dest, { header, totbytes, data := none })
      else if room < sizeofRepHeader + nbytes then none
      else
        some (writeBytes dest sizeofRepHeader (readBytes data nbytes),
          { header, totbytes, data := some sizeofRepHeader })

section Reply

variable {room nbytes op : ℕ} {dest padding padding' replybuffer : ℕ → UInt8}
  {data : Option (ℕ → UInt8)} {source : ℕ → UInt8} {valret : Bool} {rep : Datareplied}

@[simp]
theorem length_repImage (header : RepHeader) :
    (header.image padding).length = sizeofRepHeader := by
  simp [RepHeader.image, sizeofRepHeader]

theorem header_of_datareplied
    (replied : datareplied room dest padding data nbytes op valret = some (replybuffer, rep)) :
    rep.header = { op, valret, nbytes } := by
  cases data with
  | none =>
      cases replied
      rfl
  | some data =>
      simp only [datareplied] at replied
      split at replied
      · cases replied
        rfl
      · split at replied
        · cases replied
        · cases replied
          rfl

/-- The copy of a reply overflows when there is no room for it behind the header. -/
theorem datareplied_eq_none :
    datareplied room dest padding (some source) nbytes op valret = none ↔
      nbytes ≠ 0 ∧ room < sizeofRepHeader + nbytes := by
  simp only [datareplied]
  split
  · simp_all
  · split
    · simp_all
    · simp_all

/-- The reply in the buffer: the header, and the data behind it. -/
theorem readBytes_of_datareplied (small : sizeofRepHeader + nbytes < 2 ^ 64)
    (replied : datareplied room dest padding (some source) nbytes op valret =
      some (replybuffer, rep)) :
    readBytes replybuffer rep.totbytes =
      RepHeader.image padding { op, valret, nbytes } ++ readBytes source nbytes := by
  have held : Holds replybuffer 0
      (RepHeader.image padding { op, valret, nbytes } ++ readBytes source nbytes) ∧
        rep.totbytes = sizeofRepHeader + nbytes := by
    simp only [datareplied] at replied
    split at replied
    case isTrue isEmpty =>
      subst isEmpty
      cases replied
      refine ⟨?_, rfl⟩
      simpa [readBytes] using holds_writeBytes
    case isFalse =>
      split at replied
      case isTrue => cases replied
      case isFalse =>
        cases replied
        refine ⟨holds_append.mpr ⟨?_, ?_⟩, Nat.mod_eq_of_lt small⟩
        · exact holds_writeBytes.writeBytes (by simp)
        · simpa using holds_writeBytes
  rcases held with ⟨held, totbytes⟩
  have whole : readBytes (fun i => replybuffer (0 + i)) _ = _ := held
  simpa [totbytes] using whole

/-- Two replies to the same operation with the same outcome are the same bytes when their padding
and their data are. -/
theorem image_append_inj {content content' : List UInt8} :
    RepHeader.image padding { op, valret, nbytes := content.length } ++ content =
        RepHeader.image padding' { op, valret, nbytes := content'.length } ++ content' ↔
      readBytes padding 3 = readBytes padding' 3 ∧ content = content' := by
  constructor
  · intro same
    rcases List.append_inj same (by simp) with ⟨sameHeader, sameContent⟩
    refine ⟨?_, sameContent⟩
    simp only [RepHeader.image] at sameHeader
    have withoutSize := (List.append_inj sameHeader (by simp)).1
    exact (List.append_inj withoutSize (by simp)).2
  · rintro ⟨samePadding, rfl⟩
    simp only [RepHeader.image, samePadding]

end Reply

/-! ## Reading a reply back -/

/-- `memcpy` of a reply's header out of memory. -/
def readRepHeader (bytes : ℕ → UInt8) (serialized : ℕ) : RepHeader where
  op := leNat bytes serialized 4
  valret := bytes (serialized + 4) ≠ 0
  nbytes := leNat bytes (serialized + 8) 8

/-- `datareplied(totbytes, serialized)`, the constructor for received messages, with the bytes that
it reads. -/
def datarepliedFrom (bytes : ℕ → UInt8) (totbytes : ℕ) (serialized : ℕ) :
    Datareplied × List Span :=
  let header := readRepHeader bytes serialized
  let data := if 0 < header.nbytes then some sizeofRepHeader else none
  ({ header, totbytes, data }, [⟨serialized, sizeofRepHeader⟩])

/-- Decoding a received reply yields the object that was encoded, and reads and exposes nothing
outside the message. What it exposes are the bytes that were copied into it. -/
def Recovers (sent : Datareplied) (source : Option (ℕ → UInt8)) (received : ℕ → UInt8)
    (serialized : ℕ) : Prop :=
  let (back, reads) := datarepliedFrom received sent.totbytes serialized
  back = sent ∧ (∀ span ∈ reads, span.Inside serialized sent.totbytes) ∧
    ∀ offset ∈ back.data,
      (⟨serialized + offset, back.header.nbytes⟩ : Span).Inside serialized sent.totbytes ∧
        ∃ content ∈ source,
          Holds received (serialized + offset) (readBytes content back.header.nbytes)

section Reading

variable {room nbytes op serialized : ℕ} {dest padding replybuffer received : ℕ → UInt8}
  {data : Option (ℕ → UInt8)} {valret : Bool} {rep : Datareplied}

theorem readRepHeader_of_holds {header : RepHeader}
    (holds : Holds received serialized (header.image padding)) (opFits : header.op < 2 ^ 32)
    (nbytesFits : header.nbytes < 2 ^ 64) : readRepHeader received serialized = header := by
  simp only [RepHeader.image, holds_append, holds_cons, List.length_append, length_leBytes,
    length_readBytes, List.length_singleton] at holds
  rcases holds with ⟨⟨⟨opHeld, flag, -⟩, -⟩, nbytesHeld⟩
  have valret : decide (received (serialized + 4) ≠ 0) = header.valret := by
    rw [flag]
    cases header.valret <;> decide
  simp [readRepHeader, leNat_of_holds opHeld opFits, leNat_of_holds nbytesHeld nbytesFits, valret]

/-- The buffer holds the header, and behind it what was copied. -/
theorem holds_of_datareplied
    (replied : datareplied room dest padding data nbytes op valret = some (replybuffer, rep)) :
    rep.header = { op, valret, nbytes } ∧ rep.totbytes = (sizeofRepHeader + nbytes) % 2 ^ 64 ∧
      Holds replybuffer 0 (RepHeader.image padding { op, valret, nbytes }) ∧
        ((rep.data = none ∧ (data = none ∨ nbytes = 0)) ∨
          rep.data = some sizeofRepHeader ∧ 0 < nbytes ∧ sizeofRepHeader + nbytes ≤ room ∧
            ∃ source ∈ data, Holds replybuffer sizeofRepHeader (readBytes source nbytes)) := by
  cases data with
  | none =>
      cases replied
      exact ⟨rfl, rfl, holds_writeBytes, Or.inl ⟨rfl, Or.inl rfl⟩⟩
  | some source =>
      simp only [datareplied] at replied
      split at replied
      case isTrue isEmpty =>
        cases replied
        exact ⟨rfl, rfl, holds_writeBytes, Or.inl ⟨rfl, Or.inr isEmpty⟩⟩
      case isFalse some =>
        split at replied
        case isTrue => cases replied
        case isFalse fits =>
          cases replied
          refine ⟨rfl, rfl, holds_writeBytes.writeBytes (by simp), Or.inr ⟨rfl, ?_⟩⟩
          exact ⟨Nat.pos_of_ne_zero some, Nat.not_lt.mp fits, source, rfl, holds_writeBytes⟩

/-- Decoding undoes encoding exactly for the replies that copy the bytes they announce. -/
theorem recovers_iff (opFits : op < 2 ^ 32) (nbytesFits : nbytes < 2 ^ 64)
    (roomFits : room < 2 ^ 64)
    (replied : datareplied room dest padding data nbytes op valret = some (replybuffer, rep))
    (delivered : ∀ i, i < rep.totbytes → received (serialized + i) = replybuffer i) :
    Recovers rep data received serialized ↔ (data.isSome ∨ nbytes = 0) := by
  rcases holds_of_datareplied replied with ⟨header, totbytes, held, content⟩
  have delivered' : ∀ i, i < rep.totbytes → received (serialized + i) = replybuffer (0 + i) := by
    simpa using delivered
  have read (whole : sizeofRepHeader ≤ rep.totbytes) :
      readRepHeader received serialized = { op, valret, nbytes } :=
    readRepHeader_of_holds (held.delivered delivered' (by simpa using whole)) opFits nbytesFits
  simp only [Recovers, datarepliedFrom]
  constructor
  · rintro ⟨same, -⟩
    rcases content with ⟨noData, missing | isEmpty⟩ | ⟨-, -, -, source, isSource, -⟩
    · -- nothing was copied, so nothing may be announced
      have none' := congrArg Datareplied.data same
      have sameHeader := congrArg Datareplied.header same
      simp only [noData, header] at none' sameHeader
      rw [sameHeader] at none'
      right
      simpa using none'
    · exact Or.inr isEmpty
    · exact Or.inl (Option.isSome_iff_exists.mpr ⟨source, isSource⟩)
  · intro complete
    rcases content with ⟨noData, missing⟩ | ⟨isData, positive, fits, source, isSource, copied⟩
    · have isEmpty : nbytes = 0 := by
        rcases missing with rfl | isEmpty
        · simpa using complete
        · exact isEmpty
      subst isEmpty
      have whole : rep.totbytes = sizeofRepHeader := totbytes
      rw [read whole.ge]
      refine ⟨?_, ?_, by simp⟩
      · cases rep
        simp_all
      · simp [Span.Inside, whole]
    · have whole : rep.totbytes = sizeofRepHeader + nbytes := by
        rw [totbytes]
        exact Nat.mod_eq_of_lt (fits.trans_lt roomFits)
      rw [read (by omega)]
      simp only [positive, if_true, Option.mem_some_iff, forall_eq']
      refine ⟨?_, ?_, ⟨?_, ?_⟩, source, isSource, ?_⟩
      · cases rep
        simp_all
      · simp [Span.Inside, whole]
      · simp
      · simp [whole, Nat.add_assoc]
      · apply holds_iff.mpr
        intro i inRange
        have inside : sizeofRepHeader + i < rep.totbytes := by
          rw [length_readBytes] at inRange
          omega
        rw [Nat.add_assoc, delivered _ inside]
        exact holds_iff.mp copied i inRange

/-- The reply to a `GET` that has found one byte, read back where it was written. -/
theorem recovers_byte : ∃ rep replybuffer, rep.totbytes = 17 ∧
    (Recovers rep (some fun _ => 42) replybuffer 0 ↔
      ((some fun _ => 42 : Option (ℕ → UInt8)).isSome ∨ 1 = 0)) := by
  have replied : datareplied 1024 (fun _ => 0) (fun _ => 0) (some fun _ => 42) 1 2 true =
      some (_, ⟨⟨2, true, 1⟩, 17, some sizeofRepHeader⟩) := rfl
  exact ⟨_, _, rfl, recovers_iff (by decide) (by decide) (by decide) replied
    fun i _ => by rw [Nat.zero_add]⟩

end Reading

end ChaosCache.Reqrep
