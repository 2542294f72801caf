import MessagePack.Document
import MessagePack.Proofs.Operation

/-!
# Segmentation is invisible

A list of pieces and one block with the same bytes cannot be told apart by reading. Both readers
have the same bytes ahead, so every operation agrees on them and moves them by as many bytes; from
there they have the same bytes ahead again.

* **`Operation.runAll`** is a run of operations, up to the first failure, with what is seen of the
  reader after each of them.
* **`Document.readWith_eq`** is the same for complete documents, under any algorithm for
  compression.
* **`Reader.segmentation_invisible`** is both for a list of pieces.
-/

namespace MessagePack

namespace Operation

/-- What is seen of one operation: what it gave, and the state of the reader after it. -/
structure Seen where
  result : Type
  outcome : Except DocumentError result
  consumed : Nat
  remaining : Nat
  depth : Nat

/-- What is seen of an operation that ended at a reader. -/
def Seen.of {α : Type} (outcome : Except DocumentError α) (r : Reader) : Seen :=
  ⟨α, outcome, r.consumed, r.remaining, r.depth⟩

/-- Carries out operations one after the other, until one fails. -/
def runAll : List (Sigma Operation) → Reader → List Seen
  | [], _ => []
  | op :: ops, r =>
    match op.2.run r with
    | .ok a s => .of (.ok a) s :: runAll ops s
    | .error e s => [.of (α := op.1) (.error e) s]

end Operation

namespace Reader

variable {ε α : Type}

/-- Two readers that only differ in how their bytes are split into pieces. -/
structure SameBytes (r r' : Reader) : Prop where
  extends_nil : Extends [] r.cursor.remaining r r'
  consumed_eq : r'.cursor.consumed = r.cursor.consumed

/-- Two outcomes that only differ in that. -/
inductive SameOutcome : EStateM.Result ε Reader α → EStateM.Result ε Reader α → Prop
  | ok {a : α} {s s' : Reader} (h : SameBytes s s') : SameOutcome (.ok a s) (.ok a s')
  | error {e : ε} {s s' : Reader} (h : SameBytes s s') : SameOutcome (.error e s) (.error e s')

/-- Past the same number of bytes they still have the same ahead. -/
theorem SameBytes.past {r r' : Reader} {n : Nat} (h : SameBytes r r')
    (hn : n ≤ r.cursor.remaining) : SameBytes (r.past n) (r'.past n) where
  extends_nil := (h.extends_nil.past hn).mono (Nat.le_of_eq (Cursor.remaining_past _ _).symm)
  consumed_eq := congrArg (· + n) h.consumed_eq

/-- Whatever an operation gave, the same is seen of both. -/
theorem SameBytes.seen_eq {r r' : Reader} (h : SameBytes r r') (x : Except DocumentError α) :
    Operation.Seen.of x r' = Operation.Seen.of x r := by
  have hremaining : r'.remaining = r.remaining := h.extends_nil.length_eq
  have hconsumed : r'.consumed = r.consumed := h.consumed_eq
  rw [Operation.Seen.of, Operation.Seen.of, hremaining, hconsumed, h.extends_nil.depth_eq]

/-- With no bytes behind the input, outcomes that agree are the same. -/
theorem Agree.same [EndsEarly ε] {K : Comparison α α} {r r' : Reader}
    {x y : EStateM.Result ε Reader α} (hr : SameBytes r r') (h : Agree K [] r r' x y)
    (hK : ∀ a b, K.Same a b → a = b) : SameOutcome x y := by
  cases h with
  | ok hn hab =>
      rw [hK _ _ hab]
      exact .ok (hr.past hn)
  | error hn => exact .error (hr.past hn)
  | short hc => exact absurd rfl hc

/-- A container is entered at the same depths. -/
theorem sameOutcome_enter {r r' : Reader} (hr : SameBytes r r') (policy : SecurityPolicy) :
    SameOutcome (enter policy r) (enter policy r') := by
  rw [enter, enter, hr.extends_nil.depth_eq]
  split
  · exact .error hr
  · have hnested := hr.extends_nil.nested
    rw [hr.extends_nil.depth_eq] at hnested
    exact .ok ⟨hnested, hr.consumed_eq⟩

/-- To leave a container does not move the reader. -/
theorem sameOutcome_leave {r r' : Reader} (hr : SameBytes r r') :
    SameOutcome (leave r) (leave r') := by
  have h := hr.extends_nil
  exact .ok ⟨⟨h.shorter, h.longer, h.ahead_eq, congrArg (· - 1) h.depth_eq, h.remaining_le⟩,
    hr.consumed_eq⟩

/-- As part of a document, a computation comes to the same too. -/
theorem SameOutcome.ofRead {m : Read α} {r r' : Reader} (h : SameOutcome (m r) (m r')) :
    SameOutcome (Decode.ofRead m r) (Decode.ofRead m r') := by
  rw [Decode.ofRead, EStateM.adaptExcept, EStateM.adaptExcept]
  generalize m r = x at h
  generalize m r' = y at h
  cases h with
  | ok h => exact .ok h
  | error h => exact .error h

end Reader

namespace Operation

open Reader

variable {α : Type} {r r' : Reader}

/-- **ONE OPERATION** gives the same and leaves the readers alike. -/
theorem sameOutcome_run (op : Operation α) (hr : SameBytes r r')
    (hpieces : op.looksAtPieces = false) : SameOutcome (op.run r) (op.run r') := by
  cases hsteps : op.stepsDepth with
  | false =>
      exact Agree.same hr ((op.stable hsteps hpieces).agree r r' hr.extends_nil) fun _ _ h => h
  | true =>
      cases op with
      | enter policy => exact (sameOutcome_enter hr policy).ofRead
      | leave => exact (sameOutcome_leave hr).ofRead
      | _ => cases hsteps

/-- **A RUN OF OPERATIONS** shows the same. -/
theorem runAll_eq (ops : List (Sigma Operation))
    (hpieces : ∀ op ∈ ops, op.2.looksAtPieces = false) (hr : SameBytes r r') :
    runAll ops r' = runAll ops r := by
  -- after each operation both readers have the same bytes ahead again
  induction ops generalizing r r' with
  | nil => rfl
  | cons op ops ih =>
      obtain ⟨hop, hops⟩ := List.forall_mem_cons.mp hpieces
      have houtcome := op.2.sameOutcome_run hr hop
      rw [runAll, runAll]
      generalize op.2.run r = x at houtcome
      generalize op.2.run r' = y at houtcome
      cases houtcome with
      | ok h =>
          dsimp only
          rw [h.seen_eq, ih hops h]
      | error h =>
          dsimp only
          rw [h.seen_eq]

end Operation

/-! ## Complete documents -/

namespace CompressedBlock

open Reader

variable {r r' : Reader}

/-- A compressed block is recognized in both. -/
theorem isNext_eq (hr : SameBytes r r') : isNext r' = isNext r := by
  have hagree := Stable.tryExtHeader.agree r r' hr.extends_nil
  unfold isNext
  generalize tryExtHeader r = x at hagree
  generalize tryExtHeader r' = y at hagree
  cases hagree with
  | ok hn hab => cases hab with
    | some hab => rw [hab]
    | none => rfl
  | error hn => rfl
  | short hc => exact absurd rfl hc

/-- The payload of a block is the same bytes, whether it lies in one piece or is put together. -/
theorem payload_eq {v : View} {bytes : List UInt8} (h : v.Shows bytes) :
    v.contiguous?.getD v.content = v.content := by
  cases hblock : v.contiguous? with
  | none => rfl
  | some block => exact h.contiguous_eq hblock

/-- A document is read alike from the same bytes, by any algorithm. -/
theorem stable_read (algorithm : BlockCompressor) {c : List UInt8} {k : Nat} :
    Stable c k (read algorithm) (read algorithm) .eq := by
  refine Stable.ext.ofRead.bind fun e e' halike => ?_
  obtain ⟨htype, hdata⟩ := halike
  have hcontent := hdata.content_eq
  obtain ⟨bytes, hv, hw⟩ := hdata
  rw [htype, payload_eq hv, payload_eq hw, hcontent]
  -- The two sides run the same rest, so it is enough to know how the payload opens.
  cases openPayload algorithm e'.data.content with
  | ok document =>
      dsimp only
      split
      · exact (Stable.of_throw _).bind_eq fun _ => Stable.of_pure rfl
      · exact Stable.of_pure rfl
  | error e =>
      dsimp only
      split
      · exact (Stable.of_throw _).bind_eq fun _ => Stable.of_throw e
      · exact Stable.of_throw e

end CompressedBlock

namespace Document

open Reader

/-- A document that is not compressed is decoded alike from the same bytes. -/
theorem decodePlain_eq (options : Options) (s : Schema) {r r' : Reader} (hr : SameBytes r r') :
    decodePlain options s r' = decodePlain options s r := by
  have houtcome : SameOutcome _ _ :=
    Agree.same hr ((s.stable_read options).agree r r' hr.extends_nil) fun _ _ h => h
  rw [decodePlain, decodePlain]
  generalize s.read options r = x at houtcome
  generalize s.read options r' = y at houtcome
  cases houtcome <;> rfl

/-- **DOCUMENTS** are read as the same value, or fail in the same way. -/
theorem readWith_eq (c : BlockCompressor) (options : Options) (s : Schema) {r r' : Reader}
    (hr : SameBytes r r') : readWith c options s r' = readWith c options s r := by
  rw [readWith, readWith, CompressedBlock.isNext_eq hr, decodePlain_eq options s hr]
  split
  · have houtcome : SameOutcome _ _ :=
      Agree.same hr ((CompressedBlock.stable_read c).agree r r' hr.extends_nil) fun _ _ h => h
    generalize CompressedBlock.read c r = x at houtcome
    generalize CompressedBlock.read c r' = y at houtcome
    cases houtcome <;> rfl
  · rfl

end Document

namespace Reader

/-- **SEGMENTATION IS INVISIBLE.** Over any pieces, however many of them are empty, every run of
    operations shows what it shows over one block with the same bytes, up to and including the first
    failure; the operation that looks at how strings are split is left out. And every document, of
    every type and under all options, compressed with any algorithm or not, is read with the same
    outcome: by the algorithm that documents are stored with in particular. -/
theorem segmentation_invisible {bytes : ByteArray} {parts : Array ByteArray}
    (h : bytes.data.toList = parts.toList.flatMap fun part => part.data.toList) :
    (∀ ops : List (Sigma Operation), (∀ op ∈ ops, op.2.looksAtPieces = false) →
      Operation.runAll ops (.ofParts parts) = Operation.runAll ops (.ofBytes bytes))
      ∧ (∀ (c : BlockCompressor) (options : Options) (s : Schema),
        Document.readWith c options s (.ofParts parts)
          = Document.readWith c options s (.ofBytes bytes))
      ∧ ∀ (options : Options) (s : Schema),
        Document.decodeParts options s parts = Document.decode options s bytes := by
  -- both readers are at the start, at depth zero, and have the same bytes ahead
  have hsame : SameBytes (.ofBytes bytes) (.ofParts parts) := by
    refine ⟨⟨Cursor.wellFormed_ofBytes bytes, Cursor.wellFormed_ofParts parts, ?_, rfl,
      Nat.le_refl _⟩, rfl⟩
    show (Cursor.ofParts parts).ahead = (Cursor.ofBytes bytes).ahead ++ []
    rw [Cursor.ahead_ofParts, Cursor.ahead_ofBytes, List.append_nil, h]
  have hread : ∀ (c : BlockCompressor) (options : Options) (s : Schema),
      Document.readWith c options s (.ofParts parts)
        = Document.readWith c options s (.ofBytes bytes) :=
    fun c options s => Document.readWith_eq c options s hsame
  exact ⟨fun ops hpieces => Operation.runAll_eq ops hpieces hsame, hread, hread .standard⟩

/-- An array whose header is a piece of its own, with a number across an empty piece. -/
theorem segmentation_invisible_straddling :
    Operation.runAll [⟨_, .arrayHeader⟩, ⟨_, .int (.unsigned .w16)⟩, ⟨_, .boolean⟩]
        (.ofParts #[⟨#[0x92]⟩, ⟨#[0xcd, 0x01]⟩, ⟨#[]⟩, ⟨#[0x00, 0xc0]⟩])
      = Operation.runAll [⟨_, .arrayHeader⟩, ⟨_, .int (.unsigned .w16)⟩, ⟨_, .boolean⟩]
        (.ofBytes ⟨#[0x92, 0xcd, 0x01, 0x00, 0xc0]⟩)
      ∧ Document.decodeParts .standard .value
          #[⟨#[0x92]⟩, ⟨#[0xcd, 0x01]⟩, ⟨#[]⟩, ⟨#[0x00, 0xc0]⟩]
        = .ok (.array [.unsigned 256, .nil]) := by
  have hbytes : (⟨#[0x92, 0xcd, 0x01, 0x00, 0xc0]⟩ : ByteArray).data.toList
      = #[(⟨#[0x92]⟩ : ByteArray), ⟨#[0xcd, 0x01]⟩, ⟨#[]⟩, ⟨#[0x00, 0xc0]⟩].toList.flatMap
        fun part => part.data.toList := rfl
  obtain ⟨hrun, -, hdecode⟩ := segmentation_invisible hbytes
  refine ⟨hrun _ ?_, (hdecode .standard .value).trans rfl⟩
  simp [Operation.looksAtPieces]

end Reader

end MessagePack
