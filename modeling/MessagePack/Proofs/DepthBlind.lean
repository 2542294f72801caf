import MessagePack.Proofs.Payload
import MessagePack.Schema.Codec

/-!
# Tokens are read the same at every depth

A reader counts the containers that it is inside of, and only containers may look at the count. The
read of a token is **blind** to it: from the same position it gives the same at every depth, and it
leaves the depth as it was, whether it succeeds or fails.

`Reader.Blind` is closed under everything that reads of tokens are made of. Entering a container is
not among these (`Reader.not_blind_nested`), as `Reader.nested` gives nothing but an error from some
depth on.
-/

namespace MessagePack

namespace Reader

variable {ε α β : Type}

/-- An outcome with the reader at another depth. -/
def atDepth (d : Nat) : EStateM.Result ε Reader α → EStateM.Result ε Reader α
  | .ok a r => .ok a ⟨r.cursor, d⟩
  | .error e r => .error e ⟨r.cursor, d⟩

/-- A computation that gives the same at every depth and leaves the depth as it was. -/
def Blind (m : EStateM ε Reader α) : Prop :=
  ∀ (r : Reader) (d : Nat), m ⟨r.cursor, d⟩ = atDepth d (m r)

namespace Blind

/-- A blind read leaves the depth as it was. -/
theorem depth_after {m : EStateM ε Reader α} (hm : Blind m) (r : Reader) :
    (after (m r)).depth = r.depth := by
  have hblind : m r = atDepth r.depth (m r) := hm r r.depth
  rw [hblind]
  cases m r <;> rfl

/-- What is given without a read is blind. -/
theorem of_pure (a : α) : Blind (pure a : EStateM ε Reader α) :=
  fun _ _ => rfl

/-- An error that is always raised is blind. -/
theorem of_throw (e : ε) : Blind (throw e : EStateM ε Reader α) :=
  fun _ _ => rfl

/-- Blind reads one after the other are blind. -/
theorem bind {m : EStateM ε Reader α} {f : α → EStateM ε Reader β} (hm : Blind m)
    (hf : ∀ a, Blind (f a)) : Blind (m >>= f) := by
  intro r d
  have hblind := hm r d
  -- by cases on the first read; behind a failure there is nothing to compare
  cases hmr : m r with
  | ok a s =>
      rw [hmr] at hblind
      rw [bind_of_ok hmr, bind_of_ok hblind]
      exact hf a s d
  | error e s =>
      rw [hmr] at hblind
      rw [bind_of_error hmr, bind_of_error hblind]
      rfl

/-- What is made of a result does not look at the depth. -/
theorem map {m : EStateM ε Reader α} (hm : Blind m) (f : α → β) : Blind (do return f (← m)) :=
  hm.bind fun a => of_pure (f a)

/-- What is looked up in the reader must not be the depth. -/
theorem bind_get {f : Reader → EStateM ε Reader β} (hf : ∀ r, Blind (f r))
    (hcursor : ∀ r d, f ⟨r.cursor, d⟩ = f r) : Blind (get >>= f) := by
  intro r d
  show f ⟨r.cursor, d⟩ ⟨r.cursor, d⟩ = atDepth d (f r r)
  rw [hcursor]
  exact hf r r d

/-- Steps of the cursor do not know the depth. -/
theorem step? (f : Cursor → Option (α × Cursor)) : Blind (Reader.step? f) := by
  intro r d
  rw [Reader.step?, Reader.step?]
  cases f r.cursor <;> rfl

/-- To insist on a result does not look at the depth. -/
theorem require {m : Read (Option α)} (hm : Blind m) : Blind (Reader.require m) := by
  refine hm.bind fun o => ?_
  cases o with
  | none => exact of_throw _
  | some a => exact of_pure a

theorem step (f : Cursor → Option (α × Cursor)) : Blind (Reader.step f) :=
  (step? f).require

/-- To put the reader back puts the depth back that it had. -/
theorem attempt {m : Read (Option α)} (hm : Blind m) : Blind (Reader.attempt m) := by
  intro r d
  rw [Reader.attempt, Reader.attempt, hm r d]
  cases m r with
  | ok o s => cases o <;> rfl
  | error e s => rfl

/-- To look ahead leaves the reader, and with it the depth. -/
theorem ahead {m : EStateM ε Reader α} (hm : Blind m) : Blind (Reader.ahead m) := by
  intro r d
  rw [Reader.ahead, Reader.ahead, hm r d]
  cases m r <;> rfl

/-- An error of another kind does not look at the depth. -/
theorem ofRead {m : Read α} (hm : Blind m) : Blind (Decode.ofRead m) := by
  intro r d
  rw [Decode.ofRead, EStateM.adaptExcept, EStateM.adaptExcept, hm r d]
  cases m r <;> rfl

/-- To insist on something other than nil does not look at the depth. -/
theorem ofNonNil {m : Read (Option α)} (hm : Blind m) : Blind (Decode.ofNonNil m) := by
  refine hm.ofRead.bind fun o => ?_
  cases o with
  | none => exact of_throw _
  | some a => exact of_pure a

/-- A number that is checked against the bytes ahead. -/
theorem check {m : Read α} (hm : Blind m) (g : α → Nat) : Blind (do
    let a ← m
    if (← get).remaining < g a then throw ReadError.endOfStream
    else pure a) := by
  refine hm.bind fun a => bind_get (fun r => ?_) fun r d => rfl
  split
  · exact of_throw _
  · exact of_pure a

/-! ## Tokens -/

/-- Of the reader, a look at the lead byte takes the cursor alone. -/
theorem nextFormat : Blind nextFormat := by
  refine bind_get (fun r => ?_) fun r d => rfl
  split
  · exact of_pure _
  · exact of_throw _

theorem format : Blind format :=
  ((step? _).map _).require

theorem tryNil : Blind tryNil := by
  refine (nextFormat.map _).bind fun b => ?_
  split
  · exact (step _).bind fun _ => of_pure true
  · exact of_pure false

theorem nil : Blind nil := by
  refine format.bind fun f => ?_
  split
  · exact of_pure ()
  · exact of_throw _

theorem boolean : Blind boolean := by
  refine format.bind fun f => ?_
  split
  · exact of_pure _
  · exact of_throw _

theorem integer : Blind integer := by
  refine format.bind fun f => ?_
  split
  · exact of_pure _
  · exact of_pure _
  · exact (step _).map _
  · exact of_throw _

theorem int (t : IntType) : Blind (int t) := by
  refine integer.bind fun p => ?_
  dsimp only
  split
  · exact of_pure _
  · exact of_throw _

theorem char : Blind char := by
  refine (int _).bind fun n => ?_
  dsimp only
  split
  · exact of_pure _
  · exact of_throw _

theorem float32Field : Blind float32Field :=
  format.bind fun _ => (step _).map _

theorem float64Field : Blind float64Field :=
  format.bind fun _ => (step _).map _

theorem float32 : Blind float32 := by
  refine nextFormat.bind fun f => ?_
  split
  · exact float32Field
  · exact float64Field.map _
  · exact integer.map _

theorem float64 : Blind float64 := by
  refine nextFormat.bind fun f => ?_
  split
  · exact float32Field.map _
  · exact float64Field
  · exact integer.map _

/-- A header is a lead byte and a field. -/
theorem header? (select : Format → Option Extent) : Blind (header? select) := by
  refine ((step? _).map _).bind fun o => ?_
  split
  · exact of_pure none
  · split
    · rename_i e _
      cases e with
      | inLead n => exact of_pure _
      | field w => exact (step? _).map _
    · exact of_throw _

theorem arrayHeader : Blind arrayHeader :=
  (header? _).attempt.require.check _

theorem mapHeader : Blind mapHeader :=
  (header? _).attempt.require.check _

/-- An extension has its type behind the header, and is checked as a whole. -/
theorem extHeader : Blind extHeader := by
  refine Blind.check (require (attempt ((header? _).bind fun o => ?_))) _
  split
  · exact of_pure none
  · exact (step? _).map _

/-- A string is nil, or a header and a payload. -/
theorem stringView : Blind stringView := by
  refine tryNil.bind fun b => ?_
  split
  · exact of_pure none
  · exact (header? _).require.bind fun n => (step _).map _

/-- What a text decodes to depends on its bytes alone. -/
theorem decodeText (bytes : ByteArray) : Blind (decodeText bytes) := by
  rw [Reader.decodeText]
  split
  · exact of_pure _
  · exact of_throw _

theorem str : Blind str := by
  refine stringView.bind fun o => ?_
  split
  · exact of_pure none
  · split
    · exact (decodeText _).map _
    · exact (decodeText _).map _

theorem string : Blind string :=
  str.map _

theorem bytes : Blind bytes := by
  refine tryNil.bind fun b => ?_
  split
  · exact of_pure none
  · exact (header? _).require.bind fun n => (step _).map _

theorem ext : Blind ext :=
  extHeader.bind fun _ => (step _).map _

/-- The layout of a timestamp is told from its length. -/
theorem timestampFields (length : Nat) : Blind (timestampFields length) := by
  unfold Reader.timestampFields
  split
  · exact (step _).map _
  · exact (step _).map _
  · exact (step _).bind fun _ => (step _).map _
  · exact of_throw _

theorem instant (length : Nat) : Blind (instant length) := by
  refine (timestampFields length).bind fun parts => ?_
  split
  · exact of_pure _
  · exact of_throw _

/-- A timestamp is an extension of its type, and its fields. -/
theorem timestamp : Blind timestamp := by
  rw [timestamp_eq]
  refine extHeader.bind fun h => ?_
  split
  · exact instant _
  · exact of_throw _

theorem dateTime : Blind dateTime := by
  refine timestamp.bind fun t => ?_
  split
  · exact of_pure _
  · exact of_throw _

/-! ## Values without containers -/

/-- Of an integer, the format that was looked at tells whether it is signed. -/
theorem readInteger (f : Format) : Blind (Value.readInteger f) := by
  rw [Value.readInteger]
  split
  · exact (int _).ofRead.map _
  · exact (int _).ofRead.map _

/-- An extension is looked at before it is read, and the look is undone. -/
theorem readExtension : Blind Value.readExtension := by
  refine extHeader.ahead.ofRead.bind fun h => ?_
  split
  · exact timestamp.ofRead.map _
  · exact ext.ofRead.map _

/-- A UUID is a string, and what its text denotes. -/
theorem readUuid : Blind Schema.readUuid := by
  refine str.ofNonNil.bind fun t => ?_
  split
  · exact of_pure _
  · exact of_throw _

end Blind

/-- A container that can be read at all is not blind: at the maximal depth it is refused. -/
theorem not_blind_nested {policy : SecurityPolicy} {m : Decode α} {r s : Reader} {a : α}
    (h : nested .read policy m r = .ok a s) : ¬ Blind (nested .read policy m) := by
  intro hblind
  have hdeep := hblind r policy.maxDepth.toNat
  rw [h, nested, if_pos (Nat.le_refl _)] at hdeep
  cases hdeep

end Reader

end MessagePack
