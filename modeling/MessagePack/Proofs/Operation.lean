import MessagePack.Proofs.StableValue

/-!
# Operations of a reader

`Operation` lists what can be asked of a reader, each operation with the type of what it gives. What
is given does not show where the bytes came from: a view is given by its content, and a text without
where it lay.

* **`Operation.run`** carries an operation out.
* **`Operation.agree`** is that every operation is stable. Two of them move no reader but change its
  depth, and one looks at how the bytes are split into pieces, so it is asked of one block only.
-/

namespace MessagePack

namespace Reader

/-! ## Strings within one block -/

/-- To take bytes is to get a view of them if they are there, and else to fail without moving. -/
theorem take_apply (n : Nat) (r : Reader) : take n r =
    if n ≤ r.cursor.remaining then .ok (r.cursor.viewOf n) (r.past n)
    else .error .endOfStream r := by
  have hstep : step? (·.take? n) r =
      if n ≤ r.cursor.remaining then .ok (some (r.cursor.viewOf n)) (r.past n)
      else .ok none r := by
    -- the check is made before anything is consumed
    rw [step?, Cursor.take?_eq]
    by_cases hn : n ≤ r.cursor.remaining
    · rw [if_pos hn, if_pos hn]
      rfl
    · rw [if_neg hn, if_neg hn]
  by_cases hn : n ≤ r.cursor.remaining
  · rw [if_pos hn] at hstep ⊢
    exact bind_of_ok hstep
  · rw [if_neg hn] at hstep ⊢
    exact bind_of_ok hstep

/-- A string as its bytes, unless the next token is nil, wherever its bytes lie. -/
def stringContent : Read (Option ByteArray) :=
  attempt do
    if ← isNil then pure none
    else
      let n ← strHeader
      return some (← take n.toNat).content

/-- Over one block every string lies within one piece. -/
theorem tryStringSpan_eq {r : Reader} (hr : r.cursor.WellFormed)
    (hwhole : r.cursor.segments.chunked = false) : tryStringSpan r = stringContent r := by
  have htake : ∀ (n : Nat) (s : Reader), s.cursor.WellFormed →
      s.cursor.segments.chunked = false →
      (do return (← take n).contiguous? : Read (Option ByteArray)) s
        = (do return some (← take n).content : Read (Option ByteArray)) s := by
    intro n s hs hwhole
    by_cases hn : n ≤ s.cursor.remaining
    · have hok : take n s = .ok (s.cursor.viewOf n) (s.past n) := by
        rw [take_apply, if_pos hn]
      have hshows := hs.shows_viewOf hn
      obtain ⟨block, hblock⟩ := hshows.contiguous_of_whole hwhole
      rw [bind_of_ok hok, bind_of_ok hok, hblock, hshows.contiguous_eq hblock]
    · have herror : take n s = .error .endOfStream s := by
        rw [take_apply, if_neg hn]
      rw [bind_of_error herror, bind_of_error herror]
  have hheader : ∀ s : Reader, s.cursor.WellFormed → s.cursor.segments.chunked = false →
      (strHeader >>= fun n => do return (← take n.toNat).contiguous? : Read (Option ByteArray)) s
        = (strHeader >>= fun n => do return some (← take n.toNat).content :
            Read (Option ByteArray)) s := by
    intro s hs hwhole
    cases hok : strHeader s with
    | error e t => rw [bind_of_error hok, bind_of_error hok]
    | ok n t =>
        obtain ⟨l, hl, rfl, -⟩ := Recognizes.strHeader hs rfl hok
        rw [bind_of_ok hok, bind_of_ok hok]
        exact htake n.toNat _ (hs.past hl) hwhole
  rw [tryStringSpan, stringContent, attempt, attempt]
  -- from the inside out: the bytes, the header in front of them, and the look for nil
  suffices h : (do
      if ← isNil then pure none
      else
        let n ← strHeader
        return (← take n.toNat).contiguous? : Read (Option ByteArray)) r = (do
      if ← isNil then pure none
      else
        let n ← strHeader
        return some (← take n.toNat).content : Read (Option ByteArray)) r by rw [h]
  cases hok : isNil r with
  | error e t => rw [bind_of_error hok, bind_of_error hok]
  | ok b t =>
      obtain ⟨l, hl, rfl, -⟩ := Stable.isNil.moves (c := []) (k := 0) r.depth hr rfl hok
      rw [bind_of_ok hok, bind_of_ok hok]
      cases b with
      | true => rfl
      | false => exact hheader _ (hr.past hl) hwhole

/-- With more bytes behind, the bytes of a string are the same. -/
theorem Stable.stringContent {c : List UInt8} {k : Nat} :
    Stable c k stringContent stringContent ⟨Eq, fun _ => False, fun _ => k + 1⟩ := by
  refine Stable.attempt_of ?_ (fun o o' ho => ho ▸ Iff.rfl) rfl (fun _ h => h.elim) rfl
  refine Stable.isNil.bind_owing (fun b => ?_) fun d b => ?_
  · split
    · exact Stable.of_pure rfl
    · exact Stable.strHeader.bind_eq fun n => (Stable.take n.toNat).map fun _ _ h =>
        congrArg some h.content_eq
  · split
    · exact Recognizes.of_pure (Nat.le_add_left 1 (0 + k))
    · refine Recognizes.strHeader.bind fun x n _ => (Recognizes.take n.toNat).map fun y v _ => ?_
      exact Nat.le_trans (Nat.le_add_left 1 k) (Nat.le_add_left _ _)

/-! ## Depth steps -/

/-- Enters a container, unless the policy allows no deeper nesting. -/
def enter (policy : SecurityPolicy) : Read Unit :=
  fun r =>
    if policy.maxDepth.toNat ≤ r.depth then .error (.depthExceeded policy.maxDepth) r
    else .ok () ⟨r.cursor, r.depth + 1⟩

/-- Leaves a container. -/
def leave : Read Unit :=
  fun r => .ok () ⟨r.cursor, r.depth - 1⟩

end Reader

/-- What can be asked of a reader, by the type of what it gives. -/
inductive Operation : Type → Type
  | nextFormat : Operation Format
  | nextKind : Operation Kind
  | isNil : Operation Bool
  | nil : Operation Unit
  | tryNil : Operation Bool
  | boolean : Operation Bool
  | int (t : IntType) : Operation t.Carrier
  | char : Operation Char
  | float32 : Operation Binary32
  | float64 : Operation Binary64
  | arrayHeader : Operation UInt32
  | tryArrayHeader : Operation (Option UInt32)
  | mapHeader : Operation UInt32
  | tryMapHeader : Operation (Option UInt32)
  | extHeader : Operation ExtensionHeader
  | tryExtHeader : Operation (Option ExtensionHeader)
  | strHeader : Operation UInt32
  | binHeader : Operation UInt32
  | tryStringSpan : Operation (Option ByteArray)
  | stringView : Operation (Option ByteArray)
  | str : Operation (Option String)
  | string : Operation (Option String)
  | bytes : Operation (Option ByteArray)
  | ext : Operation (Int8 × ByteArray)
  | timestamp : Operation Timestamp
  | dateTime : Operation DateTime
  | trySkip : Operation Bool
  | skip : Operation Unit
  | raw (n : Nat) : Operation ByteArray
  | rawValue : Operation ByteArray
  /-- A value of a type. -/
  | typed (options : Options) (s : Schema) : Operation s.Carrier
  | enter (policy : SecurityPolicy) : Operation Unit
  | leave : Operation Unit

namespace Operation

open Reader Decode

variable {α : Type}

/-- Carries out an operation. -/
def run : Operation α → Decode α
  | nextFormat => ofRead Reader.nextFormat
  | nextKind => ofRead Reader.nextKind
  | isNil => ofRead Reader.isNil
  | nil => ofRead Reader.nil
  | tryNil => ofRead Reader.tryNil
  | boolean => ofRead Reader.boolean
  | int t => ofRead (Reader.int t)
  | char => ofRead Reader.char
  | float32 => ofRead Reader.float32
  | float64 => ofRead Reader.float64
  | arrayHeader => ofRead Reader.arrayHeader
  | tryArrayHeader => ofRead Reader.tryArrayHeader
  | mapHeader => ofRead Reader.mapHeader
  | tryMapHeader => ofRead Reader.tryMapHeader
  | extHeader => ofRead Reader.extHeader
  | tryExtHeader => ofRead Reader.tryExtHeader
  | strHeader => ofRead Reader.strHeader
  | binHeader => ofRead Reader.binHeader
  | tryStringSpan => ofRead Reader.tryStringSpan
  | stringView => ofRead do return (← Reader.stringView).map View.content
  | str => ofRead do return (← Reader.str).map Text.value
  | string => ofRead Reader.string
  | bytes => ofRead do return (← Reader.bytes).map View.content
  | ext => ofRead do
    let e ← Reader.ext
    return (e.type, e.data.content)
  | timestamp => ofRead Reader.timestamp
  | dateTime => ofRead Reader.dateTime
  | trySkip => ofRead Reader.trySkip
  | skip => ofRead Reader.skip
  | raw n => ofRead do return (← Reader.raw n).content
  | rawValue => ofRead do return (← Reader.rawValue).content
  | typed options s => s.read options
  | enter policy => ofRead (Reader.enter policy)
  | leave => ofRead Reader.leave

/-- A result that says that the input is too short. -/
def GaveUp : Operation α → α → Prop
  | tryArrayHeader, o => o = none
  | tryMapHeader, o => o = none
  | tryExtHeader, o => o = none
  | trySkip, done => done = false
  | _, _ => False

/-- Whether an operation changes the depth of the reader. -/
def stepsDepth : Operation α → Bool
  | enter _ | leave => true
  | _ => false

/-- Whether an operation reads one whole token, or one whole value, by its own form. -/
def readsToken : Operation α → Bool
  | nil | boolean | int _ | char | float32 | float64 | stringView | str | string | bytes | ext
  | timestamp | dateTime | typed _ _ => true
  | _ => false

/-- Whether an operation passes over a value without building it. -/
def skipsValue : Operation α → Bool
  | skip | rawValue => true
  | _ => false

/-- The results have to be equal, and after a whole token nothing is owed. -/
def comparison (op : Operation α) (k : Nat) : Comparison α α :=
  ⟨Eq, op.GaveUp, fun _ => if op.readsToken then 0 else k + 1⟩

variable {c : List UInt8} {k : Nat} {r r' : Reader}

/-- Whether an operation looks at how the bytes are split into pieces. -/
def looksAtPieces : Operation α → Bool
  | tryStringSpan => true
  | _ => false

section Agreement

/-- An operation whose results agree does so whatever it is said to owe. -/
theorem stable_of_eq (op : Operation α) (h : Stable c k op.run op.run .eq) :
    Stable c k op.run op.run (op.comparison k) :=
  h.mono (fun _ _ hab => hab) (fun _ hgave => hgave.elim) fun _ => Nat.zero_le _

/-- What an operation owes that reads less than a whole token does not matter. -/
theorem stable_of_owing (op : Operation α) {owed : α → Nat} (htoken : op.readsToken = false)
    (h : Stable c k op.run op.run (.owing Eq owed)) :
    Stable c k op.run op.run (op.comparison k) := by
  refine h.forget.mono (fun _ _ hab => hab) (fun _ hgave => hgave.elim) fun _ => ?_
  rw [comparison, htoken]
  exact Nat.le_refl _

/-- An operation that may find nothing gives up only there. -/
theorem stable_of_found {β : Type} (op : Operation (Option β)) (htoken : op.readsToken = false)
    (hgave : op.GaveUp none) (h : Stable c k op.run op.run (.found k Eq)) :
    Stable c k op.run op.run (op.comparison k) := by
  refine h.forget.mono ?_ ?_ fun _ => ?_
  · rintro _ _ (hab | _)
    · exact congrArg some hab
    · rfl
  · rintro _ rfl
    exact hgave
  · rw [comparison, htoken]
    exact Nat.le_refl _

/-- Views of the same bytes have the same content. -/
theorem map_content_eq {o o' : Option View} (h : Option.Rel View.Alike o o') :
    o.map View.content = o'.map View.content := by
  cases h with
  | some h => exact congrArg some h.content_eq
  | none => rfl

/-- **EVERY OPERATION THAT READS IS STABLE**, wherever the bytes lie that it reads. -/
theorem stable (op : Operation α) (hsteps : op.stepsDepth = false)
    (hpieces : op.looksAtPieces = false) : Stable c k op.run op.run (op.comparison k) := by
  -- what reads a whole token owes nothing; headers, looks and skips owe what comes behind
  cases op with
  | nextFormat => exact stable_of_owing _ rfl Stable.nextFormat.ofRead
  | nextKind => exact stable_of_owing _ rfl Stable.nextKind.ofRead
  | isNil => exact stable_of_owing _ rfl Stable.isNil.ofRead
  | nil => exact stable_of_eq _ Stable.nil.ofRead
  | tryNil => exact stable_of_owing _ rfl Stable.tryNil.ofRead
  | boolean => exact stable_of_eq _ Stable.boolean.ofRead
  | int t => exact stable_of_eq (.int t) (Stable.int t).ofRead
  | char => exact stable_of_eq _ Stable.char.ofRead
  | float32 => exact stable_of_eq _ Stable.float32.ofRead
  | float64 => exact stable_of_eq _ Stable.float64.ofRead
  | arrayHeader => exact stable_of_owing _ rfl Stable.arrayHeader.ofRead
  | tryArrayHeader => exact stable_of_found _ rfl rfl Stable.tryArrayHeader.ofRead
  | mapHeader => exact stable_of_owing _ rfl Stable.mapHeader.ofRead
  | tryMapHeader => exact stable_of_found _ rfl rfl Stable.tryMapHeader.ofRead
  | extHeader => exact stable_of_owing _ rfl Stable.extHeader.ofRead
  | tryExtHeader => exact stable_of_found _ rfl rfl Stable.tryExtHeader.ofRead
  | strHeader => exact stable_of_eq _ Stable.strHeader.ofRead
  | binHeader => exact stable_of_eq _ Stable.binHeader.ofRead
  | tryStringSpan => cases hpieces
  | stringView =>
      exact stable_of_eq _ (Stable.stringView.map fun _ _ h => map_content_eq h).ofRead
  | str =>
      refine stable_of_eq _ (Stable.str.map ?_).ofRead
      rintro _ _ (h | _)
      · exact congrArg some h
      · rfl
  | string => exact stable_of_eq _ Stable.string.ofRead
  | bytes => exact stable_of_eq _ (Stable.bytes.map fun _ _ h => map_content_eq h).ofRead
  | ext =>
      refine stable_of_eq _ (Stable.ext.map ?_).ofRead
      rintro e e' ⟨htype, hdata⟩
      exact Prod.ext htype hdata.content_eq
  | timestamp => exact stable_of_eq _ Stable.timestamp.ofRead
  | dateTime => exact stable_of_eq _ Stable.dateTime.ofRead
  | trySkip => exact Stable.trySkip.ofRead
  | skip => exact stable_of_owing _ rfl Stable.skip.ofRead
  | raw n => exact stable_of_eq (.raw n) ((Stable.take n).map fun _ _ h => h.content_eq).ofRead
  | rawValue =>
      have hcontent : Stable c k (do return (← Reader.rawValue).content)
          (do return (← Reader.rawValue).content) (.owing Eq fun _ => k + 1) :=
        Stable.bind_consuming (j := 0) Stable.rawValue (fun _ _ _ _ _ => Nat.zero_le _)
          (fun _ _ h => Stable.of_pure h.content_eq)
          fun _ _ _ _ => Recognizes.of_pure (Nat.le_add_left _ _)
      exact stable_of_owing _ rfl hcontent.ofRead
  | typed options s => exact stable_of_eq (.typed options s) (s.stable_read options)
  | enter policy => cases hsteps
  | leave => cases hsteps

/-- Two outcomes agree, of the operation that looks at pieces only over one block. -/
theorem agree (op : Operation α) (hr : Extends c k r r') (hsteps : op.stepsDepth = false)
    (hpieces : op.looksAtPieces = true →
      r.cursor.segments.chunked = false ∧ r'.cursor.segments.chunked = false) :
    Agree (op.comparison k) c r r' (op.run r) (op.run r') := by
  cases hop : op.looksAtPieces with
  | false => exact (op.stable hsteps hop).agree r r' hr
  | true =>
      obtain ⟨hwhole, hwhole'⟩ := hpieces hop
      -- the one operation that looks at pieces agrees where neither input has a second one
      cases op with
      | tryStringSpan =>
          have hagree := (Stable.stringContent (c := c) (k := k)).ofRead.agree r r' hr
          have hspan : ∀ {s : Reader}, s.cursor.WellFormed → s.cursor.segments.chunked = false →
              ofRead Reader.tryStringSpan s = ofRead stringContent s := by
            intro s hs hwhole
            rw [ofRead, ofRead, EStateM.adaptExcept, EStateM.adaptExcept,
              tryStringSpan_eq hs hwhole]
          rw [run, hspan hr.shorter hwhole, hspan hr.longer hwhole']
          exact hagree
      | _ => cases hop

end Agreement

end Operation

end MessagePack
