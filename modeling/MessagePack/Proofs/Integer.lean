import MessagePack.Proofs.Command
import MessagePack.Proofs.Outcome

/-!
# Integers in every encoding

An integer has up to nine encodings: one of two in a lead byte alone, and one in each field of a
type that has room for it. Readers ask for a type, and take any encoding of any integer of that
type.

* **`IntegerForm`** writes the encodings out, wide or narrow, and `integerForm_iff` shows them to be
  all there are.
* **`Reader.gives_int`** and **`Reader.refuses_int`**: whether an integer is read depends on its
  value and the type asked for. The encoding it came in shows in the error alone.
* **`integer_any_form`** puts these together with what is written.
-/

namespace MessagePack

/-! ## The encodings -/

/-- The lead bytes of integers with a field, and the type of the field. -/
def integerFields : List (UInt8 × IntType) :=
  [(0xcc, .unsigned .w8), (0xcd, .unsigned .w16), (0xce, .unsigned .w32), (0xcf, .unsigned .w64),
    (0xd0, .signed .w8), (0xd1, .signed .w16), (0xd2, .signed .w32), (0xd3, .signed .w64)]

/-- The encodings of an integer. Fields are big-endian, and in two's complement. -/
inductive IntegerForm : Int → List UInt8 → Prop
  | positive {n : Nat} (h : n < 128) : IntegerForm n [UInt8.ofNat n]
  | negative {n : Nat} (h : n < 32) : IntegerForm ((n : Int) - 32) [UInt8.ofNat (0xe0 + n)]
  | field {b : UInt8} {t : IntType} {x : Int} (h : (b, t) ∈ integerFields)
      (hx : t.least ≤ x ∧ x ≤ t.greatest) :
      IntegerForm x (b :: BigEndian.encode t.width.bytes (x % 256 ^ t.width.bytes).toNat)

/-- The lead bytes in the list are those that the formats with a field have. -/
theorem mem_integerFields_iff {b : UInt8} {t : IntType} :
    (b, t) ∈ integerFields ↔ b = (Format.int t).byte := by
  constructor
  · have hall : ∀ p ∈ integerFields, p.1 = (Format.int p.2).byte := by decide
    exact hall (b, t)
  · rintro rfl
    rcases t with w | w <;> cases w <;> decide

/-- **THE ENCODINGS ARE ALL THERE ARE**: an integer is read from these bytes and from no others. -/
theorem integerForm_iff {x : Int} {e : List UInt8} : IntegerForm x e ↔ IsInteger x e := by
  constructor
  · rintro (@⟨n, h⟩ | @⟨n, h⟩ | @⟨b, t, x, h, hx⟩)
    · exact ⟨.positiveFixInt ⟨n, h⟩, [], .positive ⟨n, h⟩, rfl⟩
    · exact ⟨.negativeFixInt ⟨n, h⟩, [], .negative ⟨n, h⟩, rfl⟩
    · rw [mem_integerFields_iff.mp h]
      exact ⟨.int t, _, t.holds_encode ⟨x, hx⟩, rfl⟩
  · rintro ⟨f, field, hf, rfl⟩
    cases hf with
    | positive v => exact .positive v.isLt
    | negative v => exact .negative v.isLt
    | @field t field h =>
        have hform := IntegerForm.field (mem_integerFields_iff.mpr rfl) (IntType.decode_mem h)
        have hfield : BigEndian.encode t.width.bytes
            (t.decode field % 256 ^ t.width.bytes).toNat = field := IntType.encode_decode h
        rwa [hfield] at hform

/-! ## Reading -/

namespace Reader

variable {x : Int} {b : UInt8} {field : List UInt8} {t : IntType}

/-- An integer is read as it is, with the format of its lead byte. -/
theorem gives_integer (h : IntegerForm x (b :: field)) :
    Gives integer (b :: field) (.ofByte b, x) := by
  obtain ⟨f, field', hf, heq⟩ := integerForm_iff.mp h
  obtain ⟨rfl, rfl⟩ := List.cons.inj heq
  rw [Format.ofByte_byte]
  exact Gives.of_reads fun d rest => Reads.integer hf

/-- An integer of the type is read, whatever encoding it comes in. -/
theorem gives_int (h : IntegerForm x (b :: field)) (hx : t.least ≤ x ∧ x ≤ t.greatest) :
    Gives (int t) (b :: field) ⟨x, hx⟩ := by
  intro r rest hr hahead
  rw [int, bind_of_ok (gives_integer h hr hahead)]
  dsimp only
  rw [IntType.ofInt?, dif_pos hx]
  rfl

/-- Any other integer is refused, and the error names its lead byte and the type. -/
theorem refuses_int (h : IntegerForm x (b :: field)) (hx : ¬ (t.least ≤ x ∧ x ≤ t.greatest)) :
    Refuses (int t) (b :: field) (.numericOverflow (.ofByte b) (.int t)) := by
  intro r rest hr hahead
  rw [int, bind_of_ok (gives_integer h hr hahead)]
  dsimp only
  rw [IntType.ofInt?, dif_neg hx]
  rfl

/-- Within an encoding every reader fails for want of bytes, whether the integer is one of its type
    or not. -/
theorem failsWithin_int (h : IntegerForm x (b :: field)) : FailsWithin (int t) (b :: field) := by
  refine EndsBehind.failsWithin ?_ fun _ _ => Stable.int t
  -- either way the whole encoding is consumed, and this is all that the argument needs
  by_cases hx : t.least ≤ x ∧ x ≤ t.greatest
  · exact (gives_int h hx).endsBehind
  · exact (refuses_int h hx).endsBehind

end Reader

/-! ## The result -/

/-- **ANY INTEGER ENCODING, ANY INTEGER READER**, for the integers of 64 bits with a sign or
    without.
    * Every encoding of the integer, with anything behind it, is read as the integer by the readers
      of the types that it belongs to, and the others fail with the lead byte and their type. Either
      way they consume the encoding, and within it they all fail for want of bytes.
    * What is written for a value of a type in a format of that type is one of the encodings.
    * One of the encodings is as short as any, and it is what the values of all types that are this
      integer are written as otherwise. -/
theorem integer_any_form {x : Int} (hle : -2 ^ 63 ≤ x) (hlt : x < 2 ^ 64) :
    (∀ b field, IntegerForm x (b :: field) → ∀ t : IntType,
        (∀ hx : t.least ≤ x ∧ x ≤ t.greatest, Reader.Gives (Reader.int t) (b :: field) ⟨x, hx⟩)
        ∧ (¬ (t.least ≤ x ∧ x ≤ t.greatest) →
          Reader.Refuses (Reader.int t) (b :: field) (.numericOverflow (.ofByte b) (.int t)))
        ∧ Reader.FailsWithin (Reader.int t) (b :: field))
      ∧ (∀ (t : IntType) (v : t.Carrier), v.val = x → ∃ e, IntegerForm x e
        ∧ ∀ (σ : Type) [LawfulSink σ] (oldSpec : Bool),
          Writer.Emits (σ := σ) oldSpec (Writer.Command.explicit t v).run e ())
      ∧ ∃ e, IntegerForm x e ∧ (∀ e', IntegerForm x e' → e.length ≤ e'.length)
        ∧ ∀ (t : IntType) (v : t.Carrier), v.val = x → ∀ (σ : Type) [LawfulSink σ] (oldSpec : Bool),
          Writer.Emits (σ := σ) oldSpec (Writer.Command.compact t v).run e () := by
  refine ⟨?_, ?_, ?_⟩
  · intro b field h t
    exact ⟨fun hx => Reader.gives_int h hx, fun hx => Reader.refuses_int h hx,
      Reader.failsWithin_int h⟩
  · rintro t v rfl
    exact ⟨_, integerForm_iff.mpr ⟨_, _, t.holds_encode v, rfl⟩,
      fun σ _ oldSpec => Writer.emits_command rfl⟩
  · obtain ⟨hform, hshortest⟩ := Token.shortest_encodeInt hle hlt
    refine ⟨Token.encodeInt x, integerForm_iff.mpr hform, ?_, ?_⟩
    · exact fun e' h => hshortest e' (integerForm_iff.mp h)
    · rintro t v rfl σ _ oldSpec
      exact Writer.emits_command rfl

/-- Minus one in an encoding that is wider than it needs to be is a value of any signed type and of
    no unsigned one. Its first two bytes are not enough to tell. -/
theorem integer_any_form_minus_one :
    IntegerForm (-1) [0xd1, 0xff, 0xff]
      ∧ Reader.int (.signed .w8) (.ofBytes ⟨#[0xd1, 0xff, 0xff, 0x2a]⟩)
        = .ok ⟨-1, by decide⟩ ((Reader.ofBytes ⟨#[0xd1, 0xff, 0xff, 0x2a]⟩).past 3)
      ∧ Reader.int (.unsigned .w64) (.ofBytes ⟨#[0xd1, 0xff, 0xff, 0x2a]⟩)
        = .error (.numericOverflow (.ofByte 0xd1) (.int (.unsigned .w64)))
          ((Reader.ofBytes ⟨#[0xd1, 0xff, 0xff, 0x2a]⟩).past 3)
      ∧ ∃ s, Reader.int (.signed .w8) (.ofBytes ⟨#[0xd1, 0xff]⟩) = .error .endOfStream s := by
  have hform : IntegerForm (-1) [0xd1, 0xff, 0xff] :=
    .field (t := .signed .w16) (by decide) (by decide)
  have hahead : (Cursor.ofBytes ⟨#[0xd1, 0xff, 0xff, 0x2a]⟩).ahead = [0xd1, 0xff, 0xff] ++ [0x2a] :=
    Cursor.ahead_ofBytes _
  obtain ⟨hread, -⟩ := integer_any_form (x := -1) (by decide) (by decide)
  obtain ⟨hgives, -, hfails⟩ := hread _ _ hform (.signed .w8)
  obtain ⟨-, hrefuses, -⟩ := hread _ _ hform (.unsigned .w64)
  refine ⟨hform, ?_, ?_, ?_⟩
  · exact hgives (by decide) (r := .ofBytes _) (Cursor.wellFormed_ofBytes _) hahead
  · exact hrefuses (by decide) (r := .ofBytes _) (Cursor.wellFormed_ofBytes _) hahead
  · exact hfails (y := [0xd1, 0xff]) (z := [0xff]) (r := .ofBytes _) (Cursor.wellFormed_ofBytes _)
      (Cursor.ahead_ofBytes _) rfl (List.cons_ne_nil _ _)

end MessagePack
