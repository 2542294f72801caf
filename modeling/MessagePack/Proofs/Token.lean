import MessagePack.Proofs.Reader
import MessagePack.Proofs.Skip

/-!
# The forms of tokens

For every kind of token, the bytes that it is read from. A form is a relation between bytes and what
they hold, so that the many formats of one kind are one case: an integer is `Format.HoldsInt`
whatever its width, and a header is `Headed` for the table that finds its length. Each form is tied
to three things:

* the computation that reads it, forward (`Reads`) and backward (`Recognizes`);
* the grammar of complete values, which every form is a part of;
* the size of a word: lengths and counts fit into 32 bits, integers into the type of their format.
-/

namespace MessagePack

/-! ## Integers -/

namespace IntType

/-- What a field of a type holds is a value of the type. -/
theorem decode_mem {t : IntType} {field : List UInt8} (h : field.length = t.width.bytes) :
    t.least ≤ t.decode field ∧ t.decode field ≤ t.greatest := by
  have hlt := BigEndian.decode_lt field
  rw [h] at hlt
  cases t with
  | unsigned w =>
      simp only [least, greatest, decode]
      cases w <;> simp only [width, Width.bytes, Width.bits] at hlt ⊢ <;> omega
  | signed w =>
      have hpos : 0 < 256 ^ w.bytes := Nat.pow_pos (by decide)
      have hle := Int.le_bmod (x := (BigEndian.decode field : Int)) hpos
      have hbound := Int.bmod_lt (x := (BigEndian.decode field : Int)) hpos
      simp only [least, greatest, decode]
      cases w <;> simp only [Width.bytes, Width.bits] at hle hbound ⊢ <;> omega

end IntType

/-- What the bytes behind the lead byte of an integer make of it. -/
inductive Format.HoldsInt : Format → List UInt8 → Int → Prop
  | positive (v : Fin 128) : HoldsInt (.positiveFixInt v) [] v
  | negative (v : Fin 32) : HoldsInt (.negativeFixInt v) [] ((v : Int) - 32)
  | field {t : IntType} {field : List UInt8} (h : field.length = t.width.bytes) :
      HoldsInt (.int t) field (t.decode field)

/-- The signed formats hold what fits into 64 bits with a sign. -/
theorem Format.HoldsInt.signed_mem {f : Format} {field : List UInt8} {n : Int}
    (h : f.HoldsInt field n) (hf : f.isSigned = true) : -2 ^ 63 ≤ n ∧ n < 2 ^ 63 := by
  cases h with
  | positive v => cases hf
  | negative v => omega
  | @field t field h =>
      cases t with
      | unsigned w => cases hf
      | signed w =>
          have hmem := IntType.decode_mem h
          cases w <;>
            simp only [IntType.least, IntType.greatest, Width.bits, Width.bytes] at hmem <;> omega

/-- The other formats hold what fits into 64 bits without one. -/
theorem Format.HoldsInt.unsigned_mem {f : Format} {field : List UInt8} {n : Int}
    (h : f.HoldsInt field n) (hf : f.isSigned = false) : 0 ≤ n ∧ n < 2 ^ 64 := by
  cases h with
  | positive v => omega
  | negative v => cases hf
  | @field t field h =>
      cases t with
      | signed w => cases hf
      | unsigned w =>
          have hmem := IntType.decode_mem h
          cases w <;>
            simp only [IntType.least, IntType.greatest, Width.bits, Width.bytes] at hmem <;> omega

/-- What holds an integer is a format of integers. -/
theorem Format.HoldsInt.kind_eq {f : Format} {field : List UInt8} {n : Int}
    (h : f.HoldsInt field n) : f.kind = .integer := by
  cases h <;> rfl

/-! ## Headers -/

/-- A header by a table of lengths or counts: a lead byte, and the bytes in which the number is
    found. -/
def Headed (select : Format → Option Extent) (n : Nat) (x : List UInt8) : Prop :=
  ∃ f e field, select f = some e ∧ e.Holds field n ∧ x = f.byte :: field

/-- A table whose numbers all fit into 32 bits. -/
def Narrow (select : Format → Option Extent) : Prop :=
  ∀ f e, select f = some e → (∃ n < 2 ^ 32, e = .inLead n) ∨ ∃ w : LengthWidth, e = .field w.toWidth

/-- By such a table a header says a number of 32 bits. -/
theorem Narrow.lt {select : Format → Option Extent} {f : Format} {e : Extent}
    {field : List UInt8} {n : Nat} (h : Narrow select) (hf : select f = some e)
    (he : e.Holds field n) : n < 2 ^ 32 := by
  rcases h f e hf with ⟨m, hm, rfl⟩ | ⟨w, rfl⟩
  · cases he
    exact hm
  · cases he with
    | field hlength =>
        have hlt := BigEndian.decode_lt field
        rw [hlength] at hlt
        cases w <;> simp only [LengthWidth.toWidth, Width.bytes] at hlt <;> omega

theorem Headed.lt {select : Format → Option Extent} {n : Nat} {x : List UInt8}
    (h : Headed select n x) (hselect : Narrow select) : n < 2 ^ 32 := by
  obtain ⟨f, e, field, hf, he, rfl⟩ := h
  exact hselect.lt hf he

/-- The bytes decide the number and where its header ends. -/
theorem Headed.unique {select : Format → Option Extent} {n m : Nat} {x x' y y' : List UInt8}
    (h : Headed select n x) (h' : Headed select m x') (heq : x ++ y = x' ++ y') :
    x = x' ∧ n = m := by
  obtain ⟨f, e, field, hf, he, rfl⟩ := h
  obtain ⟨f', e', field', hf', he', rfl⟩ := h'
  obtain ⟨hbyte, htail⟩ := List.cons.inj heq
  cases Format.byte_inj hbyte
  cases Option.some.inj (hf.symm.trans hf')
  obtain ⟨rfl, rfl⟩ := he.unique he' htail
  exact ⟨rfl, rfl⟩

/-- The lengths and counts of the table are in the lead byte or in a field of at most four bytes. -/
theorem narrow_of_body? {f : Format} {e : Extent} {k : Nat}
    (h : f.body? = some (.sized e k) ∨ f.body? = some (.values e k)) :
    (∃ n < 2 ^ 32, e = .inLead n) ∨ ∃ w : LengthWidth, e = .field w.toWidth := by
  have hfixExt : ∀ k : Fin 5, 2 ^ k.val < 2 ^ 32 := by decide
  cases f <;> rcases h with h | h <;> cases h
  case fixMap.inr n | fixArray.inr n | fixStr.inl n => exact Or.inl ⟨_, by omega, rfl⟩
  case fixExt.inl k => exact Or.inl ⟨_, hfixExt k, rfl⟩
  case bin.inl w | ext.inl w | str.inl w => exact Or.inr ⟨w, rfl⟩
  case array.inr w | map.inr w =>
    cases w with
    | w16 => exact Or.inr ⟨.w16, rfl⟩
    | w32 => exact Or.inr ⟨.w32, rfl⟩

/-- The length in the header of a string is the length of its body. -/
theorem body?_of_strLength {f : Format} {e : Extent} (h : f.strLength? = some e) :
    f.body? = some (.sized e 0) := by
  cases f <;> cases h <;> rfl

theorem body?_of_binLength {f : Format} {e : Extent} (h : f.binLength? = some e) :
    f.body? = some (.sized e 0) := by
  cases f <;> cases h <;> rfl

/-- The body of an extension has the type in front of the payload. -/
theorem body?_of_extLength {f : Format} {e : Extent} (h : f.extLength? = some e) :
    f.body? = some (.sized e 1) := by
  cases f <;> cases h <;> rfl

/-- An array has as many values as its header counts. -/
theorem body?_of_arrayCount {f : Format} {e : Extent} (h : f.arrayCount? = some e) :
    f.body? = some (.values e 1) := by
  cases f <;> cases h <;> rfl

theorem body?_of_mapCount {f : Format} {e : Extent} (h : f.mapCount? = some e) :
    f.body? = some (.values e 2) := by
  cases f <;> cases h <;> rfl

theorem kind_of_strLength {f : Format} {e : Extent} (h : f.strLength? = some e) :
    f.kind = .string := by
  cases f <;> cases h <;> rfl

theorem kind_of_arrayCount {f : Format} {e : Extent} (h : f.arrayCount? = some e) :
    f.kind = .array := by
  cases f <;> cases h <;> rfl

theorem kind_of_mapCount {f : Format} {e : Extent} (h : f.mapCount? = some e) :
    f.kind = .map := by
  cases f <;> cases h <;> rfl

theorem kind_of_extLength {f : Format} {e : Extent} (h : f.extLength? = some e) :
    f.kind = .extension := by
  cases f <;> cases h <;> rfl

/-- A table of lengths of bodies is narrow. -/
theorem narrow_of_sized {select : Format → Option Extent} {more : Nat}
    (h : ∀ f e, select f = some e → f.body? = some (.sized e more)) : Narrow select :=
  fun f e hf => narrow_of_body? (Or.inl (h f e hf))

theorem narrow_of_values {select : Format → Option Extent} {each : Nat}
    (h : ∀ f e, select f = some e → f.body? = some (.values e each)) : Narrow select :=
  fun f e hf => narrow_of_body? (Or.inr (h f e hf))

theorem narrow_strLength : Narrow Format.strLength? :=
  narrow_of_sized fun _ _ => body?_of_strLength

theorem narrow_binLength : Narrow Format.binLength? :=
  narrow_of_sized fun _ _ => body?_of_binLength

theorem narrow_extLength : Narrow Format.extLength? :=
  narrow_of_sized fun _ _ => body?_of_extLength

theorem narrow_arrayCount : Narrow Format.arrayCount? :=
  narrow_of_values fun _ _ => body?_of_arrayCount

theorem narrow_mapCount : Narrow Format.mapCount? :=
  narrow_of_values fun _ _ => body?_of_mapCount

/-! ## Forms and complete values -/

/-- A format whose body is filled opens a value. -/
theorem Format.opens {f : Format} {body : Body} {head : List UInt8} {k : Nat}
    (hf : f.body? = some body) (h : body.Fills head k) : Opens f.byte head k :=
  ⟨body, by rw [Format.ofByte_byte, hf], h⟩

/-- A lead byte with a body that counts no values is a complete value. -/
theorem isValue_of_fills {f : Format} {body : Body} {head : List UInt8}
    (hf : f.body? = some body) (h : body.Fills head 0) : IsValue (f.byte :: head) := by
  rw [← List.append_nil head]
  exact isValue_of_opens (f.opens hf h) isRow_zero

/-- What holds an integer is a complete value. -/
theorem Format.HoldsInt.isValue {f : Format} {field : List UInt8} {n : Int}
    (h : f.HoldsInt field n) : IsValue (f.byte :: field) := by
  cases h with
  | positive v => exact isValue_of_fills rfl (.fixed rfl)
  | negative v => exact isValue_of_fills rfl (.fixed rfl)
  | field h => exact isValue_of_fills rfl (.fixed h)

/-- A header with as many bytes behind it as it says. -/
theorem Headed.isValue {select : Format → Option Extent} {n : Nat} {x payload : List UInt8}
    {more : Nat} (h : Headed select n x)
    (hselect : ∀ f e, select f = some e → f.body? = some (.sized e more))
    (hlength : payload.length = n + more) : IsValue (x ++ payload) := by
  obtain ⟨f, e, field, hf, he, rfl⟩ := h
  exact isValue_of_fills (hselect f e hf) (.sized he hlength)

/-- A header with as many values behind it as it counts, or twice as many. -/
theorem Headed.isValue_of_row {select : Format → Option Extent} {n each : Nat}
    {x rest : List UInt8} (h : Headed select n x)
    (hselect : ∀ f e, select f = some e → f.body? = some (.values e each))
    (hrest : IsRow (each * n) rest) : IsValue (x ++ rest) := by
  obtain ⟨f, e, field, hf, he, rfl⟩ := h
  exact isValue_of_opens (f.opens (hselect f e hf) (.values he)) hrest

namespace Reader

variable {d : Nat} {x rest : List UInt8} {E : ReadError → Prop}

/-! ## Reading headers -/

/-- A step that has to find something has found it before. -/
theorem Reads.of_require_step {α β : Type} {f : Cursor → Option (α × Cursor)} {g : α → β}
    {P : β → Prop} (h : Reads d (Reader.step f) x rest (fun a => P (g a)) fun _ => False) :
    Reads d (do return (← Reader.step? f).map g) x rest (fun o => ∃ b, o = some b ∧ P b) E := by
  intro r hr hd hahead
  rcases h hr hd hahead with ⟨a, hok, ha⟩ | ⟨_, _, _, hfalse⟩
  · -- the step that succeeded found something, so it finds the same without being required to
    obtain ⟨o, s, hstep, ho⟩ := of_bind_eq_ok hok
    cases o with
    | none => cases ho
    | some b =>
        cases ho
        exact Or.inl ⟨_, bind_of_ok hstep, _, rfl, ha⟩
  · exact hfalse.elim

/-- A number is read from where the header has it. -/
theorem Reads.extent? {e : Extent} {n : Nat} (he : e.Holds x n) (hn : n < 2 ^ 32) :
    Reads d (extent? e) x rest (fun o => ∃ m, o = some m ∧ m.toNat = n) E := by
  have hcast : (UInt32.ofNat n).toNat = n := UInt32.toNat_ofNat_of_lt' hn
  cases he with
  | inLead n => exact Reads.of_pure ⟨_, rfl, hcast⟩
  | field h =>
      refine Reads.of_require_step ((Reads.nat h).imp ?_)
      rintro m rfl
      exact hcast

/-- A header is read as the number that it holds. -/
theorem Reads.header? {select : Format → Option Extent} {n : Nat} (hselect : Narrow select)
    (h : Headed select n x) :
    Reads d (header? select) x rest (fun o => ∃ m, o = some m ∧ m.toNat = n) E := by
  have hn := h.lt hselect
  obtain ⟨f, e, field, hf, he, rfl⟩ := h
  refine Reads.bind (x := [f.byte]) (y := field) Reads.format? ?_
  rintro o ⟨g, rfl, rfl⟩
  dsimp only
  rw [Format.ofByte_byte, hf]
  exact Reads.extent? he hn

/-- The number that is read is the one that is there. -/
theorem Recognizes.extent? (e : Extent) : Recognizes d (extent? e) fun x o =>
    ∀ m, o = some m → ∃ n, e.Holds x n ∧ m = UInt32.ofNat n := by
  cases e with
  | inLead n =>
      refine Recognizes.of_pure ?_
      rintro m hm
      cases hm
      exact ⟨n, .inLead n, rfl⟩
  | field w =>
      refine (Recognizes.nat? w).map ?_
      intro x o ho m hm
      obtain ⟨n, rfl, rfl⟩ := Option.map_eq_some_iff.mp hm
      obtain ⟨hlength, rfl⟩ := ho n rfl
      exact ⟨_, .field hlength, rfl⟩

/-- What was read as a header is one. -/
theorem Recognizes.header? {select : Format → Option Extent} (hselect : Narrow select) :
    Recognizes d (header? select) fun x o => ∀ m, o = some m → Headed select m.toNat x := by
  refine Recognizes.format?.bind ?_
  intro y o ho
  cases o with
  | none => exact Recognizes.of_pure fun _ hm => by cases hm
  | some f =>
      obtain ⟨b, rfl, rfl⟩ := ho f rfl
      dsimp only
      -- a format that is not in the table ends the read
      cases hf : select (.ofByte b) with
      | none => exact Recognizes.of_throw _
      | some e =>
          refine (Recognizes.extent? e).mono ?_
          intro z o ho m hm
          obtain ⟨n, he, rfl⟩ := ho m hm
          rw [UInt32.toNat_ofNat_of_lt' (hselect.lt hf he)]
          exact ⟨_, e, z, hf, he, by rw [Format.byte_ofByte]; rfl⟩

/-- A number that is checked against the bytes behind it. -/
theorem Reads.check {α : Type} {m : Read α} {P : α → Prop} {g : α → Nat} (hm : Reads d m x rest P E)
    (hg : ∀ a, P a → g a ≤ rest.length) :
    Reads d (do
      let a ← m
      if (← get).remaining < g a then throw ReadError.endOfStream
      else pure a) x rest P E := by
  refine hm.bind_last fun a ha => Reads.bind_get ?_
  intro r hr _ hahead
  -- nothing is behind the header but what was given to be there
  have hle := hg a ha
  have hremaining : r.remaining = rest.length := by
    show r.cursor.remaining = _
    rw [← hr.length_ahead, hahead]
    rfl
  rw [if_neg (by omega)]
  exact Reads.of_pure ha

/-- The check for what has to follow consumes nothing. -/
theorem Recognizes.check {α : Type} {m : Read α} {g : α → Nat} {G : List UInt8 → α → Prop}
    (hm : Recognizes d m G) :
    Recognizes d (do
      let a ← m
      if (← get).remaining < g a then throw ReadError.endOfStream
      else pure a) G := by
  refine hm.bind_last fun x a ha => Recognizes.bind_get ?_
  intro r
  split
  · exact Recognizes.of_throw _
  · exact Recognizes.of_pure ⟨rfl, ha⟩

/-- The header of an array is read, if at least as many bytes follow as it counts values. -/
theorem Reads.arrayHeader {n : Nat} (h : Headed Format.arrayCount? n x) (hn : n ≤ rest.length) :
    Reads d arrayHeader x rest (fun m => m.toNat = n) E :=
  Reads.check (Reads.require (Reads.header? narrow_arrayCount h).attempt) fun _ hm => hm ▸ hn

theorem Recognizes.arrayHeader :
    Recognizes d arrayHeader fun x m => Headed Format.arrayCount? m.toNat x :=
  Recognizes.check (Recognizes.require (Recognizes.header? narrow_arrayCount).attempt)

/-- The header of a map is read, if at least two bytes follow for each entry. -/
theorem Reads.mapHeader {n : Nat} (h : Headed Format.mapCount? n x) (hn : 2 * n ≤ rest.length) :
    Reads d mapHeader x rest (fun m => m.toNat = n) E :=
  Reads.check (Reads.require (Reads.header? narrow_mapCount h).attempt) fun _ hm => hm ▸ hn

theorem Recognizes.mapHeader :
    Recognizes d mapHeader fun x m => Headed Format.mapCount? m.toNat x :=
  Recognizes.check (Recognizes.require (Recognizes.header? narrow_mapCount).attempt)

theorem Reads.strHeader {n : Nat} (h : Headed Format.strLength? n x) :
    Reads d strHeader x rest (fun m => m.toNat = n) E :=
  Reads.require (Reads.header? narrow_strLength h)

theorem Recognizes.strHeader :
    Recognizes d strHeader fun x m => Headed Format.strLength? m.toNat x :=
  Recognizes.require (Recognizes.header? narrow_strLength)

/-- The header of binary data is read as its length, and so is that of a string. -/
theorem Reads.binHeader {n : Nat} (h : Headed Format.binLength? n x) :
    Reads d binHeader x rest (fun m => m.toNat = n) E :=
  Reads.require (Reads.header? narrow_binLength h)

theorem Recognizes.binHeader :
    Recognizes d binHeader fun x m => Headed Format.binLength? m.toNat x :=
  Recognizes.require (Recognizes.header? narrow_binLength)

/-- The byte of an extension type is the type in two's complement. -/
theorem typeOfByte (b : UInt8) : Int8.ofInt ((IntType.signed .w8).decode [b]) = b.toInt8 := by
  have hall : ∀ n : Fin 256,
      Int8.ofInt ((IntType.signed .w8).decode [UInt8.ofFin n]) = (UInt8.ofFin n).toInt8 := by
    decide +kernel
  exact hall b.toFin

/-- The header of an extension is read with the type behind it. -/
theorem Reads.tryExtHeader {n : Nat} {b : UInt8} (h : Headed Format.extLength? n x) :
    Reads d tryExtHeader (x ++ [b]) rest
      (fun o => ∃ m : ExtensionHeader, o = some m ∧ m.type = b.toInt8 ∧ m.length.toNat = n) E := by
  refine Reads.attempt (Reads.bind (Reads.header? narrow_extLength h) ?_)
  rintro o ⟨length, rfl, hlength⟩
  refine Reads.of_require_step ((Reads.int rfl).imp ?_)
  intro t ht
  exact ⟨ht ▸ typeOfByte b, hlength⟩

theorem Reads.extHeader {n : Nat} {b : UInt8} (h : Headed Format.extLength? n x)
    (hn : n ≤ rest.length) :
    Reads d extHeader (x ++ [b]) rest (fun m => m.type = b.toInt8 ∧ m.length.toNat = n) E :=
  Reads.check (Reads.require (Reads.tryExtHeader h)) fun _ hm => hm.2 ▸ hn

/-- What is read is a header of an extension and the byte of its type. -/
theorem Recognizes.tryExtHeader : Recognizes d tryExtHeader fun x o =>
    ∀ m : ExtensionHeader, o = some m →
      ∃ y b, x = y ++ [b] ∧ Headed Format.extLength? m.length.toNat y ∧ m.type = b.toInt8 := by
  refine Recognizes.attempt ((Recognizes.header? narrow_extLength).bind ?_)
  intro y o ho
  cases o with
  | none => exact Recognizes.of_pure fun _ hm => by cases hm
  | some length =>
      refine (Recognizes.int? (.signed .w8)).map ?_
      intro z t ht m hm
      obtain ⟨n, rfl, rfl⟩ := Option.map_eq_some_iff.mp hm
      obtain ⟨hlength, hn⟩ := ht n rfl
      obtain ⟨b, rfl⟩ := List.length_eq_one_iff.mp hlength
      exact ⟨y, b, rfl, ho length rfl, hn ▸ typeOfByte b⟩

theorem Recognizes.extHeader : Recognizes d extHeader fun x m =>
    ∃ y b, x = y ++ [b] ∧ Headed Format.extLength? m.length.toNat y ∧ m.type = b.toInt8 :=
  Recognizes.check (Recognizes.require Recognizes.tryExtHeader)

end Reader

end MessagePack
