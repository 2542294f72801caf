import MessagePack.Proofs.Lead
import MessagePack.Proofs.Part

/-!
# Output for the old specification

The old specification has no binary data, no strings with one byte for their length, and no
timestamps. In its mode binary data go out as strings, and timestamps are refused.

* **`Value.oldEncoding`** is what a value without timestamps is written as in that mode, and
  **`Value.settled_write`** says that it is written, or that it is refused for a timestamp.
* **`Value.oldRow_oldEncoding`**: none of the tokens has a lead byte that the old specification does
  not have.
-/

namespace MessagePack

namespace Value

open Writer

/-! ## The encoding of the old specification -/

mutual

/-- The bytes of a value without timestamps in the mode of the old specification. -/
def oldEncoding : Value → List UInt8
  | string text => Token.encodeStrHeader true text.toUTF8.size ++ text.toUTF8.data.toList
  | binary bytes => Token.encodeStrHeader true bytes.size ++ bytes.data.toList
  | array items => Token.encodeArrayHeader items.length ++ oldEncodingItems items
  | map entries => Token.encodeMapHeader entries.length ++ oldEncodingEntries entries
  | v => v.encoding

/-- The bytes of a list of values. -/
def oldEncodingItems : List Value → List UInt8
  | [] => []
  | v :: rest => v.oldEncoding ++ oldEncodingItems rest

/-- The bytes of a list of entries, each key before its value. -/
def oldEncodingEntries : List (Value × Value) → List UInt8
  | [] => []
  | (k, v) :: rest => k.oldEncoding ++ v.oldEncoding ++ oldEncodingEntries rest

end

/-- A list is written as its values in order. -/
theorem oldEncodingItems_eq (items : List Value) :
    oldEncodingItems items = (items.map oldEncoding).flatten := by
  induction items with
  | nil => rfl
  | cons v items ih => rw [oldEncodingItems, ih, List.map_cons, List.flatten_cons]

theorem oldEncodingEntries_eq (entries : List (Value × Value)) :
    oldEncodingEntries entries
      = (entries.map fun e => e.1.oldEncoding ++ e.2.oldEncoding).flatten := by
  induction entries with
  | nil => rfl
  | cons e entries ih =>
      obtain ⟨k, v⟩ := e
      rw [oldEncodingEntries, ih, List.map_cons, List.flatten_cons]

/-! ## What is written and what is refused -/

/-- Whether a timestamp is a part of a value. -/
def Timed (v : Value) : Prop :=
  ∃ t, Part (.timestamp t) v

/-- A timestamp in an array is one in an item of it. -/
theorem timed_array_iff {items : List Value} :
    (array items).Timed ↔ ∃ v ∈ items, v.Timed := by
  constructor
  · rintro ⟨t, h⟩
    rcases part_array_iff.mp h with h | ⟨v, hv, h⟩
    · cases h
    · exact ⟨v, hv, t, h⟩
  · rintro ⟨v, hv, t, h⟩
    exact ⟨t, .item hv h⟩

theorem timed_map_iff {entries : List (Value × Value)} :
    (map entries).Timed ↔ ∃ e ∈ entries, e.1.Timed ∨ e.2.Timed := by
  constructor
  · rintro ⟨t, h⟩
    rcases part_map_iff.mp h with h | ⟨e, he, h⟩
    · cases h
    · exact ⟨e, he, h.imp (⟨t, ·⟩) (⟨t, ·⟩)⟩
  · rintro ⟨e, he, ⟨t, h⟩ | ⟨t, h⟩⟩
    · exact ⟨t, .key he h⟩
    · exact ⟨t, .value he h⟩

/-- What is neither a container nor a timestamp has no timestamp in it. -/
theorem not_timed {v : Value} (harray : ∀ items, v ≠ array items)
    (hmap : ∀ entries, v ≠ map entries) (hv : ∀ t, v ≠ timestamp t) : ¬ v.Timed := by
  rintro ⟨t, h⟩
  exact hv t (h.eq_of_scalar harray hmap).symm

section Settled

variable {σ : Type} [LawfulSink σ]

/-- In the mode of the old specification, a computation is refused for a timestamp. -/
def Refused (m : Encode σ Unit) : Prop :=
  ∀ w : Writer σ, w.oldSpec = true → ∃ w', m w = .error (.write .oldSpecTimestamp) w'

/-- A condition settles whether a computation is refused or puts out bytes. -/
def Settled (p : Prop) (m : Encode σ Unit) (x : List UInt8) : Prop :=
  (¬ p ∧ Emits true m x ()) ∨ (p ∧ Refused m)

/-- What puts out its bytes is settled, if nothing asks for a refusal. -/
theorem Settled.of_emits {m : Encode σ Unit} {p : Prop} {x : List UInt8} (h : Emits true m x ())
    (hp : ¬ p) : Settled p m x :=
  Or.inl ⟨hp, h⟩

theorem Settled.congr {m : Encode σ Unit} {p q : Prop} {x : List UInt8} (h : Settled p m x)
    (hpq : p ↔ q) : Settled q m x := by
  rwa [← hpq]

/-- Behind something that is written. -/
theorem Settled.behind {α : Type} {m : Encode σ α} {f : α → Encode σ Unit} {p : Prop}
    {x y : List UInt8} {a : α} (hm : Emits true m x a) (hf : Settled p (f a) y) :
    Settled p (m >>= f) (x ++ y) := by
  rcases hf with ⟨hp, hf⟩ | ⟨hp, hf⟩
  · exact Or.inl ⟨hp, hm.bind hf⟩
  · refine Or.inr ⟨hp, fun w hw => ?_⟩
    obtain ⟨sink, hok, -⟩ := hm w hw
    obtain ⟨w', herror⟩ := hf ⟨sink, true⟩ rfl
    exact ⟨w', by rw [Reader.bind_of_ok hok, herror]⟩

/-- A sequence is refused for what the first part is refused for, and for what the second one is. -/
theorem Settled.bind {m m' : Encode σ Unit} {p q : Prop} {x y : List UInt8} (hm : Settled p m x)
    (hm' : Settled q m' y) : Settled (p ∨ q) (do m; m') (x ++ y) := by
  rcases hm with ⟨hp, hm⟩ | ⟨hp, hm⟩
  · exact (Settled.behind hm hm').congr (or_iff_right hp).symm
  · refine Or.inr ⟨Or.inl hp, fun w hw => ?_⟩
    obtain ⟨w', herror⟩ := hm w hw
    exact ⟨w', Reader.bind_of_error herror⟩

/-- A list of values is refused if one of them is, and else written as all of them. -/
theorem settled_writeItems {items : List Value}
    (h : ∀ v ∈ items, Settled (σ := σ) v.Timed v.write v.oldEncoding) :
    Settled (σ := σ) (∃ v ∈ items, v.Timed) (writeItems items) (oldEncodingItems items) := by
  -- the first item that is refused ends the writing, and what it had put out stays
  induction items with
  | nil =>
      rw [writeItems, oldEncodingItems]
      exact .of_emits (Emits.of_pure ()) (by simp)
  | cons v items ih =>
      obtain ⟨hv, hitems⟩ := List.forall_mem_cons.mp h
      rw [writeItems, oldEncodingItems]
      exact (hv.bind (ih hitems)).congr (List.exists_mem_cons_iff _ _ _).symm

theorem settled_writeEntries {entries : List (Value × Value)}
    (hkeys : ∀ e ∈ entries, Settled (σ := σ) e.1.Timed e.1.write e.1.oldEncoding)
    (hvalues : ∀ e ∈ entries, Settled (σ := σ) e.2.Timed e.2.write e.2.oldEncoding) :
    Settled (σ := σ) (∃ e ∈ entries, e.1.Timed ∨ e.2.Timed) (writeEntries entries)
      (oldEncodingEntries entries) := by
  induction entries with
  | nil =>
      rw [writeEntries, oldEncodingEntries]
      exact .of_emits (Emits.of_pure ()) (by simp)
  | cons e entries ih =>
      obtain ⟨k, v⟩ := e
      obtain ⟨hk, hkeys⟩ := List.forall_mem_cons.mp hkeys
      obtain ⟨hv, hvalues⟩ := List.forall_mem_cons.mp hvalues
      rw [writeEntries, oldEncodingEntries, List.append_assoc]
      refine (hk.bind (hv.bind (ih hkeys hvalues))).congr ?_
      rw [List.exists_mem_cons_iff, or_assoc]

/-- A token of a value without timestamps is written. -/
theorem settled_command {v : Value} {c : Command} {x : List UInt8} (h : c.output true = .ok x)
    (hv : ¬ v.Timed) : Settled (σ := σ) v.Timed (Encode.ofWrite c.run) x :=
  .of_emits (emits_command h).ofWrite hv

/-- **A VALUE IS WRITTEN OR REFUSED** in the mode of the old specification, by whether a timestamp
    is one of its parts. -/
theorem settled_write {v : Value} (h : v.Canonical) :
    Settled (σ := σ) v.Timed v.write v.oldEncoding := by
  -- by induction on the value; a container is refused for the first of its parts that is refused
  induction h with
  | nil => exact settled_command (c := .nil) rfl (not_timed nofun nofun nofun)
  | boolean b => exact settled_command (c := .boolean b) rfl (not_timed nofun nofun nofun)
  | @integer n _ =>
      exact settled_command (c := .compact (.signed .w64) ⟨n.toInt, int64_mem n⟩) rfl
        (not_timed nofun nofun nofun)
  | unsigned n =>
      exact settled_command (c := .compact (.unsigned .w64) ⟨n.toNat, uint64_mem n⟩) rfl
        (not_timed nofun nofun nofun)
  | float32 f => exact settled_command (c := .float32 f) rfl (not_timed nofun nofun nofun)
  | float64 f => exact settled_command (c := .float64 f) rfl (not_timed nofun nofun nofun)
  | @string text h =>
      exact settled_command (c := .str text) (if_pos h) (not_timed nofun nofun nofun)
  | @binary bytes h =>
      exact settled_command (c := .bin bytes) (if_pos h) (not_timed nofun nofun nofun)
  | @extension type payload _ h =>
      exact settled_command (c := .ext type payload) (if_pos h) (not_timed nofun nofun nofun)
  | @timestamp t _ =>
      refine Or.inr ⟨⟨t, .self⟩, ?_⟩
      rintro ⟨sink, oldSpec⟩ rfl
      exact ⟨⟨sink, true⟩, rfl⟩
  | array h _ ih =>
      rw [write, oldEncoding]
      refine (Settled.behind (x := []) (emits_countField h) ?_).congr timed_array_iff.symm
      exact .behind (emits_arrayHeader h) (settled_writeItems ih)
  | map h _ _ ihkeys ihvalues =>
      rw [write, oldEncoding]
      refine (Settled.behind (x := []) (emits_countField h) ?_).congr timed_map_iff.symm
      exact .behind (emits_mapHeader h) (settled_writeEntries ihkeys ihvalues)

end Settled

end Value

/-! ## The lead bytes of what is written -/

/-- The lead bytes of binary data, and of strings with one byte for their length. -/
def newSpecLeads : List UInt8 :=
  [0xc4, 0xc5, 0xc6, 0xd9]

/-- Some values in a row whose tokens all have lead bytes of the old specification. -/
def OldRow (n : Nat) (x : List UInt8) : Prop :=
  ∃ leads, Leads n x leads ∧ ∀ b ∈ leads, b ∉ newSpecLeads

/-- The lead byte of any other format is one that the old specification has. -/
theorem not_mem_newSpecLeads {f : Format} (hbinary : f.kind ≠ .binary) (hstr : f ≠ .str .w8) :
    f.byte ∉ newSpecLeads := by
  -- the four lead bytes belong to just these formats
  have hall : ∀ b ∈ newSpecLeads,
      (Format.ofByte b).kind = .binary ∨ Format.ofByte b = .str .w8 := by decide +kernel
  intro hmem
  rcases hall _ hmem with h | h
  · exact hbinary (Format.ofByte_byte f ▸ h)
  · exact hstr (Format.ofByte_byte f ▸ h)

theorem oldRow_zero : OldRow 0 [] :=
  ⟨[], .nil, List.forall_mem_nil _⟩

/-- Two rows, one behind the other, are a row of both. -/
theorem OldRow.append {n m : Nat} {x y : List UInt8} (h : OldRow n x) (h' : OldRow m y) :
    OldRow (n + m) (x ++ y) := by
  obtain ⟨leads, hleads, hold⟩ := h
  obtain ⟨leads', hleads', hold'⟩ := h'
  refine ⟨leads ++ leads', hleads.append hleads', ?_⟩
  exact List.forall_mem_append.mpr ⟨hold, hold'⟩

/-- A lead byte with the values that its body counts behind it. -/
theorem OldRow.of_fills {f : Format} {body : Body} {head row : List UInt8} {k : Nat}
    (hf : f.body? = some body) (h : body.Fills head k) (hbinary : f.kind ≠ .binary)
    (hstr : f ≠ .str .w8) (hrow : OldRow k row) : OldRow 1 (f.byte :: (head ++ row)) := by
  obtain ⟨leads, hleads, hold⟩ := hrow
  refine ⟨f.byte :: leads, .of_opens_row (f.opens hf h) hleads, ?_⟩
  exact List.forall_mem_cons.mpr ⟨not_mem_newSpecLeads hbinary hstr, hold⟩

/-- A lead byte with a body that counts no values. -/
theorem oldRow_of_fills {f : Format} {body : Body} {head : List UInt8}
    (hf : f.body? = some body) (h : body.Fills head 0) (hbinary : f.kind ≠ .binary)
    (hstr : f ≠ .str .w8) : OldRow 1 (f.byte :: head) := by
  rw [← List.append_nil head]
  exact oldRow_zero.of_fills hf h hbinary hstr

/-- Integers are written with lead bytes of the old specification. -/
theorem Format.HoldsInt.oldRow {f : Format} {field : List UInt8} {n : Int}
    (h : f.HoldsInt field n) : OldRow 1 (f.byte :: field) := by
  have hbinary : f.kind ≠ .binary := by
    rw [h.kind_eq]
    nofun
  have hstr : f ≠ .str .w8 := by
    rintro rfl
    cases h
  cases h with
  | positive v => exact oldRow_of_fills rfl (.fixed rfl) hbinary hstr
  | negative v => exact oldRow_of_fills rfl (.fixed rfl) hbinary hstr
  | field h => exact oldRow_of_fills rfl (.fixed h) hbinary hstr

namespace Value

/-- A string of the old specification. -/
theorem oldRow_str (payload : List UInt8) (h : payload.length < 2 ^ 32) :
    OldRow 1 (Token.encodeStrHeader true payload.length ++ payload) := by
  obtain ⟨⟨f, e, field, hf, he, hheader⟩, -⟩ := Token.shortest_encodeStrHeader true h
  have hstr : f ≠ .str .w8 := by
    rintro rfl
    cases hf
  have hbinary : f.kind ≠ .binary := by
    rw [kind_of_strLength (strLength_of_strLengthIn hf)]
    nofun
  rw [hheader]
  exact oldRow_of_fills (body?_of_strLengthIn hf) (.sized he rfl) hbinary hstr

/-- Extensions are written with lead bytes of the old specification. -/
theorem oldRow_of_extended {type : Int8} {x payload : List UInt8}
    (h : Reader.Extended x type payload) : OldRow 1 x := by
  obtain ⟨_, b, ⟨f, e, field, hf, he, rfl⟩, -, rfl⟩ := h
  have hstr : f ≠ .str .w8 := by
    rintro rfl
    cases hf
  have hbinary : f.kind ≠ .binary := by
    rw [kind_of_extLength hf]
    nofun
  exact oldRow_of_fills (body?_of_extLength hf) (.sized he rfl) hbinary hstr

/-- A header with the values that it counts behind it. -/
theorem oldRow_of_headed {select : Format → Option Extent} {n each : Nat} {header row : List UInt8}
    (h : Headed select n header)
    (hbody : ∀ f e, select f = some e → f.body? = some (.values e each))
    (hrow : OldRow (each * n) row) : OldRow 1 (header ++ row) := by
  obtain ⟨f, e, field, hf, he, rfl⟩ := h
  have hvalues := hbody f e hf
  refine hrow.of_fills hvalues (.values he) ?_ ?_
  · intro hkind
    cases f <;> cases hkind
    cases hvalues
  · rintro rfl
    cases hvalues

/-- A list of values is written with such lead bytes, if each value is. -/
theorem oldRow_items {items : List Value} (h : ∀ v ∈ items, OldRow 1 v.oldEncoding) :
    OldRow items.length (oldEncodingItems items) := by
  induction items with
  | nil => exact oldRow_zero
  | cons v items ih =>
      obtain ⟨hv, hitems⟩ := List.forall_mem_cons.mp h
      rw [oldEncodingItems, List.length_cons, Nat.add_comm]
      exact hv.append (ih hitems)

theorem oldRow_entries {entries : List (Value × Value)}
    (hkeys : ∀ e ∈ entries, OldRow 1 e.1.oldEncoding)
    (hvalues : ∀ e ∈ entries, OldRow 1 e.2.oldEncoding) :
    OldRow (2 * entries.length) (oldEncodingEntries entries) := by
  induction entries with
  | nil => exact oldRow_zero
  | cons e entries ih =>
      obtain ⟨k, v⟩ := e
      obtain ⟨hk, hkeys⟩ := List.forall_mem_cons.mp hkeys
      obtain ⟨hv, hvalues⟩ := List.forall_mem_cons.mp hvalues
      rw [oldEncodingEntries, List.length_cons, Nat.mul_succ, Nat.add_comm]
      exact (hk.append hv).append (ih hkeys hvalues)

/-- **NO TOKEN** of what is written in the mode of the old specification, at any depth, begins with
    a lead byte of binary data or of a string with one byte for its length. -/
theorem oldRow_oldEncoding {v : Value} (h : v.Canonical) (hv : ¬ v.Timed) :
    OldRow 1 v.oldEncoding := by
  -- the formats of a string's header are those of the mode, so `str 8` is none of them
  induction h with
  | nil => exact oldRow_of_fills (f := .nil) rfl (.fixed rfl) nofun nofun
  | boolean b => exact oldRow_of_fills (f := .boolean b) rfl (.fixed rfl) nofun nofun
  | @integer n _ =>
      obtain ⟨f, field, hf, hencode⟩ :=
        Token.isInteger_encodeInt (t := .signed .w64) ⟨n.toInt, int64_mem n⟩
      show OldRow 1 (Token.encodeInt n.toInt)
      rw [hencode]
      exact hf.oldRow
  | unsigned n =>
      obtain ⟨f, field, hf, hencode⟩ :=
        Token.isInteger_encodeInt (t := .unsigned .w64) ⟨n.toNat, uint64_mem n⟩
      show OldRow 1 (Token.encodeInt n.toNat)
      rw [hencode]
      exact hf.oldRow
  | float32 x =>
      exact oldRow_of_fills (f := .float32) rfl (.fixed (BigEndian.length_encode 4 _)) nofun nofun
  | float64 x =>
      exact oldRow_of_fills (f := .float64) rfl (.fixed (BigEndian.length_encode 8 _)) nofun nofun
  | @string text h =>
      exact oldRow_str text.toUTF8.data.toList h
  | @binary bytes h =>
      exact oldRow_str bytes.data.toList h
  | @timestamp t _ => exact absurd ⟨t, .self⟩ hv
  | @extension type payload _ h =>
      exact oldRow_of_extended (Token.extended_encodeExtHeader type h)
  | @array items h _ ih =>
      have hitems : OldRow (1 * items.length) (oldEncodingItems items) := by
        rw [Nat.one_mul]
        exact oldRow_items fun v hmem => ih v hmem fun ht => hv (timed_array_iff.mpr ⟨v, hmem, ht⟩)
      rw [oldEncoding, Token.encodeArrayHeader]
      exact oldRow_of_headed (Token.counts_array.headed_encodeCount h)
        (fun _ _ => body?_of_arrayCount) hitems
  | @map entries h _ _ ihkeys ihvalues =>
      have hentries : OldRow (2 * entries.length) (oldEncodingEntries entries) :=
        oldRow_entries
          (fun e he => ihkeys e he fun ht => hv (timed_map_iff.mpr ⟨e, he, Or.inl ht⟩))
          fun e he => ihvalues e he fun ht => hv (timed_map_iff.mpr ⟨e, he, Or.inr ht⟩)
      rw [oldEncoding, Token.encodeMapHeader]
      exact oldRow_of_headed (Token.counts_map.headed_encodeCount h)
        (fun _ _ => body?_of_mapCount) hentries

end Value

end MessagePack
