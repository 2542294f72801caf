import MessagePack.Proofs.Value
import MessagePack.Schema.Codec

/-!
# Skipping and reading agree on where a value ends

Framing a stream by skips is right only if every read ends where the skip from the same place does.
Both sides go through the grammar of complete values: a read of a token or of a typed value
recognizes complete values only, and a skip passes over exactly these.

* **`Reader.TokenRead`** lists the reads of single tokens.
* **`Schema.recognizes_read`** is the induction over types for the reads of typed values.
* **`Reader.trySkip_agrees`** puts both directions together. The other one is that a value that has
  been skipped is read, unless its data are at fault; its framing never is.
-/

namespace MessagePack

namespace Reader

variable {ε α : Type} {d : Nat}

/-- Complete values are the only thing that a computation consumes. -/
def ReadsValue (d : Nat) (m : EStateM ε Reader α) : Prop :=
  Recognizes d m fun x _ => IsValue x

/-- A read of one complete value ends where the skip does. -/
theorem ReadsValue.trySkip_eq {r s : Reader} {m : EStateM ε Reader α} {a : α}
    (h : ReadsValue r.depth m) (hr : r.cursor.WellFormed) (hlt : r.cursor.remaining < 2 ^ 64)
    (hm : m r = .ok a s) : trySkip r = .ok true s := by
  -- the grammar has no choice of where a value ends
  obtain ⟨n, hn, rfl, hvalue⟩ := h hr rfl hm
  have hok := trySkip_of_isValue hr hlt hvalue (List.take_append_drop n _).symm
  rwa [hr.length_take_ahead hn] at hok

/-! ## Single tokens -/

/-- The reads of single tokens. -/
inductive TokenRead : {α : Type} → Read α → Prop
  | nil : TokenRead Reader.nil
  | boolean : TokenRead Reader.boolean
  | int (t : IntType) : TokenRead (Reader.int t)
  | char : TokenRead Reader.char
  | float32 : TokenRead Reader.float32
  | float64 : TokenRead Reader.float64
  | stringView : TokenRead Reader.stringView
  | str : TokenRead Reader.str
  | string : TokenRead Reader.string
  | bytes : TokenRead Reader.bytes
  | ext : TokenRead Reader.ext
  | timestamp : TokenRead Reader.timestamp
  | dateTime : TokenRead Reader.dateTime
  | rawValue : TokenRead Reader.rawValue

/-- An integer is a value, in whichever form and whether or not it fits the type that it is read
    as. -/
theorem readsValue_int (d : Nat) (t : IntType) : ReadsValue d (Reader.int t) := by
  refine (Recognizes.int t).mono ?_
  rintro x v ⟨f, field, rfl, h⟩
  exact h.isValue

/-- A character is read as an integer, so what was read is a value. -/
theorem readsValue_char (d : Nat) : ReadsValue d char := by
  refine Recognizes.char.mono ?_
  rintro x v ⟨f, field, n, rfl, h⟩
  exact h.isValue

/-- A number in any of the formats that a float may be read from is a value. -/
theorem readsValue_float32 (d : Nat) : ReadsValue d float32 := by
  refine Recognizes.float32.mono ?_
  rintro x v (⟨field, rfl, hlength, -⟩ | ⟨field, rfl, hlength⟩ | ⟨f, field, n, rfl, h⟩)
  · exact isValue_float32 hlength
  · exact isValue_float64 hlength
  · exact h.isValue

/-- A number in any of the formats that a float may be read from is a value. -/
theorem readsValue_float64 (d : Nat) : ReadsValue d float64 := by
  refine Recognizes.float64.mono ?_
  rintro x v (⟨field, rfl, hlength, -⟩ | ⟨field, rfl, hlength⟩ | ⟨f, field, n, rfl, h⟩)
  · exact isValue_float64 hlength
  · exact isValue_float32 hlength
  · exact h.isValue

theorem readsValue_boolean (d : Nat) : ReadsValue d boolean := by
  refine Recognizes.boolean.mono ?_
  rintro x v rfl
  exact isValue_boolean v

/-- A timestamp is an extension, and so a value. -/
theorem readsValue_timestamp (d : Nat) : ReadsValue d timestamp := by
  refine Recognizes.timestamp.mono ?_
  rintro x t ⟨payload, hx, -⟩
  exact hx.isValue

/-- A date-time is read as a timestamp. -/
theorem readsValue_dateTime (d : Nat) : ReadsValue d dateTime := by
  refine Recognizes.dateTime.mono ?_
  rintro x t ⟨payload, hx⟩
  exact hx.isValue

/-- Binary data, a string read as such, or nil: each is a value. -/
theorem readsValue_bytes (d : Nat) : ReadsValue d bytes :=
  Recognizes.bytes.mono fun _ _ h => h.isValue fun _ hv => hv.isValue fun _ _ => body?_of_binLength

/-- A string or nil is a value. -/
theorem readsValue_str (d : Nat) : ReadsValue d str :=
  Recognizes.str.mono fun _ _ h => h.isValue fun _ ht => Textual.isValue ht

theorem readsValue_string (d : Nat) : ReadsValue d string :=
  Recognizes.string.mono fun _ _ h => h.isValue fun _ ht => ht.isValue

/-- The bytes of a value are what a skip passes over. -/
theorem trySkip_of_rawValue {r s : Reader} {v : View} (h : rawValue r = .ok v s) :
    trySkip r = .ok true s := by
  -- the skip comes first, and the view of what it passed over moves nothing
  obtain ⟨r', _, hget, hrest⟩ := of_bind_eq_ok h
  cases hget
  obtain ⟨_, t, hskip, hview⟩ := of_bind_eq_ok hrest
  obtain ⟨b, t', hok, hb⟩ := of_bind_eq_ok hskip
  cases b with
  | false => cases hb
  | true =>
      cases hb
      obtain ⟨o, u, ho, hv⟩ := of_bind_eq_ok hview
      cases ho
      cases hview? : r.cursor.view? (t.consumed - r.cursor.consumed) with
      | none =>
          rw [hview?] at hv
          cases hv
      | some w =>
          rw [hview?] at hv
          cases hv
          exact hok

/-- Whatever a read of a single token consumes, skipping consumes. -/
theorem TokenRead.trySkip_eq {r s : Reader} {m : Read α} {a : α} (h : TokenRead m)
    (hr : r.cursor.WellFormed) (hlt : r.cursor.remaining < 2 ^ 64) (hm : m r = .ok a s) :
    trySkip r = .ok true s := by
  cases h with
  | nil =>
      refine ReadsValue.trySkip_eq (Recognizes.nil.mono ?_) hr hlt hm
      rintro x _ rfl
      exact isValue_nil
  | boolean => exact (readsValue_boolean _).trySkip_eq hr hlt hm
  | int t => exact (readsValue_int _ t).trySkip_eq hr hlt hm
  | char => exact (readsValue_char _).trySkip_eq hr hlt hm
  | float32 => exact (readsValue_float32 _).trySkip_eq hr hlt hm
  | float64 => exact (readsValue_float64 _).trySkip_eq hr hlt hm
  | stringView =>
      refine ReadsValue.trySkip_eq (Recognizes.stringView.mono ?_) hr hlt hm
      intro x v h
      exact h.isValue fun _ hv => hv.isValue fun _ _ => body?_of_strLength
  | str => exact (readsValue_str _).trySkip_eq hr hlt hm
  | string => exact (readsValue_string _).trySkip_eq hr hlt hm
  | bytes => exact (readsValue_bytes _).trySkip_eq hr hlt hm
  | ext =>
      refine ReadsValue.trySkip_eq (Recognizes.ext.mono ?_) hr hlt hm
      rintro x e ⟨payload, hx, -⟩
      exact hx.isValue
  | timestamp => exact (readsValue_timestamp _).trySkip_eq hr hlt hm
  | dateTime => exact (readsValue_dateTime _).trySkip_eq hr hlt hm
  | rawValue => exact trySkip_of_rawValue hm

end Reader

/-! ## Typed values -/

namespace Schema

open Reader

variable {options : Options} {d : Nat}

/-- A read that does not take nil for an answer reads a value if the one that does reads one. -/
theorem readsValue_ofNonNil {α : Type} {m : Read (Option α)} (h : ReadsValue d m) :
    ReadsValue d (Decode.ofNonNil m) :=
  Recognizes.ofNonNil (h.mono fun _ _ hx _ _ => hx)

/-- A list is a value if its items are values one level further in. -/
theorem readsValue_list {α : Type} {m : Decode α} (h : ReadsValue (d + 1) m) :
    ReadsValue d (Reader.nested .read options.security do
      let n ← Decode.ofRead Reader.arrayHeader
      Reader.replicate n.toNat m) := by
  have hitems : ReadsValue (d + 1) (do
      let n ← Decode.ofRead Reader.arrayHeader
      Reader.replicate n.toNat m) := by
    refine Recognizes.arrayHeader.ofRead.bind ?_
    intro x n hn
    refine (h.replicate n.toNat).mono ?_
    rintro y l ⟨parts, hlength, hparts, rfl, rfl⟩
    -- the items are a row of as many values as the header says
    refine hn.isValue_of_row (fun _ _ => body?_of_arrayCount) ⟨parts.map Prod.snd, ?_, ?_, rfl⟩
    · rw [List.length_map, hlength, Nat.one_mul]
    · intro z hz
      obtain ⟨p, hp, rfl⟩ := List.mem_map.mp hz
      exact hparts p hp
  exact hitems.nested.mono fun _ _ hx => hx.2

/-- Entries are read as a row of keys and values. -/
theorem recognizes_readEntries {κ ν : Type} {insert? : κ → ν → List (κ × ν) → Option (List (κ × ν))}
    {key : Decode κ} {value : Decode ν} (hkey : ReadsValue d key) (hvalue : ReadsValue d value)
    (n : Nat) (entries : List (κ × ν)) :
    Recognizes d (readEntries insert? key value n entries) fun x _ => IsRow (2 * n) x := by
  induction n generalizing entries with
  | zero => exact Recognizes.of_pure isRow_zero
  | succ n ih =>
      refine hkey.bind fun x k hx => hvalue.bind ?_
      intro y v hy
      split
      · refine (ih _).mono ?_
        intro z _ hz
        exact IsRow.cons hx (IsRow.cons hy hz)
      · exact Recognizes.of_throw _

/-- A map is a value if its keys and values are, whatever becomes of an entry that is read. -/
theorem readsValue_readMap {κ ν : Type} {insert? : κ → ν → List (κ × ν) → Option (List (κ × ν))}
    {key : Decode κ} {value : Decode ν} (hkey : ReadsValue (d + 1) key)
    (hvalue : ReadsValue (d + 1) value) : ReadsValue d (readMap options insert? key value) := by
  have hentries : ReadsValue (d + 1) (do
      let n ← Decode.ofRead Reader.mapHeader
      readEntries insert? key value n.toNat []) := by
    refine Recognizes.mapHeader.ofRead.bind ?_
    intro x n hn
    refine (recognizes_readEntries hkey hvalue n.toNat []).mono ?_
    intro y _ hy
    exact hn.isValue_of_row (fun _ _ => body?_of_mapCount) hy
  exact hentries.nested.mono fun _ _ hx => hx.2

theorem readsValue_readUuid : ReadsValue d readUuid := by
  refine (readsValue_ofNonNil (readsValue_str d)).bind_last ?_
  intro x t hx
  split
  · exact Recognizes.of_pure ⟨rfl, hx⟩
  · exact Recognizes.of_throw _

/-- Every typed read consumes one complete value. -/
theorem readsValue_read (options : Options) (s : Schema) (d : Nat) :
    ReadsValue d (s.read options) := by
  -- by induction on the type; elements are read one level deeper
  induction s generalizing d with
  | boolean => exact (readsValue_boolean d).ofRead
  | int t => exact (readsValue_int d t).ofRead
  | float32 => exact (readsValue_float32 d).ofRead
  | float64 => exact (readsValue_float64 d).ofRead
  | char => exact (readsValue_char d).ofRead
  | string => exact readsValue_ofNonNil (readsValue_string d)
  | bytes => exact (readsValue_ofNonNil (readsValue_bytes d)).map fun _ _ hx => hx
  | timestamp => exact (readsValue_timestamp d).ofRead
  | dateTime => exact (readsValue_dateTime d).ofRead
  | uuid => exact readsValue_readUuid
  | value => exact (Value.recognizes_read options d).mono fun _ _ hx => hx.1.isValue
  | option item ih =>
      refine Recognizes.tryNil.ofRead.bind ?_
      rintro x b rfl
      split
      · exact Recognizes.of_pure isValue_nil
      · exact (ih d).map fun _ _ hy => hy
  | list item ih => exact readsValue_list (ih (d + 1))
  | sortedMap k v ihk ihv =>
      exact (readsValue_readMap (ihk (d + 1)) (ihv (d + 1))).map fun _ _ hx => hx
  | hashMap k v ihk ihv =>
      rw [read]
      split
      · exact Recognizes.of_throw _
      · exact (readsValue_readMap (ihk (d + 1)) (ihv (d + 1))).map fun _ _ hx => hx

end Schema

/-! ## Both directions -/

namespace Reader

/-- What has been skipped is read to the same place, unless the data are at fault. -/
theorem read_of_trySkip {r s : Reader} (options : Options) (hr : r.cursor.WellFormed)
    (hlt : r.cursor.remaining < 2 ^ 64) (h : trySkip r = .ok true s) :
    (∃ v, Value.read options r = .ok v s)
      ∨ ∃ e t, Value.read options r = .error e t ∧ Value.DataFault options e := by
  obtain ⟨n, hn, rfl, hvalue⟩ := isValue_of_trySkip hr hlt h
  have hahead := (List.take_append_drop n r.cursor.ahead).symm
  rcases Value.reads_read_of_isValue options hvalue hr rfl hahead with ⟨v, hok, -⟩ | herror
  · rw [hr.length_take_ahead hn] at hok
    exact Or.inl ⟨v, hok⟩
  · exact Or.inr herror

/-- **SKIPPING AND READING AGREE**, over an input whose bytes a word can count. Where any read of a
    token or of a typed value succeeds, a skip from the same reader ends in the same state. Where a
    skip succeeds, a value is read to the same end under all options, or its data are at fault; its
    framing is not. -/
theorem trySkip_agrees {r s : Reader} (hr : r.cursor.WellFormed)
    (hlt : r.cursor.remaining < 2 ^ 64) :
    (∀ {α : Type} (m : Read α) (a : α), TokenRead m → m r = .ok a s → trySkip r = .ok true s)
      ∧ (∀ (options : Options) (schema : Schema) (a : schema.Carrier),
        schema.read options r = .ok a s → trySkip r = .ok true s)
      ∧ ∀ options : Options, trySkip r = .ok true s →
        (∃ v, Value.read options r = .ok v s)
          ∨ ∃ e t, Value.read options r = .error (.read e) t
            ∧ ((∃ fault, e = .invalidUtf8 fault) ∨ e = .invalidTimestamp
              ∨ e = .depthExceeded options.security.maxDepth) := by
  refine ⟨?_, ?_, ?_⟩
  · intro α m a htoken hm
    exact htoken.trySkip_eq hr hlt hm
  · intro options schema a ha
    exact (schema.readsValue_read options r.depth).trySkip_eq hr hlt ha
  · intro options h
    -- of the faults that a skipped value may have, each is one of those listed
    rcases read_of_trySkip options hr hlt h with hok | ⟨_, t, herror, hfault⟩
    · exact Or.inl hok
    · refine Or.inr ?_
      cases hfault with
      | text fault => exact ⟨_, t, herror, Or.inl ⟨fault, rfl⟩⟩
      | instant => exact ⟨_, t, herror, Or.inr (Or.inl rfl)⟩
      | depth => exact ⟨_, t, herror, Or.inr (Or.inr rfl)⟩

/-- A list of one boolean is read up to the byte behind it, and so it is skipped. -/
theorem trySkip_agrees_list :
    trySkip (.ofBytes ⟨#[0x91, 0xc3, 0x07]⟩)
      = .ok true ((Reader.ofBytes ⟨#[0x91, 0xc3, 0x07]⟩).past 2) := by
  have hread : (Schema.list .boolean).read .standard (.ofBytes ⟨#[0x91, 0xc3, 0x07]⟩)
      = .ok [true] ((Reader.ofBytes ⟨#[0x91, 0xc3, 0x07]⟩).past 2) := by rfl
  have hlt : (Reader.ofBytes ⟨#[0x91, 0xc3, 0x07]⟩).cursor.remaining < 2 ^ 64 := by
    show 3 < 2 ^ 64
    decide
  exact (trySkip_agrees (Cursor.wellFormed_ofBytes _) hlt).2.1 .standard _ _ hread

end Reader

end MessagePack
