import MessagePack.Proofs.Command
import MessagePack.Proofs.KeyOrder
import MessagePack.Proofs.RoundTrip
import MessagePack.Schema.Codec

/-!
# Typed values come back as they were

A value of a type is written as one list of bytes, `Schema.encoding`, in either mode, and out of
that list the value is read. Both follow the structure of the type, one case for each way of making
a type; what has to fit together is that nothing but nil starts like nil, that binary data is read
from a string header too, and that the keys of a map never look like one another.

* **`Schema.roundTrips`** are the types, and **`Schema.Valid`** the values of them that the format
  has room for.
* **`Schema.emits_encoding`** and **`Schema.reads_encoding`** are the two halves, each by induction
  on the type.
* **`Schema.round_trip`** puts them together.
-/

namespace MessagePack

namespace Schema

open Reader Writer

/-! ## Types and values -/

/-- Whether a value of the type may be written as nil. -/
def isNillable : Schema → Bool
  | option _ | value => true
  | _ => false

/-- The types whose values come back as they were. An option of what may itself be nil is none of
    them. -/
def roundTrips : Schema → Bool
  | boolean | int _ | float32 | float64 | char | string | bytes | timestamp => true
  | dateTime | uuid | value => false
  | option item => !item.isNillable && item.roundTrips
  | list item => item.roundTrips
  | sortedMap k v | hashMap k v => k.isKey && k.roundTrips && v.roundTrips

/-- Whether the old specification lacks something of the type. -/
def hasTimestamp : Schema → Bool
  | timestamp => true
  | option item | list item => item.hasTimestamp
  | sortedMap k v | hashMap k v => k.hasTimestamp || v.hasTimestamp
  | _ => false

/-- Whether a policy permits the keys of all hash maps in the type. -/
def permits (p : SecurityPolicy) : Schema → Bool
  | option item | list item => item.permits p
  | sortedMap k v => k.permits p && v.permits p
  | hashMap k v =>
    (!p.collisionResistant || k.keyType.isVetted) && k.permits p && v.permits p
  | _ => true

/-- The values that a type has: a sorted map is in increasing order of key, a hash map is in any
    order and has no key twice. Every length fits into 32 bits. -/
def Valid : (s : Schema) → s.Carrier → Prop
  | string, text => text.toUTF8.size < 2 ^ 32
  | bytes, block => block.size < 2 ^ 32
  | option _, none => True
  | option item, some x => item.Valid x
  | list item, xs => xs.length < 2 ^ 32 ∧ ∀ x ∈ xs, item.Valid x
  | sortedMap k v, m => m.entries.length < 2 ^ 32
    ∧ m.entries.Pairwise (fun e f => k.compare e.1 f.1 = .lt)
    ∧ ∀ e ∈ m.entries, k.Valid e.1 ∧ v.Valid e.2
  | hashMap k v, m => m.entries.length < 2 ^ 32 ∧ (m.entries.map Prod.fst).Nodup
    ∧ ∀ e ∈ m.entries, k.Valid e.1 ∧ v.Valid e.2
  | _, _ => True

/-- The greatest of some depths. -/
def deepest (depths : List Nat) : Nat :=
  depths.foldr max 0

/-- How deep lists and maps are nested in a value. -/
def depthOf : (s : Schema) → s.Carrier → Nat
  | option _, none => 0
  | option item, some x => item.depthOf x
  | list item, xs => deepest (xs.map item.depthOf) + 1
  | sortedMap k v, m => deepest (m.entries.map fun e => max (k.depthOf e.1) (v.depthOf e.2)) + 1
  | hashMap k v, m => deepest (m.entries.map fun e => max (k.depthOf e.1) (v.depthOf e.2)) + 1
  | _, _ => 0

/-- The value with its hash maps hashed as a policy has them hashed; the entries stay. -/
def rehash (p : SecurityPolicy) : (s : Schema) → s.Carrier → s.Carrier
  | option _, none => none
  | option item, some x => some (item.rehash p x)
  | list item, xs => xs.map (item.rehash p)
  | sortedMap _ v, m => ⟨m.entries.map fun e => (e.1, v.rehash p e.2)⟩
  | hashMap _ v, m => ⟨if p.collisionResistant then .hardened else .fast,
      m.entries.map fun e => (e.1, v.rehash p e.2)⟩
  | _, x => x

/-- The bytes of entries in their order, each key before its value. -/
def encodingEntries {κ ν : Type} (key : κ → List UInt8) (value : ν → List UInt8)
    (entries : List (κ × ν)) : List UInt8 :=
  (entries.map fun e => key e.1 ++ value e.2).flatten

/-- The bytes of a value in a mode, in the smallest formats that the mode has. -/
def encoding (oldSpec : Bool) : (s : Schema) → s.Carrier → List UInt8
  | boolean, b => [(Format.boolean b).byte]
  | int _, n => Token.encodeInt n.val
  | float32, x => Format.float32.byte :: BigEndian.encode 4 x.bits.toNat
  | float64, x => Format.float64.byte :: BigEndian.encode 8 x.bits.toNat
  | char, c => Token.encodeInt c.toNat
  | string, text => Token.encodeStrHeader oldSpec text.toUTF8.size ++ text.toUTF8.data.toList
  | bytes, block => Token.encodeBlobHeader oldSpec block.size ++ block.data.toList
  | timestamp, t => Token.encodeTimestamp t
  | option _, none => [Format.nil.byte]
  | option item, some x => item.encoding oldSpec x
  | list item, xs =>
    Token.encodeArrayHeader xs.length ++ (xs.map (item.encoding oldSpec)).flatten
  | sortedMap k v, m => Token.encodeMapHeader m.entries.length
    ++ encodingEntries (k.encoding oldSpec) (v.encoding oldSpec) m.entries
  | hashMap k v, m => Token.encodeMapHeader m.entries.length
    ++ encodingEntries (k.encoding oldSpec) (v.encoding oldSpec) m.entries
  | dateTime, _ | uuid, _ | value, _ => []

/-- No depth is above the greatest. -/
theorem le_deepest {ι : Type} (f : ι → Nat) {items : List ι} {i : ι} (h : i ∈ items) :
    f i ≤ deepest (items.map f) := by
  induction items with
  | nil => cases h
  | cons j items ih =>
      show f i ≤ max (f j) (deepest (items.map f))
      rcases List.mem_cons.mp h with rfl | hmem
      · exact Nat.le_max_left _ _
      · exact Nat.le_trans (ih hmem) (Nat.le_max_right _ _)

/-- Keys have no hash maps in them. -/
theorem rehash_of_isKey {s : Schema} (p : SecurityPolicy) (h : s.isKey = true) (x : s.Carrier) :
    s.rehash p x = x := by
  -- there is no hash map in a key, so there is nothing to hash anew
  induction s with
  | option item ih =>
      cases x with
      | none => rfl
      | some x => exact congrArg some (ih h x)
  | list item ih =>
      show x.map (item.rehash p) = x
      rw [show item.rehash p = id from funext (ih h), List.map_id]
  | sortedMap k v _ ihv =>
      obtain ⟨-, hv⟩ := Bool.and_eq_true_iff.mp h
      obtain ⟨entries⟩ := x
      show SortedMap.mk (entries.map fun e => (e.1, v.rehash p e.2)) = ⟨entries⟩
      rw [show (fun e : k.Carrier × v.Carrier => (e.1, v.rehash p e.2)) = id from
        funext fun e => Prod.ext rfl (ihv hv e.2), List.map_id]
  | hashMap => cases h
  | _ => rfl

/-! ## Writing -/

section Writing

variable {σ : Type} [LawfulSink σ] {oldSpec : Bool}

/-- Parts are written one after the other. -/
theorem emits_forM {ι : Type} {items : List ι} {f : ι → Encode σ Unit} {bytes : ι → List UInt8}
    (h : ∀ i ∈ items, Emits oldSpec (f i) (bytes i) ()) :
    Emits oldSpec (items.forM f) (items.map bytes).flatten () := by
  induction items with
  | nil => exact Emits.of_pure ()
  | cons i items ih =>
      obtain ⟨hi, hitems⟩ := List.forall_mem_cons.mp h
      rw [List.map_cons, List.flatten_cons]
      exact hi.bind (ih hitems)

/-- A map is written as its header and its entries in order. -/
theorem emits_writeMap {κ ν : Type} {key : κ → Encode σ Unit} {value : ν → Encode σ Unit}
    {keys : κ → List UInt8} {values : ν → List UInt8} {entries : List (κ × ν)}
    (hlength : entries.length < 2 ^ 32)
    (h : ∀ e ∈ entries, Emits oldSpec (key e.1) (keys e.1) ()
      ∧ Emits oldSpec (value e.2) (values e.2) ()) :
    Emits oldSpec (writeMap key value entries)
      (Token.encodeMapHeader entries.length ++ encodingEntries keys values entries) () := by
  rw [writeMap]
  refine (Value.emits_countField hlength).bind_silent ((Value.emits_mapHeader hlength).bind ?_)
  exact emits_forM fun e he => (h e he).1.bind (h e he).2

/-- **WHAT IS WRITTEN**: in a mode that has all of its type, a value is written as its encoding over
    any lawful sink. -/
theorem emits_encoding {s : Schema} (hs : s.roundTrips = true)
    (hold : oldSpec = true → s.hasTimestamp = false) {x : s.Carrier} (hx : s.Valid x) :
    Emits (σ := σ) oldSpec (s.write x) (s.encoding oldSpec x) () := by
  -- by induction on the type; a scalar is one operation
  induction s with
  | boolean => exact (emits_command (c := .boolean x) rfl).ofWrite
  | int t => exact (emits_command (c := .compact t x) rfl).ofWrite
  | float32 => exact (emits_command (c := .float32 x) rfl).ofWrite
  | float64 => exact (emits_command (c := .float64 x) rfl).ofWrite
  | char => exact (emits_command (c := .char x) rfl).ofWrite
  | string => exact (emits_command (c := .str x) (if_pos hx)).ofWrite
  | bytes => exact (emits_command (c := .bin x) (if_pos hx)).ofWrite
  | timestamp =>
      have hmode : oldSpec = false := by
        cases oldSpec with
        | false => rfl
        | true => cases hold rfl
      refine (emits_command (c := .timestamp x) ?_).ofWrite
      rw [hmode]
      rfl
  | dateTime | uuid | value => cases hs
  | option item ih =>
      obtain ⟨-, hitem⟩ := Bool.and_eq_true_iff.mp hs
      cases x with
      | none => exact (emits_command (c := .nil) rfl).ofWrite
      | some x => exact ih hitem hold hx
  | list item ih =>
      obtain ⟨hlength, hitems⟩ := hx
      rw [write, encoding]
      refine (Value.emits_countField hlength).bind_silent
        ((Value.emits_arrayHeader hlength).bind ?_)
      exact emits_forM fun y hy => ih hs hold (hitems y hy)
  | sortedMap k v ihk ihv | hashMap k v ihk ihv =>
      obtain ⟨hkeys, hv⟩ := Bool.and_eq_true_iff.mp hs
      obtain ⟨-, hk⟩ := Bool.and_eq_true_iff.mp hkeys
      obtain ⟨hlength, -, hentries⟩ := hx
      have holdk : oldSpec = true → k.hasTimestamp = false := fun h =>
        (Bool.or_eq_false_iff.mp (hold h)).1
      have holdv : oldSpec = true → v.hasTimestamp = false := fun h =>
        (Bool.or_eq_false_iff.mp (hold h)).2
      refine emits_writeMap hlength fun e he => ?_
      exact ⟨ihk hk holdk (hentries e he).1, ihv hv holdv (hentries e he).2⟩

end Writing

/-! ## Nothing but nil starts like nil -/

/-- Bytes that start with a lead byte other than nil. -/
def NotNil (x : List UInt8) : Prop :=
  ∃ (f : Format) (tail : List UInt8), x = f.byte :: tail ∧ f ≠ .nil

/-- Integers do not start like nil. -/
theorem NotNil.of_isInteger {n : Int} {x : List UInt8} (h : IsInteger n x) : NotNil x := by
  obtain ⟨f, field, hf, rfl⟩ := h
  refine ⟨f, field, rfl, ?_⟩
  rintro rfl
  cases hf

/-- Headers of a table without nil do not start like nil. -/
theorem NotNil.of_headed {select : Format → Option Extent} {n : Nat} {x : List UInt8}
    (h : Headed select n x) (hnil : select .nil = none) (tail : List UInt8) :
    NotNil (x ++ tail) := by
  obtain ⟨f, e, field, hf, -, rfl⟩ := h
  refine ⟨f, field ++ tail, rfl, ?_⟩
  rintro rfl
  rw [hnil] at hf
  cases hf

/-- A value is written as nil only if its type allows it. -/
theorem notNil_encoding {s : Schema} {oldSpec : Bool} (hs : s.roundTrips = true)
    (hnil : s.isNillable = false) {x : s.Carrier} (hx : s.Valid x) :
    NotNil (s.encoding oldSpec x) := by
  -- by the first byte of each encoding
  cases s with
  | boolean =>
      refine ⟨.boolean x, [], rfl, ?_⟩
      rintro ⟨⟩
  | float32 =>
      refine ⟨.float32, _, rfl, ?_⟩
      rintro ⟨⟩
  | float64 =>
      refine ⟨.float64, _, rfl, ?_⟩
      rintro ⟨⟩
  | int t => exact .of_isInteger (Token.isInteger_encodeInt x)
  | char => exact .of_isInteger (Token.isInteger_encodeChar x)
  | string => exact .of_headed (Token.headed_encodeStrHeader oldSpec hx) rfl _
  | bytes => exact .of_headed (Token.headed_encodeBlobHeader oldSpec hx) rfl _
  | timestamp =>
      obtain ⟨payload, ⟨header, b, hheader, -, hencode⟩, -⟩ := Token.exists_encodeTimestamp x
      rw [encoding, hencode]
      exact .of_headed hheader rfl _
  | dateTime | uuid => cases hs
  | option | value => cases hnil
  | list item =>
      rw [encoding, Token.encodeArrayHeader]
      exact .of_headed (Token.counts_array.headed_encodeCount hx.1) rfl _
  | sortedMap k v | hashMap k v =>
      rw [encoding, Token.encodeMapHeader]
      exact .of_headed (Token.counts_map.headed_encodeCount hx.1) rfl _

/-- Every value takes a byte at least. -/
theorem length_encoding_pos {s : Schema} (oldSpec : Bool) (hs : s.roundTrips = true)
    {x : s.Carrier} (hx : s.Valid x) : 1 ≤ (s.encoding oldSpec x).length := by
  have hpos : ∀ {y : List UInt8}, NotNil y → 1 ≤ y.length := by
    rintro y ⟨f, tail, rfl, -⟩
    exact Nat.le_add_left 1 _
  -- what may be nil is one byte then, and what may not has a lead byte
  cases hnil : s.isNillable with
  | false => exact hpos (notNil_encoding hs hnil hx)
  | true =>
      cases s with
      | option item =>
          obtain ⟨hitem, hrest⟩ := Bool.and_eq_true_iff.mp hs
          cases x with
          | none => exact Nat.le_refl 1
          | some x =>
              exact hpos (notNil_encoding hrest (Bool.not_eq_true' _ ▸ hitem) hx)
      | value => cases hs
      | _ => cases hnil

/-! ## Reading -/

section Reading

variable {options : Options} {d : Nat} {rest : List UInt8} {E : DocumentError → Prop}

/-- A character is read from any form of its number. -/
theorem reads_char {c : Char} {x : List UInt8} (h : IsInteger c.toNat x) {E : ReadError → Prop} :
    Reads d Reader.char x rest (fun v => v = c) E := by
  obtain ⟨f, field, hf, rfl⟩ := h
  have hlt : c.toNat < 2 ^ 32 := c.val.toNat_lt
  refine (Reads.int_of_mem hf ?_).bind_last ?_
  · simp only [IntType.least, IntType.greatest, Width.bits, Width.bytes]
    omega
  · intro n hn
    have hvalue : UInt32.ofNat n.val.toNat = c.val := by
      rw [hn, Int.toNat_natCast]
      exact UInt32.ofNat_toNat
    dsimp only
    generalize UInt32.ofNat n.val.toNat = value at hvalue ⊢
    rw [hvalue, dif_pos c.valid]
    exact Reads.of_pure rfl

theorem reads_nil : Reads d tryNil [Format.nil.byte] rest (fun b => b = true) fun _ => False := by
  rw [tryNil_eq]
  refine Reads.bind_peek Reads.nextFormat ?_
  rintro f rfl
  rw [if_pos (Format.ofByte_byte .nil)]
  exact (Reads.take List.length_singleton).map fun _ _ => rfl

/-- What does not start like nil is not taken for nil. -/
theorem reads_notNil {x : List UInt8} (h : NotNil x) :
    Reads d tryNil [] (x ++ rest) (fun b => b = false) fun _ => False := by
  obtain ⟨f, tail, hx, hf⟩ := h
  rw [hx, List.cons_append]
  refine Reads.tryNil_of_ne ?_
  rwa [Format.ofByte_byte]

/-- Entries are read one after the other, and are what adding them in this order makes of them. The
    only other outcome is that one of them is not added. -/
theorem reads_readEntries {ι κ ν : Type}
    {insert? : κ → ν → List (κ × ν) → Option (List (κ × ν))} {key : Decode κ} {value : Decode ν}
    {keys values : ι → List UInt8} (entryOf : ι → κ × ν) {items : List ι} {before : List (κ × ν)}
    (hkeys : ∀ i ∈ items, ∀ rest, Reads d key (keys i) rest (fun k => k = (entryOf i).1) E)
    (hvalues : ∀ i ∈ items, ∀ rest, Reads d value (values i) rest (fun v => v = (entryOf i).2) E)
    (hduplicate : insertAll? insert? (items.map entryOf) before = none → E .duplicateKey) :
    Reads d (readEntries insert? key value items.length before)
      (items.map fun i => keys i ++ values i).flatten rest
      (fun l => insertAll? insert? (items.map entryOf) before = some l) E := by
  -- the entries read so far are what the next key must not be among
  induction items generalizing before with
  | nil => exact Reads.of_pure rfl
  | cons i items ih =>
      obtain ⟨hk, hkeys⟩ := List.forall_mem_cons.mp hkeys
      obtain ⟨hv, hvalues⟩ := List.forall_mem_cons.mp hvalues
      have hinsert : insertAll? insert? ((i :: items).map entryOf) before
          = (insert? (entryOf i).1 (entryOf i).2 before).bind
            (insertAll? insert? (items.map entryOf)) := rfl
      rw [hinsert] at hduplicate ⊢
      rw [List.map_cons, List.flatten_cons, List.append_assoc, List.length_cons, readEntries]
      refine (hk _).bind fun k hkey => (hv _).bind fun v hvalue => ?_
      rw [hkey, hvalue]
      cases hentry : insert? (entryOf i).1 (entryOf i).2 before with
      | none => exact Reads.of_throw (hduplicate (by rw [hentry]; rfl))
      | some entries =>
          rw [hentry] at hduplicate
          exact ih hkeys hvalues hduplicate

/-- A map is read out of its header and its entries, if what is in it is read, and is what adding
    the entries makes of it. -/
theorem reads_readMap {ι κ ν : Type} {insert? : κ → ν → List (κ × ν) → Option (List (κ × ν))}
    {key : Decode κ} {value : Decode ν} {header : List UInt8} {keys values : ι → List UInt8}
    (entryOf : ι → κ × ν) {items : List ι} (hheader : Headed Format.mapCount? items.length header)
    (hpair : ∀ i ∈ items, 2 ≤ (keys i ++ values i).length)
    (hd : d < options.security.maxDepth.toNat)
    (hkeys : ∀ i ∈ items, ∀ rest, Reads (d + 1) key (keys i) rest (fun k => k = (entryOf i).1) E)
    (hvalues : ∀ i ∈ items, ∀ rest,
      Reads (d + 1) value (values i) rest (fun v => v = (entryOf i).2) E)
    (hduplicate : insertAll? insert? (items.map entryOf) [] = none → E .duplicateKey) :
    Reads d (readMap options insert? key value)
      (header ++ (items.map fun i => keys i ++ values i).flatten) rest
      (fun l => insertAll? insert? (items.map entryOf) [] = some l) E := by
  -- every entry takes two bytes at least, so the count is not refused
  have hbytes := Value.mul_length_le (fun i => keys i ++ values i) 2 hpair
  refine Reads.nested (fun _ => ?_) fun hle => absurd hle (Nat.not_le_of_lt hd)
  refine Reads.bind ((Reads.mapHeader hheader ?_).ofRead_of_sure) ?_
  · rw [List.length_append]
    omega
  · intro n hn
    rw [hn]
    exact reads_readEntries entryOf hkeys hvalues hduplicate

/-- A map is read out of its encoding. -/
theorem reads_encodingMap {k v : Schema} {oldSpec : Bool} {entries : List (k.Carrier × v.Carrier)}
    {insert? : k.Carrier → v.Carrier → List (k.Carrier × v.Carrier)
      → Option (List (k.Carrier × v.Carrier))} {after : List (k.Carrier × v.Carrier)}
    (hkey : k.isKey = true) (hk : k.roundTrips = true) (hv : v.roundTrips = true)
    (hlength : entries.length < 2 ^ 32) (hentries : ∀ e ∈ entries, k.Valid e.1 ∧ v.Valid e.2)
    (hd : d + (deepest (entries.map fun e => max (k.depthOf e.1) (v.depthOf e.2)) + 1)
      ≤ options.security.maxDepth.toNat)
    (hkeys : ∀ {x rest}, k.Valid x → d + 1 + k.depthOf x ≤ options.security.maxDepth.toNat →
      Reads (d + 1) (k.read options) (k.encoding oldSpec x) rest
        (fun y => y = k.rehash options.security x) E)
    (hvalues : ∀ {x rest}, v.Valid x → d + 1 + v.depthOf x ≤ options.security.maxDepth.toNat →
      Reads (d + 1) (v.read options) (v.encoding oldSpec x) rest
        (fun y => y = v.rehash options.security x) E)
    (hinsert : insertAll? insert? (entries.map fun e => (e.1, v.rehash options.security e.2)) []
      = some after) :
    Reads d (readMap options insert? (k.read options) (v.read options))
      (Token.encodeMapHeader entries.length
        ++ encodingEntries (k.encoding oldSpec) (v.encoding oldSpec) entries) rest
      (fun l => l = after) E := by
  have hheader : Headed Format.mapCount? entries.length (Token.encodeMapHeader entries.length) := by
    rw [Token.encodeMapHeader]
    exact Token.counts_map.headed_encodeCount hlength
  have hdepth : ∀ e ∈ entries, d + 1 + max (k.depthOf e.1) (v.depthOf e.2)
      ≤ options.security.maxDepth.toNat := by
    intro e he
    have hle := le_deepest (fun e : k.Carrier × v.Carrier => max (k.depthOf e.1) (v.depthOf e.2)) he
    omega
  refine (reads_readMap (fun e => (e.1, v.rehash options.security e.2)) hheader ?_ (by omega) ?_ ?_
    ?_).imp ?_
  · intro e he
    have hkpos := length_encoding_pos oldSpec hk (hentries e he).1
    have hvpos := length_encoding_pos oldSpec hv (hentries e he).2
    rw [List.length_append]
    omega
  · intro e he _
    have hle := hdepth e he
    refine (hkeys (hentries e he).1 (by omega)).imp ?_
    rintro y rfl
    exact rehash_of_isKey options.security hkey e.1
  · intro e he _
    have hle := hdepth e he
    exact hvalues (hentries e he).2 (by omega)
  · intro hnone
    rw [hinsert] at hnone
    cases hnone
  · intro l hl
    exact Option.some.inj (hl.symm.trans hinsert)

/-- A text is read from what it is written as, in either mode. -/
theorem reads_string {oldSpec : Bool} {text : String} (h : text.toUTF8.size < 2 ^ 32) :
    Reads d (Decode.ofNonNil Reader.string)
      (Token.encodeStrHeader oldSpec text.toUTF8.size ++ text.toUTF8.data.toList) rest
      (fun t => t = text) E := by
  have hdecode : Utf8.decode ⟨text.toUTF8.data.toList.toArray⟩ = .ok text :=
    Utf8.decode_toUTF8 text
  refine Reads.ofNonNil (Reads.string (Token.headed_encodeStrHeader oldSpec h)) ?_ |>.imp ?_
  · rintro e ⟨fault, -, hfault⟩
    cases hdecode.symm.trans hfault
  · intro t ht
    cases hdecode.symm.trans ht
    rfl

theorem reads_bytes {oldSpec : Bool} {block : ByteArray} (h : block.size < 2 ^ 32) :
    Reads d (do return (← Decode.ofNonNil Reader.bytes).toBytes)
      (Token.encodeBlobHeader oldSpec block.size ++ block.data.toList) rest
      (fun b => b = block) E := by
  refine Reads.map (Reads.ofNonNil (E := fun _ => False)
    (Reads.bytes (Token.headed_encodeBlobHeader oldSpec h)) fun _ he => he.elim) ?_
  intro v hv
  exact eq_of_toList hv.toList_toBytes

theorem reads_timestamp (t : Timestamp) :
    Reads d (Decode.ofRead Reader.timestamp) (Token.encodeTimestamp t) rest (fun u => u = t) E := by
  obtain ⟨payload, hextended, ht⟩ := Token.exists_encodeTimestamp t
  refine Reads.ofRead (Reads.timestamp hextended) ?_ |>.imp ?_
  · rintro e ⟨-, hfault⟩
    cases ht.symm.trans hfault
  · intro u hu
    exact Option.some.inj (hu.symm.trans ht)

/-- A policy that permits the keys has them hashed in its way. -/
theorem keyHasher_of_permits {p : SecurityPolicy} {key : KeyType}
    (h : (!p.collisionResistant || key.isVetted) = true) :
    p.keyHasher key = .ok (if p.collisionResistant then .hardened else .fast) := by
  rw [SecurityPolicy.keyHasher]
  cases hresistant : p.collisionResistant with
  | false => rfl
  | true =>
      rw [hresistant] at h
      exact if_pos h

/-- **WHAT IS READ**: out of the encoding of a value, in either mode, the value is read by every
    policy that permits its keys and its depth. -/
theorem reads_encoding {s : Schema} {oldSpec : Bool} (hs : s.roundTrips = true)
    (hp : s.permits options.security = true) {x : s.Carrier} (hx : s.Valid x)
    (hd : d + s.depthOf x ≤ options.security.maxDepth.toNat) :
    Reads d (s.read options) (s.encoding oldSpec x) rest
      (fun y => y = s.rehash options.security x) E := by
  -- by induction on the type, at every depth
  induction s generalizing d rest with
  | boolean => exact Reads.boolean.ofRead_of_sure
  | int t =>
      obtain ⟨f, field, hf, hencode⟩ := Token.isInteger_encodeInt x
      have hread : Reads d (Reader.int t) (f.byte :: field) rest (fun v => v.val = x.val)
          fun _ => False := Reads.int_of_mem hf x.property
      rw [encoding, hencode]
      exact hread.ofRead_of_sure.imp fun _ hv => Subtype.ext hv
  | float32 =>
      refine (Reads.float32 (BigEndian.length_encode 4 x.bits.toNat)).ofRead_of_sure.imp ?_
      rintro y rfl
      rw [BigEndian.decode_encode_of_lt x.bits.toNat_lt, UInt32.ofNat_toNat]
      rfl
  | float64 =>
      refine (Reads.float64 (BigEndian.length_encode 8 x.bits.toNat)).ofRead_of_sure.imp ?_
      rintro y rfl
      rw [BigEndian.decode_encode_of_lt x.bits.toNat_lt, UInt64.ofNat_toNat]
      rfl
  | char => exact (reads_char (Token.isInteger_encodeChar x)).ofRead_of_sure
  | string => exact reads_string hx
  | bytes => exact reads_bytes hx
  | timestamp => exact reads_timestamp x
  | dateTime | uuid | value => cases hs
  | option item ih =>
      obtain ⟨hitem, hrest⟩ := Bool.and_eq_true_iff.mp hs
      cases x with
      | none =>
          refine reads_nil.ofRead_of_sure.bind_last ?_
          rintro _ rfl
          exact Reads.of_pure rfl
      | some x =>
          have hnil : NotNil (item.encoding oldSpec x) :=
            notNil_encoding hrest (Bool.not_eq_true' _ ▸ hitem) hx
          refine Reads.bind_peek (reads_notNil hnil).ofRead_of_sure ?_
          rintro _ rfl
          exact (ih hrest hp hx hd).map fun _ hy => congrArg some hy
  | list item ih =>
      obtain ⟨hlength, hitems⟩ := hx
      have hheader : Headed Format.arrayCount? x.length (Token.encodeArrayHeader x.length) := by
        rw [Token.encodeArrayHeader]
        exact Token.counts_array.headed_encodeCount hlength
      have hpos : ∀ y ∈ x, 1 ≤ (item.encoding oldSpec y).length := fun y hy =>
        length_encoding_pos (s := item) oldSpec hs (hitems y hy)
      have hbytes := Value.mul_length_le (item.encoding oldSpec) 1 hpos
      have hdepth : ∀ y ∈ x, d + 1 + item.depthOf y ≤ options.security.maxDepth.toNat := by
        intro y hy
        have hle := le_deepest item.depthOf hy
        rw [depthOf] at hd
        omega
      refine Reads.nested (fun _ => ?_) ?_
      · refine Reads.bind ((Reads.arrayHeader hheader ?_).ofRead_of_sure) ?_
        · rw [List.length_append]
          omega
        · intro n hn
          rw [hn]
          exact (Reads.replicate x fun y hy _ => ih hs hp (hitems y hy) (hdepth y hy)).imp
            fun _ => Value.eq_map_of_forall₂
      · intro hle
        rw [depthOf] at hd
        omega
  | sortedMap k v ihk ihv =>
      obtain ⟨hkeys, hv⟩ := Bool.and_eq_true_iff.mp hs
      obtain ⟨hkey, hk⟩ := Bool.and_eq_true_iff.mp hkeys
      obtain ⟨hpk, hpv⟩ := Bool.and_eq_true_iff.mp hp
      obtain ⟨hlength, hsorted, hentries⟩ := hx
      have hsorted' : (x.entries.map fun e => (e.1, v.rehash options.security e.2)).Pairwise
          fun e f => k.compare e.1 f.1 = .lt := List.pairwise_map.mpr hsorted
      have hinsert := insertAll?_sorted (isOrder_compare hkey) hsorted' (.refl _)
      refine Reads.map (reads_encodingMap hkey hk hv hlength hentries hd (ihk hk hpk) (ihv hv hpv)
        hinsert) ?_
      exact fun l hl => congrArg SortedMap.mk hl
  | hashMap k v ihk ihv =>
      obtain ⟨hkeys, hv⟩ := Bool.and_eq_true_iff.mp hs
      obtain ⟨hkey, hk⟩ := Bool.and_eq_true_iff.mp hkeys
      obtain ⟨hpermits, hpv⟩ := Bool.and_eq_true_iff.mp hp
      obtain ⟨hpermit, hpk⟩ := Bool.and_eq_true_iff.mp hpermits
      obtain ⟨hlength, hnodup, hentries⟩ := hx
      have hnodup' : ((x.entries.map fun e => (e.1, v.rehash options.security e.2)).map
          Prod.fst).Nodup := by
        rwa [List.map_map]
      have hinsert := insertAll?_front (isOrder_compare hkey) hnodup'
      rw [read, keyHasher_of_permits hpermit]
      refine Reads.map (reads_encodingMap hkey hk hv hlength hentries hd (ihk hk hpk) (ihv hv hpv)
        hinsert) ?_
      rintro l rfl
      rw [List.reverse_reverse]
      rfl

end Reading

/-! ## Round trips -/

/-- In a mode, a value of a type is written as the bytes `e` over every lawful sink. -/
def Writes (s : Schema) (oldSpec : Bool) (x : s.Carrier) (e : List UInt8) : Prop :=
  ∀ (σ : Type) [LawfulSink σ] (w : Writer σ), w.oldSpec = oldSpec → ∃ sink : σ,
    s.write x w = .ok () ⟨sink, oldSpec⟩
      ∧ LawfulSink.content sink = LawfulSink.content w.sink ++ e

/-- **WRITING AND THEN READING** gives a value of any type back, in the old specification if it has
    all of the type. What was written is consumed and nothing behind it; hash maps keep their
    entries and are hashed as the policy has it. In the old specification binary data is carried by
    the headers of strings. -/
theorem round_trip {s : Schema} (oldSpec : Bool) (hs : s.roundTrips = true)
    (hold : oldSpec = true → s.hasTimestamp = false) {x : s.Carrier} (hx : s.Valid x) :
    s.Writes oldSpec x (s.encoding oldSpec x)
      ∧ (∀ (options : Options) (rest : List UInt8) (r : Reader), r.cursor.WellFormed →
        r.cursor.ahead = s.encoding oldSpec x ++ rest → s.permits options.security = true →
        r.depth + s.depthOf x ≤ options.security.maxDepth.toNat →
        ∃ t, s.read options r = .ok (s.rehash options.security x) t
          ∧ t.consumed = r.consumed + (s.encoding oldSpec x).length ∧ t.depth = r.depth
          ∧ t.cursor.ahead = rest)
      ∧ (oldSpec = true → ∀ block : ByteArray, block.size < 2 ^ 32 →
        ∃ header, Headed Format.strLength? block.size header
          ∧ bytes.encoding oldSpec block = header ++ block.data.toList) := by
  refine ⟨?_, ?_, ?_⟩
  · intro σ _ w hw
    exact emits_encoding hs hold hx w hw
  · intro options rest r hr hahead hp hd
    have hreads : Reads r.depth (s.read options) (s.encoding oldSpec x) rest
        (fun y => y = s.rehash options.security x) fun _ => False :=
      reads_encoding hs hp hx hd
    rcases hreads hr rfl hahead with ⟨y, hread, rfl⟩ | ⟨_, _, _, hfalse⟩
    · exact ⟨_, hread, rfl, rfl, ahead_past_append hahead⟩
    · exact hfalse.elim
  · rintro rfl block hblock
    exact ⟨_, Token.headed_encodeStrHeader true hblock, rfl⟩

/-- A hash map of the old specification, read back by a policy for hostile sources with a byte
    behind it. -/
theorem round_trip_hashMap :
    (hashMap string (option bytes)).Writes true ⟨.fast, [("b", some ⟨#[1, 2]⟩), ("a", none)]⟩
        [0x82, 0xa1, 0x62, 0xa2, 0x01, 0x02, 0xa1, 0x61, 0xc0]
      ∧ ∃ t, (hashMap string (option bytes)).read .untrusted
          (.ofBytes ⟨#[0x82, 0xa1, 0x62, 0xa2, 0x01, 0x02, 0xa1, 0x61, 0xc0, 0x07]⟩)
        = .ok ⟨.hardened, [("b", some ⟨#[1, 2]⟩), ("a", none)]⟩ t ∧ t.consumed = 0 + 9 := by
  have hvalid : (hashMap string (option bytes)).Valid
      ⟨.fast, [("b", some ⟨#[1, 2]⟩), ("a", none)]⟩ := by
    have hb : "b".toUTF8.size < 2 ^ 32 := by decide
    have ha : "a".toUTF8.size < 2 ^ 32 := by decide
    have hblock : (ByteArray.mk #[1, 2]).size < 2 ^ 32 := by decide
    exact ⟨by decide, by decide, List.forall_mem_cons.mpr
      ⟨⟨hb, hblock⟩, List.forall_mem_singleton.mpr ⟨ha, trivial⟩⟩⟩
  have hencoding : (hashMap string (option bytes)).encoding true
      ⟨.fast, [("b", some ⟨#[1, 2]⟩), ("a", none)]⟩
      = [0x82, 0xa1, 0x62, 0xa2, 0x01, 0x02, 0xa1, 0x61, 0xc0] := by rfl
  obtain ⟨hwrites, hreads, -⟩ :=
    round_trip (s := hashMap string (option bytes)) true (by decide) (fun _ => by decide) hvalid
  rw [hencoding] at hwrites hreads
  have hdepth : 0 + (hashMap string (option bytes)).depthOf
      ⟨.fast, [("b", some ⟨#[1, 2]⟩), ("a", none)]⟩
      ≤ Options.untrusted.security.maxDepth.toNat := by decide
  obtain ⟨t, hread, hconsumed, -⟩ := hreads .untrusted [0x07] (.ofBytes ⟨#[0x82, 0xa1, 0x62, 0xa2,
    0x01, 0x02, 0xa1, 0x61, 0xc0, 0x07]⟩) (Cursor.wellFormed_ofBytes _) (Cursor.ahead_ofBytes _)
    (by decide) hdepth
  exact ⟨hwrites, t, hread, hconsumed⟩

end Schema

end MessagePack
