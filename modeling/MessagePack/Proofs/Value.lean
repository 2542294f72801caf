import MessagePack.Proofs.Payload
import MessagePack.Value.Codec

/-!
# The encodings of a value

A value can be read from many bytes: integers, headers and timestamps have wider forms than they
need. `Value.Encoded v x` says that `x` is one of the encodings of `v`, by recursion on the value
and without a reader, and reading is tied to it from both sides:

* **`Value.recognizes_readWithin`**: whatever is read is read from one of its encodings;
* **`Value.Encoded.reads`**: out of any encoding its value is read, unless it is nested deeper than
  the policy allows.

The number of bytes ahead is a bound for the descent that is never met.
-/

namespace MessagePack

namespace Value

open Reader

/-! ## Encodings -/

/-- The encodings that a value is read from. -/
inductive Encoded : Value → List UInt8 → Prop
  | nil : Encoded .nil [Format.nil.byte]
  | boolean (b : Bool) : Encoded (.boolean b) [(Format.boolean b).byte]
  | signed {f : Format} {field : List UInt8} {n : Int} (h : f.HoldsInt field n)
      (hf : f.isSigned = true) : Encoded (.ofInt (Int64.ofInt n)) (f.byte :: field)
  | unsigned {f : Format} {field : List UInt8} {n : Int} (h : f.HoldsInt field n)
      (hf : f.isSigned = false) : Encoded (.unsigned (UInt64.ofNat n.toNat)) (f.byte :: field)
  | float32 {field : List UInt8} (h : field.length = 4) :
      Encoded (.float32 ⟨UInt32.ofNat (BigEndian.decode field)⟩) (Format.float32.byte :: field)
  | float64 {field : List UInt8} (h : field.length = 8) :
      Encoded (.float64 ⟨UInt64.ofNat (BigEndian.decode field)⟩) (Format.float64.byte :: field)
  | string {x : List UInt8} {t : String} (h : Textual x t) : Encoded (.string t) x
  /-- Binary data has no header of its own in the old specification; a string header is text. -/
  | binary {w : LengthWidth} {field : List UInt8} {payload : ByteArray}
      (h : field.length = w.toWidth.bytes)
      (hlength : payload.data.toList.length = BigEndian.decode field) :
      Encoded (.binary payload) ((Format.bin w).byte :: (field ++ payload.data.toList))
  | array {header : List UInt8} {parts : List (Value × List UInt8)}
      (h : Headed Format.arrayCount? parts.length header)
      (hparts : ∀ p ∈ parts, Encoded p.1 p.2) :
      Encoded (.array (parts.map Prod.fst)) (header ++ (parts.map Prod.snd).flatten)
  | map {header : List UInt8} {parts : List ((Value × List UInt8) × (Value × List UInt8))}
      (h : Headed Format.mapCount? parts.length header)
      (hkeys : ∀ p ∈ parts, Encoded p.1.1 p.1.2) (hvalues : ∀ p ∈ parts, Encoded p.2.1 p.2.2) :
      Encoded (.map (parts.map fun p => (p.1.1, p.2.1)))
        (header ++ (parts.map fun p => p.1.2 ++ p.2.2).flatten)
  | timestamp {x payload : List UInt8} {t : Timestamp} (h : Extended x timestampType payload)
      (ht : Timestamp.ofPayload? payload = some t) : Encoded (.timestamp t) x
  | extension {x : List UInt8} {type : Int8} {payload : ByteArray}
      (h : Extended x type payload.data.toList) (htype : type ≠ timestampType) :
      Encoded (.extension type payload) x

/-- The encoding of an array whose elements are encoded one by one, each as a value of its own. -/
theorem Encoded.array_map {ι : Type} {header : List UInt8} {items : List ι} {value : ι → Value}
    {bytes : ι → List UInt8} (h : Headed Format.arrayCount? items.length header)
    (hitems : ∀ i ∈ items, Encoded (value i) (bytes i)) :
    Encoded (.array (items.map value)) (header ++ (items.map bytes).flatten) := by
  have hencoded : Encoded (.array ((items.map fun i => (value i, bytes i)).map Prod.fst))
      (header ++ ((items.map fun i => (value i, bytes i)).map Prod.snd).flatten) := by
    refine .array ?_ ?_
    · rwa [List.length_map]
    · intro p hp
      obtain ⟨i, hi, rfl⟩ := List.mem_map.mp hp
      exact hitems i hi
  rwa [List.map_map, List.map_map] at hencoded

/-- A header and encodings of the items are an encoding of the array. -/
theorem Encoded.array_of_items {header : List UInt8} {items : List Value}
    {bytes : Value → List UInt8} (h : Headed Format.arrayCount? items.length header)
    (hitems : ∀ v ∈ items, Encoded v (bytes v)) :
    Encoded (.array items) (header ++ (items.map bytes).flatten) := by
  have hencoded : Encoded (.array (items.map id)) (header ++ (items.map bytes).flatten) :=
    .array_map h hitems
  rwa [List.map_id] at hencoded

/-- The encoding of a map whose keys and values are encoded one by one, each as a value of its own.
-/
theorem Encoded.map_map {ι : Type} {header : List UInt8} {items : List ι}
    {entry : ι → Value × Value} {keys values : ι → List UInt8}
    (h : Headed Format.mapCount? items.length header)
    (hkeys : ∀ i ∈ items, Encoded (entry i).1 (keys i))
    (hvalues : ∀ i ∈ items, Encoded (entry i).2 (values i)) :
    Encoded (.map (items.map entry))
      (header ++ (items.map fun i => keys i ++ values i).flatten) := by
  have hencoded : Encoded
      (.map ((items.map fun i => (((entry i).1, keys i), ((entry i).2, values i))).map
        fun p => (p.1.1, p.2.1)))
      (header ++ ((items.map fun i => (((entry i).1, keys i), ((entry i).2, values i))).map
        fun p => p.1.2 ++ p.2.2).flatten) := by
    refine .map ?_ ?_ ?_
    · rwa [List.length_map]
    · intro p hp
      obtain ⟨i, hi, rfl⟩ := List.mem_map.mp hp
      exact hkeys i hi
    · intro p hp
      obtain ⟨i, hi, rfl⟩ := List.mem_map.mp hp
      exact hvalues i hi
  rwa [List.map_map, List.map_map] at hencoded

theorem Encoded.map_of_entries {header : List UInt8} {entries : List (Value × Value)}
    {bytes : Value → List UInt8} (h : Headed Format.mapCount? entries.length header)
    (hkeys : ∀ e ∈ entries, Encoded e.1 (bytes e.1))
    (hvalues : ∀ e ∈ entries, Encoded e.2 (bytes e.2)) :
    Encoded (.map entries) (header ++ (entries.map fun e => bytes e.1 ++ bytes e.2).flatten) := by
  have hencoded : Encoded (.map (entries.map id))
      (header ++ (entries.map fun e => bytes e.1 ++ bytes e.2).flatten) :=
    .map_map h hkeys hvalues
  rwa [List.map_id] at hencoded

/-! ## Depth -/

/-- The deepest of some items is within a bound if they all are. -/
theorem deepestItem_le_iff {least n : Nat} {items : List Value} :
    deepestItem least items ≤ n ↔ least ≤ n ∧ ∀ v ∈ items, v.depth ≤ n := by
  induction items generalizing least with
  | nil =>
      rw [deepestItem]
      constructor
      · intro h
        exact ⟨h, List.forall_mem_nil _⟩
      · exact And.left
  | cons v items ih => rw [deepestItem, ih, List.forall_mem_cons, Nat.max_le, and_assoc]

theorem deepestEntry_le_iff {least n : Nat} {entries : List (Value × Value)} :
    deepestEntry least entries ≤ n
      ↔ least ≤ n ∧ ∀ e ∈ entries, e.1.depth ≤ n ∧ e.2.depth ≤ n := by
  induction entries generalizing least with
  | nil =>
      rw [deepestEntry]
      constructor
      · intro h
        exact ⟨h, List.forall_mem_nil _⟩
      · exact And.left
  | cons e entries ih =>
      obtain ⟨k, v⟩ := e
      rw [deepestEntry, ih, List.forall_mem_cons, Nat.max_le, Nat.max_le, and_assoc]

/-- An array is one deeper than its items. -/
theorem depth_array_le_iff {n : Nat} {items : List Value} :
    (array items).depth ≤ n + 1 ↔ ∀ v ∈ items, v.depth ≤ n := by
  rw [depth, Nat.add_le_add_iff_right, deepestItem_le_iff]
  constructor
  · exact And.right
  · intro h
    exact ⟨Nat.zero_le n, h⟩

theorem depth_map_le_iff {n : Nat} {entries : List (Value × Value)} :
    (map entries).depth ≤ n + 1 ↔ ∀ e ∈ entries, e.1.depth ≤ n ∧ e.2.depth ≤ n := by
  rw [depth, Nat.add_le_add_iff_right, deepestEntry_le_iff]
  constructor
  · exact And.right
  · intro h
    exact ⟨Nat.zero_le n, h⟩

theorem depth_array_pos (items : List Value) : 0 < (array items).depth := by
  rw [depth]
  exact Nat.succ_pos _

theorem depth_map_pos (entries : List (Value × Value)) : 0 < (map entries).depth := by
  rw [depth]
  exact Nat.succ_pos _

/-- An array is deeper than each of its elements. -/
theorem lt_depth_array {n : Nat} {items : List Value} {v : Value} (hv : v ∈ items)
    (h : n < v.depth) : n + 1 < (array items).depth := by
  by_contra hle
  exact absurd (depth_array_le_iff.mp (Nat.le_of_not_lt hle) v hv) (Nat.not_le_of_lt h)

/-- A map is deeper than each of its keys and values. -/
theorem lt_depth_map {n : Nat} {entries : List (Value × Value)} {e : Value × Value}
    (he : e ∈ entries) (h : n < e.1.depth ∨ n < e.2.depth) : n + 1 < (map entries).depth := by
  by_contra hle
  have hentry := depth_map_le_iff.mp (Nat.le_of_not_lt hle) e he
  omega

theorem depth_ofInt (n : Int64) : (ofInt n).depth = 0 := by
  rw [ofInt]
  split <;> rfl

/-! ## Reading as a dispatch -/

/-- What is read once the format of the lead byte is known. -/
def readAs (options : Options) (bound : Nat) (f : Format) : Decode Value :=
  match f.kind with
  | .nil => do
    Decode.ofRead Reader.nil
    return .nil
  | .boolean => return .boolean (← Decode.ofRead Reader.boolean)
  | .integer => readInteger f
  | .float => do
    if f = .float32 then return .float32 (← Decode.ofRead Reader.float32)
    else return .float64 (← Decode.ofRead Reader.float64)
  | .string => return .string (← Decode.ofNonNil Reader.string)
  | .binary => return .binary (← Decode.ofNonNil Reader.bytes).toBytes
  | .array =>
    Reader.nested .read options.security do
      let n ← Decode.ofRead Reader.arrayHeader
      return .array (← Reader.replicate n.toNat (readWithin options bound))
  | .map =>
    Reader.nested .read options.security do
      let n ← Decode.ofRead Reader.mapHeader
      return .map (← Reader.replicate n.toNat do
        let k ← readWithin options bound
        return (k, ← readWithin options bound))
  | .extension => readExtension
  | .unknown => throw (.read (.invalidCode f))

/-- A value is read by looking at its format first. -/
theorem readWithin_succ (options : Options) (bound : Nat) : readWithin options (bound + 1) =
    Decode.ofRead nextFormat >>= readAs options bound := rfl

/-! ## What was read is encoded -/

variable {options : Options} {d : Nat}

/-- A lead byte that has been looked at is the one that was read. -/
theorem eq_ofByte {b : UInt8} {f : Format} {tail : List UInt8}
    (h : ∀ c ∈ (f.byte :: tail).head?, c = b) : f = .ofByte b := by
  rw [← h f.byte rfl, Format.ofByte_byte]

/-- What is read as an integer is an encoding of it. -/
theorem recognizes_readInteger (b : UInt8) : Recognizes d (readInteger (.ofByte b)) fun x v =>
    (∀ c ∈ x.head?, c = b) → Encoded v x ∧ v.depth = 0 := by
  rw [readInteger]
  split
  · rename_i hf
    refine (Recognizes.int _).ofRead.map ?_
    rintro x n ⟨f, field, rfl, h⟩ hhead
    exact ⟨.signed h (eq_ofByte hhead ▸ hf), depth_ofInt _⟩
  · rename_i hf
    refine (Recognizes.int _).ofRead.map ?_
    rintro x n ⟨f, field, rfl, h⟩ hhead
    exact ⟨.unsigned h (eq_ofByte hhead ▸ Bool.eq_false_iff.mpr hf), rfl⟩

/-- What is read as a float is an encoding of it, since the format was looked at before. -/
theorem recognizes_readFloat {b : UInt8} (hkind : (Format.ofByte b).kind = .float) :
    Recognizes d (do
      if Format.ofByte b = .float32 then return .float32 (← Decode.ofRead Reader.float32)
      else return .float64 (← Decode.ofRead Reader.float64)) fun x v =>
        (∀ c ∈ x.head?, c = b) → Encoded v x ∧ v.depth = 0 := by
  -- the number itself would be read from other formats too; the look excludes them
  split
  · rename_i hb
    refine Recognizes.float32.ofRead.map ?_
    rintro x v (⟨field, rfl, hlength, rfl⟩ | ⟨field, rfl, -⟩ | ⟨f, field, n, rfl, h⟩) hhead
    · exact ⟨.float32 hlength, rfl⟩
    · cases (eq_ofByte hhead).trans hb
    · rw [eq_ofByte hhead, hb] at h
      cases h
  · rename_i hb
    refine Recognizes.float64.ofRead.map ?_
    rintro x v (⟨field, rfl, hlength, rfl⟩ | ⟨field, rfl, -⟩ | ⟨f, field, n, rfl, h⟩) hhead
    · exact ⟨.float64 hlength, rfl⟩
    · exact absurd (eq_ofByte hhead).symm hb
    · rw [← eq_ofByte hhead] at hkind
      cases h <;> cases hkind

theorem recognizes_readBinary {b : UInt8} (hkind : (Format.ofByte b).kind = .binary) :
    Recognizes d (do return .binary (← Decode.ofNonNil Reader.bytes).toBytes) fun x v =>
      (∀ c ∈ x.head?, c = b) → Encoded v x ∧ v.depth = 0 := by
  have hbytes : Recognizes d bytes fun x o => ∀ v, o = some v → Payload Format.binLength? x v :=
    Recognizes.bytes.mono fun x o ho v hv => by rwa [hv] at ho
  refine hbytes.ofNonNil.map ?_
  rintro x v ⟨header, payload, ⟨f, e, field, hf, he, rfl⟩, rfl, hv⟩ hhead
  rw [← eq_ofByte hhead] at hkind
  rw [← hv.toList_toBytes] at he ⊢
  cases f <;> cases hkind
  cases hf
  obtain ⟨hfield, hlength⟩ := he.of_field
  exact ⟨.binary hfield hlength, rfl⟩

/-- The header of an extension that has been looked at is the one that is read. -/
theorem type_of_ext {r s t : Reader} {h : ExtensionHeader} {e : Extension}
    (hheader : extHeader r = .ok h s) (hext : ext r = .ok e t) : e.type = h.type := by
  obtain ⟨h', s', hok, hrest⟩ := of_bind_eq_ok hext
  rw [hheader] at hok
  cases hok
  obtain ⟨v, t', -, hret⟩ := of_bind_eq_ok hrest
  cases hret
  rfl

/-- What is read as an extension is an encoding of it, or of the timestamp that it stands for. -/
theorem recognizes_readExtension :
    Recognizes d readExtension fun x v => Encoded v x ∧ v.depth = 0 := by
  intro r t v hr hd hok
  obtain ⟨h, s, hpeek, hrest⟩ := of_bind_eq_ok hok
  -- the look at the header leaves the reader as it was
  obtain ⟨rfl, s', hheader⟩ : s = r ∧ ∃ s', extHeader r = .ok h s' := by
    rw [Decode.ofRead, EStateM.adaptExcept, Reader.ahead] at hpeek
    cases hh : extHeader r with
    | error e s => rw [hh] at hpeek; cases hpeek
    | ok h' s' => rw [hh] at hpeek; cases hpeek; exact ⟨rfl, s', rfl⟩
  split at hrest
  · have htimestamp : Recognizes d (do return .timestamp (← Decode.ofRead Reader.timestamp))
        fun x v => Encoded v x ∧ v.depth = 0 := by
      refine Recognizes.timestamp.ofRead.map ?_
      rintro x t ⟨payload, hx, ht⟩
      exact ⟨.timestamp hx ht, rfl⟩
    exact htimestamp hr hd hrest
  · rename_i htype
    obtain ⟨e, t, hok, hret⟩ := of_bind_eq_ok hrest
    cases hret
    obtain ⟨n, hn, ht, payload, hx, hshows⟩ := Recognizes.ext.ofRead hr hd hok
    rw [← hshows.toList_toBytes] at hx
    refine ⟨n, hn, ht, .extension hx ?_, rfl⟩
    rw [Decode.ofRead, EStateM.adaptExcept] at hok
    split at hok
    · cases hok
    · rename_i hext
      cases hok
      rwa [type_of_ext hheader hext]

/-- Values of an array are nested one deeper than the array. -/
theorem depth_array_le {n : Nat} {items : List Value} (hd : d < n)
    (h : ∀ v ∈ items, v.depth ≤ n - (d + 1)) : (array items).depth ≤ n - d := by
  rw [show n - d = n - (d + 1) + 1 by omega]
  exact depth_array_le_iff.mpr h

/-- A map is within the bound if its keys and values are within the smaller one. -/
theorem depth_map_le {n : Nat} {entries : List (Value × Value)} (hd : d < n)
    (h : ∀ e ∈ entries, e.1.depth ≤ n - (d + 1) ∧ e.2.depth ≤ n - (d + 1)) :
    (map entries).depth ≤ n - d := by
  rw [show n - d = n - (d + 1) + 1 by omega]
  exact depth_map_le_iff.mpr h

/-- There is room for an array that is not too deep, and for each of its elements inside it. -/
theorem of_depth_array_le {n : Nat} {items : List Value} (h : (array items).depth ≤ n - d) :
    d < n ∧ ∀ v ∈ items, v.depth ≤ n - (d + 1) := by
  have hpos := depth_array_pos items
  have hd : d < n := by omega
  rw [show n - d = n - (d + 1) + 1 by omega] at h
  exact ⟨hd, depth_array_le_iff.mp h⟩

/-- A map that is within the bound has its keys and values within the smaller one. -/
theorem of_depth_map_le {n : Nat} {entries : List (Value × Value)}
    (h : (map entries).depth ≤ n - d) :
    d < n ∧ ∀ e ∈ entries, e.1.depth ≤ n - (d + 1) ∧ e.2.depth ≤ n - (d + 1) := by
  have hpos := depth_map_pos entries
  have hd : d < n := by omega
  rw [show n - d = n - (d + 1) + 1 by omega] at h
  exact ⟨hd, depth_map_le_iff.mp h⟩

/-- **AN ARRAY** that is read is a header and encodings of its items, if its items are read so. -/
theorem recognizes_array {m : Decode Value}
    (h : Recognizes (d + 1) m fun x v =>
      Encoded v x ∧ v.depth ≤ options.security.maxDepth.toNat - (d + 1)) :
    Recognizes d (Reader.nested .read options.security do
      let n ← Decode.ofRead Reader.arrayHeader
      return .array (← Reader.replicate n.toNat m)) fun x v =>
        Encoded v x ∧ v.depth ≤ options.security.maxDepth.toNat - d := by
  -- inside the container the depth is one more, and outside again as it was
  have hitems : Recognizes (d + 1) (do
      let n ← Decode.ofRead Reader.arrayHeader
      return .array (← Reader.replicate n.toNat m)) fun x v => Encoded v x ∧ ∃ items,
        v = .array items ∧ ∀ v ∈ items, v.depth ≤ options.security.maxDepth.toNat - (d + 1) := by
    refine Recognizes.arrayHeader.ofRead.bind ?_
    intro x n hn
    refine (h.replicate n.toNat).map ?_
    rintro y items ⟨parts, hlength, hparts, rfl, rfl⟩
    refine ⟨.array (hlength ▸ hn) fun p hp => (hparts p hp).1, _, rfl, ?_⟩
    intro v hv
    obtain ⟨p, hp, rfl⟩ := List.mem_map.mp hv
    exact (hparts p hp).2
  refine hitems.nested.mono ?_
  rintro x v ⟨hd, hx, items, rfl, hitems⟩
  exact ⟨hx, depth_array_le hd hitems⟩

/-- What every element of a list comes from makes up a list. -/
theorem exists_map_eq {α β : Type} {f : β → α} {H : β → Prop} {l : List α}
    (h : ∀ a ∈ l, ∃ b, f b = a ∧ H b) : ∃ l' : List β, l'.map f = l ∧ ∀ b ∈ l', H b := by
  induction l with
  | nil => exact ⟨[], rfl, List.forall_mem_nil _⟩
  | cons a l ih =>
      obtain ⟨⟨b, rfl, hb⟩, hl⟩ := List.forall_mem_cons.mp h
      obtain ⟨l', rfl, hl'⟩ := ih hl
      exact ⟨b :: l', rfl, List.forall_mem_cons.mpr ⟨hb, hl'⟩⟩

/-- The key and the value of an entry, each with its encoding, as the entry with the two encodings
    one behind the other. -/
def joinEntry (p : (Value × List UInt8) × (Value × List UInt8)) : (Value × Value) × List UInt8 :=
  ((p.1.1, p.2.1), p.1.2 ++ p.2.2)

/-- **A MAP** that is read is a header and encodings of its keys and values, if these are read
    so. -/
theorem recognizes_map {m : Decode Value}
    (h : Recognizes (d + 1) m fun x v =>
      Encoded v x ∧ v.depth ≤ options.security.maxDepth.toNat - (d + 1)) :
    Recognizes d (Reader.nested .read options.security do
      let n ← Decode.ofRead Reader.mapHeader
      return .map (← Reader.replicate n.toNat do
        let k ← m
        return (k, ← m))) fun x v =>
        Encoded v x ∧ v.depth ≤ options.security.maxDepth.toNat - d := by
  -- one entry keeps apart the encodings of its key and its value
  have hentry : Recognizes (d + 1) (do
      let k ← m
      return (k, ← m)) fun x e => ∃ p, joinEntry p = (e, x)
        ∧ (Encoded p.1.1 p.1.2 ∧ p.1.1.depth ≤ options.security.maxDepth.toNat - (d + 1))
        ∧ Encoded p.2.1 p.2.2 ∧ p.2.1.depth ≤ options.security.maxDepth.toNat - (d + 1) :=
    h.bind fun x k hk => h.map fun y v hv => ⟨((k, x), (v, y)), rfl, hk, hv⟩
  have hentries : Recognizes (d + 1) (do
      let n ← Decode.ofRead Reader.mapHeader
      return .map (← Reader.replicate n.toNat do
        let k ← m
        return (k, ← m))) fun x v => Encoded v x ∧ ∃ entries, v = .map entries
          ∧ ∀ e ∈ entries, e.1.depth ≤ options.security.maxDepth.toNat - (d + 1)
            ∧ e.2.depth ≤ options.security.maxDepth.toNat - (d + 1) := by
    refine Recognizes.mapHeader.ofRead.bind ?_
    intro x n hn
    refine (hentry.replicate n.toNat).map ?_
    rintro y entries ⟨parts, hlength, hparts, rfl, rfl⟩
    obtain ⟨pairs, rfl, hpairs⟩ := exists_map_eq hparts
    rw [List.length_map] at hlength
    rw [List.map_map, List.map_map]
    refine ⟨.map (hlength ▸ hn) (fun p hp => (hpairs p hp).1.1) (fun p hp => (hpairs p hp).2.1),
      _, rfl, ?_⟩
    intro e he
    obtain ⟨p, hp, rfl⟩ := List.mem_map.mp he
    exact ⟨(hpairs p hp).1.2, (hpairs p hp).2.2⟩
  refine hentries.nested.mono ?_
  rintro x v ⟨hd, hx, entries, rfl, hentries⟩
  exact ⟨hx, depth_map_le hd hentries⟩

/-- **WHAT WAS READ IS ENCODED**: every value that is read has been read from one of its encodings,
    and it is nested no deeper than the policy allows. -/
theorem recognizes_readWithin (options : Options) (bound d : Nat) :
    Recognizes d (readWithin options bound) fun x v =>
      Encoded v x ∧ v.depth ≤ options.security.maxDepth.toNat - d := by
  -- by induction on the bound, one case for each kind; a container has one less for its elements
  induction bound generalizing d with
  | zero => exact Recognizes.of_throw _
  | succ bound ih =>
      rw [readWithin_succ]
      refine Recognizes.bind_peek peeks_nextFormat.ofRead ?_
      intro b
      rw [readAs]
      split
      · refine (Recognizes.nil.ofRead).map ?_
        rintro x _ rfl -
        exact ⟨.nil, Nat.zero_le _⟩
      · refine (Recognizes.boolean.ofRead).map ?_
        rintro x v rfl -
        exact ⟨.boolean v, Nat.zero_le _⟩
      · exact (recognizes_readInteger b).mono fun x v hv hhead =>
          ⟨(hv hhead).1, (hv hhead).2 ▸ Nat.zero_le _⟩
      · rename_i hkind
        exact (recognizes_readFloat hkind).mono fun x v hv hhead =>
          ⟨(hv hhead).1, (hv hhead).2 ▸ Nat.zero_le _⟩
      · have hstring : Recognizes d Reader.string fun x o => ∀ t, o = some t → Textual x t :=
          Recognizes.string.mono fun x o ho t ht => by rwa [ht] at ho
        exact hstring.ofNonNil.map fun x t ht _ => ⟨.string ht, Nat.zero_le _⟩
      · rename_i hkind
        exact (recognizes_readBinary hkind).mono fun x v hv hhead =>
          ⟨(hv hhead).1, (hv hhead).2 ▸ Nat.zero_le _⟩
      · exact (recognizes_array (ih (d + 1))).mono fun x v hv _ => hv
      · exact (recognizes_map (ih (d + 1))).mono fun x v hv _ => hv
      · exact recognizes_readExtension.mono fun x v hv _ => ⟨hv.1, hv.2 ▸ Nat.zero_le _⟩
      · exact Recognizes.of_throw _

/-! ## Each kind is read from its form -/

variable {bound : Nat} {rest : List UInt8} {E : DocumentError → Prop}

/-- The first byte decides how the value is read, and what is behind it has a bound of its own. -/
theorem reads_of_readAs {f : Format} {tail : List UInt8} {P : Value → Prop}
    (hbound : (f.byte :: tail).length ≤ bound)
    (h : ∀ k, tail.length ≤ k → Reads d (readAs options k f) (f.byte :: tail) rest P E) :
    Reads d (readWithin options bound) (f.byte :: tail) rest P E := by
  cases bound with
  | zero => exact absurd hbound (Nat.not_succ_le_zero _)
  | succ k =>
      rw [readWithin_succ]
      refine Reads.bind_peek (Reads.nextFormat.ofRead_of_sure) ?_
      rintro g rfl
      rw [Format.ofByte_byte]
      exact h k (Nat.le_of_succ_le_succ hbound)

theorem reads_nil :
    Reads d (readAs options bound .nil) [Format.nil.byte] rest (fun v => v = .nil) E :=
  (Reads.nil.ofRead_of_sure).map fun _ _ => rfl

theorem reads_boolean (b : Bool) :
    Reads d (readAs options bound (.boolean b)) [(Format.boolean b).byte] rest
      (fun v => v = .boolean b) E :=
  (Reads.boolean.ofRead_of_sure).map fun _ hb => by rw [hb]

/-- An integer, by the sign of its format. -/
theorem reads_integer {f : Format} {field : List UInt8} {n : Int} (h : f.HoldsInt field n) :
    Reads d (readAs options bound f) (f.byte :: field) rest
      (fun v => v = if f.isSigned then .ofInt (Int64.ofInt n) else .unsigned (UInt64.ofNat n.toNat))
      E := by
  rw [readAs, h.kind_eq]
  show Reads d (readInteger f) _ _ _ _
  rw [readInteger]
  -- either way the number fits into 64 bits, so that the reader of the type gives it
  cases hf : f.isSigned with
  | true =>
      have hmem := h.signed_mem hf
      have hrange : (IntType.signed .w64).least ≤ n ∧ n ≤ (IntType.signed .w64).greatest := by
        simp only [IntType.least, IntType.greatest, Width.bits, Width.bytes]
        omega
      exact ((Reads.int_of_mem h hrange).ofRead_of_sure).map
        fun m hm => by rw [hm, if_pos rfl]
  | false =>
      have hmem := h.unsigned_mem hf
      have hrange : (IntType.unsigned .w64).least ≤ n ∧ n ≤ (IntType.unsigned .w64).greatest := by
        simp only [IntType.least, IntType.greatest, Width.bits, Width.bytes]
        omega
      exact ((Reads.int_of_mem h hrange).ofRead_of_sure).map
        fun m hm => by rw [hm, if_neg Bool.false_ne_true]

theorem reads_float32 {field : List UInt8} (h : field.length = 4) :
    Reads d (readAs options bound .float32) (Format.float32.byte :: field) rest
      (fun v => v = .float32 ⟨UInt32.ofNat (BigEndian.decode field)⟩) E := by
  rw [readAs]
  exact ((Reads.float32 h).ofRead_of_sure).map fun x hx => by rw [hx]

theorem reads_float64 {field : List UInt8} (h : field.length = 8) :
    Reads d (readAs options bound .float64) (Format.float64.byte :: field) rest
      (fun v => v = .float64 ⟨UInt64.ofNat (BigEndian.decode field)⟩) E := by
  rw [readAs]
  exact ((Reads.float64 h).ofRead_of_sure).map fun x hx => by rw [hx]

/-- A string, if its bytes are text. -/
theorem reads_string {f : Format} {e : Extent} {field payload : List UInt8}
    (hf : f.strLength? = some e) (he : e.Holds field payload.length) :
    Reads d (readAs options bound f) (f.byte :: (field ++ payload)) rest
      (fun v => ∃ t, Utf8.decode ⟨payload.toArray⟩ = .ok t ∧ v = .string t)
      (fun e => ∃ fault, e = .read (.invalidUtf8 fault)
        ∧ Utf8.decode ⟨payload.toArray⟩ = .error fault) := by
  rw [readAs, kind_of_strLength hf]
  have hheader : Headed Format.strLength? payload.length (f.byte :: field) :=
    ⟨f, e, field, hf, he, rfl⟩
  refine ((Reads.string hheader).ofNonNil ?_).map ?_
  · rintro _ ⟨fault, rfl, hfault⟩
    exact ⟨fault, rfl, hfault⟩
  · exact fun t ht => ⟨t, ht, rfl⟩

/-- Binary data are read as they are. -/
theorem reads_binary {w : LengthWidth} {field payload : List UInt8}
    (h : field.length = w.toWidth.bytes) (hlength : payload.length = BigEndian.decode field) :
    Reads d (readAs options bound (.bin w)) ((Format.bin w).byte :: (field ++ payload)) rest
      (fun v => v = .binary ⟨payload.toArray⟩) E := by
  have hheader : Headed Format.binLength? payload.length ((Format.bin w).byte :: field) :=
    ⟨.bin w, .field w.toWidth, field, rfl, Extent.holds_field h hlength, rfl⟩
  refine ((Reads.bytes hheader).ofNonNil (E := fun _ => False) fun _ he => he.elim).map ?_
  rintro v hv
  rw [eq_of_toList hv.toList_toBytes]

/-- An extension, unless it is of the timestamp type and stands for no instant. -/
theorem reads_extension (rest : List UInt8) {x : List UInt8} {type : Int8} {payload : List UInt8}
    (h : Extended x type payload) :
    Reads d readExtension x rest
      (fun v => if type = timestampType then
          ∃ t, Timestamp.ofPayload? payload = some t ∧ v = .timestamp t
        else v = .extension type ⟨payload.toArray⟩)
      (fun e => type = timestampType ∧ Timestamp.ofPayload? payload = none
        ∧ e = .read .invalidTimestamp) := by
  obtain ⟨header, b, hheader, rfl, rfl⟩ := h
  have hext : Extended (header ++ b :: payload) b.toInt8 payload := ⟨header, b, hheader, rfl, rfl⟩
  have hpeek : Reads d (Reader.ahead extHeader) [] (header ++ b :: payload ++ rest)
      (fun m => m.type = b.toInt8 ∧ m.length.toNat = payload.length) fun _ => False := by
    rw [← List.singleton_append, ← List.append_assoc, List.append_assoc]
    refine Reads.ahead (Reads.extHeader hheader ?_)
    rw [List.length_append]
    omega
  refine Reads.bind_peek (hpeek.ofRead_of_sure) ?_
  intro m hm
  rw [hm.1]
  split
  · rename_i htype
    rw [htype] at hext
    refine ((Reads.timestamp hext).ofRead ?_).map ?_
    · rintro _ ⟨rfl, hnone⟩
      exact ⟨htype, hnone, rfl⟩
    · exact fun t ht => ⟨t, ht, rfl⟩
  · refine ((Reads.ext hext).ofRead_of_sure).map ?_
    intro e he
    rw [he.1, eq_of_toList he.2.toList_toBytes]

/-- Every format of extensions is read as an extension. -/
theorem readAs_of_extLength {f : Format} {e : Extent} (hf : f.extLength? = some e) :
    readAs options bound f = readExtension := by
  rw [readAs, kind_of_extLength hf]

/-- Bytes of items that take at least `k` bytes each. -/
theorem mul_length_le {ι : Type} (bytes : ι → List UInt8) (k : Nat) {items : List ι}
    (h : ∀ i ∈ items, k ≤ (bytes i).length) :
    k * items.length ≤ (items.map bytes).flatten.length := by
  induction items with
  | nil => exact Nat.zero_le _
  | cons i items ih =>
      obtain ⟨hi, hitems⟩ := List.forall_mem_cons.mp h
      have hle := ih hitems
      rw [List.map_cons, List.flatten_cons, List.length_append, List.length_cons, Nat.mul_succ]
      omega

/-- An array is read item by item, unless the policy allows no deeper nesting. -/
theorem reads_array {ι : Type} {f : Format} {e : Extent} {field : List UInt8} {items : List ι}
    {bytes : ι → List UInt8} {P : ι → Value → Prop} (hf : f.arrayCount? = some e)
    (he : e.Holds field items.length) (hbytes : ∀ i ∈ items, 1 ≤ (bytes i).length)
    (hitems : d < options.security.maxDepth.toNat → ∀ i ∈ items, ∀ rest,
      Reads (d + 1) (readWithin options bound) (bytes i) rest (P i) E)
    (hE : options.security.maxDepth.toNat ≤ d →
      E (.read (.depthExceeded options.security.maxDepth))) :
    Reads d (readAs options bound f) (f.byte :: (field ++ (items.map bytes).flatten)) rest
      (fun v => ∃ l, List.Forall₂ P items l ∧ v = .array l) E := by
  have hheader : Headed Format.arrayCount? items.length (f.byte :: field) :=
    ⟨f, e, field, hf, he, rfl⟩
  have hlength := mul_length_le bytes 1 hbytes
  rw [readAs, kind_of_arrayCount hf]
  refine Reads.nested ?_ hE
  intro hd
  refine Reads.bind (x := f.byte :: field) (y := (items.map bytes).flatten)
    ((Reads.arrayHeader hheader ?_).ofRead_of_sure) ?_
  · rw [List.length_append]
    omega
  · intro m hm
    rw [hm]
    exact (Reads.replicate items (hitems hd)).map fun l hl => ⟨l, hl, rfl⟩

/-- A map is read entry by entry, each key before its value, unless it is nested too deep. -/
theorem reads_map {ι : Type} {f : Format} {e : Extent} {field : List UInt8} {items : List ι}
    {keys values : ι → List UInt8} {P Q : ι → Value → Prop} (hf : f.mapCount? = some e)
    (he : e.Holds field items.length)
    (hbytes : ∀ i ∈ items, 1 ≤ (keys i).length ∧ 1 ≤ (values i).length)
    (hkeys : d < options.security.maxDepth.toNat → ∀ i ∈ items, ∀ rest,
      Reads (d + 1) (readWithin options bound) (keys i) rest (P i) E)
    (hvalues : d < options.security.maxDepth.toNat → ∀ i ∈ items, ∀ rest,
      Reads (d + 1) (readWithin options bound) (values i) rest (Q i) E)
    (hE : options.security.maxDepth.toNat ≤ d →
      E (.read (.depthExceeded options.security.maxDepth))) :
    Reads d (readAs options bound f)
      (f.byte :: (field ++ (items.map fun i => keys i ++ values i).flatten)) rest
      (fun v => ∃ l, List.Forall₂ (fun i e => P i e.1 ∧ Q i e.2) items l ∧ v = .map l) E := by
  have hheader : Headed Format.mapCount? items.length (f.byte :: field) :=
    ⟨f, e, field, hf, he, rfl⟩
  have hentry : ∀ i ∈ items, 2 ≤ (keys i ++ values i).length := by
    intro i hi
    have h := hbytes i hi
    rw [List.length_append]
    omega
  have hlength := mul_length_le (fun i => keys i ++ values i) 2 hentry
  rw [readAs, kind_of_mapCount hf]
  refine Reads.nested ?_ hE
  intro hd
  refine Reads.bind (x := f.byte :: field)
    (y := (items.map fun i => keys i ++ values i).flatten)
    ((Reads.mapHeader hheader ?_).ofRead_of_sure) ?_
  · rw [List.length_append]
    omega
  · intro m hm
    rw [hm]
    refine (Reads.replicate items ?_).map fun l hl => ⟨l, hl, rfl⟩
    intro i hi rest
    exact Reads.bind (hkeys hd i hi _) fun k hk =>
      (hvalues hd i hi rest).map fun v hv => ⟨hk, hv⟩

/-! ## Every encoding is read -/

/-- An encoding is a complete value. -/
theorem Encoded.isValue {v : Value} {x : List UInt8} (h : Encoded v x) : IsValue x := by
  induction h with
  | nil => exact isValue_nil
  | boolean b => exact isValue_boolean b
  | signed h _ => exact h.isValue
  | unsigned h _ => exact h.isValue
  | float32 h => exact isValue_float32 h
  | float64 h => exact isValue_float64 h
  | string h => exact h.isValue
  | @binary w field payload h hlength =>
      exact isValue_of_fills (f := .bin w) rfl (.sized (Extent.holds_field h hlength) rfl)
  | @array header parts h _ ih =>
      refine h.isValue_of_row (fun _ _ => body?_of_arrayCount) ⟨parts.map Prod.snd, ?_, ?_, rfl⟩
      · rw [List.length_map, Nat.one_mul]
      · intro y hy
        obtain ⟨p, hp, rfl⟩ := List.mem_map.mp hy
        exact ih p hp
  | map h _ _ ihkeys ihvalues =>
      exact h.isValue_of_row (fun _ _ => body?_of_mapCount) (isRow_entries ihkeys ihvalues)
  | timestamp h _ => exact h.isValue
  | extension h _ => exact h.isValue

/-- No encoding is empty. -/
theorem Encoded.length_pos {v : Value} {x : List UInt8} (h : Encoded v x) : 0 < x.length :=
  (isRow_one_iff.mpr h.isValue).le_length

/-- A list that is made element by element is the image of the other. -/
theorem eq_map_of_forall₂ {α β : Type} {f : α → β} {l : List α} {l' : List β}
    (h : List.Forall₂ (fun a b => b = f a) l l') : l' = l.map f := by
  induction h with
  | nil => rfl
  | cons hb _ ih => rw [List.map_cons, hb, ih]

/-- None of the parts is longer than all of them with what is in front. -/
theorem length_part_le {ι : Type} (bytes : ι → List UInt8) (field : List UInt8) {items : List ι}
    {i : ι} (hi : i ∈ items) :
    (bytes i).length ≤ (field ++ (items.map bytes).flatten).length := by
  have hle : (bytes i).length ≤ (items.map bytes).flatten.length :=
    (List.sublist_flatten_of_mem (List.mem_map_of_mem hi)).length_le
  rw [List.length_append]
  omega

/-- No key and no value is longer than all the entries with what is in front. -/
theorem length_entry_le {ι : Type} (keys values : ι → List UInt8) (field : List UInt8)
    {items : List ι} {i : ι} {k : Nat} (hi : i ∈ items)
    (hk : (field ++ (items.map fun i => keys i ++ values i).flatten).length ≤ k) :
    (keys i).length ≤ k ∧ (values i).length ≤ k := by
  have hle := Nat.le_trans (length_part_le (fun i => keys i ++ values i) field hi) hk
  rw [List.length_append] at hle
  omega

/-- **EVERY ENCODING IS READ**: out of any encoding of a value, with anything behind it, that value
    is read and exactly the encoding is consumed, unless it is nested deeper than the policy allows.
    Nothing else can go wrong with an encoding. -/
theorem Encoded.reads {v : Value} {x : List UInt8} (h : Encoded v x) :
    ∀ {bound d : Nat} {rest : List UInt8},
      (options.security.maxDepth.toNat - d < v.depth →
        E (.read (.depthExceeded options.security.maxDepth))) → x.length ≤ bound →
      Reads d (readWithin options bound) x rest (fun u => u = v) E := by
  -- by induction on the encoding; the parts of a container are shorter, so the bound is enough
  induction h with
  | nil => exact fun _ hbound => reads_of_readAs hbound fun _ _ => reads_nil
  | boolean b => exact fun _ hbound => reads_of_readAs hbound fun _ _ => reads_boolean b
  | signed h hf =>
      refine fun _ hbound => reads_of_readAs hbound fun _ _ =>
        (reads_integer h).imp ?_
      rintro u rfl
      rw [if_pos hf]
  | unsigned h hf =>
      refine fun _ hbound => reads_of_readAs hbound fun _ _ =>
        (reads_integer h).imp ?_
      rintro u rfl
      rw [if_neg (Bool.eq_false_iff.mp hf)]
  | float32 h => exact fun _ hbound => reads_of_readAs hbound fun _ _ => reads_float32 h
  | float64 h => exact fun _ hbound => reads_of_readAs hbound fun _ _ => reads_float64 h
  | @string x t h =>
      intro bound d rest _ hbound
      obtain ⟨header, ⟨f, e, field, hf, he, rfl⟩, rfl⟩ := h
      have hdecode : Utf8.decode ⟨t.toUTF8.data.toList.toArray⟩ = .ok t := Utf8.decode_toUTF8 t
      refine reads_of_readAs hbound fun _ _ => (reads_string hf he).mono ?_ ?_
      · rintro u ⟨t', ht', rfl⟩
        rw [hdecode] at ht'
        cases ht'
        rfl
      · rintro _ ⟨fault, -, hfault⟩
        cases hdecode.symm.trans hfault
  | @binary w field payload h hlength =>
      exact fun _ hbound => reads_of_readAs hbound fun _ _ => reads_binary h hlength
  | @array header parts h hparts ih =>
      intro bound d rest hdepth hbound
      obtain ⟨f, e, field, hf, he, rfl⟩ := h
      refine reads_of_readAs hbound fun k hk => (reads_array (P := fun p u => u = p.1) hf he
        (fun p hp => (hparts p hp).length_pos) ?_ ?_).imp ?_
      · intro hd p hp rest
        refine ih p hp (fun hdeep => hdepth ?_)
          (Nat.le_trans (length_part_le Prod.snd field hp) hk)
        have hlt := lt_depth_array (List.mem_map_of_mem hp) hdeep
        omega
      · intro hd
        have hpos := depth_array_pos (parts.map Prod.fst)
        exact hdepth (by omega)
      · rintro u ⟨l, hl, rfl⟩
        rw [eq_map_of_forall₂ hl]
  | @map header parts h hkeys hvalues ihkeys ihvalues =>
      intro bound d rest hdepth hbound
      obtain ⟨f, e, field, hf, he, rfl⟩ := h
      have hdeeper : ∀ p ∈ parts, d < options.security.maxDepth.toNat →
          (options.security.maxDepth.toNat - (d + 1) < p.1.1.depth
            ∨ options.security.maxDepth.toNat - (d + 1) < p.2.1.depth) →
          E (.read (.depthExceeded options.security.maxDepth)) := by
        intro p hp hd hdeep
        have hmem : (p.1.1, p.2.1) ∈ parts.map fun p => (p.1.1, p.2.1) :=
          List.mem_map_of_mem (f := fun p => (p.1.1, p.2.1)) hp
        have hlt := lt_depth_map hmem hdeep
        exact hdepth (by omega)
      refine reads_of_readAs hbound fun k hk => (reads_map (P := fun p u => u = p.1.1)
        (Q := fun p u => u = p.2.1) hf he
        (fun p hp => ⟨(hkeys p hp).length_pos, (hvalues p hp).length_pos⟩) ?_ ?_ ?_).imp ?_
      · intro hd p hp rest
        exact ihkeys p hp (fun hdeep => hdeeper p hp hd (Or.inl hdeep))
          (length_entry_le (fun p => p.1.2) (fun p => p.2.2) field hp hk).1
      · intro hd p hp rest
        exact ihvalues p hp (fun hdeep => hdeeper p hp hd (Or.inr hdeep))
          (length_entry_le (fun p => p.1.2) (fun p => p.2.2) field hp hk).2
      · intro hd
        have hpos := depth_map_pos (parts.map fun p => (p.1.1, p.2.1))
        exact hdepth (by omega)
      · rintro u ⟨l, hl, rfl⟩
        have hmap : l = parts.map fun p => (p.1.1, p.2.1) :=
          eq_map_of_forall₂ (hl.imp fun p e he => Prod.ext he.1 he.2)
        rw [hmap]
  | @timestamp x payload t h ht =>
      intro bound d rest _ hbound
      have hread := reads_extension (d := d) rest h
      obtain ⟨header, b, ⟨f, e, field, hf, he, rfl⟩, htype, rfl⟩ := h
      refine reads_of_readAs hbound ?_
      intro k _
      rw [readAs_of_extLength hf]
      refine hread.mono ?_ ?_
      · intro u hu
        rw [if_pos rfl] at hu
        obtain ⟨t', ht', rfl⟩ := hu
        rw [ht] at ht'
        cases ht'
        rfl
      · rintro _ ⟨-, hnone, -⟩
        cases ht.symm.trans hnone
  | @extension x type payload h htype =>
      intro bound d rest _ hbound
      have hread := reads_extension (d := d) rest h
      obtain ⟨header, b, ⟨f, e, field, hf, he, rfl⟩, -, rfl⟩ := h
      refine reads_of_readAs hbound ?_
      intro k _
      rw [readAs_of_extLength hf]
      refine hread.mono ?_ ?_
      · intro u hu
        rw [if_neg htype] at hu
        exact hu
      · exact fun _ he => absurd he.1 htype

/-! ## Every complete value is read or has a fault in its data -/

/-- What can be wrong with bytes that are complete: text, an instant, or too deep a nesting. -/
inductive DataFault (options : Options) : DocumentError → Prop
  | text (fault : Utf8.Fault) : DataFault options (.read (.invalidUtf8 fault))
  | instant : DataFault options (.read .invalidTimestamp)
  | depth : DataFault options (.read (.depthExceeded options.security.maxDepth))

/-- A format with a payload of fixed size is always read. -/
theorem reads_fixed {f : Format} {n : Nat} {payload : List UInt8}
    (hf : f.body? = some (.fixed n)) (hlength : payload.length = n) :
    Reads d (readAs options bound f) (f.byte :: payload) rest (fun _ => True) E := by
  cases f with
  | positiveFixInt v =>
      cases hf
      rw [List.eq_nil_of_length_eq_zero hlength]
      exact (reads_integer (.positive v)).imp fun _ _ => trivial
  | negativeFixInt v =>
      cases hf
      rw [List.eq_nil_of_length_eq_zero hlength]
      exact (reads_integer (.negative v)).imp fun _ _ => trivial
  | nil =>
      cases hf
      rw [List.eq_nil_of_length_eq_zero hlength]
      exact reads_nil.imp fun _ _ => trivial
  | boolean v =>
      cases hf
      rw [List.eq_nil_of_length_eq_zero hlength]
      exact (reads_boolean v).imp fun _ _ => trivial
  | int t =>
      cases hf
      exact (reads_integer (.field hlength)).imp fun _ _ => trivial
  | float32 =>
      cases hf
      exact (reads_float32 hlength).imp fun _ _ => trivial
  | float64 =>
      cases hf
      exact (reads_float64 hlength).imp fun _ _ => trivial
  | _ => cases hf

/-- The fault that a string or an extension may have. -/
theorem reads_sized {f : Format} {e : Extent} {n more : Nat} {field payload : List UInt8}
    (hf : f.body? = some (.sized e more)) (he : e.Holds field n)
    (hlength : payload.length = n + more) :
    Reads d (readAs options bound f) (f.byte :: (field ++ payload)) rest (fun _ => True)
      (DataFault options) := by
  cases f with
  | fixStr m | str w =>
      cases hf
      refine (reads_string rfl (hlength ▸ he)).mono (fun _ _ => trivial) ?_
      rintro _ ⟨fault, rfl, -⟩
      exact .text fault
  | bin w =>
      cases hf
      obtain ⟨hfield, rfl⟩ := he.of_field
      exact (reads_binary hfield hlength).imp fun _ _ => trivial
  | fixExt m | ext w =>
      cases hf
      obtain ⟨b, data, rfl⟩ := List.exists_cons_of_length_eq_add_one hlength
      rw [readAs_of_extLength rfl]
      have hdata : n = data.length := (Nat.succ.inj hlength).symm
      refine (reads_extension rest
        ⟨_ :: field, b, ⟨_, _, field, rfl, hdata ▸ he, rfl⟩, rfl, rfl⟩).mono (fun _ _ => trivial) ?_
      rintro _ ⟨-, -, rfl⟩
      exact .instant
  | _ => cases hf

/-- Out of a complete value something is read, and it is consumed exactly, unless its data are at
    fault. -/
theorem reads_of_isValue (bound : Nat) : ∀ {d : Nat} {x rest : List UInt8}, IsValue x →
    x.length ≤ bound →
    Reads d (readWithin options bound) x rest (fun _ => True) (DataFault options) := by
  -- by induction on the bound, as reading goes; what the value opens with decides how it is read
  induction bound with
  | zero =>
      intro d x rest hx hbound
      exact absurd (Nat.le_trans (isRow_one_iff.mpr hx).le_length hbound) (Nat.not_succ_le_zero 0)
  | succ bound ih =>
      intro d x rest hx hbound
      obtain ⟨b, head, k, row, ⟨body, hbody, hfills⟩, hrow, rfl⟩ := hx.opens
      obtain ⟨f, rfl⟩ : ∃ f : Format, b = f.byte := ⟨.ofByte b, (Format.byte_ofByte b).symm⟩
      rw [Format.ofByte_byte] at hbody
      rw [readWithin_succ]
      refine Reads.bind_peek (Reads.nextFormat.ofRead_of_sure) ?_
      rintro g rfl
      rw [Format.ofByte_byte]
      cases hfills with
      | fixed hlength =>
          rw [hrow.eq_nil, List.append_nil]
          exact reads_fixed hbody hlength
      | sized he hlength =>
          rw [hrow.eq_nil, List.append_nil]
          exact reads_sized hbody he hlength
      | @values e n each _ he =>
          rw [List.length_cons] at hbound
          replace hbound := Nat.le_of_succ_le_succ hbound
          cases f with
          | fixArray m | array w =>
              cases hbody
              obtain ⟨items, hcount, hitems, rfl⟩ := hrow
              rw [Nat.one_mul] at hcount
              rw [← List.map_id items] at hbound ⊢
              refine (reads_array (P := fun _ _ => True) rfl (hcount ▸ he)
                (fun i hi => (isRow_one_iff.mpr (hitems i hi)).le_length) ?_
                fun _ => .depth).imp fun _ _ => trivial
              exact fun _ i hi rest => ih (hitems i hi)
                (Nat.le_trans (length_part_le id head hi) hbound)
          | fixMap m | map w =>
              cases hbody
              obtain ⟨entries, hcount, hentries, rfl⟩ := hrow.entries
              refine (reads_map (P := fun _ _ => True) (Q := fun _ _ => True) rfl (hcount ▸ he)
                (fun i hi => ⟨(isRow_one_iff.mpr (hentries i hi).1).le_length,
                  (isRow_one_iff.mpr (hentries i hi).2).le_length⟩) ?_ ?_
                fun _ => .depth).imp fun _ _ => trivial
              · intro _ i hi rest
                exact ih (hentries i hi).1 (length_entry_le Prod.fst Prod.snd head hi hbound).1
              · intro _ i hi rest
                exact ih (hentries i hi).2 (length_entry_le Prod.fst Prod.snd head hi hbound).2
          | _ => cases hbody

/-! ## Reading with all the bytes ahead as the bound -/

variable {x : List UInt8} {v : Value}

/-- What is read is read from an encoding, and is no deeper than the policy allows. -/
theorem recognizes_read (options : Options) (d : Nat) :
    Recognizes d (read options) fun x v =>
      Encoded v x ∧ v.depth ≤ options.security.maxDepth.toNat - d :=
  Recognizes.bind_get fun r => recognizes_readWithin options r.remaining d

/-- Out of an encoding its value is read, unless it is too deep. -/
theorem Encoded.reads_read (h : Encoded v x)
    (hdepth : options.security.maxDepth.toNat - d < v.depth →
      E (.read (.depthExceeded options.security.maxDepth))) :
    Reads d (read options) x rest (fun u => u = v) E :=
  Reads.bind_get fun _ hr _ hahead => h.reads hdepth (hr.length_le_remaining hahead)

/-- A complete value is read, unless its data are at fault. -/
theorem reads_read_of_isValue (options : Options) (hx : IsValue x) :
    Reads d (read options) x rest (fun _ => True) (DataFault options) :=
  Reads.bind_get fun r hr _ hahead => reads_of_isValue r.remaining hx
    (hr.length_le_remaining hahead)

/-- What is read where an encoding is ahead. -/
theorem Encoded.read_eq (h : Encoded v x) {r : Reader} (hr : r.cursor.WellFormed)
    (hahead : r.cursor.ahead = x ++ rest)
    (hdepth : v.depth ≤ options.security.maxDepth.toNat - r.depth) :
    read options r = .ok v (r.past x.length) := by
  have hreads : Reads r.depth (read options) x rest (fun u => u = v) fun _ => False :=
    h.reads_read (Nat.not_lt_of_le hdepth)
  rcases hreads hr rfl hahead with ⟨u, hok, rfl⟩ | ⟨_, _, _, hfalse⟩
  · exact hok
  · exact hfalse.elim

/-- What is read where the encoding of a value is ahead that is nested too deep. -/
theorem Encoded.read_eq_error (h : Encoded v x) {r : Reader} (hr : r.cursor.WellFormed)
    (hahead : r.cursor.ahead = x ++ rest)
    (hdepth : options.security.maxDepth.toNat - r.depth < v.depth) :
    ∃ s, read options r = .error (.read (.depthExceeded options.security.maxDepth)) s := by
  have hreads : Reads r.depth (read options) x rest (fun u => u = v)
      fun e => e = .read (.depthExceeded options.security.maxDepth) :=
    h.reads_read fun _ => rfl
  rcases hreads hr rfl hahead with ⟨u, hok, rfl⟩ | ⟨_, s, herror, rfl⟩
  · -- whatever is read is not that deep
    obtain ⟨_, _, _, _, hle⟩ := recognizes_read options r.depth hr rfl hok
    exact absurd hle (Nat.not_le_of_lt hdepth)
  · exact ⟨s, herror⟩

end Value

end MessagePack
