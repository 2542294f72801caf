import MessagePack.Reader.Skip

/-!
# The grammar of complete values

What a complete value is, said by recursion on its nesting and without a reader: a lead byte, what
the specification says to follow it, and for a container as many complete values as its header
counts. The lead bytes are written out, so the grammar is independent of the tables that readers go
by; that the two agree is the first thing shown.

* **`IsValue`** is the grammar, one constructor per family of lead bytes, and **`IsRow n`** is `n`
  complete values in a row.
* **`IsValue.opens`** and **`isValue_of_opens`** tie it to the table `Format.body?`: a lead byte,
  what fills its body, and a row of the values that the body counts.
* **`isRow_succ_iff`** is what lets a single counter stand for all the nesting: the first value of a
  row may be opened and its elements counted with the row.
* **`IsRow.eq_of_append`**: no row of values is continued by another row of as many.
-/

namespace MessagePack

deriving instance DecidableEq for Extent
deriving instance DecidableEq for Body

/-! ## The grammar -/

/-- The lead bytes of floats and integers, with the size of the payload. -/
def fixedPayloads : List (UInt8 × Nat) :=
  [(0xca, 4), (0xcb, 8), (0xcc, 1), (0xcd, 2), (0xce, 4), (0xcf, 8), (0xd0, 1), (0xd1, 2),
    (0xd2, 4), (0xd3, 8)]

/-- The lead bytes of binary data and strings, with the width of the length field. -/
def payloadFields : List (UInt8 × Width) :=
  [(0xc4, .w8), (0xc5, .w16), (0xc6, .w32), (0xd9, .w8), (0xda, .w16), (0xdb, .w32)]

/-- The lead bytes of extensions with a payload of fixed size, with that size. -/
def extensionPayloads : List (UInt8 × Nat) :=
  [(0xd4, 1), (0xd5, 2), (0xd6, 4), (0xd7, 8), (0xd8, 16)]

/-- The lead bytes of other extensions, with the width of the length field. -/
def extensionFields : List (UInt8 × Width) :=
  [(0xc7, .w8), (0xc8, .w16), (0xc9, .w32)]

/-- The lead bytes of arrays with a count field, with its width. -/
def arrayFields : List (UInt8 × Width) :=
  [(0xdc, .w16), (0xdd, .w32)]

/-- The lead bytes of maps with a count field, with its width. -/
def mapFields : List (UInt8 × Width) :=
  [(0xde, .w16), (0xdf, .w32)]

/-- The bytes of one complete value. Lengths and counts are big-endian. -/
inductive IsValue : List UInt8 → Prop
  /-- Small integers, nil and the booleans are a lead byte alone. -/
  | lead {b : UInt8} (h : b ≤ 0x7f ∨ 0xe0 ≤ b ∨ b = 0xc0 ∨ b = 0xc2 ∨ b = 0xc3) : IsValue [b]
  /-- Floats and integers of fixed width. -/
  | fixed {b : UInt8} {payload : List UInt8} (h : (b, payload.length) ∈ fixedPayloads) :
      IsValue (b :: payload)
  /-- Strings with their length in the lead byte. -/
  | fixStr {payload : List UInt8} (h : payload.length < 32) :
      IsValue (UInt8.ofNat (0xa0 + payload.length) :: payload)
  /-- Binary data and strings with a length field. -/
  | sized {b : UInt8} {w : Width} {field payload : List UInt8} (h : (b, w) ∈ payloadFields)
      (hfield : field.length = w.bytes) (hlength : payload.length = BigEndian.decode field) :
      IsValue (b :: (field ++ payload))
  /-- Extensions with a payload of fixed size, behind the byte of their type. -/
  | fixExt {b type : UInt8} {payload : List UInt8}
      (h : (b, payload.length) ∈ extensionPayloads) : IsValue (b :: type :: payload)
  /-- Extensions with a length field; the byte of their type is behind it. -/
  | ext {b type : UInt8} {w : Width} {field payload : List UInt8} (h : (b, w) ∈ extensionFields)
      (hfield : field.length = w.bytes) (hlength : payload.length = BigEndian.decode field) :
      IsValue (b :: (field ++ type :: payload))
  /-- Arrays with their count in the lead byte. -/
  | fixArray {items : List (List UInt8)} (h : items.length < 16)
      (hitems : ∀ item ∈ items, IsValue item) :
      IsValue (UInt8.ofNat (0x90 + items.length) :: items.flatten)
  /-- Arrays with a count field. -/
  | array {b : UInt8} {w : Width} {field : List UInt8} {items : List (List UInt8)}
      (h : (b, w) ∈ arrayFields) (hfield : field.length = w.bytes)
      (hcount : items.length = BigEndian.decode field) (hitems : ∀ item ∈ items, IsValue item) :
      IsValue (b :: (field ++ items.flatten))
  /-- Maps with their count in the lead byte; every entry is two values. -/
  | fixMap {count : Nat} {items : List (List UInt8)} (h : count < 16)
      (hcount : items.length = 2 * count) (hitems : ∀ item ∈ items, IsValue item) :
      IsValue (UInt8.ofNat (0x80 + count) :: items.flatten)
  /-- Maps with a count field. -/
  | map {b : UInt8} {w : Width} {field : List UInt8} {items : List (List UInt8)}
      (h : (b, w) ∈ mapFields) (hfield : field.length = w.bytes)
      (hcount : items.length = 2 * BigEndian.decode field)
      (hitems : ∀ item ∈ items, IsValue item) : IsValue (b :: (field ++ items.flatten))

/-- The bytes of some complete values in a row. -/
def IsRow (n : Nat) (bytes : List UInt8) : Prop :=
  ∃ values : List (List UInt8), values.length = n ∧ (∀ v ∈ values, IsValue v)
    ∧ bytes = values.flatten

/-! ## What fills a body -/

/-- The bytes in which a length or count is found behind the lead byte. -/
inductive Extent.Holds : Extent → List UInt8 → Nat → Prop
  | inLead (n : Nat) : Holds (.inLead n) [] n
  | field {w : Width} {bytes : List UInt8} (h : bytes.length = w.bytes) :
      Holds (.field w) bytes (BigEndian.decode bytes)

/-- The bytes of a body up to the values that it counts, and how many of these there are. -/
inductive Body.Fills : Body → List UInt8 → Nat → Prop
  | fixed {n : Nat} {payload : List UInt8} (h : payload.length = n) : Fills (.fixed n) payload 0
  | sized {e : Extent} {n more : Nat} {field payload : List UInt8} (h : e.Holds field n)
      (hlength : payload.length = n + more) : Fills (.sized e more) (field ++ payload) 0
  | values {e : Extent} {n each : Nat} {field : List UInt8} (h : e.Holds field n) :
      Fills (.values e each) field (each * n)

theorem Extent.Holds.of_inLead {m n : Nat} {x : List UInt8} (h : (Extent.inLead m).Holds x n) :
    x = [] ∧ n = m := by
  cases h
  exact ⟨rfl, rfl⟩

/-- A field holds the number that its bytes denote. -/
theorem Extent.holds_field {w : Width} {n : Nat} {x : List UInt8} (h : x.length = w.bytes)
    (hn : n = BigEndian.decode x) : (Extent.field w).Holds x n := by
  rw [hn]
  exact .field h

/-- What a field holds is the number that its bytes denote. -/
theorem Extent.Holds.of_field {w : Width} {n : Nat} {x : List UInt8}
    (h : (Extent.field w).Holds x n) : x.length = w.bytes ∧ n = BigEndian.decode x := by
  cases h with
  | field h => exact ⟨h, rfl⟩

/-- A length or count is found in one way only. -/
theorem Extent.Holds.unique {e : Extent} {a b x y : List UInt8} {n m : Nat} (ha : e.Holds a n)
    (hb : e.Holds b m) (h : a ++ x = b ++ y) : a = b ∧ n = m := by
  cases ha with
  | inLead n =>
      cases hb with
      | inLead _ => exact ⟨rfl, rfl⟩
  | field ha =>
      cases hb with
      | field hb =>
          obtain ⟨rfl, -⟩ := List.append_inj h (ha.trans hb.symm)
          exact ⟨rfl, rfl⟩

/-- A body is filled in one way only. -/
theorem Body.Fills.unique {body : Body} {a b x y : List UInt8} {k l : Nat} (ha : body.Fills a k)
    (hb : body.Fills b l) (h : a ++ x = b ++ y) : a = b ∧ k = l := by
  cases ha with
  | fixed ha =>
      cases hb with
      | fixed hb =>
          obtain ⟨rfl, -⟩ := List.append_inj h (ha.trans hb.symm)
          exact ⟨rfl, rfl⟩
  | sized ha hlength =>
      cases hb with
      | sized hb hlength' =>
          rw [List.append_assoc, List.append_assoc] at h
          obtain ⟨rfl, rfl⟩ := ha.unique hb h
          obtain ⟨rfl, -⟩ := List.append_inj (List.append_cancel_left h)
            (hlength.trans hlength'.symm)
          exact ⟨rfl, rfl⟩
  | values ha =>
      cases hb with
      | values hb =>
          obtain ⟨rfl, rfl⟩ := ha.unique hb h
          exact ⟨rfl, rfl⟩

/-! ## The grammar and the table -/

/-- The body that the grammar gives to a lead byte. -/
def Listed (b : UInt8) : Body → Prop
  | .fixed n => (b, n) ∈ fixedPayloads
      ∨ n = 0 ∧ (b ≤ 0x7f ∨ 0xe0 ≤ b ∨ b = 0xc0 ∨ b = 0xc2 ∨ b = 0xc3)
  | .sized (.inLead n) 0 => n < 32 ∧ b = UInt8.ofNat (0xa0 + n)
  | .sized (.field w) 0 => (b, w) ∈ payloadFields
  | .sized (.inLead n) 1 => (b, n) ∈ extensionPayloads
  | .sized (.field w) 1 => (b, w) ∈ extensionFields
  | .values (.inLead n) 1 => n < 16 ∧ b = UInt8.ofNat (0x90 + n)
  | .values (.field w) 1 => (b, w) ∈ arrayFields
  | .values (.inLead n) 2 => n < 16 ∧ b = UInt8.ofNat (0x80 + n)
  | .values (.field w) 2 => (b, w) ∈ mapFields
  | _ => False

instance (b : UInt8) (body : Body) : Decidable (Listed b body) := by
  unfold Listed
  split <;> infer_instance

/-- The table goes by the grammar. -/
theorem listed_of_body? {b : UInt8} {body : Body} (h : (Format.ofByte b).body? = some body) :
    Listed b body := by
  -- there are 256 lead bytes, and the grammar of each can be decided
  have hall : ∀ n : Fin 256, ∀ body ∈ (Format.ofByte (UInt8.ofFin n)).body?,
      Listed (UInt8.ofFin n) body := by decide +kernel
  exact hall b.toFin body h

/-- A value that is a lead byte alone has an empty body in the table. -/
theorem body?_lead {b : UInt8} (h : b ≤ 0x7f ∨ 0xe0 ≤ b ∨ b = 0xc0 ∨ b = 0xc2 ∨ b = 0xc3) :
    (Format.ofByte b).body? = some (.fixed 0) := by
  have hall : ∀ n : Fin 256, UInt8.ofFin n ≤ 0x7f ∨ 0xe0 ≤ UInt8.ofFin n ∨ UInt8.ofFin n = 0xc0
      ∨ UInt8.ofFin n = 0xc2 ∨ UInt8.ofFin n = 0xc3 →
      (Format.ofByte (UInt8.ofFin n)).body? = some (.fixed 0) := by decide +kernel
  exact hall b.toFin h

/-- What the grammar gives to a lead byte is in the table. -/
theorem body?_of_listed {b : UInt8} (body : Body) (h : Listed b body) :
    (Format.ofByte b).body? = some body := by
  -- the families of lead bytes are short lists or ranges, each of them checked by itself
  have hfixed : ∀ p ∈ fixedPayloads, (Format.ofByte p.1).body? = some (.fixed p.2) := by decide
  have hstr : ∀ n : Fin 32, (Format.ofByte (UInt8.ofNat (0xa0 + n.val))).body?
      = some (.sized (.inLead n.val) 0) := by decide
  have harray : ∀ n : Fin 16, (Format.ofByte (UInt8.ofNat (0x90 + n.val))).body?
      = some (.values (.inLead n.val) 1) := by decide
  have hmap : ∀ n : Fin 16, (Format.ofByte (UInt8.ofNat (0x80 + n.val))).body?
      = some (.values (.inLead n.val) 2) := by decide
  have hsized : ∀ p ∈ payloadFields,
      (Format.ofByte p.1).body? = some (.sized (.field p.2) 0) := by decide
  have hfixExt : ∀ p ∈ extensionPayloads,
      (Format.ofByte p.1).body? = some (.sized (.inLead p.2) 1) := by decide
  have hext : ∀ p ∈ extensionFields,
      (Format.ofByte p.1).body? = some (.sized (.field p.2) 1) := by decide
  have harrayField : ∀ p ∈ arrayFields,
      (Format.ofByte p.1).body? = some (.values (.field p.2) 1) := by decide
  have hmapField : ∀ p ∈ mapFields,
      (Format.ofByte p.1).body? = some (.values (.field p.2) 2) := by decide
  unfold Listed at h
  split at h
  · rcases h with h | ⟨rfl, h⟩
    · exact hfixed _ h
    · exact body?_lead h
  · obtain ⟨hn, rfl⟩ := h
    exact hstr ⟨_, hn⟩
  · exact hsized _ h
  · exact hfixExt _ h
  · exact hext _ h
  · obtain ⟨hn, rfl⟩ := h
    exact harray ⟨_, hn⟩
  · exact harrayField _ h
  · obtain ⟨hn, rfl⟩ := h
    exact hmap ⟨_, hn⟩
  · exact hmapField _ h
  · exact h.elim

/-! ## Rows of values -/

theorem isRow_zero : IsRow 0 [] :=
  ⟨[], rfl, List.forall_mem_nil _, rfl⟩

/-- Only no bytes are a row of no values. -/
theorem IsRow.eq_nil {bytes : List UInt8} (h : IsRow 0 bytes) : bytes = [] := by
  obtain ⟨values, hlength, -, rfl⟩ := h
  rw [List.eq_nil_of_length_eq_zero hlength, List.flatten_nil]

/-- Keys and values in turn, one behind the other. -/
theorem flatten_flatMap_pair {ι : Type} (keys values : ι → List UInt8) (items : List ι) :
    (items.flatMap fun i => [keys i, values i]).flatten
      = (items.map fun i => keys i ++ values i).flatten := by
  induction items with
  | nil => rfl
  | cons i items ih =>
      rw [List.flatMap_cons, List.flatten_append, ih, List.map_cons, List.flatten_cons,
        List.flatten_cons, List.flatten_cons, List.flatten_nil, List.append_nil]

/-- A row of entries, each of them a key and a value. -/
theorem isRow_entries {ι : Type} {keys values : ι → List UInt8} {items : List ι}
    (hkeys : ∀ i ∈ items, IsValue (keys i)) (hvalues : ∀ i ∈ items, IsValue (values i)) :
    IsRow (2 * items.length) (items.map fun i => keys i ++ values i).flatten := by
  -- the values in the order of the bytes: each key is followed by its value
  refine ⟨items.flatMap fun i => [keys i, values i], ?_, ?_, (flatten_flatMap_pair _ _ _).symm⟩
  · have hlength : (fun i => [keys i, values i].length) = fun _ => 2 := rfl
    rw [List.length_flatMap, hlength, List.map_const', List.sum_replicate_nat, Nat.mul_comm]
  · intro v hv
    obtain ⟨i, hi, hv⟩ := List.mem_flatMap.mp hv
    rcases List.mem_cons.mp hv with rfl | hv
    · exact hkeys i hi
    · rw [List.mem_singleton.mp hv]
      exact hvalues i hi

/-- A value in front of a row is a row of one more. -/
theorem IsRow.cons {n : Nat} {v bytes : List UInt8} (hv : IsValue v) (h : IsRow n bytes) :
    IsRow (n + 1) (v ++ bytes) := by
  obtain ⟨values, rfl, hvalues, rfl⟩ := h
  exact ⟨v :: values, rfl, List.forall_mem_cons.mpr ⟨hv, hvalues⟩, rfl⟩

/-- The first value of a row, and the values behind it. -/
theorem IsRow.uncons {n : Nat} {bytes : List UInt8} (h : IsRow (n + 1) bytes) :
    ∃ v rest, IsValue v ∧ IsRow n rest ∧ bytes = v ++ rest := by
  obtain ⟨values, hlength, hvalues, rfl⟩ := h
  cases values with
  | nil => cases hlength
  | cons v values =>
      obtain ⟨hv, hvalues⟩ := List.forall_mem_cons.mp hvalues
      exact ⟨v, values.flatten, hv, ⟨values, Nat.succ.inj hlength, hvalues, rfl⟩, rfl⟩

/-- A row of one value is that value. -/
theorem isRow_one_iff {bytes : List UInt8} : IsRow 1 bytes ↔ IsValue bytes := by
  constructor
  · intro h
    obtain ⟨v, rest, hv, hrest, rfl⟩ := h.uncons
    rw [hrest.eq_nil, List.append_nil]
    exact hv
  · intro h
    have hrow := IsRow.cons h isRow_zero
    rw [List.append_nil] at hrow
    exact hrow

/-- A row of twice as many values is a row of entries. -/
theorem IsRow.entries {n : Nat} {bytes : List UInt8} (h : IsRow (2 * n) bytes) :
    ∃ entries : List (List UInt8 × List UInt8), entries.length = n
      ∧ (∀ e ∈ entries, IsValue e.1 ∧ IsValue e.2)
      ∧ bytes = (entries.map fun e => e.1 ++ e.2).flatten := by
  induction n generalizing bytes with
  | zero => exact ⟨[], rfl, List.forall_mem_nil _, h.eq_nil⟩
  | succ n ih =>
      obtain ⟨k, tail, hk, htail, rfl⟩ := h.uncons
      obtain ⟨v, rest, hv, hrest, rfl⟩ := htail.uncons
      obtain ⟨entries, rfl, hentries, rfl⟩ := ih hrest
      refine ⟨(k, v) :: entries, rfl, List.forall_mem_cons.mpr ⟨⟨hk, hv⟩, hentries⟩, ?_⟩
      rw [List.map_cons, List.flatten_cons, List.append_assoc]

/-- Two rows one behind the other are one row. -/
theorem IsRow.append {n m : Nat} {a b : List UInt8} (ha : IsRow n a) (hb : IsRow m b) :
    IsRow (n + m) (a ++ b) := by
  obtain ⟨values, rfl, hvalues, rfl⟩ := ha
  obtain ⟨values', rfl, hvalues', rfl⟩ := hb
  refine ⟨values ++ values', List.length_append, ?_, List.flatten_append.symm⟩
  intro v hv
  rcases List.mem_append.mp hv with hv | hv
  · exact hvalues v hv
  · exact hvalues' v hv

/-- A row can be cut behind any number of its values. -/
theorem IsRow.split {n m : Nat} {bytes : List UInt8} (h : IsRow (n + m) bytes) :
    ∃ a b, IsRow n a ∧ IsRow m b ∧ bytes = a ++ b := by
  obtain ⟨values, hlength, hvalues, rfl⟩ := h
  refine ⟨(values.take n).flatten, (values.drop n).flatten,
    ⟨values.take n, ?_, fun v hv => hvalues v (List.mem_of_mem_take hv), rfl⟩,
    ⟨values.drop n, ?_, fun v hv => hvalues v (List.mem_of_mem_drop hv), rfl⟩, ?_⟩
  · rw [List.length_take, hlength]
    omega
  · rw [List.length_drop, hlength]
    omega
  · rw [← List.flatten_append, List.take_append_drop]

/-! ## Opening a value -/

/-- A lead byte of the table, with what fills its body, and the number of values that the body
    counts. -/
def Opens (b : UInt8) (head : List UInt8) (k : Nat) : Prop :=
  ∃ body, (Format.ofByte b).body? = some body ∧ body.Fills head k

/-- The lead byte and the bytes of one opening decide it. -/
theorem Opens.unique {b : UInt8} {head head' x y : List UInt8} {k l : Nat} (h : Opens b head k)
    (h' : Opens b head' l) (heq : head ++ x = head' ++ y) : head = head' ∧ k = l := by
  obtain ⟨body, hbody, hfills⟩ := h
  obtain ⟨body', hbody', hfills'⟩ := h'
  cases Option.some.inj (hbody.symm.trans hbody')
  exact hfills.unique hfills' heq

/-- Every complete value opens, and behind its body there are as many values as the body counts. -/
theorem IsValue.opens {bytes : List UInt8} (h : IsValue bytes) :
    ∃ b head k rest, Opens b head k ∧ IsRow k rest ∧ bytes = b :: (head ++ rest) := by
  -- form by form: those that count nothing have an empty row behind them
  cases h with
  | @lead b h =>
      exact ⟨b, [], 0, [], ⟨_, body?_of_listed (.fixed 0) (Or.inr ⟨rfl, h⟩), .fixed rfl⟩,
        isRow_zero, rfl⟩
  | @fixed b payload h =>
      exact ⟨b, payload, 0, [], ⟨_, body?_of_listed (.fixed _) (Or.inl h), .fixed rfl⟩,
        isRow_zero, by rw [List.append_nil]⟩
  | @fixStr payload h =>
      exact ⟨_, [] ++ payload, 0, [],
        ⟨_, body?_of_listed (.sized (.inLead _) 0) ⟨h, rfl⟩, .sized (.inLead _) rfl⟩,
        isRow_zero, by rw [List.append_nil, List.nil_append]⟩
  | @sized b w field payload h hfield hlength =>
      exact ⟨b, field ++ payload, 0, [],
        ⟨_, body?_of_listed (.sized (.field w) 0) h, .sized (.field hfield) hlength⟩,
        isRow_zero, by rw [List.append_nil]⟩
  | @fixExt b type payload h =>
      exact ⟨b, [] ++ type :: payload, 0, [],
        ⟨_, body?_of_listed (.sized (.inLead _) 1) h, .sized (.inLead _) rfl⟩,
        isRow_zero, by rw [List.append_nil, List.nil_append]⟩
  | @ext b type w field payload h hfield hlength =>
      exact ⟨b, field ++ type :: payload, 0, [],
        ⟨_, body?_of_listed (.sized (.field w) 1) h,
          .sized (.field hfield) (congrArg (· + 1) hlength)⟩,
        isRow_zero, by rw [List.append_nil]⟩
  | @fixArray items h hitems =>
      exact ⟨_, [], _, items.flatten,
        ⟨_, body?_of_listed (.values (.inLead _) 1) ⟨h, rfl⟩, .values (.inLead _)⟩,
        ⟨items, (Nat.one_mul _).symm, hitems, rfl⟩, rfl⟩
  | @array b w field items h hfield hcount hitems =>
      exact ⟨b, field, _, items.flatten,
        ⟨_, body?_of_listed (.values (.field w) 1) h, .values (.field hfield)⟩,
        ⟨items, hcount.trans (Nat.one_mul _).symm, hitems, rfl⟩, rfl⟩
  | @fixMap count items h hcount hitems =>
      exact ⟨_, [], _, items.flatten,
        ⟨_, body?_of_listed (.values (.inLead _) 2) ⟨h, rfl⟩, .values (.inLead _)⟩,
        ⟨items, hcount, hitems, rfl⟩, rfl⟩
  | @map b w field items h hfield hcount hitems =>
      exact ⟨b, field, _, items.flatten,
        ⟨_, body?_of_listed (.values (.field w) 2) h, .values (.field hfield)⟩,
        ⟨items, hcount, hitems, rfl⟩, rfl⟩

/-- What opens by the table, with as many values behind it as it counts, is a complete value. -/
theorem isValue_of_opens {b : UInt8} {head : List UInt8} {k : Nat} {rest : List UInt8}
    (h : Opens b head k) (hrest : IsRow k rest) : IsValue (b :: (head ++ rest)) := by
  obtain ⟨body, hbody, hfills⟩ := h
  have hlisted := listed_of_body? hbody
  -- one case for each line of `Listed`: the lead byte alone, then payloads, arrays and maps
  unfold Listed at hlisted
  split at hlisted
  · cases hfills with
    | fixed hn =>
        rw [hrest.eq_nil, List.append_nil]
        rcases hlisted with h | ⟨rfl, h⟩
        · exact .fixed (hn ▸ h)
        · rw [List.eq_nil_of_length_eq_zero hn]
          exact .lead h
  · obtain ⟨hn, rfl⟩ := hlisted
    cases hfills with
    | sized he hlength =>
        cases he
        subst hlength
        rw [hrest.eq_nil, List.append_nil]
        exact .fixStr hn
  · cases hfills with
    | sized he hlength =>
        cases he with
        | field hfield =>
            rw [hrest.eq_nil, List.append_nil]
            exact .sized hlisted hfield hlength
  · cases hfills with
    | sized he hlength =>
        cases he
        obtain ⟨type, payload, rfl⟩ := List.exists_cons_of_length_eq_add_one hlength
        cases hlength
        rw [hrest.eq_nil, List.append_nil]
        exact .fixExt hlisted
  · cases hfills with
    | sized he hlength =>
        cases he with
        | field hfield =>
            obtain ⟨type, payload, rfl⟩ := List.exists_cons_of_length_eq_add_one hlength
            rw [hrest.eq_nil, List.append_nil]
            exact .ext hlisted hfield (Nat.succ.inj hlength)
  · obtain ⟨hn, rfl⟩ := hlisted
    cases hfills with
    | values he =>
        cases he
        obtain ⟨items, hcount, hitems, rfl⟩ := hrest
        rw [Nat.one_mul] at hcount
        subst hcount
        exact .fixArray hn hitems
  · cases hfills with
    | values he =>
        cases he with
        | field hfield =>
            obtain ⟨items, hcount, hitems, rfl⟩ := hrest
            exact .array hlisted hfield (hcount.trans (Nat.one_mul _)) hitems
  · obtain ⟨hn, rfl⟩ := hlisted
    cases hfills with
    | values he =>
        cases he
        obtain ⟨items, hcount, hitems, rfl⟩ := hrest
        exact .fixMap hn hcount hitems
  · cases hfills with
    | values he =>
        cases he with
        | field hfield =>
            obtain ⟨items, hcount, hitems, rfl⟩ := hrest
            exact .map hlisted hfield hcount hitems
  · exact hlisted.elim

/-- **OPENING THE FIRST VALUE OF A ROW**: its elements join the values that follow it. So one number
    says how many values are missing, however deep they are nested. -/
theorem isRow_succ_iff {n : Nat} {bytes : List UInt8} :
    IsRow (n + 1) bytes ↔
      ∃ b head k rest, Opens b head k ∧ IsRow (k + n) rest ∧ bytes = b :: (head ++ rest) := by
  constructor
  · intro h
    obtain ⟨v, tail, hv, htail, rfl⟩ := h.uncons
    obtain ⟨b, head, k, rest, hopens, hrest, rfl⟩ := hv.opens
    refine ⟨b, head, k, rest ++ tail, hopens, hrest.append htail, ?_⟩
    rw [List.cons_append, List.append_assoc]
  · rintro ⟨b, head, k, rest, hopens, hrest, rfl⟩
    -- the first `k` values of the rest belong to the one that was opened
    obtain ⟨elements, tail, helements, htail, rfl⟩ := hrest.split
    have hrow := IsRow.cons (isValue_of_opens hopens helements) htail
    rw [List.cons_append, List.append_assoc] at hrow
    exact hrow

/-- Every value of a row takes at least one byte. -/
theorem IsRow.le_length {n : Nat} {bytes : List UInt8} (h : IsRow n bytes) : n ≤ bytes.length := by
  induction n generalizing bytes with
  | zero => exact Nat.zero_le _
  | succ n ih =>
      obtain ⟨v, rest, hv, hrest, rfl⟩ := h.uncons
      obtain ⟨b, head, k, elements, -, -, rfl⟩ := hv.opens
      have hle := ih hrest
      rw [List.length_append, List.length_cons]
      omega

/-- **NO ROW CONTINUES ANOTHER**: of two rows of as many values, neither is a strict start of the
    other. -/
theorem IsRow.eq_of_append {n : Nat} {a b x y : List UInt8} (ha : IsRow n a) (hb : IsRow n b)
    (h : a ++ x = b ++ y) : a = b := by
  -- by induction on the bytes of one row; opening its first value leaves a shorter row
  induction hlength : a.length using Nat.strongRecOn generalizing n a b with
  | ind length ih =>
      subst hlength
      cases n with
      | zero => rw [ha.eq_nil, hb.eq_nil]
      | succ n =>
          obtain ⟨lead, head, k, rest, hopens, hrest, rfl⟩ := isRow_succ_iff.mp ha
          obtain ⟨lead', head', k', rest', hopens', hrest', rfl⟩ := isRow_succ_iff.mp hb
          rw [List.cons_append, List.cons_append, List.append_assoc, List.append_assoc] at h
          obtain ⟨rfl, htail⟩ := List.cons.inj h
          obtain ⟨rfl, rfl⟩ := hopens.unique hopens' htail
          have hshorter : rest.length < (lead :: (head ++ rest)).length := by
            rw [List.length_cons, List.length_append]
            omega
          rw [ih _ hshorter hrest hrest' (List.append_cancel_left htail) rfl]

/-- Of all that stands in front of some bytes, one at most is a complete value. -/
theorem IsValue.eq_of_append {a b x y : List UInt8} (ha : IsValue a) (hb : IsValue b)
    (h : a ++ x = b ++ y) : a = b :=
  (isRow_one_iff.mpr ha).eq_of_append (isRow_one_iff.mpr hb) h

end MessagePack
