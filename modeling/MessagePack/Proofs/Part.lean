import MessagePack.Proofs.Appends
import MessagePack.Proofs.RoundTrip

/-!
# The parts of a value

What a value is read back as depends on its parts, at any depth: on integers that are held as signed
without being negative, and on extensions of the type of timestamps. Whether it is written depends
on the lengths of its parts as well, and if it is, they are none too long.

* **`Part`** is a value within another one, and **`Regular`** says of all the parts of a value that
  they are held in the way in which reading holds them.
* **`canonical_of_write`**: a regular value that was written is canonical.
-/

namespace MessagePack

namespace Value

open Writer

/-! ## Parts -/

/-- A value is a part of itself, and the parts of items, keys and values are parts of an array or
    map. -/
inductive Part (u : Value) : Value → Prop
  | self : Part u u
  | item {items : List Value} {v : Value} (hv : v ∈ items) (h : Part u v) : Part u (.array items)
  | key {entries : List (Value × Value)} {e : Value × Value} (he : e ∈ entries) (h : Part u e.1) :
      Part u (.map entries)
  | value {entries : List (Value × Value)} {e : Value × Value} (he : e ∈ entries)
      (h : Part u e.2) : Part u (.map entries)

/-- The parts of an array are itself and those of its items. -/
theorem part_array_iff {u : Value} {items : List Value} :
    Part u (array items) ↔ u = array items ∨ ∃ v ∈ items, Part u v := by
  constructor
  · rintro (_ | ⟨hv, h⟩)
    · exact Or.inl rfl
    · exact Or.inr ⟨_, hv, h⟩
  · rintro (rfl | ⟨v, hv, h⟩)
    · exact .self
    · exact .item hv h

theorem part_map_iff {u : Value} {entries : List (Value × Value)} :
    Part u (map entries) ↔ u = map entries ∨ ∃ e ∈ entries, Part u e.1 ∨ Part u e.2 := by
  constructor
  · rintro (_ | _ | ⟨he, h⟩ | ⟨he, h⟩)
    · exact Or.inl rfl
    · exact Or.inr ⟨_, he, Or.inl h⟩
    · exact Or.inr ⟨_, he, Or.inr h⟩
  · rintro (rfl | ⟨e, he, h | h⟩)
    · exact .self
    · exact .key he h
    · exact .value he h

/-- A value that is no container is its only part. -/
theorem Part.eq_of_scalar {u v : Value} (h : Part u v) (harray : ∀ items, v ≠ array items)
    (hmap : ∀ entries, v ≠ map entries) : u = v := by
  cases h with
  | self => rfl
  | item => exact absurd rfl (harray _)
  | key | value => exact absurd rfl (hmap _)

/-- A value whose parts are all held as reading holds them: an integer as signed only if it is
    negative, and a timestamp as no extension. -/
structure Regular (v : Value) : Prop where
  negative : ∀ n, Part (.integer n) v → n < 0
  type_ne : ∀ type payload, Part (.extension type payload) v → type ≠ timestampType

/-- The parts of a part are parts. -/
theorem Regular.part {v w : Value} (h : v.Regular) (hpart : ∀ u, Part u w → Part u v) :
    w.Regular where
  negative n hn := h.negative n (hpart _ hn)
  type_ne type payload htype := h.type_ne type payload (hpart _ htype)

/-- The items of a regular array are regular. -/
theorem Regular.item {items : List Value} (h : (array items).Regular) :
    ∀ v ∈ items, v.Regular :=
  fun _ hv => h.part fun _ hu => .item hv hu

theorem Regular.key {entries : List (Value × Value)} (h : (map entries).Regular) :
    ∀ e ∈ entries, e.1.Regular :=
  fun _ he => h.part fun _ hu => .key he hu

theorem Regular.value {entries : List (Value × Value)} (h : (map entries).Regular) :
    ∀ e ∈ entries, e.2.Regular :=
  fun _ he => h.part fun _ hu => .value he hu

/-- The parts of a canonical value are canonical. -/
theorem Part.canonical {u v : Value} (h : Part u v) (hv : v.Canonical) : u.Canonical := by
  induction h with
  | self => exact hv
  | item hmem _ ih =>
      cases hv with
      | array _ hitems => exact ih (hitems _ hmem)
  | key hmem _ ih =>
      cases hv with
      | map _ hkeys _ => exact ih (hkeys _ hmem)
  | value hmem _ ih =>
      cases hv with
      | map _ _ hvalues => exact ih (hvalues _ hmem)

/-- A canonical value is regular in all its parts. -/
theorem Canonical.regular {v : Value} (h : v.Canonical) : v.Regular where
  negative n hn := by
    cases hn.canonical h with
    | integer hneg => exact hneg
  type_ne type payload htype := by
    cases htype.canonical h with
    | extension hne => exact hne

/-! ## What was written has no part that is too long -/

variable {σ : Type} [Sink σ] {content : Sink.Content σ}

/-- A body that was written has a length that fits. -/
theorem appends_fits {c : Command} {n : Nat} {P : Prop}
    (hc : ∀ oldSpec, ∃ bytes, c.output oldSpec = ofLength n bytes) (hP : n < 2 ^ 32 → P) :
    Appends content (Encode.ofWrite c.run) fun _ _ => P := by
  refine (appends_command c).ofWrite.mono ?_
  rintro x _ ⟨oldSpec, hx⟩
  obtain ⟨bytes, hbytes⟩ := hc oldSpec
  exact hP (of_ofLength (hbytes.symm.trans hx)).1

/-- What holds anyway. -/
theorem appends_of_true {P : Prop} (c : Command) (h : P) :
    Appends content (Encode.ofWrite c.run) fun _ _ => P :=
  (appends_command c).ofWrite.mono fun _ _ _ => h

mutual

/-- **WHAT WAS WRITTEN IS CANONICAL**, if its parts are held as reading holds them. -/
theorem canonical_of_write : (v : Value) → v.Regular →
    Appends content (v.write (σ := σ)) fun _ _ => v.Canonical
  | nil, _ => appends_of_true .nil .nil
  | boolean b, _ => appends_of_true (.boolean b) (.boolean b)
  | integer n, h => appends_of_true (.compact (.signed .w64) ⟨n.toInt, int64_mem n⟩)
      (.integer (h.negative n .self))
  | unsigned n, _ => appends_of_true (.compact (.unsigned .w64) ⟨n.toNat, uint64_mem n⟩)
      (.unsigned n)
  | float32 f, _ => appends_of_true (.float32 f) (.float32 f)
  | float64 f, _ => appends_of_true (.float64 f) (.float64 f)
  | string text, _ => appends_fits (c := .str text) (fun _ => ⟨_, rfl⟩) .string
  | binary bytes, _ => appends_fits (c := .bin bytes) (fun _ => ⟨_, rfl⟩) .binary
  | timestamp t, _ => appends_of_true (.timestamp t) (.timestamp t.nanoseconds_lt)
  | extension type payload, h => appends_fits (c := .ext type payload) (fun _ => ⟨_, rfl⟩)
      (.extension (h.type_ne type payload .self))
  | array items, h => by
      rw [write]
      -- the header shows that the count fits, the items that they are canonical
      refine (appends_countField items.length).bind_silent fun n hn => ?_
      refine (appends_arrayHeader n).bind fun _ _ _ => ?_
      refine (canonical_of_writeItems items h.item).mono fun _ _ hitems => ?_
      exact .array (hn ▸ n.toNat_lt) hitems
  | map entries, h => by
      rw [write]
      refine (appends_countField entries.length).bind_silent fun n hn => ?_
      refine (appends_mapHeader n).bind fun _ _ _ => ?_
      refine (canonical_of_writeEntries entries h.key h.value).mono fun _ _ hentries => ?_
      exact .map (hn ▸ n.toNat_lt) (fun e he => (hentries e he).1) fun e he => (hentries e he).2

/-- If all the items are written, and are regular, they are canonical. -/
theorem canonical_of_writeItems : (items : List Value) → (∀ v ∈ items, v.Regular) →
    Appends content (writeItems (σ := σ) items) fun _ _ => ∀ v ∈ items, v.Canonical
  | [], _ => Appends.of_pure (List.forall_mem_nil _)
  | v :: items, h => by
      obtain ⟨hv, hitems⟩ := List.forall_mem_cons.mp h
      rw [writeItems]
      refine (canonical_of_write v hv).bind fun _ _ hcanonical => ?_
      exact (canonical_of_writeItems items hitems).mono fun _ _ hrest =>
        List.forall_mem_cons.mpr ⟨hcanonical, hrest⟩

theorem canonical_of_writeEntries : (entries : List (Value × Value)) →
    (∀ e ∈ entries, e.1.Regular) → (∀ e ∈ entries, e.2.Regular) →
    Appends content (writeEntries (σ := σ) entries)
      fun _ _ => ∀ e ∈ entries, e.1.Canonical ∧ e.2.Canonical
  | [], _, _ => Appends.of_pure (List.forall_mem_nil _)
  | (k, v) :: entries, hkeys, hvalues => by
      obtain ⟨hk, hkeys⟩ := List.forall_mem_cons.mp hkeys
      obtain ⟨hv, hvalues⟩ := List.forall_mem_cons.mp hvalues
      rw [writeEntries]
      refine (canonical_of_write k hk).bind fun _ _ hkey => ?_
      refine (canonical_of_write v hv).bind fun _ _ hvalue => ?_
      exact (canonical_of_writeEntries entries hkeys hvalues).mono fun _ _ hrest =>
        List.forall_mem_cons.mpr ⟨⟨hkey, hvalue⟩, hrest⟩

end

end Value

end MessagePack
