import MessagePack.Proofs.DepthCount
import MessagePack.Proofs.RoundTrip

/-!
# Exactly how deep values may be

A policy bounds the depth of the reader, and this comes down to a bound on how deep values are
nested, which is exact: out of the encoding of a value something is read if the depth at the start
and the depth of the value together stay within the maximum, and otherwise the error says that they
do not. The shape of the value plays no part in it.

An integer that is not negative may be held as signed. It is read back as unsigned then, so what is
read differs from what was written in nothing but that, and it is just as deep.

**`Schema.depth_accounting`** puts this next to what holds of every read of every type, whatever the
input: the depth is restored, and each container is entered below the maximum. The containers are
those of a log, and **`Schema.entered_complete`** is that the log omits none.
-/

namespace MessagePack

namespace Value

open Reader

/-! ## Values that differ in how integers are held -/

/-- The greatest depth of items is that of items as deep as these. -/
theorem deepestItem_congr {ι : Type} {f g : ι → Value} {items : List ι} {least : Nat}
    (h : ∀ i ∈ items, (f i).depth = (g i).depth) :
    deepestItem least (items.map f) = deepestItem least (items.map g) := by
  induction items generalizing least with
  | nil => rfl
  | cons i items ih =>
      obtain ⟨hi, hitems⟩ := List.forall_mem_cons.mp h
      rw [List.map_cons, List.map_cons, deepestItem, deepestItem, hi, ih hitems]

/-- The greatest depth of entries is that of entries as deep as these. -/
theorem deepestEntry_congr {ι : Type} {f g : ι → Value × Value} {items : List ι} {least : Nat}
    (h : ∀ i ∈ items, (f i).1.depth = (g i).1.depth ∧ (f i).2.depth = (g i).2.depth) :
    deepestEntry least (items.map f) = deepestEntry least (items.map g) := by
  induction items generalizing least with
  | nil => rfl
  | cons i items ih =>
      obtain ⟨⟨hkey, hvalue⟩, hitems⟩ := List.forall_mem_cons.mp h
      have hcons : ∀ e : Value × Value, ∀ rest, deepestEntry least (e :: rest)
          = deepestEntry (max least (max e.1.depth e.2.depth)) rest := fun _ _ => rfl
      rw [List.map_cons, List.map_cons, hcons, hcons, hkey, hvalue, ih hitems]

/-- The encoding of a value that is written is an encoding of some value that is just as deep. -/
theorem Storable.encoded {v : Value} (h : v.Storable) :
    ∃ u, Encoded u v.encoding ∧ u.depth = v.depth := by
  -- by induction on the value; each element has a value that its encoding is read as
  induction h with
  | nil => exact ⟨_, encoded_encoding .nil, rfl⟩
  | boolean b => exact ⟨_, encoded_encoding (.boolean b), rfl⟩
  | integer n =>
      by_cases hneg : n < 0
      · exact ⟨_, encoded_encoding (.integer hneg), rfl⟩
      · have hpos : 0 ≤ n := Int64.not_lt.mp hneg
        have hencoding : (Value.integer n).encoding = (Value.unsigned n.toUInt64).encoding := by
          rw [encoding, encoding, Int64.toNat_toUInt64_of_le hpos, Int64.cast_toNatClampNeg _ hpos]
        rw [hencoding]
        exact ⟨_, encoded_encoding (.unsigned _), rfl⟩
  | unsigned n => exact ⟨_, encoded_encoding (.unsigned n), rfl⟩
  | float32 x => exact ⟨_, encoded_encoding (.float32 x), rfl⟩
  | float64 x => exact ⟨_, encoded_encoding (.float64 x), rfl⟩
  | string h => exact ⟨_, encoded_encoding (.string h), rfl⟩
  | binary h => exact ⟨_, encoded_encoding (.binary h), rfl⟩
  | timestamp t => exact ⟨_, encoded_encoding (.timestamp t.nanoseconds_lt), rfl⟩
  | extension htype h => exact ⟨_, encoded_encoding (.extension htype h), rfl⟩
  | @array items h _ ih =>
      obtain ⟨pairs, rfl, hpairs⟩ := exists_map_eq (f := Prod.fst)
        (H := fun p : Value × Value => Encoded p.2 p.1.encoding ∧ p.2.depth = p.1.depth) <| by
          intro v hv
          obtain ⟨u, hu⟩ := ih v hv
          exact ⟨(v, u), rfl, hu⟩
      rw [List.length_map] at h
      refine ⟨.array (pairs.map Prod.snd), ?_, ?_⟩
      · rw [encoding, encodingItems_eq, Token.encodeArrayHeader, List.length_map, List.map_map]
        exact .array_map (Token.counts_array.headed_encodeCount h) fun p hp => (hpairs p hp).1
      · rw [depth, depth, deepestItem_congr fun p hp => (hpairs p hp).2]
  | @map entries h _ _ ihkeys ihvalues =>
      obtain ⟨pairs, rfl, hpairs⟩ := exists_map_eq (f := Prod.fst)
        (H := fun p : (Value × Value) × (Value × Value) =>
          (Encoded p.2.1 p.1.1.encoding ∧ Encoded p.2.2 p.1.2.encoding)
            ∧ p.2.1.depth = p.1.1.depth ∧ p.2.2.depth = p.1.2.depth) <| by
          intro e he
          obtain ⟨k, hk, hkdepth⟩ := ihkeys e he
          obtain ⟨v, hv, hvdepth⟩ := ihvalues e he
          exact ⟨(e, (k, v)), rfl, ⟨hk, hv⟩, hkdepth, hvdepth⟩
      rw [List.length_map] at h
      refine ⟨.map (pairs.map Prod.snd), ?_, ?_⟩
      · rw [encoding, encodingEntries_eq, Token.encodeMapHeader, List.length_map, List.map_map]
        exact .map_map (Token.counts_map.headed_encodeCount h) (fun p hp => (hpairs p hp).1.1)
          fun p hp => (hpairs p hp).1.2
      · rw [depth, depth, deepestEntry_congr fun p hp => (hpairs p hp).2]

end Value

namespace Schema

open Reader

/-- The containers that a read enters. -/
def entered (options : Options) (s : Schema) (r : Reader) : List Entry :=
  (after (s.log options 0 ⟨r, []⟩)).entries

/-- **DEPTH ACCOUNTING IS EXACT**, under every policy.

    * Every read of every type, out of any input and from any depth, leaves the reader at the depth
      at which it was, whether it succeeds or fails. It enters the containers of its log. The depth
      is then the depth at the start and the number of containers around, it is below the maximum,
      and one more is still a number of 64 bits.
    * A value that is written is read out of its encoding, with anything behind it, just if it is no
      container or the depth at the start and its own depth are together no more than the maximum.
      Otherwise the error is that the maximum has been exceeded. -/
theorem depth_accounting (options : Options) :
    (∀ (s : Schema) (r : Reader),
      (after (s.read options r)).depth = r.depth
        ∧ forget (s.log options 0 ⟨r, []⟩) = s.read options r
        ∧ ∀ e ∈ s.entered options r, e.depth = r.depth + e.level
          ∧ e.depth < options.security.maxDepth.toNat ∧ e.depth + 1 < 2 ^ 64)
      ∧ ∀ v : Value, v.Storable → ∃ e : List UInt8, v.Writes e
        ∧ ∀ (rest : List UInt8) (r : Reader), r.cursor.WellFormed → r.cursor.ahead = e ++ rest →
          ((∃ u s, value.read options r = .ok u s)
            ↔ v.depth = 0 ∨ r.depth + v.depth ≤ options.security.maxDepth.toNat)
          ∧ (¬ (v.depth = 0 ∨ r.depth + v.depth ≤ options.security.maxDepth.toNat) →
            ∃ s, value.read options r
              = .error (.read (.depthExceeded options.security.maxDepth)) s) := by
  constructor
  -- whatever is read, the log tells the depth at each entry and at the end
  · intro s r
    have hlogs := s.logs_read options 0
    have hforget := hlogs.forget_eq r []
    obtain ⟨hdepth, new, hnew, hentered⟩ := hlogs.leaves r []
    refine ⟨?_, hforget, ?_⟩
    · rw [← hforget]
      cases hresult : s.log options 0 ⟨r, []⟩ with
      | ok a t =>
          rw [hresult] at hdepth
          exact hdepth
      | error e t =>
          rw [hresult] at hdepth
          exact hdepth
    · intro e he
      rw [entered, hnew, List.append_nil] at he
      obtain ⟨hlt, -, heq⟩ := hentered e he
      have hmax := options.security.maxDepth.toNat_lt
      exact ⟨heq, hlt, by omega⟩
  · intro v hv
    obtain ⟨u, hencoded, hdepth⟩ := hv.encoded
    refine ⟨v.encoding, hv.writes, ?_⟩
    intro rest r hr hahead
    -- the encoding is that of a value just as deep, and only the depth matters
    have hfits : (v.depth = 0 ∨ r.depth + v.depth ≤ options.security.maxDepth.toNat)
        ↔ u.depth ≤ options.security.maxDepth.toNat - r.depth := by
      rw [hdepth]
      omega
    rw [hfits]
    constructor
    · constructor
      · rintro ⟨w, s, hok⟩
        by_contra hdeep
        obtain ⟨s', herror⟩ := hencoded.read_eq_error hr hahead (Nat.lt_of_not_le hdeep)
        cases hok.symm.trans herror
      · intro hle
        exact ⟨u, _, hencoded.read_eq hr hahead hle⟩
    · intro hdeep
      exact hencoded.read_eq_error hr hahead (Nat.lt_of_not_le hdeep)

/-- An array in an array, under a policy that allows one level. -/
theorem depth_accounting_tooDeep : ∃ e : List UInt8, (Value.array [.array []]).Writes e
    ∧ ∃ s, value.read { Options.standard with security := ⟨1, false⟩ }
        (.ofBytes ⟨(e ++ [0x07]).toArray⟩) = .error (.read (.depthExceeded 1)) s := by
  have hstorable : (Value.array [.array []]).Storable := by
    refine .array (by decide) (List.forall_mem_singleton.mpr ?_)
    exact .array (by decide) (List.forall_mem_nil _)
  obtain ⟨-, hvalues⟩ := depth_accounting { Options.standard with security := ⟨1, false⟩ }
  obtain ⟨e, hwrites, hreads⟩ := hvalues _ hstorable
  have hahead : (Cursor.ofBytes ⟨(e ++ [0x07]).toArray⟩).ahead = e ++ [0x07] :=
    Cursor.ahead_ofBytes _
  have hread := hreads [0x07] (.ofBytes ⟨List.toArray (e ++ [0x07])⟩)
    (Cursor.wellFormed_ofBytes _) hahead
  obtain ⟨-, herror⟩ := hread
  have hdeep : ¬ ((Value.array [.array []]).depth = 0
      ∨ 0 + (Value.array [.array []]).depth ≤ (1 : UInt64).toNat) := by decide
  exact ⟨e, hwrites, herror hdeep⟩

/-- **THE LOG OMITS NO CONTAINER.** Take any read of any type.
    * If it gives a value, it has as many entries as the value has containers.
    * Whether it gives one or fails, start it from the same position at a greater depth. It has the
      same outcome as long as every container of the log is then entered below the maximum too, and
      it is refused otherwise. So no container is further in than the log says. -/
theorem entered_complete (options : Options) (s : Schema) (r : Reader) :
    (∀ x t, s.read options r = .ok x t → (s.entered options r).length = s.containers x)
      ∧ ∀ d, r.depth ≤ d →
        ((∀ e ∈ s.entered options r, d + e.level < options.security.maxDepth.toNat) →
          s.read options ⟨r.cursor, d⟩ = atDepth d (s.read options r))
        ∧ ((∃ e ∈ s.entered options r, options.security.maxDepth.toNat ≤ d + e.level) →
          ∃ t, s.read options ⟨r.cursor, d⟩
            = .error (.read (.depthExceeded options.security.maxDepth)) t) := by
  constructor
  -- the logged read gives the same value, and has counted its containers
  · intro x t hok
    have hforget := (s.logs_read options 0).forget_eq r []
    rw [hok] at hforget
    cases hlog : s.log options 0 ⟨r, []⟩ with
    | ok y l =>
        rw [hlog] at hforget
        cases hforget
        obtain ⟨n, hn, hcount⟩ := s.tallies_log options 0 hlog
        rw [entered, hlog]
        exact hn.trans hcount
    | error e l =>
        rw [hlog] at hforget
        cases hforget
  · intro d hd
    obtain ⟨new, hnew, hforetells⟩ := (s.logs_read options 0).foretells r [] d hd
    rw [entered, hnew, List.append_nil]
    exact ⟨hforetells.same, hforetells.refused⟩

end Schema

end MessagePack
