import MessagePack.Proofs.Header
import MessagePack.Proofs.Lead
import MessagePack.Proofs.StableValue
import MessagePack.Proofs.TypedRoundTrip

/-!
# Keys that occur twice

Two entries of a map may have one key, and may have it in different bytes. A typed map is refused
then, and only then; a dynamic value keeps both entries.

* **`Schema.EncodedEntry`** is an entry in bytes that are accepted, in any form that its types have.
  `Schema.yields_map` says what a read of a typed map comes to on such entries, and
  `Value.keepsEntries` what a dynamic read does.
* **`Value.failsOnly_read`** leaves an equal key no way to make a dynamic read fail.
* **`duplicate_keys_exact`** puts them together.
-/

namespace MessagePack

/-! ## Accepted entries -/

namespace Schema

open Reader

variable {options : Options} {depth : Nat}

/-- At a depth, the bytes `x` are accepted as a value of a type: with nothing behind them they are
    read as the value, all of them. -/
def Accepts (options : Options) (depth : Nat) (s : Schema) (x : List UInt8) (a : s.Carrier) :
    Prop :=
  s.read options ⟨.ofBytes ⟨x.toArray⟩, depth⟩
    = .ok a (Reader.past ⟨.ofBytes ⟨x.toArray⟩, depth⟩ x.length)

/-- What is accepted alone is read with anything behind it, too. -/
theorem Accepts.yields {s : Schema} {x : List UInt8} {a : s.Carrier}
    (h : s.Accepts options depth x a) : Yields depth (s.read options) x (.ok a) := by
  intro r rest hr hd hahead
  have hextends : Extends rest x.length ⟨.ofBytes ⟨x.toArray⟩, depth⟩ r :=
    ⟨Cursor.wellFormed_ofBytes _, hr, by rw [hahead, Cursor.ahead_ofBytes], hd, Nat.le_refl _⟩
  have hagree := (stable_read options s).agree _ r hextends
  rw [h] at hagree
  generalize s.read options r = out at hagree ⊢
  generalize hpast : Reader.past ⟨.ofBytes ⟨x.toArray⟩, depth⟩ x.length = t at hagree
  cases hagree with
  | @ok n a' b hn hab =>
      cases show a = b from hab
      show EStateM.Result.ok a (r.past n) = .ok a (r.past x.length)
      rw [past_inj hpast]
  | short _ hshort _ => exact hshort.elim

/-- An entry with the bytes of its key and of its value. -/
structure EncodedEntry (k v : Schema) where
  keyBytes : List UInt8
  key : k.Carrier
  valueBytes : List UInt8
  value : v.Carrier

namespace EncodedEntry

variable {k v : Schema}

def entry (e : EncodedEntry k v) : k.Carrier × v.Carrier :=
  (e.key, e.value)

def bytes (e : EncodedEntry k v) : List UInt8 :=
  e.keyBytes ++ e.valueBytes

/-- The bytes are accepted, in whatever form they are. -/
structure Accepted (options : Options) (depth : Nat) (e : EncodedEntry k v) : Prop where
  key : k.Accepts options depth e.keyBytes e.key
  value : v.Accepts options depth e.valueBytes e.value

end EncodedEntry

/-- The bytes of a map with these entries in this order: a header in any form, and each entry in any
    form that is accepted inside. -/
structure EncodesMap {k v : Schema} (options : Options) (depth : Nat)
    (order : List (EncodedEntry k v)) (x : List UInt8) : Prop where
  accepted : ∀ e ∈ order, e.Accepted options (depth + 1)
  headed : ∃ header, HeaderForm .map order.length header
    ∧ x = header ++ (order.map EncodedEntry.bytes).flatten

/-- No value of any type is accepted from nothing. -/
theorem Accepts.length_pos {s : Schema} {x : List UInt8} {a : s.Carrier}
    (h : s.Accepts options depth x a) : 1 ≤ x.length := by
  obtain ⟨n, -, hpast, hn⟩ := recognizes_read_length options s depth
    (Cursor.wellFormed_ofBytes _) rfl h
  rw [← past_inj hpast, List.length_take] at hn
  exact Nat.le_trans hn (Nat.min_le_left _ _)

/-! ## Typed maps -/

section Maps

variable {k v : Schema} {μ : Type}
  {insert? : k.Carrier → v.Carrier → List (k.Carrier × v.Carrier)
    → Option (List (k.Carrier × v.Carrier))}

/-- What adding all entries comes to: a map that is made of them, or an error. -/
def outcome (insert? : k.Carrier → v.Carrier → List (k.Carrier × v.Carrier)
      → Option (List (k.Carrier × v.Carrier)))
    (make : List (k.Carrier × v.Carrier) → μ) (entries : List (k.Carrier × v.Carrier)) :
    Except DocumentError μ :=
  match insertAll? insert? entries [] with
  | some after => .ok (make after)
  | none => .error .duplicateKey

/-- Adding entries one after the other fails exactly if two of them have the same key. -/
theorem outcome_eq_error_iff {Inv : List (k.Carrier × v.Carrier) → Prop} (h : Adds insert? Inv)
    {make : List (k.Carrier × v.Carrier) → μ} {entries : List (k.Carrier × v.Carrier)} :
    outcome insert? make entries = .error .duplicateKey ↔ ¬ (entries.map Prod.fst).Nodup := by
  rw [← h.insertAll?_eq_none_iff, outcome]
  cases insertAll? insert? entries [] with
  | none => exact iff_of_true rfl rfl
  | some after =>
      refine iff_of_false ?_ (Option.some_ne_none _)
      rintro ⟨⟩

/-- Distinct keys make a sorted map of all the entries. -/
theorem exists_outcome_sorted (hk : k.isKey = true) {entries : List (k.Carrier × v.Carrier)}
    (h : (entries.map Prod.fst).Nodup) :
    ∃ m, outcome (insertSorted? k.compare) SortedMap.mk entries = .ok m
      ∧ m.entries.Pairwise (fun e f => k.compare e.1 f.1 = .lt) ∧ m.entries.Perm entries := by
  have hadds := adds_insertSorted? (ν := v.Carrier) (isOrder_compare hk)
  cases hinsert : insertAll? (insertSorted? k.compare) entries [] with
  | none => exact absurd h (hadds.insertAll?_eq_none_iff.mp hinsert)
  | some after =>
      refine ⟨⟨after⟩, ?_, hadds.perm_of_insertAll? hinsert⟩
      rw [outcome, hinsert]

/-- Distinct keys make a hash map of all the entries. -/
theorem outcome_front (hk : k.isKey = true) (hasher : KeyHasher)
    {entries : List (k.Carrier × v.Carrier)} (h : (entries.map Prod.fst).Nodup) :
    outcome (insertFront? k.compare) (fun l => HashedMap.mk hasher l.reverse) entries
      = .ok ⟨hasher, entries⟩ := by
  rw [outcome, insertAll?_front (isOrder_compare hk) h]
  show Except.ok (HashedMap.mk hasher entries.reverse.reverse) = _
  rw [List.reverse_reverse]

/-- **A TYPED MAP** of accepted entries is read as what adding them comes to. -/
theorem yields_map (make : List (k.Carrier × v.Carrier) → μ) {m : Decode μ}
    (hm : m = do return make (← readMap options insert? (k.read options) (v.read options)))
    (hd : depth < options.security.maxDepth.toNat) {order : List (EncodedEntry k v)}
    {x : List UInt8} (hx : EncodesMap options depth order x) :
    Yields depth m x (outcome insert? make (order.map EncodedEntry.entry)) := by
  obtain ⟨haccepted, header, hheader, rfl⟩ := hx
  rw [hm]
  refine Yields.of_reads fun rest => ?_
  refine (reads_readMap (E := fun e => outcome insert? make (order.map EncodedEntry.entry)
    = .error e) EncodedEntry.entry (headerForm_iff.mp hheader) ?_ hd ?_ ?_ ?_).map ?_
  -- each entry takes at least two bytes, which is what the header is checked for
  · intro e he
    rw [List.length_append]
    exact Nat.add_le_add (haccepted e he).key.length_pos (haccepted e he).value.length_pos
  · intro e he rest
    exact (haccepted e he).key.yields.reads
  · intro e he rest
    exact (haccepted e he).value.yields.reads
  · intro hnone
    rw [outcome, hnone]
  · intro after hafter
    rw [outcome, hafter]

end Maps

end Schema

/-! ## Dynamic values -/

namespace Value

open Reader Schema

variable {options : Options} {depth : Nat}

/-- The errors of dynamic reads: those of tokens, and nil where something else was announced. -/
inductive ReadFails : DocumentError → Prop
  | token (e : ReadError) : ReadFails (.read e)
  | nil : ReadFails .unexpectedNil

/-- What fails in reading tokens fails with an error of reading tokens. -/
theorem failsOnly_ofRead {α : Type} (m : Read α) : FailsOnly ReadFails (Decode.ofRead m) := by
  intro r s e h
  rw [Decode.ofRead, EStateM.adaptExcept] at h
  split at h
  · cases h
    exact .token _
  · cases h

/-- Nil in the place of something else is an error of reading tokens. -/
theorem failsOnly_ofNonNil {α : Type} (m : Read (Option α)) :
    FailsOnly ReadFails (Decode.ofNonNil m) := by
  refine (failsOnly_ofRead m).bind fun o => ?_
  split
  · exact .of_pure _
  · exact .of_throw .nil

/-- An integer fails in no other way than its token. -/
theorem failsOnly_readInteger (f : Format) : FailsOnly ReadFails (readInteger f) := by
  rw [readInteger]
  split
  · exact (failsOnly_ofRead _).map _
  · exact (failsOnly_ofRead _).map _

/-- An extension fails in no other way than its token. -/
theorem failsOnly_readExtension : FailsOnly ReadFails readExtension := by
  refine (failsOnly_ofRead _).bind fun h => ?_
  split
  · exact (failsOnly_ofRead _).map _
  · exact (failsOnly_ofRead Reader.ext).map fun e => Value.extension e.type e.data.toBytes

/-- If the values inside fail in no other way, no value of any kind does. -/
theorem failsOnly_readAs {bound : Nat} (h : FailsOnly ReadFails (readWithin options bound))
    (f : Format) : FailsOnly ReadFails (readAs options bound f) := by
  rw [readAs]
  cases f.kind with
  | nil => exact (failsOnly_ofRead _).bind fun _ => .of_pure _
  | boolean => exact (failsOnly_ofRead _).map _
  | integer => exact failsOnly_readInteger f
  | float =>
      dsimp only
      split
      · exact (failsOnly_ofRead _).map _
      · exact (failsOnly_ofRead _).map _
  | string => exact (failsOnly_ofNonNil _).map _
  | binary => exact (failsOnly_ofNonNil Reader.bytes).map fun v => Value.binary v.toBytes
  | array =>
      refine FailsOnly.nested ((failsOnly_ofRead _).bind fun n => ?_) (.token _)
      exact (h.replicate n.toNat).map _
  -- entries are kept as they come, so there is no key to be refused
  | map =>
      refine FailsOnly.nested ((failsOnly_ofRead _).bind fun n => ?_) (.token _)
      exact ((h.bind fun key => h.map _).replicate n.toNat).map _
  | extension => exact failsOnly_readExtension
  | unknown => exact .of_throw (.token _)

/-- No dynamic value fails for a key that was there before. -/
theorem failsOnly_readWithin (bound : Nat) : FailsOnly ReadFails (readWithin options bound) := by
  -- by induction on the bound; nothing in a container looks at what was read before it
  induction bound with
  | zero => exact .of_throw (.token _)
  | succ bound ih =>
      rw [readWithin_succ]
      exact (failsOnly_ofRead _).bind fun f => failsOnly_readAs ih f

/-- **NO KEY IS AT FAULT**: a dynamic read fails for its tokens only, whatever its keys are. -/
theorem failsOnly_read (options : Options) : FailsOnly ReadFails (read options) :=
  fun r _ _ h => failsOnly_readWithin r.remaining h

/-- An integer is of the same kind, whichever way it is held. -/
theorem kind_ofInt (n : Int64) : (ofInt n).kind = .integer := by
  rw [ofInt]
  split <;> rfl

/-- The lead byte of an encoding is of the kind of the value. -/
theorem Encoded.begins {v : Value} {x : List UInt8} (h : Encoded v x) : Begins (· = v.kind) x := by
  cases h with
  | nil => exact ⟨.nil, [], rfl, rfl⟩
  | boolean b => exact ⟨.boolean b, [], rfl, rfl⟩
  | signed h _ => exact ⟨_, _, rfl, h.kind_eq.trans (kind_ofInt _).symm⟩
  | unsigned h _ => exact ⟨_, _, rfl, h.kind_eq⟩
  | float32 _ => exact ⟨.float32, _, rfl, rfl⟩
  | float64 _ => exact ⟨.float64, _, rfl, rfl⟩
  | string h =>
      obtain ⟨header, hheader, rfl⟩ := h
      exact hheader.begins (fun _ _ => kind_of_strLength) _
  | @binary w _ _ _ _ => exact ⟨.bin w, _, rfl, rfl⟩
  | array h _ => exact h.begins (fun _ _ => kind_of_arrayCount) _
  | map h _ _ => exact h.begins (fun _ _ => kind_of_mapCount) _
  | timestamp h _ => exact h.begins
  | extension h _ => exact h.begins

/-- The bytes that are accepted as a dynamic value are its encodings, as long as the nesting is not
    too deep. -/
theorem accepts_iff {x : List UInt8} {v : Value} : Schema.value.Accepts options depth x v
    ↔ Encoded v x ∧ v.depth ≤ options.security.maxDepth.toNat - depth := by
  constructor
  · intro h
    obtain ⟨n, -, hpast, hv⟩ := recognizes_read options depth (Cursor.wellFormed_ofBytes _) rfl h
    rwa [← past_inj hpast, Cursor.ahead_ofBytes, List.take_length] at hv
  · rintro ⟨hx, hdepth⟩
    have hahead : (Cursor.ofBytes ⟨x.toArray⟩).ahead = x ++ [] := by
      rw [Cursor.ahead_ofBytes, List.append_nil]
    exact hx.read_eq (Cursor.wellFormed_ofBytes _) hahead hdepth

/-- What is encoded behind the header of a map are as many entries as it counts. -/
theorem Encoded.of_mapHeader {v : Value} {n : Nat} {x header y z : List UInt8} (h : Encoded v x)
    (hheader : Headed Format.mapCount? n header) (heq : x ++ y = header ++ z) :
    ∃ entries : List (EncodedEntry value value), entries.length = n
      ∧ (∀ e ∈ entries, Encoded e.key e.keyBytes ∧ Encoded e.value e.valueBytes)
      ∧ v = .map (entries.map EncodedEntry.entry)
      ∧ x = header ++ (entries.map EncodedEntry.bytes).flatten := by
  -- the lead byte leaves a map only
  have hmap : Begins (· = .map) (x ++ y) := by
    rw [heq]
    exact hheader.begins (fun _ _ => kind_of_mapCount) z
  obtain ⟨_, hkind, rfl⟩ := (h.begins.append y).and hmap
  cases h with
  | @map header' parts h hkeys hvalues =>
      rw [List.append_assoc] at heq
      obtain ⟨rfl, rfl⟩ := h.unique hheader heq
      refine ⟨parts.map fun p => ⟨p.1.2, p.1.1, p.2.2, p.2.1⟩, List.length_map _, ?_, ?_, ?_⟩
      · intro e he
        obtain ⟨p, hp, rfl⟩ := List.mem_map.mp he
        exact ⟨hkeys p hp, hvalues p hp⟩
      · rw [List.map_map]
        rfl
      · rw [List.map_map]
        rfl
  | signed _ _ =>
      rw [kind_ofInt] at hkind
      cases hkind
  | _ => cases hkind

/-- Entries that are accepted as dynamic values are encoded, one by one, and not too deep. -/
theorem accepted_iff {e : EncodedEntry value value} : e.Accepted options depth
    ↔ (Encoded e.key e.keyBytes ∧ Encoded e.value e.valueBytes)
      ∧ e.key.depth ≤ options.security.maxDepth.toNat - depth
      ∧ e.value.depth ≤ options.security.maxDepth.toNat - depth := by
  constructor
  · rintro ⟨hkey, hvalue⟩
    exact ⟨⟨(accepts_iff.mp hkey).1, (accepts_iff.mp hvalue).1⟩, (accepts_iff.mp hkey).2,
      (accepts_iff.mp hvalue).2⟩
  · rintro ⟨⟨hkey, hvalue⟩, hkeyDepth, hvalueDepth⟩
    exact ⟨accepts_iff.mpr ⟨hkey, hkeyDepth⟩, accepts_iff.mpr ⟨hvalue, hvalueDepth⟩⟩

/-- Where the header of a map is ahead, a value is read if and only if as many accepted entries as
    it counts are behind it. It is the map of all of them in their order, and they are consumed. -/
def KeepsEntries (options : Options) : Prop :=
  ∀ ⦃n : Nat⦄ ⦃header rest : List UInt8⦄ ⦃r : Reader⦄, HeaderForm .map n header →
    r.cursor.WellFormed → r.cursor.ahead = header ++ rest → ∀ v s, read options r = .ok v s
      ↔ r.depth < options.security.maxDepth.toNat
        ∧ ∃ (entries : List (EncodedEntry value value)) (tail : List UInt8), entries.length = n
          ∧ (∀ e ∈ entries, e.Accepted options (r.depth + 1))
          ∧ rest = (entries.map EncodedEntry.bytes).flatten ++ tail
          ∧ v = .map (entries.map EncodedEntry.entry)
          ∧ s = r.past (header ++ (entries.map EncodedEntry.bytes).flatten).length

/-- **A DYNAMIC MAP** is read with all of its entries. -/
theorem keepsEntries (options : Options) : KeepsEntries options := by
  intro n header rest r hheader hr hahead v s
  rw [headerForm_iff] at hheader
  constructor
  · intro hread
    obtain ⟨consumed, hconsumed, rfl, hx, hdepth⟩ := recognizes_read options r.depth hr rfl hread
    -- the bytes that were read are those of a map with this header, so the rest is its entries
    have hsplit := (List.take_append_drop consumed r.cursor.ahead).trans hahead
    obtain ⟨entries, hlength, hentries, rfl, hbytes⟩ := hx.of_mapHeader hheader hsplit
    obtain ⟨hd, hdepths⟩ := of_depth_map_le hdepth
    refine ⟨hd, entries, r.cursor.ahead.drop consumed, hlength, ?_, ?_, rfl, ?_⟩
    · intro e he
      exact accepted_iff.mpr ⟨hentries e he, hdepths _ (List.mem_map_of_mem he)⟩
    · rw [hbytes, List.append_assoc] at hsplit
      exact (List.append_cancel_left hsplit).symm
    · rw [← hbytes, hr.length_take_ahead hconsumed]
  · rintro ⟨hd, entries, tail, rfl, haccepted, rfl, rfl, rfl⟩
    have hencoded : Encoded (.map (entries.map EncodedEntry.entry))
        (header ++ (entries.map EncodedEntry.bytes).flatten) :=
      .map_map hheader (fun e he => (accepted_iff.mp (haccepted e he)).1.1)
        fun e he => (accepted_iff.mp (haccepted e he)).1.2
    refine hencoded.read_eq hr (hahead.trans (List.append_assoc _ _ _).symm) ?_
    refine depth_map_le hd fun p hp => ?_
    obtain ⟨e, he, rfl⟩ := List.mem_map.mp hp
    exact (accepted_iff.mp (haccepted e he)).2

end Value

/-! ## The result -/

open Schema

/-- **DUPLICATE KEYS ARE FOUND EXACTLY.** Take any entries with keys of a type that a map takes its
    keys from, at a depth that allows a map. Encode them in any order, with a header, keys and
    values in any forms that are accepted, so that equal keys may have different bytes.
    * As a sorted map they come to one outcome, whatever the order and the forms are: it is a
      duplicate key if two keys are equal, and else the entries in increasing order of key, with the
      bytes consumed.
    * As a hash map, if the policy permits the type of the keys, they come to a duplicate key if two
      keys are equal, and else to the entries, each once, with the bytes consumed.
    * A dynamic read never finds a duplicate key, and it gives a map if and only if the entries that
      the header counts are there, and then all of them in their order. -/
theorem duplicate_keys_exact {k v : Schema} (options : Options) {depth : Nat}
    (hk : k.isKey = true) (hdepth : depth < options.security.maxDepth.toNat)
    (entries : List (k.Carrier × v.Carrier)) :
    (∃ out : Except DocumentError (SortedMap k.Carrier v.Carrier),
      (out = .error .duplicateKey ↔ ¬ (entries.map Prod.fst).Nodup)
        ∧ ((entries.map Prod.fst).Nodup → ∃ m, out = .ok m
          ∧ m.entries.Pairwise (fun e f => k.compare e.1 f.1 = .lt) ∧ m.entries.Perm entries)
        ∧ ∀ order x, (order.map EncodedEntry.entry).Perm entries →
          EncodesMap options depth order x →
          Reader.Yields depth ((sortedMap k v).read options) x out)
      ∧ (∀ hasher, options.security.keyHasher k.keyType = .ok hasher →
        ∀ order x, (order.map EncodedEntry.entry).Perm entries → EncodesMap options depth order x →
          ((entries.map Prod.fst).Nodup → Reader.Yields depth ((hashMap k v).read options) x
              (.ok ⟨hasher, order.map EncodedEntry.entry⟩))
            ∧ (¬ (entries.map Prod.fst).Nodup → Reader.Yields depth ((hashMap k v).read options) x
              (.error .duplicateKey)))
      ∧ (∀ r s, Value.read options r ≠ .error .duplicateKey s)
      ∧ Value.KeepsEntries options := by
  have horder := isOrder_compare hk
  refine ⟨⟨outcome (insertSorted? k.compare) SortedMap.mk entries,
    outcome_eq_error_iff (adds_insertSorted? horder), exists_outcome_sorted hk, ?_⟩, ?_, ?_,
    Value.keepsEntries options⟩
  · intro order x hperm hx
    have hyields := yields_map SortedMap.mk (m := (sortedMap k v).read options) rfl hdepth hx
    rwa [outcome, insertAll?_sorted_perm horder hperm] at hyields
  · intro hasher hhasher order x hperm hx
    -- the hasher is granted, so what is left is to read the entries
    have hread : (hashMap k v).read options = do
        return HashedMap.mk hasher (← readMap options (insertFront? k.compare) (k.read options)
          (v.read options)).reverse := by
      rw [Schema.read, hhasher]
    have hyields := yields_map (fun l => HashedMap.mk hasher l.reverse) hread hdepth hx
    have hnodup := (hperm.map Prod.fst).nodup_iff
    constructor
    · intro h
      rwa [outcome_front hk hasher (hnodup.mpr h)] at hyields
    · intro h
      rwa [(outcome_eq_error_iff (adds_insertFront? horder)).mpr (mt hnodup.mp h)] at hyields
  · intro r s h
    cases Value.failsOnly_read options h

/-- A map that has the key 1 twice, in one byte and in two: it is no typed map, and a dynamic value
    has both entries. -/
theorem duplicate_keys_exact_two_forms :
    (∃ s, (sortedMap (int (.unsigned .w8)) boolean).read .untrusted
        (.ofBytes ⟨#[0x82, 0x01, 0xc3, 0xcc, 0x01, 0xc2]⟩) = .error .duplicateKey s)
      ∧ (∃ s, (hashMap (int (.unsigned .w8)) boolean).read .untrusted
        (.ofBytes ⟨#[0x82, 0x01, 0xc3, 0xcc, 0x01, 0xc2]⟩) = .error .duplicateKey s)
      ∧ Value.read .untrusted (.ofBytes ⟨#[0x82, 0x01, 0xc3, 0xcc, 0x01, 0xc2]⟩)
        = .ok (.map [(.unsigned 1, .boolean true), (.unsigned 1, .boolean false)])
          ((Reader.ofBytes ⟨#[0x82, 0x01, 0xc3, 0xcc, 0x01, 0xc2]⟩).past 6) := by
  have hone : (IntType.unsigned .w8).least ≤ 1 ∧ 1 ≤ (IntType.unsigned .w8).greatest := by decide
  let order : List (EncodedEntry (int (.unsigned .w8)) boolean) :=
    [⟨[0x01], ⟨1, hone⟩, [0xc3], true⟩, ⟨[0xcc, 0x01], ⟨1, hone⟩, [0xc2], false⟩]
  have hheader : HeaderForm .map 2 [0x82] := .inLead (by decide)
  have hmap : EncodesMap .untrusted 0 order [0x82, 0x01, 0xc3, 0xcc, 0x01, 0xc2] := by
    have hshort : (int (.unsigned .w8)).Accepts .untrusted 1 [0x01] ⟨1, hone⟩ := by rfl
    have htrue : boolean.Accepts .untrusted 1 [0xc3] true := by rfl
    have hlong : (int (.unsigned .w8)).Accepts .untrusted 1 [0xcc, 0x01] ⟨1, hone⟩ := by rfl
    have hfalse : boolean.Accepts .untrusted 1 [0xc2] false := by rfl
    refine ⟨List.forall_mem_cons.mpr ⟨⟨hshort, htrue⟩, ?_⟩, [0x82], hheader, rfl⟩
    exact List.forall_mem_singleton.mpr ⟨hlong, hfalse⟩
  have htwice : ¬ ((order.map EncodedEntry.entry).map Prod.fst).Nodup := by
    intro h
    exact (List.nodup_cons.mp h).1 List.mem_cons_self
  obtain ⟨⟨out, hout, -, hsorted⟩, hhashed, -, hkeeps⟩ := duplicate_keys_exact
    (k := int (.unsigned .w8)) (v := boolean) .untrusted rfl (show 0 < _ by decide)
    (order.map EncodedEntry.entry)
  have hahead := Cursor.ahead_ofBytes ⟨#[0x82, 0x01, 0xc3, 0xcc, 0x01, 0xc2]⟩
  have hwellFormed := Cursor.wellFormed_ofBytes ⟨#[0x82, 0x01, 0xc3, 0xcc, 0x01, 0xc2]⟩
  refine ⟨?_, ?_, ?_⟩
  · have hyields := hsorted order _ (.refl _) hmap
    rw [hout.mpr htwice] at hyields
    exact hyields (r := .ofBytes _) hwellFormed rfl hahead
  · exact (hhashed .hardened rfl order _ (.refl _) hmap).2 htwice (r := .ofBytes _) hwellFormed rfl
      hahead
  · let values : List (EncodedEntry value value) :=
      [⟨[0x01], .unsigned 1, [0xc3], .boolean true⟩,
        ⟨[0xcc, 0x01], .unsigned 1, [0xc2], .boolean false⟩]
    have hvalues : ∀ e ∈ values, e.Accepted .untrusted 1 := by
      have hshort : value.Accepts .untrusted 1 [0x01] (.unsigned 1) := by rfl
      have htrue : value.Accepts .untrusted 1 [0xc3] (.boolean true) := by rfl
      have hlong : value.Accepts .untrusted 1 [0xcc, 0x01] (.unsigned 1) := by rfl
      have hfalse : value.Accepts .untrusted 1 [0xc2] (.boolean false) := by rfl
      exact List.forall_mem_cons.mpr ⟨⟨hshort, htrue⟩,
        List.forall_mem_singleton.mpr ⟨hlong, hfalse⟩⟩
    refine (hkeeps (r := .ofBytes _) hheader hwellFormed hahead _ _).mpr ?_
    exact ⟨by decide, values, [], rfl, hvalues, rfl, rfl, rfl⟩

end MessagePack
