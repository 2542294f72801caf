import MessagePack.Proofs.OldSpec

/-!
# Reading the output for the old specification

In the mode of the old specification binary data go out as strings, so reading takes them for text.
Out of what was written a value is read that has texts in their place; if some of the data are no
text, reading fails for that. The data are all there nonetheless: where they begin, they are read as
binary data.

* **`Value.asText`** puts texts in the place of binary data.
* **`Value.reads_oldEncoding`** says what is read, and that nothing else goes wrong.
* **`Value.PartAt`** is a part of a value with the bytes in front of it.
* **`Value.old_spec_output`** puts writing, the lead bytes and both ways of reading together.
-/

namespace MessagePack

namespace Value

open Reader Writer

/-! ## Texts in the place of binary data -/

mutual

/-- A value with every binary data that is text replaced by that text. -/
def asText : Value → Value
  | binary bytes => if h : bytes.IsValidUTF8 then .string (.ofByteArray bytes h) else .binary bytes
  | array items => .array (asTextItems items)
  | map entries => .map (asTextEntries entries)
  | v => v

/-- The same for the values of a list. -/
def asTextItems : List Value → List Value
  | [] => []
  | v :: rest => v.asText :: asTextItems rest

/-- The same for the keys and values of a list of entries. -/
def asTextEntries : List (Value × Value) → List (Value × Value)
  | [] => []
  | (k, v) :: rest => (k.asText, v.asText) :: asTextEntries rest

end

/-- The items of a list are replaced one by one. -/
theorem asTextItems_eq (items : List Value) : asTextItems items = items.map asText := by
  induction items with
  | nil => rfl
  | cons v items ih => rw [asTextItems, ih, List.map_cons]

theorem asTextEntries_eq (entries : List (Value × Value)) :
    asTextEntries entries = entries.map fun e => (e.1.asText, e.2.asText) := by
  induction entries with
  | nil => rfl
  | cons e entries ih => rw [asTextEntries, ih, List.map_cons]

/-- Whether all the binary data in a value are text. -/
def AllText (v : Value) : Prop :=
  ∀ bytes, Part (.binary bytes) v → bytes.IsValidUTF8

/-- The binary data in an array are those in its items. -/
theorem allText_array_iff {items : List Value} :
    (array items).AllText ↔ ∀ v ∈ items, v.AllText := by
  constructor
  · exact fun h v hv bytes hpart => h bytes (.item hv hpart)
  · intro h bytes hpart
    rcases part_array_iff.mp hpart with heq | ⟨v, hv, hpart⟩
    · cases heq
    · exact h v hv bytes hpart

theorem allText_map_iff {entries : List (Value × Value)} :
    (map entries).AllText ↔ ∀ e ∈ entries, e.1.AllText ∧ e.2.AllText := by
  constructor
  · exact fun h e he => ⟨fun bytes hpart => h bytes (.key he hpart),
      fun bytes hpart => h bytes (.value he hpart)⟩
  · intro h bytes hpart
    rcases part_map_iff.mp hpart with heq | ⟨e, he, hpart | hpart⟩
    · cases heq
    · exact (h e he).1 bytes hpart
    · exact (h e he).2 bytes hpart

/-- Binary data alone are all text if they are text. -/
theorem allText_binary_iff {bytes : ByteArray} :
    (binary bytes).AllText ↔ bytes.IsValidUTF8 := by
  constructor
  · exact fun h => h bytes .self
  · intro h bytes' hpart
    cases hpart.eq_of_scalar nofun nofun
    exact h

/-- Whether a value is neither binary data nor a container. -/
def isPlain : Value → Bool
  | binary _ | array _ | map _ => false
  | _ => true

theorem allText_of_isPlain {v : Value} (hv : v.isPlain = true) : v.AllText := by
  intro bytes hpart
  cases hpart with
  | self | item | key | value => cases hv

/-- Where there are no binary data, nothing is replaced. -/
theorem asText_of_isPlain {v : Value} (hv : v.isPlain = true) : v.asText = v := by
  cases v with
  | binary | array | map => cases hv
  | _ => rfl

/-! ## What is read -/

/-- Reading fails because some of the binary data are no text. -/
def NoText (v : Value) (e : DocumentError) : Prop :=
  ¬ v.AllText ∧ ∃ fault, e = .read (.invalidUtf8 fault)

variable {options : Options} {bound d : Nat} {rest x : List UInt8}

/-- A value that is neither binary data nor a container is read as it is. -/
theorem reads_plain {v : Value} (h : Encoded v x) (hv : v.isPlain = true)
    (hdepth : v.depth ≤ options.security.maxDepth.toNat - d) (hbound : x.length ≤ bound) :
    Reads d (readWithin options bound) x rest (fun u => v.AllText ∧ u = v.asText) v.NoText := by
  refine (h.reads (fun hdeep => absurd hdepth (Nat.not_le_of_lt hdeep)) hbound).imp ?_
  rintro u rfl
  exact ⟨allText_of_isPlain hv, (asText_of_isPlain hv).symm⟩

/-- Binary data are read as the text that they are, or refused if they are none. -/
theorem reads_oldBinary {bytes : ByteArray} (h : bytes.size < 2 ^ 32)
    (hbound : (binary bytes).oldEncoding.length ≤ bound) :
    Reads d (readWithin options bound) (binary bytes).oldEncoding rest
      (fun u => (binary bytes).AllText ∧ u = (binary bytes).asText) (binary bytes).NoText := by
  obtain ⟨f, e, field, hf, he, hheader⟩ := Token.headed_encodeStrHeader true h
  rw [oldEncoding, hheader] at hbound ⊢
  refine reads_of_readAs hbound fun k _ => ?_
  -- the reader takes them for a string, and only then looks whether they are text
  have hread : Reads d (readAs options k f) (f.byte :: (field ++ bytes.data.toList)) rest
      (fun v => ∃ t, Utf8.decode bytes = .ok t ∧ v = .string t)
      fun e => ∃ fault, e = .read (.invalidUtf8 fault) ∧ Utf8.decode bytes = .error fault :=
    reads_string hf he
  refine hread.mono ?_ ?_
  · rintro u ⟨t, ht, rfl⟩
    have hbytes : t.toUTF8 = bytes := Utf8.toUTF8_of_decode ht
    have hvalid : bytes.IsValidUTF8 := hbytes ▸ t.isValidUTF8
    refine ⟨allText_binary_iff.mpr hvalid, ?_⟩
    rw [asText, dif_pos hvalid]
    subst hbytes
    rfl
  · rintro _ ⟨fault, rfl, hfault⟩
    refine ⟨fun htext => ?_, fault, rfl⟩
    have hvalid := allText_binary_iff.mp htext
    have hdecode := Utf8.decode_toUTF8 (.ofByteArray bytes hvalid)
    cases hdecode.symm.trans hfault

/-- No value without timestamps is written as nothing. -/
theorem length_oldEncoding_pos {v : Value} (h : v.Canonical) (hv : ¬ v.Timed) :
    1 ≤ v.oldEncoding.length := by
  obtain ⟨leads, hleads, -⟩ := oldRow_oldEncoding h hv
  exact hleads.isRow.le_length

/-- **THE OUTPUT IS READ**, in the mode of the old specification, with texts in the place of binary
    data. The only thing that can go wrong is that some of the data are no text. -/
theorem reads_oldEncoding {v : Value} (h : v.Canonical) (hv : ¬ v.Timed) :
    ∀ {bound d : Nat} {rest : List UInt8}, v.depth ≤ options.security.maxDepth.toNat - d →
      v.oldEncoding.length ≤ bound →
      Reads d (readWithin options bound) v.oldEncoding rest (fun u => v.AllText ∧ u = v.asText)
        v.NoText := by
  -- by induction on the value; the parts of a container are shorter, so the bound is enough
  induction h with
  | nil => exact reads_plain (encoded_encoding .nil) rfl
  | boolean b => exact reads_plain (encoded_encoding (.boolean b)) rfl
  | integer h => exact reads_plain (encoded_encoding (.integer h)) rfl
  | unsigned n => exact reads_plain (encoded_encoding (.unsigned n)) rfl
  | float32 f => exact reads_plain (encoded_encoding (.float32 f)) rfl
  | float64 f => exact reads_plain (encoded_encoding (.float64 f)) rfl
  | extension hne h => exact reads_plain (encoded_encoding (.extension hne h)) rfl
  | timestamp h => exact absurd ⟨_, .self⟩ hv
  | string h =>
      exact reads_plain (.string ⟨_, Token.headed_encodeStrHeader true h, rfl⟩) rfl
  | binary h => exact fun _ => reads_oldBinary h
  | @array items h hitems ih =>
      intro bound d rest hdepth hbound
      obtain ⟨f, e, field, hf, he, hheader⟩ := Token.counts_array.headed_encodeCount h
      obtain ⟨hd, hdepth⟩ := of_depth_array_le hdepth
      have hparts : ∀ v ∈ items, ¬ v.Timed := fun v hmem ht =>
        hv (timed_array_iff.mpr ⟨v, hmem, ht⟩)
      rw [oldEncoding, oldEncodingItems_eq, Token.encodeArrayHeader, hheader] at hbound ⊢
      refine reads_of_readAs hbound fun k hk =>
        (reads_array (P := fun v u => v.AllText ∧ u = v.asText) hf he ?_ ?_ ?_).imp ?_
      · exact fun v hmem => length_oldEncoding_pos (hitems v hmem) (hparts v hmem)
      · intro _ v hmem rest
        refine (ih v hmem (hparts v hmem) (hdepth v hmem)
          (Nat.le_trans (length_part_le oldEncoding field hmem) hk)).mono (fun _ => id) ?_
        exact fun _ => And.imp_left fun hnone hall => hnone (allText_array_iff.mp hall v hmem)
      · exact fun hle => absurd hd (Nat.not_lt_of_le hle)
      · rintro u ⟨l, hl, rfl⟩
        obtain ⟨hall, hl⟩ := (List.forall₂_and_left _ _).mp hl
        rw [asText, asTextItems_eq, eq_map_of_forall₂ hl]
        exact ⟨allText_array_iff.mpr hall, rfl⟩
  | @map entries h hkeys hvalues ihkeys ihvalues =>
      intro bound d rest hdepth hbound
      obtain ⟨f, e, field, hf, he, hheader⟩ := Token.counts_map.headed_encodeCount h
      obtain ⟨hd, hdepth⟩ := of_depth_map_le hdepth
      have hparts : ∀ e ∈ entries, ¬ e.1.Timed ∧ ¬ e.2.Timed := fun e hmem =>
        not_or.mp fun ht => hv (timed_map_iff.mpr ⟨e, hmem, ht⟩)
      rw [oldEncoding, oldEncodingEntries_eq, Token.encodeMapHeader, hheader] at hbound ⊢
      refine reads_of_readAs hbound fun k hk => ?_
      have hlength : ∀ e ∈ entries, e.1.oldEncoding.length ≤ k ∧ e.2.oldEncoding.length ≤ k :=
        fun _ hmem => length_entry_le _ _ field hmem hk
      refine (reads_map (P := fun e u => e.1.AllText ∧ u = e.1.asText)
        (Q := fun e u => e.2.AllText ∧ u = e.2.asText) hf he ?_ ?_ ?_ ?_).imp ?_
      · exact fun e hmem => ⟨length_oldEncoding_pos (hkeys e hmem) (hparts e hmem).1,
          length_oldEncoding_pos (hvalues e hmem) (hparts e hmem).2⟩
      · intro _ e hmem rest
        refine (ihkeys e hmem (hparts e hmem).1 (hdepth e hmem).1 (hlength e hmem).1).mono
          (fun _ => id) ?_
        exact fun _ => And.imp_left fun hnone hall => hnone (allText_map_iff.mp hall e hmem).1
      · intro _ e hmem rest
        refine (ihvalues e hmem (hparts e hmem).2 (hdepth e hmem).2 (hlength e hmem).2).mono
          (fun _ => id) ?_
        exact fun _ => And.imp_left fun hnone hall => hnone (allText_map_iff.mp hall e hmem).2
      · exact fun hle => absurd hd (Nat.not_lt_of_le hle)
      · rintro u ⟨l, hl, rfl⟩
        have hentry : List.Forall₂ (fun e u => (e.1.AllText ∧ e.2.AllText)
            ∧ u = (e.1.asText, e.2.asText)) entries l := by
          refine hl.imp fun e u hread => ?_
          obtain ⟨⟨hkey, hk⟩, hvalue, hv⟩ := hread
          exact ⟨⟨hkey, hvalue⟩, Prod.ext hk hv⟩
        obtain ⟨hall, hl⟩ := (List.forall₂_and_left _ _).mp hentry
        rw [asText, asTextEntries_eq, eq_map_of_forall₂ hl]
        exact ⟨allText_map_iff.mpr hall, rfl⟩

/-- What is read where the output is ahead, at a depth that leaves room for the value. -/
theorem read_oldEncoding {v : Value} (h : v.Canonical) (hv : ¬ v.Timed) {r : Reader}
    (hr : r.cursor.WellFormed) (hahead : r.cursor.ahead = v.oldEncoding ++ rest)
    (hdepth : r.depth + v.depth ≤ options.security.maxDepth.toNat) :
    (v.AllText → read options r = .ok v.asText (r.past v.oldEncoding.length))
      ∧ (¬ v.AllText → ∃ fault s, read options r = .error (.read (.invalidUtf8 fault)) s) := by
  have hreads : Reads r.depth (read options) v.oldEncoding rest
      (fun u => v.AllText ∧ u = v.asText) v.NoText :=
    Reads.bind_get fun _ hr _ hahead =>
      reads_oldEncoding h hv (by omega) (hr.length_le_remaining hahead)
  rcases hreads hr rfl hahead with ⟨u, hok, htext, rfl⟩ | ⟨_, s, herror, hnone, fault, rfl⟩
  · exact ⟨fun _ => hok, fun hnone => absurd htext hnone⟩
  · exact ⟨fun htext => absurd htext hnone, fun _ => ⟨fault, s, herror⟩⟩

/-! ## Where the parts are -/

/-- A part of a value with the bytes that are written in front of it: those of the header, and those
    of everything that comes before it. -/
inductive PartAt (u : Value) : Value → List UInt8 → Prop
  | self : PartAt u u []
  | item {front back : List Value} {v : Value} {before : List UInt8} (h : PartAt u v before) :
      PartAt u (.array (front ++ v :: back))
        (Token.encodeArrayHeader (front ++ v :: back).length ++ oldEncodingItems front ++ before)
  | key {front back : List (Value × Value)} {k v : Value} {before : List UInt8}
      (h : PartAt u k before) : PartAt u (.map (front ++ (k, v) :: back))
        (Token.encodeMapHeader (front ++ (k, v) :: back).length ++ oldEncodingEntries front
          ++ before)
  | value {front back : List (Value × Value)} {k v : Value} {before : List UInt8}
      (h : PartAt u v before) : PartAt u (.map (front ++ (k, v) :: back))
        (Token.encodeMapHeader (front ++ (k, v) :: back).length ++ oldEncodingEntries front
          ++ k.oldEncoding ++ before)

/-- Every part is somewhere. -/
theorem Part.exists_before {u v : Value} (h : Part u v) : ∃ before, PartAt u v before := by
  induction h with
  | self => exact ⟨[], .self⟩
  | item hmem _ ih =>
      obtain ⟨front, back, rfl⟩ := List.append_of_mem hmem
      obtain ⟨before, hat⟩ := ih
      exact ⟨_, .item hat⟩
  | key hmem _ ih =>
      obtain ⟨front, back, rfl⟩ := List.append_of_mem hmem
      obtain ⟨before, hat⟩ := ih
      exact ⟨_, .key hat⟩
  | value hmem _ ih =>
      obtain ⟨front, back, rfl⟩ := List.append_of_mem hmem
      obtain ⟨before, hat⟩ := ih
      exact ⟨_, .value hat⟩

/-- What stands at a place in a value is a part of it. -/
theorem PartAt.part {u v : Value} {before : List UInt8} (h : PartAt u v before) : Part u v := by
  have hmem : ∀ {α : Type} {front back : List α} {a : α}, a ∈ front ++ a :: back :=
    List.mem_append_right _ List.mem_cons_self
  induction h with
  | self => exact .self
  | item _ ih => exact .item hmem ih
  | key _ ih => exact .key hmem ih
  | value _ ih => exact .value hmem ih

/-- Two lists are written one behind the other. -/
theorem oldEncodingItems_append (front back : List Value) :
    oldEncodingItems (front ++ back) = oldEncodingItems front ++ oldEncodingItems back := by
  simp only [oldEncodingItems_eq, List.map_append, List.flatten_append]

theorem oldEncodingEntries_append (front back : List (Value × Value)) :
    oldEncodingEntries (front ++ back) = oldEncodingEntries front ++ oldEncodingEntries back := by
  simp only [oldEncodingEntries_eq, List.map_append, List.flatten_append]

/-- Behind the bytes in front of a part are the bytes of the part. -/
theorem PartAt.exists_after {u v : Value} {before : List UInt8} (h : PartAt u v before) :
    ∃ after, v.oldEncoding = before ++ (u.oldEncoding ++ after) := by
  -- by induction on where the part is; what is behind a container's part is the rest of its row
  induction h with
  | self => exact ⟨[], (List.append_nil _).symm⟩
  | @item front back v before _ ih =>
      obtain ⟨after, hv⟩ := ih
      refine ⟨after ++ oldEncodingItems back, ?_⟩
      rw [oldEncoding, oldEncodingItems_append, oldEncodingItems, hv]
      simp only [List.append_assoc]
  | @key front back k v before _ ih =>
      obtain ⟨after, hk⟩ := ih
      refine ⟨after ++ (v.oldEncoding ++ oldEncodingEntries back), ?_⟩
      rw [oldEncoding, oldEncodingEntries_append, oldEncodingEntries, hk]
      simp only [List.append_assoc]
  | @value front back k v before _ ih =>
      obtain ⟨after, hv⟩ := ih
      refine ⟨after ++ oldEncodingEntries back, ?_⟩
      rw [oldEncoding, oldEncodingEntries_append, oldEncodingEntries, hv]
      simp only [List.append_assoc]

/-- Where binary data begin in the output, reading binary data gives them back. -/
theorem PartAt.read_bytes {v : Value} {bytes : ByteArray} {before : List UInt8}
    (h : PartAt (.binary bytes) v before) (hv : v.Canonical) {r : Reader}
    (hr : r.cursor.WellFormed)
    (hahead : r.cursor.ahead = v.oldEncoding.drop before.length ++ rest) :
    ∃ view, Reader.bytes r = .ok (some view) (r.past (binary bytes).oldEncoding.length)
      ∧ view.toBytes = bytes := by
  obtain ⟨after, hencoding⟩ := h.exists_after
  rw [hencoding, List.drop_left, List.append_assoc] at hahead
  have hheader : Headed Format.binLength? bytes.size (Token.encodeStrHeader true bytes.size) := by
    cases h.part.canonical hv with
    | binary hsize => exact Token.headed_encodeBlobHeader true hsize
  have hreads : Reads r.depth Reader.bytes (binary bytes).oldEncoding (after ++ rest)
      (fun o => ∃ view, o = some view ∧ view.Shows bytes.data.toList) fun _ => False :=
    Reads.bytes hheader
  rcases hreads hr rfl hahead with ⟨_, hok, view, rfl, hshows⟩ | ⟨_, _, _, hfalse⟩
  · refine ⟨view, hok, ?_⟩
    rw [eq_of_toList hshows.toList_toBytes]
  · exact hfalse.elim

/-! ## All of it -/

/-- **THE OUTPUT FOR THE OLD SPECIFICATION**. Over every lawful sink a value is written unless a
    timestamp is one of its parts. No token of what is written, at any depth, has a lead byte that
    the old specification lacks. It is read as the value with texts in the place of binary data; if
    some of the data are no text, reading fails for that and for nothing else. Wherever binary data
    begin, reading binary data gives them back. -/
theorem old_spec_output {v : Value} (h : v.Canonical) :
    (∀ (σ : Type) [LawfulSink σ] (w : Writer σ), w.oldSpec = true →
      ((∃ w', v.write w = .ok () w') ↔ ∀ t, ¬ Part (.timestamp t) v))
    ∧ ((∀ t, ¬ Part (.timestamp t) v) →
      (∀ (σ : Type) [LawfulSink σ], Emits (σ := σ) true v.write v.oldEncoding ())
      ∧ ((∃ leads, Leads 1 v.oldEncoding leads)
        ∧ ∀ leads, Leads 1 v.oldEncoding leads → ∀ b ∈ leads, b ∉ newSpecLeads)
      ∧ (∀ (options : Options) (rest : List UInt8) (r : Reader), r.cursor.WellFormed →
        r.cursor.ahead = v.oldEncoding ++ rest →
        r.depth + v.depth ≤ options.security.maxDepth.toNat →
        ((∀ bytes, Part (.binary bytes) v → bytes.IsValidUTF8) →
          read options r = .ok v.asText (r.past v.oldEncoding.length))
        ∧ ((∃ bytes, Part (.binary bytes) v ∧ ¬ bytes.IsValidUTF8) →
          ∃ fault s, read options r = .error (.read (.invalidUtf8 fault)) s))
      ∧ ∀ bytes, Part (.binary bytes) v → (∃ before, PartAt (.binary bytes) v before)
        ∧ ∀ before, PartAt (.binary bytes) v before →
          ∀ (rest : List UInt8) (r : Reader), r.cursor.WellFormed →
            r.cursor.ahead = v.oldEncoding.drop before.length ++ rest →
            ∃ view, Reader.bytes r = .ok (some view) (r.past (binary bytes).oldEncoding.length)
              ∧ view.toBytes = bytes) := by
  have hemits : ¬ v.Timed → ∀ (σ : Type) [LawfulSink σ],
      Emits (σ := σ) true v.write v.oldEncoding () := by
    intro hv σ _
    rcases settled_write (σ := σ) h with ⟨-, hemits⟩ | ⟨ht, -⟩
    · exact hemits
    · exact absurd ht hv
  constructor
  · intro σ _ w hw
    rw [← not_exists]
    constructor
    · -- what is refused gives no result
      rintro ⟨w', hok⟩ ht
      rcases settled_write (σ := σ) h with ⟨hv, -⟩ | ⟨-, hrefused⟩
      · exact hv ht
      · obtain ⟨w'', herror⟩ := hrefused w hw
        cases hok.symm.trans herror
    · intro hv
      obtain ⟨sink, hok, -⟩ := hemits hv σ w hw
      exact ⟨_, hok⟩
  · intro hnone
    have hv : ¬ v.Timed := not_exists.mpr hnone
    obtain ⟨leads, hleads, hold⟩ := oldRow_oldEncoding h hv
    refine ⟨hemits hv, ⟨⟨leads, hleads⟩, ?_⟩, ?_, ?_⟩
    · intro leads' hleads'
      rwa [hleads'.unique hleads]
    · intro options rest r hr hahead hdepth
      obtain ⟨htext, hfault⟩ := read_oldEncoding h hv hr hahead hdepth
      refine ⟨htext, ?_⟩
      rintro ⟨bytes, hpart, hinvalid⟩
      exact hfault fun hall => hinvalid (hall bytes hpart)
    · exact fun bytes hpart => ⟨hpart.exists_before, fun before hat rest r hr hahead =>
        hat.read_bytes h hr hahead⟩

/-- A map whose key is text and whose value is none: it is written, reading it fails, and behind the
    key the value is read as the one byte that it is. -/
theorem old_spec_output_map :
    (Value.map [(.binary "é".toUTF8, .binary ⟨#[0xff]⟩)]).Canonical
      ∧ (∃ w' : Writer Tight, write (.map [(.binary "é".toUTF8, .binary ⟨#[0xff]⟩)])
        (⟨⟨⟨#[]⟩, 0⟩, true⟩ : Writer Tight) = .ok () w')
      ∧ (∃ fault s, read .standard (.ofBytes ⟨#[0x81, 0xa2, 0xc3, 0xa9, 0xa1, 0xff]⟩)
        = .error (.read (.invalidUtf8 fault)) s)
      ∧ ∃ view s, Reader.bytes (.ofBytes ⟨#[0xa1, 0xff]⟩) = .ok (some view) s
        ∧ view.toBytes = ⟨#[0xff]⟩ := by
  have hcanonical : (Value.map [(.binary "é".toUTF8, .binary ⟨#[0xff]⟩)]).Canonical := by
    refine .map (by decide) ?_ ?_
    · exact List.forall_mem_singleton.mpr (.binary (by decide))
    · exact List.forall_mem_singleton.mpr (.binary (by decide))
  have hnone : ∀ t, ¬ Part (.timestamp t) (.map [(.binary "é".toUTF8, .binary ⟨#[0xff]⟩)]) := by
    intro t hpart
    rcases part_map_iff.mp hpart with heq | ⟨e, he, hpart⟩
    · cases heq
    · cases List.mem_singleton.mp he
      rcases hpart with hpart | hpart <;> cases hpart
  have hpart : Part (.binary ⟨#[0xff]⟩) (.map [(.binary "é".toUTF8, .binary ⟨#[0xff]⟩)]) :=
    .value (List.mem_singleton_self _) .self
  have hat : PartAt (.binary ⟨#[0xff]⟩) (.map [(.binary "é".toUTF8, .binary ⟨#[0xff]⟩)])
      [0x81, 0xa2, 0xc3, 0xa9] :=
    @PartAt.value _ [] [] _ _ _ .self
  obtain ⟨hwritten, hrest⟩ := old_spec_output hcanonical
  obtain ⟨-, -, hread, hbinary⟩ := hrest hnone
  refine ⟨hcanonical, (hwritten Tight _ rfl).mpr hnone, ?_, ?_⟩
  · obtain ⟨-, hfault⟩ := hread .standard []
      (.ofBytes ⟨#[0x81, 0xa2, 0xc3, 0xa9, 0xa1, 0xff]⟩) (Cursor.wellFormed_ofBytes _)
      (Cursor.ahead_ofBytes _) (by decide)
    exact hfault ⟨_, hpart, by decide⟩
  · obtain ⟨view, hok, hview⟩ := (hbinary _ hpart).2 _ hat [] (.ofBytes ⟨#[0xa1, 0xff]⟩)
      (Cursor.wellFormed_ofBytes _) (Cursor.ahead_ofBytes _)
    exact ⟨view, _, hok, hview⟩

end Value

end MessagePack
