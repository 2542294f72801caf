import MessagePack.Schema

/-!
# The order of keys

A map finds a key by comparing. For that to mean what it says, comparing has to be a total order in
which only equal keys compare as equal. It is one on every type that a map takes its keys from.

* **`IsOrder`** is what is asked of a comparison, and is kept by lists, pairs and options.
* **`Schema.isOrder_compare`** is that it holds of the keys.
* **`Adds`** is what is asked of adding an entry: it refuses the keys that are there and no others,
  and keeps what is there. Both kinds of maps do this (`adds_insertSorted?`, `adds_insertFront?`).
* **`insertAll?`** adds entries one after the other. All of them are added or one is refused, by one
  induction (`Adds.insertAll?_cases`); a sorted map comes out in its one order
  (`insertAll?_sorted`), and a hash map in the order of the entries (`insertAll?_front`).
-/

namespace MessagePack

/-- A comparison that is a total order in which only equal values compare as equal. -/
structure IsOrder {α : Type} (cmp : α → α → Ordering) : Prop where
  trans : Std.TransCmp cmp
  lawful : Std.LawfulEqCmp cmp

namespace IsOrder

variable {α β : Type} {cmp : α → α → Ordering} {cmp' : β → β → Ordering}

theorem swap (h : IsOrder cmp) (x y : α) : cmp x y = (cmp y x).swap :=
  h.trans.eq_swap

theorem eq_iff (h : IsOrder cmp) {x y : α} : cmp x y = .eq ↔ x = y :=
  have := h.lawful
  Std.LawfulEqCmp.compare_eq_iff_eq

/-- What is told apart by its parts is ordered by them. -/
theorem comap {f : β → α} (h : IsOrder cmp) (hf : ∀ x y, f x = f y → x = y) :
    IsOrder fun x y => cmp (f x) (f y) where
  trans := {
    eq_swap := h.swap _ _
    isLE_trans := h.trans.isLE_trans }
  lawful := {
    compare_self := h.eq_iff.mpr rfl
    eq_of_compare := fun hxy => hf _ _ (h.eq_iff.mp hxy) }

/-- Lists are compared as the library compares them. -/
theorem lexicographic_eq (cmp : α → α → Ordering) :
    Schema.lexicographic cmp = List.compareLex cmp := by
  funext xs ys
  induction xs generalizing ys with
  | nil => cases ys <;> rfl
  | cons x xs ih =>
      cases ys with
      | nil => rfl
      | cons y ys => rw [Schema.lexicographic, List.compareLex_cons_cons, ih]

/-- Lists in the order of their first difference. -/
theorem lexicographic (h : IsOrder cmp) : IsOrder (Schema.lexicographic cmp) := by
  have := h.trans
  have := h.lawful
  rw [lexicographic_eq]
  exact ⟨inferInstance, inferInstance⟩

/-- Pairs in the order of their first parts, and where these are equal of their second. -/
theorem prod (h : IsOrder cmp) (h' : IsOrder cmp') :
    IsOrder fun x y : α × β => (cmp x.1 y.1).then (cmp' x.2 y.2) := by
  have hfst : Std.TransCmp fun x y : α × β => cmp x.1 y.1 :=
    { eq_swap := h.swap _ _, isLE_trans := h.trans.isLE_trans }
  have hsnd : Std.TransCmp fun x y : α × β => cmp' x.2 y.2 :=
    { eq_swap := h'.swap _ _, isLE_trans := h'.trans.isLE_trans }
  have htrans : Std.TransCmp
      (compareLex (fun x y : α × β => cmp x.1 y.1) fun x y : α × β => cmp' x.2 y.2) :=
    inferInstance
  refine ⟨htrans, { compare_self := ?_, eq_of_compare := ?_ }⟩
  · intro x
    rw [h.eq_iff.mpr rfl, h'.eq_iff.mpr rfl]
    rfl
  · intro x y hxy
    obtain ⟨h1, h2⟩ := Ordering.then_eq_eq.mp hxy
    exact Prod.ext (h.eq_iff.mp h1) (h'.eq_iff.mp h2)

/-- Something in its order, and nothing before all of it. -/
theorem option {s : Schema} (h : IsOrder s.compare) : IsOrder (Schema.option s).compare where
  trans := {
    eq_swap := by
      -- nothing comes before something, and two values are as their parts
      rintro (_ | x) (_ | y)
      · rfl
      · rfl
      · rfl
      · exact h.swap x y
    isLE_trans := by
      rintro (_ | x) (_ | y) (_ | z) hxy hyz
      · rfl
      · rfl
      · rfl
      · rfl
      · cases hxy
      · cases hxy
      · cases hyz
      · exact h.trans.isLE_trans hxy hyz }
  lawful := {
    compare_self := by
      rintro (_ | x)
      · rfl
      · exact h.eq_iff.mpr rfl
    eq_of_compare := by
      rintro (_ | x) (_ | y) hxy
      · rfl
      · cases hxy
      · cases hxy
      · exact congrArg some (h.eq_iff.mp hxy) }

end IsOrder

namespace Schema

/-- The types that a map takes its keys from. Floats, dynamic values and hash maps have no order. -/
def isKey : Schema → Bool
  | boolean | int _ | char | string | bytes | timestamp | dateTime | uuid => true
  | float32 | float64 | value | hashMap _ _ => false
  | option item | list item => item.isKey
  | sortedMap k v => k.isKey && v.isKey

/-- A lawful total order of the library is an order. -/
theorem isOrder_ord {α : Type} [Ord α] [Std.TransOrd α] [Std.LawfulEqOrd α] :
    IsOrder (Ord.compare : α → α → Ordering) :=
  ⟨inferInstance, inferInstance⟩

/-- Blocks in the order of their bytes. -/
theorem isOrder_blocks : IsOrder fun x y : ByteArray =>
    lexicographic Ord.compare x.data.toList y.data.toList :=
  (isOrder_ord.lexicographic).comap fun _ _ h => ByteArray.ext (Array.ext' h)

/-- **THE ORDER OF KEYS** is total, and only equal keys compare as equal. -/
theorem isOrder_compare {s : Schema} (h : s.isKey = true) : IsOrder s.compare := by
  -- by induction on the type
  induction s with
  | boolean => exact isOrder_ord
  | int t => exact isOrder_ord.comap fun _ _ => Subtype.ext
  | float32 | float64 | value | hashMap => cases h
  | char => exact isOrder_ord.comap fun _ _ => Char.toNat_inj.mp
  | string => exact isOrder_blocks.comap fun _ _ => String.toByteArray_inj.mp
  | bytes => exact isOrder_blocks
  | timestamp =>
      refine (isOrder_ord.prod isOrder_ord).comap (f := fun t : Timestamp =>
        (t.seconds, t.nanoseconds)) ?_
      rintro ⟨_, _, _⟩ ⟨_, _, _⟩ hxy
      cases hxy
      rfl
  | dateTime =>
      refine (isOrder_ord.prod isOrder_ord).comap (f := fun d : DateTime =>
        (d.seconds, d.nanoseconds)) ?_
      rintro ⟨_, _, _, _⟩ ⟨_, _, _, _⟩ hxy
      cases hxy
      rfl
  | uuid =>
      refine isOrder_ord.comap (f := fun u : Uuid => u.bits.toNat) ?_
      rintro ⟨_⟩ ⟨_⟩ hxy
      exact congrArg Uuid.mk (BitVec.eq_of_toNat_eq hxy)
  | option item ih => exact (ih h).option
  | list item ih => exact (ih h).lexicographic
  | sortedMap k v ihk ihv =>
      obtain ⟨hk, hv⟩ := Bool.and_eq_true_iff.mp h
      refine ((ihk hk).prod (ihv hv)).lexicographic.comap (f := SortedMap.entries) ?_
      rintro ⟨_⟩ ⟨_⟩ hxy
      exact congrArg SortedMap.mk hxy

end Schema

/-! ## Adding entries one after the other -/

section Insert

variable {κ ν : Type} {cmp : κ → κ → Ordering}

/-- Entries added one after the other to those that are there, if no key is there already. -/
def insertAll? (insert? : κ → ν → List (κ × ν) → Option (List (κ × ν))) :
    (entries : List (κ × ν)) → (before : List (κ × ν)) → Option (List (κ × ν))
  | [], before => some before
  | entry :: rest, before => (insert? entry.1 entry.2 before).bind (insertAll? insert? rest)

/-- Adding an entry to those that are there refuses a key that is there and no other, and keeps all
    entries. -/
structure Adds (insert? : κ → ν → List (κ × ν) → Option (List (κ × ν)))
    (Inv : List (κ × ν) → Prop) : Prop where
  empty : Inv []
  refuses : ∀ {key value before}, Inv before → key ∈ before.map Prod.fst →
    insert? key value before = none
  keeps : ∀ {key before} (value), Inv before → key ∉ before.map Prod.fst →
    ∃ after, insert? key value before = some after ∧ Inv after
      ∧ after.Perm ((key, value) :: before)

/-- A sorted map stays in increasing order. -/
theorem adds_insertSorted? (h : IsOrder cmp) : Adds (insertSorted? (ν := ν) cmp)
    fun entries => entries.Pairwise fun e f => cmp e.1 f.1 = .lt := by
  have hlt_trans : ∀ {x y z : κ}, cmp x y = .lt → cmp y z = .lt → cmp x z = .lt := by
    intro x y z hxy hyz
    have := h.trans
    exact Std.TransCmp.lt_trans hxy hyz
  refine ⟨List.Pairwise.nil, ?_, ?_⟩
  · intro key value before hsorted hmem
    induction before with
    | nil => cases hmem
    | cons e before ih =>
        obtain ⟨hless, hbefore⟩ := List.pairwise_cons.mp hsorted
        rw [insertSorted?]
        cases hcmp : cmp key e.1 with
        | eq => rfl
        | lt =>
            -- a key that is less than the first one is less than all of them
            exfalso
            rcases List.mem_cons.mp hmem with hkey | hmem
            · rw [hkey, h.eq_iff.mpr rfl] at hcmp
              cases hcmp
            · obtain ⟨f, hf, rfl⟩ := List.mem_map.mp hmem
              have hself := hlt_trans hcmp (hless f hf)
              rw [h.eq_iff.mpr rfl] at hself
              cases hself
        | gt =>
            rcases List.mem_cons.mp hmem with hkey | hmem
            · rw [hkey, h.eq_iff.mpr rfl] at hcmp
              cases hcmp
            · rw [ih hbefore hmem]
              rfl
  · intro key before value hsorted hmem
    induction before with
    | nil => exact ⟨_, rfl, List.pairwise_singleton _ _, .refl _⟩
    | cons e before ih =>
        obtain ⟨hless, hbefore⟩ := List.pairwise_cons.mp hsorted
        rw [insertSorted?]
        cases hcmp : cmp key e.1 with
        | eq => exact absurd (h.eq_iff.mp hcmp ▸ List.mem_cons_self) hmem
        | lt =>
            refine ⟨_, rfl, List.pairwise_cons.mpr ⟨?_, hsorted⟩, .refl _⟩
            exact List.forall_mem_cons.mpr ⟨hcmp, fun f hf => hlt_trans hcmp (hless f hf)⟩
        | gt =>
            obtain ⟨after, hafter, hsorted', hperm⟩ :=
              ih hbefore fun hkey => hmem (List.mem_cons_of_mem _ hkey)
            have hkey : cmp e.1 key = .lt := by rw [h.swap, hcmp]; rfl
            refine ⟨e :: after, by rw [hafter]; rfl, List.pairwise_cons.mpr ⟨?_, hsorted'⟩, ?_⟩
            · intro f hf
              rcases List.mem_cons.mp (hperm.mem_iff.mp hf) with rfl | hf
              · exact hkey
              · exact hless f hf
            · exact (hperm.cons e).trans (.swap _ _ _)

/-- A hash map, which adds in front, refuses what is there and keeps the rest, in any order. -/
theorem adds_insertFront? (h : IsOrder cmp) :
    Adds (insertFront? (ν := ν) cmp) fun _ => True := by
  have hany : ∀ {key : κ} {before : List (κ × ν)},
      (before.any fun e => cmp key e.1 = .eq) = true ↔ key ∈ before.map Prod.fst := by
    intro key before
    rw [List.any_eq_true, List.mem_map]
    refine exists_congr fun e => and_congr_right fun _ => ?_
    rw [decide_eq_true_iff, h.eq_iff, eq_comm]
  refine ⟨trivial, ?_, ?_⟩
  · intro key value before _ hmem
    exact if_pos (hany.mpr hmem)
  · intro key before value _ hmem
    exact ⟨_, if_neg fun hkey => hmem (hany.mp hkey), trivial, .refl _⟩

namespace Adds

variable {insert? : κ → ν → List (κ × ν) → Option (List (κ × ν))} {Inv : List (κ × ν) → Prop}

/-- **ALL ENTRIES OR NONE**: the entries are all added if no key occurs twice among them and those
    that are there, and else one of them is refused. -/
theorem insertAll?_cases (h : Adds insert? Inv) (entries : List (κ × ν)) {before : List (κ × ν)}
    (hb : Inv before) (hkeys : (before.map Prod.fst).Nodup) :
    (insertAll? insert? entries before = none ∧ ¬ ((entries ++ before).map Prod.fst).Nodup)
      ∨ ∃ after, insertAll? insert? entries before = some after ∧ Inv after
        ∧ after.Perm (entries ++ before) ∧ ((entries ++ before).map Prod.fst).Nodup := by
  -- by induction on the entries; those that have been added keep their keys apart
  induction entries generalizing before with
  | nil => exact Or.inr ⟨before, rfl, hb, .refl _, hkeys⟩
  | cons e entries ih =>
      by_cases hmem : e.1 ∈ before.map Prod.fst
      · left
        constructor
        · rw [insertAll?, h.refuses hb hmem]
          rfl
        · intro hnodup
          rw [List.map_append] at hnodup
          exact (List.nodup_append.mp hnodup).2.2 e.1 List.mem_cons_self e.1 hmem rfl
      · obtain ⟨mid, hmid, hinv, hperm⟩ := h.keeps e.2 hb hmem
        have hmidkeys : (mid.map Prod.fst).Nodup :=
          (hperm.map Prod.fst).nodup_iff.mpr (List.nodup_cons.mpr ⟨hmem, hkeys⟩)
        have hall : (entries ++ mid).Perm (e :: entries ++ before) :=
          (hperm.append_left entries).trans List.perm_middle
        have hinsert : insertAll? insert? (e :: entries) before
            = insertAll? insert? entries mid := by
          rw [insertAll?, hmid]
          rfl
        rw [hinsert]
        rcases ih hinv hmidkeys with ⟨hnone, hdup⟩ | ⟨after, hsome, hafter, hperm', hnodup⟩
        · exact Or.inl ⟨hnone, fun hnodup => hdup ((hall.map Prod.fst).nodup_iff.mpr hnodup)⟩
        · exact Or.inr ⟨after, hsome, hafter, hperm'.trans hall,
            (hall.map Prod.fst).nodup_iff.mp hnodup⟩

/-- Entries are refused if a key occurs twice, whatever lies between. -/
theorem insertAll?_eq_none_iff (h : Adds insert? Inv) {entries : List (κ × ν)} :
    insertAll? insert? entries [] = none ↔ ¬ (entries.map Prod.fst).Nodup := by
  have hcases := h.insertAll?_cases entries h.empty List.nodup_nil
  rw [List.append_nil] at hcases
  rcases hcases with ⟨hnone, hdup⟩ | ⟨after, hsome, -, -, hnodup⟩
  · exact iff_of_true hnone hdup
  · rw [hsome]
    exact iff_of_false (Option.some_ne_none _) (not_not_intro hnodup)

/-- Entries that are added are all there, and nothing else is. -/
theorem perm_of_insertAll? (h : Adds insert? Inv) {entries after : List (κ × ν)}
    (hsome : insertAll? insert? entries [] = some after) : Inv after ∧ after.Perm entries := by
  have hcases := h.insertAll?_cases entries h.empty List.nodup_nil
  rw [List.append_nil] at hcases
  rcases hcases with ⟨hnone, -⟩ | ⟨after', hsome', hinv, hperm, -⟩
  · rw [hsome] at hnone
    cases hnone
  · cases hsome.symm.trans hsome'
    exact ⟨hinv, hperm⟩

end Adds

/-- Entries in increasing order of key stand in it in one way only. -/
theorem eq_of_increasing (h : IsOrder cmp) {entries order : List (κ × ν)}
    (hentries : entries.Pairwise fun e f => cmp e.1 f.1 = .lt)
    (horder : order.Pairwise fun e f => cmp e.1 f.1 = .lt) (hperm : order.Perm entries) :
    order = entries := by
  refine List.Perm.eq_of_pairwise ?_ horder hentries hperm
  intro e f _ _ hlt hgt
  rw [h.swap, hlt] at hgt
  cases hgt

/-- The entries of a sorted map, added in any order, are that map. -/
theorem insertAll?_sorted (h : IsOrder cmp) {entries order : List (κ × ν)}
    (hsorted : entries.Pairwise fun e f => cmp e.1 f.1 = .lt) (hperm : order.Perm entries) :
    insertAll? (insertSorted? cmp) order [] = some entries := by
  have hadds := adds_insertSorted? (ν := ν) h
  have hnodup : (entries.map Prod.fst).Nodup := by
    refine List.pairwise_map.mpr (hsorted.imp ?_)
    intro e f hlt heq
    rw [heq, h.eq_iff.mpr rfl] at hlt
    cases hlt
  -- the keys differ, so nothing is refused; and increasing order leaves one list only
  cases hinsert : insertAll? (insertSorted? cmp) order [] with
  | none =>
      rw [hadds.insertAll?_eq_none_iff, (hperm.map Prod.fst).nodup_iff] at hinsert
      exact absurd hnodup hinsert
  | some after =>
      obtain ⟨hafter, hperm'⟩ := hadds.perm_of_insertAll? hinsert
      rw [eq_of_increasing h hsorted hafter (hperm'.trans hperm)]

/-- A sorted map has one order, whatever order its entries were added in. -/
theorem insertAll?_sorted_perm (h : IsOrder cmp) {entries order : List (κ × ν)}
    (hperm : order.Perm entries) :
    insertAll? (insertSorted? cmp) order [] = insertAll? (insertSorted? cmp) entries [] := by
  have hadds := adds_insertSorted? (ν := ν) h
  cases hinsert : insertAll? (insertSorted? cmp) entries [] with
  | none =>
      rw [hadds.insertAll?_eq_none_iff] at hinsert ⊢
      rwa [(hperm.map Prod.fst).nodup_iff]
  | some after =>
      obtain ⟨hsorted, hafter⟩ := hadds.perm_of_insertAll? hinsert
      exact insertAll?_sorted h hsorted (hperm.trans hafter.symm)

/-- Entries with keys that are not there yet are added in front, one after the other. -/
theorem insertAll?_reverse (h : IsOrder cmp) {entries before : List (κ × ν)}
    (hnodup : (entries.map Prod.fst).Nodup)
    (hfresh : ∀ e ∈ entries, ∀ f ∈ before, e.1 ≠ f.1) :
    insertAll? (insertFront? cmp) entries before = some (entries.reverse ++ before) := by
  -- an entry that was added is one of those that the next ones must not repeat
  induction entries generalizing before with
  | nil => rfl
  | cons e entries ih =>
      obtain ⟨he, hentries⟩ := List.forall_mem_cons.mp hfresh
      obtain ⟨hnew, hrest⟩ := List.nodup_cons.mp hnodup
      have hany : ¬ (before.any fun f => cmp e.1 f.1 = .eq) = true := by
        rw [List.any_eq_true]
        rintro ⟨f, hf, heq⟩
        exact he f hf (h.eq_iff.mp (of_decide_eq_true heq))
      have hfresh' : ∀ e' ∈ entries, ∀ f ∈ e :: before, e'.1 ≠ f.1 := by
        intro e' he'
        refine List.forall_mem_cons.mpr ⟨?_, hentries e' he'⟩
        intro hkey
        exact hnew (hkey ▸ List.mem_map_of_mem he')
      rw [insertAll?, insertFront?, if_neg hany, Option.bind_some, ih hrest hfresh',
        List.reverse_cons, List.append_assoc]
      rfl

/-- The entries of a hash map, added in any order of theirs, are that map. -/
theorem insertAll?_front (h : IsOrder cmp) {entries : List (κ × ν)}
    (hnodup : (entries.map Prod.fst).Nodup) :
    insertAll? (insertFront? cmp) entries [] = some entries.reverse := by
  rw [insertAll?_reverse h hnodup fun _ _ _ hf => absurd hf List.not_mem_nil, List.append_nil]

end Insert

end MessagePack
