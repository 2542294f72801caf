import MessagePack.Proofs.Stable

/-!
# Tokens are read from their own bytes

Every read of a token is stable: with more bytes behind the input it gives the same, unless the
input ends within the token. What is given as a view is compared by the bytes that it shows, and a
text by its characters, so it does not matter either how the bytes are split into pieces.

A look at the next lead byte owes that byte, and a header that is checked against the input owes the
bytes that it was checked for. Whole tokens owe nothing any more: that a token is read does not hang
on what is behind it.
-/

namespace MessagePack

/-- Two views that show the same bytes. -/
def View.Alike (v w : View) : Prop :=
  ∃ bytes, v.Shows bytes ∧ w.Shows bytes

namespace View

variable {v w : View}

theorem Alike.content_eq (h : v.Alike w) : v.content = w.content := by
  obtain ⟨bytes, hv, hw⟩ := h
  rw [Reader.eq_of_toList hv.toList_content, Reader.eq_of_toList hw.toList_content]

theorem Alike.toBytes_eq (h : v.Alike w) : v.toBytes = w.toBytes := by
  obtain ⟨bytes, hv, hw⟩ := h
  rw [Reader.eq_of_toList hv.toList_toBytes, Reader.eq_of_toList hw.toList_toBytes]

/-- The block that is handed out without copying has the content of the view. -/
theorem Shows.contiguous_eq {bytes : List UInt8} {block : ByteArray} (h : v.Shows bytes)
    (hblock : v.contiguous? = some block) : block = v.content := by
  rw [Reader.eq_of_toList (h.toList_contiguous hblock), Reader.eq_of_toList h.toList_content]

end View

/-- A read of the next byte, as a field of one byte. -/
theorem Cursor.WellFormed.read?_eq {c : Cursor} (h : c.WellFormed) :
    c.read? = if 1 ≤ c.remaining then some (c.ahead.headD 0, c.past 1) else none := by
  cases hahead : c.ahead with
  | nil =>
      have hlength := h.length_ahead
      rw [hahead, List.length_nil] at hlength
      rw [h.read?_nil hahead, if_neg (by omega)]
  | cons b rest =>
      have hlength := h.remaining_eq_succ hahead
      rw [h.read?_cons hahead, if_pos (by omega)]
      rfl

/-- No header is empty. -/
theorem Headed.ne_nil {select : Format → Option Extent} {n : Nat} {x : List UInt8}
    (h : Headed select n x) : x ≠ [] := by
  obtain ⟨f, e, field, -, -, rfl⟩ := h
  exact List.cons_ne_nil _ _

namespace Reader

variable {c : List UInt8} {k : Nat}

/-! ## Lead bytes -/

/-- The first byte is part of the first one byte. -/
theorem headD_eq_of_take_eq {l l' : List UInt8} (h : l.take 1 = l'.take 1) :
    l.headD 0 = l'.headD 0 := by
  have hhead : ∀ l : List UInt8, l.headD 0 = (l.take 1).headD 0 := by
    rintro (_ | _) <;> rfl
  rw [hhead l, h, ← hhead l']

/-- The next format may be missing from the shorter input, and is the same otherwise. -/
theorem Stable.format? : Stable c k format? format? (.found k Eq) := by
  have hread : Stable c k (step? Cursor.read?) (step? Cursor.read?) (.found k Eq) := by
    refine Stable.step?_of_size (n := 1) (fun _ hc => hc.read?_eq) ?_
    intro c c' _ _ _ _ htake
    rw [headD_eq_of_take_eq htake]
  exact hread.map_found fun a b hab => congrArg Format.ofByte hab

theorem Stable.format : Stable c k format format .eq :=
  Stable.format?.require

/-- **A LOOK AT THE NEXT LEAD BYTE** comes before what consumes that byte, or still owes it. -/
theorem Stable.of_look {ε α β : Type} [EndsEarly ε] {m : EStateM ε Reader Format}
    {K : Comparison α β} {f : Format → EStateM ε Reader α} {f' : Format → EStateM ε Reader β}
    (hm : ∀ r : Reader, r.cursor.WellFormed → m r =
      r.cursor.ahead.head?.elim (.error EndsEarly.endOfStream r) fun b => .ok (.ofByte b) r)
    (hf : ∀ g, Stable c k (f g) (f' g) K)
    (hx : ∀ d, Recognizes d (m >>= f') fun x b => 1 ≤ x.length + K.owed b) :
    Stable c k (m >>= f) (m >>= f') K where
  moves d := by
    intro r s b hr hd hok
    obtain ⟨g, t, hg, hrest⟩ := of_bind_eq_ok hok
    rw [hm r hr] at hg
    cases hhead : r.cursor.ahead.head? with
    | none =>
        rw [hhead] at hg
        cases hg
    | some lead =>
        rw [hhead] at hg
        cases hg
        exact (hf _).moves d hr hd hrest
  agree r r' hr := by
    have hlook := hm r hr.shorter
    have hlook' := hm r' hr.longer
    rw [hr.ahead_eq] at hlook'
    cases hahead : r.cursor.ahead with
    | cons b rest =>
        rw [hahead] at hlook hlook'
        rw [bind_of_ok hlook, bind_of_ok hlook']
        exact (hf _).agree r r' hr
    | nil =>
        rw [hahead] at hlook hlook'
        rw [bind_of_error hlook]
        by_cases hc : c = []
        · subst hc
          rw [bind_of_error hlook']
          exact Agree.error_at_once hr
        · -- the shorter input has no byte at all, and the longer one gives one away
          refine .short hc rfl ?_
          intro b s hs
          have hempty := hr.shorter.length_ahead
          rw [hahead, List.length_nil] at hempty
          obtain ⟨n, hn, rfl, howed⟩ := hx r'.depth hr.longer rfl hs
          rw [hr.longer.length_take_ahead hn] at howed
          exact ⟨n, hn, rfl, by omega⟩

/-- The next format is that of the first byte ahead. -/
theorem nextFormat_eq {r : Reader} (hr : r.cursor.WellFormed) : nextFormat r =
    r.cursor.ahead.head?.elim (.error .endOfStream r) fun b => .ok (.ofByte b) r := by
  rw [nextFormat_apply, hr.peek?_eq]

/-- What is made of the next lead byte owes it. -/
theorem Stable.of_nextFormat {α : Type} (f : Format → α) :
    Stable c k (do return f (← Reader.nextFormat)) (do return f (← Reader.nextFormat))
      (.owing Eq fun _ => 1) :=
  Stable.of_look (fun _ hr => nextFormat_eq hr) (fun _ => Stable.of_pure rfl) fun _ =>
    Recognizes.bind_peek peeks_nextFormat fun _ => Recognizes.of_pure fun _ => Nat.le_refl 1

/-- To look at the next format owes the byte that was looked at. -/
theorem Stable.nextFormat : Stable c k nextFormat nextFormat (.owing Eq fun _ => 1) := by
  have hformat : Stable c k _ _ _ := Stable.of_nextFormat fun f => f
  rwa [bind_pure] at hformat

theorem Stable.nextKind : Stable c k nextKind nextKind (.owing Eq fun _ => 1) :=
  Stable.of_nextFormat Format.kind

theorem Stable.isNil : Stable c k isNil isNil (.owing Eq fun _ => 1) :=
  Stable.of_nextFormat fun f => decide (f = .nil)

/-! ## Fields -/

/-- A number of a width is the same, or is missing bytes. -/
theorem Stable.nat? (w : Width) :
    Stable c k (step? (·.nat? w)) (step? (·.nat? w)) (.found k Eq) :=
  Stable.step?_of_size (fun _ hc => hc.nat?_eq w) fun _ _ _ _ _ _ htake => by rw [htake]

theorem Stable.int? (t : IntType) :
    Stable c k (step? (·.int? t)) (step? (·.int? t)) (.found k Eq) :=
  Stable.step?_of_size (fun _ hc => hc.int?_eq t) fun _ _ _ _ _ _ htake => by rw [htake]

/-- Bytes that are taken are the same, wherever they lie. -/
theorem Stable.take (n : Nat) : Stable c k (take n) (take n) (.of View.Alike) := by
  refine Stable.require (Stable.step?_of_size (fun c _ => Cursor.take?_eq c n) ?_)
  intro c c' hc hc' hn hn' htake
  exact ⟨_, hc.shows_viewOf hn, htake ▸ hc'.shows_viewOf hn'⟩

/-! ## Scalars -/

/-- Nil is consumed; any other token is owed. -/
theorem Stable.tryNil :
    Stable c k tryNil tryNil (.owing Eq fun b => if b then 0 else 1) := by
  have hx : ∀ d, Recognizes d Reader.tryNil fun x b => 1 ≤ x.length + if b then 0 else 1 := by
    refine fun d => Recognizes.tryNil.mono ?_
    rintro x (_ | _) rfl <;> exact Nat.le_refl 1
  rw [tryNil_eq] at hx ⊢
  refine Stable.of_look (fun _ hr => nextFormat_eq hr) (fun f => ?_) hx
  split
  · exact (Stable.take 1).map fun _ _ _ => rfl
  · exact Stable.of_pure rfl

theorem Stable.nil : Stable c k nil nil .eq := by
  refine Stable.format.bind_eq fun f => ?_
  split
  · exact Stable.of_pure rfl
  · exact Stable.of_throw _

theorem Stable.boolean : Stable c k boolean boolean .eq := by
  refine Stable.format.bind_eq fun f => ?_
  split
  · exact Stable.of_pure rfl
  · exact Stable.of_throw _

theorem Stable.integer : Stable c k integer integer .eq := by
  refine Stable.format.bind_eq fun f => ?_
  split
  · exact Stable.of_pure rfl
  · exact Stable.of_pure rfl
  · exact (Stable.int? _).require.map_eq _
  · exact Stable.of_throw _

theorem Stable.int (t : IntType) : Stable c k (int t) (int t) .eq := by
  refine Stable.integer.bind_eq fun p => ?_
  dsimp only
  split
  · exact Stable.of_pure rfl
  · exact Stable.of_throw _

theorem Stable.char : Stable c k char char .eq := by
  refine (Stable.int _).bind_eq fun n => ?_
  dsimp only
  split
  · exact Stable.of_pure rfl
  · exact Stable.of_throw _

theorem Stable.float32Field : Stable c k float32Field float32Field .eq := by
  refine Stable.format.bind_eq fun f => ?_
  exact (Stable.nat? .w32).require.map_eq _

theorem Stable.float64Field : Stable c k float64Field float64Field .eq := by
  refine Stable.format.bind_eq fun f => ?_
  exact (Stable.nat? .w64).require.map_eq _

/-- A number of 32 bits is read alike, from whatever format it comes. -/
theorem Stable.float32 : Stable c k float32 float32 .eq := by
  -- the next byte is owed only until the number has been read with it
  refine Stable.of_look (fun _ hr => nextFormat_eq hr) (fun f => ?_) fun d => ?_
  · split
    · exact Stable.float32Field
    · exact Stable.float64Field.map_eq _
    · exact Stable.integer.map_eq _
  · refine Recognizes.float32.mono ?_
    rintro x v (⟨field, rfl, -⟩ | ⟨field, rfl, -⟩ | ⟨f, field, n, rfl, -⟩) <;>
      exact Nat.le_add_left 1 field.length

theorem Stable.float64 : Stable c k float64 float64 .eq := by
  refine Stable.of_look (fun _ hr => nextFormat_eq hr) (fun f => ?_) fun d => ?_
  · split
    · exact Stable.float32Field.map_eq _
    · exact Stable.float64Field
    · exact Stable.integer.map_eq _
  · refine Recognizes.float64.mono ?_
    rintro x v (⟨field, rfl, -⟩ | ⟨field, rfl, -⟩ | ⟨f, field, n, rfl, -⟩) <;>
      exact Nat.le_add_left 1 field.length

/-! ## Headers -/

/-- A length or count is found alike, in the lead byte or in a field. -/
theorem Stable.extent? (e : Extent) : Stable c k (extent? e) (extent? e) (.found k Eq) := by
  cases e with
  | inLead n => exact Stable.of_pure (.some rfl)
  | field w => exact (Stable.nat? w).map_found fun _ _ h => congrArg UInt32.ofNat h

/-- A header is read alike, by any table. -/
theorem Stable.header? (select : Format → Option Extent) :
    Stable c k (header? select) (header? select) (.found k Eq) := by
  refine Stable.format?.bind_found rfl rfl ?_
  rintro f _ rfl
  dsimp only
  split
  · exact Stable.extent? _
  · exact Stable.of_throw _

theorem Stable.tryArrayHeader : Stable c k tryArrayHeader tryArrayHeader (.found k Eq) :=
  (Stable.header? Format.arrayCount?).attempt

theorem Stable.tryMapHeader : Stable c k tryMapHeader tryMapHeader (.found k Eq) :=
  (Stable.header? Format.mapCount?).attempt

/-- An array owes a byte for every element. -/
theorem Stable.arrayHeader :
    Stable c k arrayHeader arrayHeader (.owing Eq fun n => n.toNat) :=
  Stable.check Stable.tryArrayHeader.require

/-- A map owes two bytes for every entry. -/
theorem Stable.mapHeader : Stable c k mapHeader mapHeader (.owing Eq fun n => 2 * n.toNat) :=
  Stable.check Stable.tryMapHeader.require

theorem Stable.strHeader : Stable c k strHeader strHeader .eq :=
  (Stable.header? Format.strLength?).require

theorem Stable.binHeader : Stable c k binHeader binHeader .eq :=
  (Stable.header? Format.binLength?).require

theorem Stable.tryExtHeader : Stable c k tryExtHeader tryExtHeader (.found k Eq) := by
  refine Stable.attempt ((Stable.header? Format.extLength?).bind_found rfl rfl ?_)
  rintro length _ rfl
  exact (Stable.int? (.signed .w8)).map_found fun t _ ht => by rw [ht]

/-- An extension owes its payload. -/
theorem Stable.extHeader :
    Stable c k extHeader extHeader (.owing Eq fun h => h.length.toNat) :=
  Stable.check Stable.tryExtHeader.require

/-! ## Headers that are waited for -/

/-- A computation that does not fail for want of bytes: it answers that something is missing. -/
def Waits {α : Type} (m : Read α) : Prop :=
  ∀ ⦃r s : Reader⦄, m r ≠ .error .endOfStream s

namespace Waits

variable {α β : Type}

/-- To wait is to fail only with other errors than the one of an input that ends early. -/
theorem iff_failsOnly {m : Read α} : Waits m ↔ FailsOnly (· ≠ .endOfStream) m := by
  constructor
  · rintro h r s _ hm rfl
    exact h hm
  · intro h r s hm
    exact h hm rfl

theorem of_pure (a : α) : Waits (pure a : Read α) :=
  iff_failsOnly.mpr (.of_pure a)

theorem of_throw {e : ReadError} (he : e ≠ .endOfStream) : Waits (throw e : Read α) :=
  iff_failsOnly.mpr (.of_throw he)

/-- A sequence waits if both parts do. -/
theorem bind {m : Read α} {f : α → Read β} (hm : Waits m) (hf : ∀ a, Waits (f a)) :
    Waits (m >>= f) :=
  iff_failsOnly.mpr ((iff_failsOnly.mp hm).bind fun a => iff_failsOnly.mp (hf a))

/-- A step that may find nothing waits. -/
theorem step? (f : Cursor → Option (α × Cursor)) : Waits (Reader.step? f) := by
  intro r s h
  rw [Reader.step?] at h
  split at h <;> cases h

theorem attempt {m : Read (Option α)} (hm : Waits m) : Waits (Reader.attempt m) := by
  intro r s h
  rw [Reader.attempt] at h
  split at h
  · cases h
  · cases h
  · rename_i hmr
    cases h
    exact hm hmr

/-- A header that may be missing bytes waits. -/
theorem header? (select : Format → Option Extent) : Waits (Reader.header? select) := by
  refine ((step? _).bind fun o => of_pure _).bind fun o => ?_
  split
  · exact of_pure none
  · split
    · rename_i e _
      cases e with
      | inLead n => exact of_pure _
      | field w => exact (step? _).bind fun o => of_pure _
    · refine of_throw ?_
      simp

theorem tryArrayHeader : Waits Reader.tryArrayHeader :=
  (header? _).attempt

theorem tryMapHeader : Waits Reader.tryMapHeader :=
  (header? _).attempt

theorem tryExtHeader : Waits Reader.tryExtHeader := by
  refine ((header? _).bind fun o => ?_).attempt
  split
  · exact of_pure none
  · exact (step? _).bind fun o => of_pure _

end Waits

/-! ## Strings and binary data -/

/-- The payload behind a header is the same, and so is nil in its place. -/
theorem Stable.payloadOrNil {header : Read UInt32} {select : Format → Option Extent}
    (hheader : Stable c k header header .eq)
    (hform : ∀ d, Recognizes d header fun x m => Headed select m.toNat x) :
    Stable c k (payloadOrNil header) (payloadOrNil header) (.of (Option.Rel View.Alike)) := by
  refine Stable.tryNil.bind_owing (fun b => ?_) fun d b => ?_
  · cases b with
    | true => exact Stable.of_pure .none
    | false =>
        refine hheader.bind_eq fun n => ?_
        exact (Stable.take n.toNat).map fun _ _ h => .some h
  · cases b with
    | true => exact Recognizes.of_pure (Nat.zero_le _)
    | false =>
        refine (hform d).bind fun y n hn => (Recognizes.take n.toNat).map fun z v _ => ?_
        have hpos := List.length_pos_iff.mpr hn.ne_nil
        rw [List.length_append]
        exact Nat.le_trans hpos (Nat.le_trans (Nat.le_add_right _ _) (Nat.le_add_right _ _))

/-- A string is read alike, wherever its bytes lie. -/
theorem Stable.stringView :
    Stable c k stringView stringView (.of (Option.Rel View.Alike)) := by
  rw [stringView_eq]
  exact Stable.payloadOrNil Stable.strHeader fun _ => Recognizes.strHeader

theorem Stable.bytes : Stable c k bytes bytes (.of (Option.Rel View.Alike)) := by
  rw [bytes_eq]
  exact Stable.payloadOrNil Stable.binHeader fun _ => Recognizes.binHeader

/-- The same bytes are decoded to the same text. -/
theorem Stable.decodeText {block block' : ByteArray} (h : block = block') :
    Stable c k (decodeText block) (decodeText block') .eq := by
  subst h
  rw [Reader.decodeText]
  split
  · exact Stable.of_pure rfl
  · exact Stable.of_throw _

/-- The text of a string. Whether it lay within one piece may differ. -/
theorem Stable.str :
    Stable c k str str (.of (Option.Rel fun t u => t.value = u.value)) := by
  refine Stable.stringView.bind ?_
  rintro _ _ (@⟨v, w, hvw⟩ | _)
  · have hcontent := hvw.content_eq
    obtain ⟨payload, hv, hw⟩ := hvw
    dsimp only
    split
    · rename_i block hblock
      rw [hv.contiguous_eq hblock]
      split
      · rename_i block' hblock'
        rw [hw.contiguous_eq hblock']
        exact (Stable.decodeText hcontent).map fun _ _ h => .some h
      · exact (Stable.decodeText hcontent).map fun _ _ h => .some h
    · split
      · rename_i block' hblock'
        rw [hw.contiguous_eq hblock']
        exact (Stable.decodeText hcontent).map fun _ _ h => .some h
      · exact (Stable.decodeText hcontent).map fun _ _ h => .some h
  · exact Stable.of_pure .none

theorem Stable.string : Stable c k string string .eq := by
  refine Stable.str.map ?_
  rintro _ _ (h | _)
  · exact congrArg some h
  · rfl

/-! ## Extensions -/

/-- Two extensions of one type that show the same payload. -/
def Extension.Alike (e e' : Extension) : Prop :=
  e.type = e'.type ∧ e.data.Alike e'.data

/-- An extension is read alike, wherever its payload lies. -/
theorem Stable.ext : Stable c k ext ext (.of Extension.Alike) := by
  refine Stable.extHeader.bind_owing (fun h => ?_) fun d h => ?_
  · exact (Stable.take h.length.toNat).map fun _ _ hvw => ⟨rfl, hvw⟩
  · exact (Recognizes.take h.length.toNat).map fun x _ hx => Nat.le_of_eq hx.1.symm

theorem Stable.timestampFields (n : Nat) :
    Stable c k (timestampFields n) (timestampFields n) .eq := by
  unfold Reader.timestampFields
  split
  · exact (Stable.nat? .w32).require.map_eq _
  · exact (Stable.nat? .w64).require.map_eq _
  · refine (Stable.nat? .w32).require.bind_eq fun nanoseconds => ?_
    exact (Stable.int? (.signed .w64)).require.map_eq _
  · exact Stable.of_throw _

theorem Stable.instant (n : Nat) : Stable c k (instant n) (instant n) .eq := by
  refine (Stable.timestampFields n).bind_eq fun parts => ?_
  split
  · exact Stable.of_pure rfl
  · exact Stable.of_throw _

theorem Stable.timestamp : Stable c k timestamp timestamp .eq := by
  rw [timestamp_eq]
  refine Stable.extHeader.bind_owing (fun h => ?_) fun d h => ?_
  · split
    · exact Stable.instant _
    · exact Stable.of_throw _
  · split
    · exact (Recognizes.instant _).mono fun x _ hx => Nat.le_of_eq hx.1.symm
    · exact Recognizes.of_throw _

theorem Stable.dateTime : Stable c k dateTime dateTime .eq := by
  refine Stable.timestamp.bind_eq fun t => ?_
  split
  · exact Stable.of_pure rfl
  · exact Stable.of_throw _

end Reader

end MessagePack
