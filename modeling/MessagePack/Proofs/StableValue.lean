import MessagePack.Proofs.Agreement
import MessagePack.Proofs.StableSkip

/-!
# Values are read from their own bytes

Reading a value is stable, for dynamic values and for values of every type. Containers are where
this could fail: the count of a header is compared with everything that is ahead, at every level of
nesting. But a header owes no more bytes than its elements take, so an input that is too short for
the header is too short for the elements.

* **`Value.stable_readWithin`** is by induction on the bound on the descent, which is larger for the
  longer input.
* **`Schema.stable_read`** is by induction on the type.
-/

namespace MessagePack

namespace Reader

variable {ε α β : Type} {c : List UInt8} {k : Nat}

/-- What consumes a form with bytes in it consumes a byte. -/
theorem Recognizes.consumes {m : EStateM ε Reader α} {j : Nat}
    (h : ∀ d, Recognizes d m fun x _ => j ≤ x.length) : Consumes j m := by
  intro r s a hr hok
  obtain ⟨n, hn, rfl, hx⟩ := h r.depth hr rfl hok
  rw [hr.length_take_ahead hn] at hx
  rw [cursor_past, Cursor.consumed_past, Nat.add_sub_cancel_left]
  exact hx

/-- As many parts take as many times the bytes of one. -/
theorem Recognizes.replicate_le {m : EStateM ε Reader α} {d j : Nat}
    (h : Recognizes d m fun x _ => j ≤ x.length) (n : Nat) :
    Recognizes d (Reader.replicate n m) fun x _ => j * n ≤ x.length := by
  refine (h.replicate n).mono ?_
  rintro x _ ⟨parts, rfl, hparts, rfl, -⟩
  exact Value.mul_length_le Prod.snd j hparts

/-- A look ahead comes before what begins with the same read, and fails where it does. -/
theorem Stable.bind_ahead [EndsEarly ε] {m : EStateM ε Reader α} {f : α → EStateM ε Reader β}
    {owed : α → Nat} {K : Comparison β β} (hm : Stable c k m m (.owing Eq owed))
    (hf : ∀ a, Stable c k (f a) (f a) K)
    (hfail : ∀ {r s : Reader} {e : ε} (a : α), m r = .error e s → ∃ e' s', f a r = .error e' s') :
    Stable c k (ahead m >>= f) (Reader.ahead m >>= f) K where
  moves d := by
    intro r s b hr hd hok
    obtain ⟨a, t, hahead, hrest⟩ := of_bind_eq_ok hok
    rw [Reader.ahead] at hahead
    split at hahead
    · cases hahead
      exact (hf a).moves d hr hd hrest
    · cases hahead
  agree r r' hr := by
    have hagree := hm.agree r r' hr
    generalize hx : m r = x at hagree
    generalize hy : m r' = y at hagree
    have hahead : ∀ {r s : Reader} {a : α}, m r = .ok a s → Reader.ahead m r = .ok a r := by
      intro r s a h
      rw [Reader.ahead, h]
    have herror : ∀ {r s : Reader} {e : ε}, m r = .error e s → Reader.ahead m r = .error e r := by
      intro r s e h
      rw [Reader.ahead, h]
    cases hagree with
    | @ok n a b hn hab =>
        rw [bind_of_ok (hahead hx), bind_of_ok (hahead hy), ← show a = b from hab]
        exact (hf a).agree r r' hr
    | error hn =>
        rw [bind_of_error (herror hx), bind_of_error (herror hy)]
        exact Agree.error_at_once hr
    | short hc hshort =>
        cases x with
        | ok a s => exact hshort.elim
        | error e s =>
            refine .short hc (by rw [bind_of_error (herror hx)]; exact hshort) ?_
            intro b t ht
            obtain ⟨a, u, hahead', hrest⟩ := of_bind_eq_ok ht
            -- what comes after the look fails on the shorter input, so it is too short for that
            obtain ⟨e', s', hfa⟩ := hfail a hx
            have hu : u = r' := by
              rw [Reader.ahead] at hahead'
              split at hahead'
              · cases hahead'
                rfl
              · cases hahead'
            rw [hu] at hrest
            have hagree := (hf a).agree r r' hr
            rw [hfa, hrest] at hagree
            cases hagree with
            | short _ _ hy => exact hy b t rfl

end Reader

/-! ## Dynamic values -/

namespace Value

open Reader

variable {c : List UInt8} {k : Nat} {options : Options}

theorem stable_ofNonNil {α : Type} {m : Read (Option α)} (hm : Stable c k m m .eq) :
    Stable c k (Decode.ofNonNil m) (Decode.ofNonNil m) .eq := by
  refine hm.ofRead.bind_eq fun o => ?_
  cases o with
  | none => exact Stable.of_throw _
  | some a => exact Stable.of_pure rfl

theorem stable_readInteger (f : Format) :
    Stable c k (readInteger f) (readInteger f) .eq := by
  rw [readInteger]
  split
  · exact (Stable.int (.signed .w64)).ofRead.map_eq _
  · exact (Stable.int (.unsigned .w64)).ofRead.map_eq _

theorem ofRead_ahead {α : Type} (m : Read α) :
    Decode.ofRead (Reader.ahead m) = Reader.ahead (Decode.ofRead m) := by
  funext r
  rw [Decode.ofRead, EStateM.adaptExcept, Reader.ahead, Reader.ahead, Decode.ofRead,
    EStateM.adaptExcept]
  cases m r <;> rfl

theorem stable_readExtension : Stable c k readExtension readExtension .eq := by
  rw [readExtension, ofRead_ahead]
  refine Stable.bind_ahead Stable.extHeader.ofRead (fun h => ?_) ?_
  · split
    · exact Stable.timestamp.ofRead.map_eq _
    · refine Stable.ext.ofRead.map ?_
      rintro e e' ⟨htype, hdata⟩
      show Value.extension e.type e.data.toBytes = Value.extension e'.type e'.data.toBytes
      rw [htype, hdata.toBytes_eq]
  · -- timestamps and other extensions begin with the header that was looked at
    intro r s e h herror
    obtain ⟨e', hheader⟩ : ∃ e', extHeader r = .error e' s := by
      rw [Decode.ofRead, EStateM.adaptExcept] at herror
      split at herror
      · rename_i e' t hheader
        cases herror
        exact ⟨e', hheader⟩
      · cases herror
    have hofRead : ∀ {α : Type} {m : Read α} {f : ExtensionHeader → Read α},
        m = extHeader >>= f → Decode.ofRead m r = .error (.read e') s := by
      rintro α m f rfl
      rw [Decode.ofRead, EStateM.adaptExcept, bind_of_error hheader]
    refine ⟨.read e', s, ?_⟩
    split
    · exact bind_of_error (hofRead timestamp_eq)
    · exact bind_of_error (hofRead rfl)

/-- An entry is a key and a value behind it. -/
theorem stable_entry {m m' : Decode Value} (h : Stable c k m m' .eq) :
    Stable c k (do
      let key ← m
      return (key, ← m)) (do
      let key ← m'
      return (key, ← m')) .eq := by
  exact h.bind_eq fun key => h.map_eq _

theorem recognizes_length_pos (options : Options) (bound d : Nat) :
    Recognizes d (readWithin options bound) fun x _ => 1 ≤ x.length :=
  (recognizes_readWithin options bound d).mono fun _ _ h => h.1.length_pos

theorem recognizes_entry_length (options : Options) (bound d : Nat) :
    Recognizes d (do
      let key ← readWithin options bound
      return (key, ← readWithin options bound)) fun x _ => 2 ≤ x.length := by
  refine (recognizes_length_pos options bound d).bind fun x _ hx =>
    (recognizes_length_pos options bound d).map fun y _ hy => ?_
  rw [List.length_append]
  exact Nat.add_le_add hx hy

theorem consumes_arrayHeader : Consumes 1 (Decode.ofRead arrayHeader) :=
  Recognizes.consumes fun _ => Recognizes.arrayHeader.ofRead.mono fun _ _ h =>
    List.length_pos_iff.mpr h.ne_nil

theorem consumes_mapHeader : Consumes 1 (Decode.ofRead mapHeader) :=
  Recognizes.consumes fun _ => Recognizes.mapHeader.ofRead.mono fun _ _ h =>
    List.length_pos_iff.mpr h.ne_nil

/-- What comes behind a lead byte, with a bound on the descent that is one less. -/
theorem stable_readAs
    (h : Stable c k (readWithin options k) (readWithin options (k + c.length)) .eq) (f : Format) :
    Stable c (k + 1) (readAs options k f) (readAs options (k + c.length) f) .eq := by
  rw [readAs, readAs]
  -- the items of a container have a byte less ahead, that of its header, and so the bound goes down
  cases f.kind with
  | nil =>
      exact Stable.nil.ofRead.map_eq _
  | boolean =>
      exact Stable.boolean.ofRead.map_eq _
  | integer => exact stable_readInteger f
  | float =>
      dsimp only
      split
      · exact Stable.float32.ofRead.map_eq _
      · exact Stable.float64.ofRead.map_eq _
  | string => exact (stable_ofNonNil Stable.string).map_eq _
  | binary => exact Stable.bytes.ofNonNil.map fun _ _ h => congrArg Value.binary h.toBytes_eq
  | array =>
      refine Stable.nested (Stable.bind_consuming Stable.arrayHeader.ofRead consumes_arrayHeader
        ?_ ?_)
      · rintro n _ rfl
        exact (h.replicate n.toNat).map_eq _
      · rintro d n _ rfl
        refine ((recognizes_length_pos options _ d).replicate_le n.toNat).map fun x _ hx => ?_
        rwa [Nat.one_mul] at hx
  | map =>
      refine Stable.nested (Stable.bind_consuming Stable.mapHeader.ofRead consumes_mapHeader
        ?_ ?_)
      · rintro n _ rfl
        exact ((stable_entry h).replicate n.toNat).map_eq _
      · rintro d n _ rfl
        exact ((recognizes_entry_length options _ d).replicate_le n.toNat).map fun x _ hx => hx
  | extension => exact stable_readExtension
  | unknown => exact Stable.of_throw _

/-- The bound on the descent is no part of the outcome, as long as it is no less than the bytes
    ahead. -/
theorem stable_readWithin (options : Options) (k : Nat) :
    Stable c k (readWithin options k) (readWithin options (k + c.length)) .eq := by
  -- by induction on the bound; the elements of a container come behind its header
  induction k with
  | zero =>
      refine ⟨fun r r' hr => ?_, fun d => (recognizes_length_pos options _ d).mono fun _ v _ =>
        ⟨v, rfl⟩⟩
      by_cases hc : c = []
      · subst hc
        exact Agree.error_at_once hr
      · refine .short hc rfl ?_
        intro v s hs
        obtain ⟨n, hn, rfl, hpos⟩ := recognizes_length_pos options _ r'.depth hr.longer rfl hs
        rw [hr.longer.length_take_ahead hn] at hpos
        have hempty := hr.remaining_le
        exact ⟨n, hn, rfl, by omega⟩
  | succ k ih =>
      rw [show k + 1 + c.length = k + c.length + 1 by omega, readWithin_succ, readWithin_succ]
      refine Stable.of_look ?_ (stable_readAs ih) fun d => ?_
      · intro r hr
        rw [Decode.ofRead, EStateM.adaptExcept, nextFormat_eq hr]
        cases r.cursor.ahead.head? <;> rfl
      · rw [← readWithin_succ]
        exact recognizes_length_pos options _ d

theorem stable_read (options : Options) : Stable c k (read options) (read options) .eq where
  moves d := (recognizes_read options d).mono fun _ v _ => ⟨v, rfl⟩
  agree r r' hr := by
    have hread : ∀ r : Reader, read options r = readWithin options r.cursor.remaining r :=
      fun _ => rfl
    rw [hread, hread, hr.length_eq]
    exact (stable_readWithin options r.cursor.remaining).agree r r'
      ⟨hr.shorter, hr.longer, hr.ahead_eq, hr.depth_eq, Nat.le_refl _⟩

end Value

/-! ## Typed values -/

namespace Schema

open Reader

variable {c : List UInt8} {k : Nat} {options : Options}

theorem recognizes_read_length (options : Options) (s : Schema) (d : Nat) :
    Recognizes d (s.read options) fun x _ => 1 ≤ x.length :=
  (s.readsValue_read options d).mono fun _ _ h => (isRow_one_iff.mpr h).le_length

theorem stable_readEntries {κ ν : Type} {insert? : κ → ν → List (κ × ν) → Option (List (κ × ν))}
    {key : Decode κ} {value : Decode ν} (hkey : Stable c k key key .eq)
    (hvalue : Stable c k value value .eq) (n : Nat) (entries : List (κ × ν)) :
    Stable c k (readEntries insert? key value n entries)
      (readEntries insert? key value n entries) .eq := by
  induction n generalizing entries with
  | zero => exact Stable.of_pure rfl
  | succ n ih =>
      refine hkey.bind_eq fun a => hvalue.bind_eq fun b => ?_
      split
      · exact ih _
      · exact Stable.of_throw _

theorem stable_readMap {κ ν : Type} {insert? : κ → ν → List (κ × ν) → Option (List (κ × ν))}
    {key : Decode κ} {value : Decode ν} (hkey : Stable c k key key .eq)
    (hvalue : Stable c k value value .eq) (hkeyForm : ∀ d, ReadsValue d key)
    (hvalueForm : ∀ d, ReadsValue d value) :
    Stable c k (readMap options insert? key value) (readMap options insert? key value) .eq := by
  refine Stable.nested (Stable.mapHeader.ofRead.bind_owing (fun n => ?_) fun d n => ?_)
  · exact stable_readEntries hkey hvalue n.toNat []
  · exact (recognizes_readEntries (hkeyForm d) (hvalueForm d) n.toNat []).mono fun _ _ h =>
      h.le_length

theorem stable_readUuid : Stable c k readUuid readUuid .eq := by
  refine Stable.str.ofNonNil.bind fun t u htu => ?_
  rw [htu]
  split
  · exact Stable.of_pure rfl
  · exact Stable.of_throw _

/-- **TYPED VALUES ARE READ FROM THEIR OWN BYTES**: over an input and the same input with more
    behind it, every typed read agrees. -/
theorem stable_read (options : Options) (s : Schema) :
    Stable c k (s.read options) (s.read options) .eq := by
  -- by induction on the type
  induction s with
  | boolean => exact Stable.boolean.ofRead
  | int t => exact (Stable.int t).ofRead
  | float32 => exact Stable.float32.ofRead
  | float64 => exact Stable.float64.ofRead
  | char => exact Stable.char.ofRead
  | string => exact Value.stable_ofNonNil Stable.string
  | bytes => exact Stable.bytes.ofNonNil.map fun _ _ h => h.toBytes_eq
  | timestamp => exact Stable.timestamp.ofRead
  | dateTime => exact Stable.dateTime.ofRead
  | uuid => exact stable_readUuid
  | value => exact Value.stable_read options
  | option item ih =>
      refine Stable.tryNil.ofRead.bind_owing (fun b => ?_) fun d b => ?_
      · cases b with
        | true => exact Stable.of_pure rfl
        | false => exact ih.map_eq _
      · cases b with
        | true => exact Recognizes.of_pure (Nat.zero_le _)
        | false => exact (recognizes_read_length options item d).map fun _ _ hx => hx
  | list item ih =>
      refine Stable.nested (Stable.arrayHeader.ofRead.bind_owing (fun n => ?_) fun d n => ?_)
      · exact ih.replicate n.toNat
      · refine ((recognizes_read_length options item d).replicate_le n.toNat).mono fun x _ hx => ?_
        rwa [Nat.one_mul] at hx
  | sortedMap a b iha ihb =>
      exact (stable_readMap iha ihb (a.readsValue_read options)
        (b.readsValue_read options)).map_eq _
  | hashMap a b iha ihb =>
      rw [read]
      split
      · exact Stable.of_throw _
      · exact (stable_readMap iha ihb (a.readsValue_read options)
          (b.readsValue_read options)).map_eq _

end Schema

end MessagePack
