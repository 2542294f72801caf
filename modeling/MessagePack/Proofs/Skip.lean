import MessagePack.Proofs.Grammar
import MessagePack.Proofs.Reader
import MessagePack.Proofs.Turn

/-!
# Skipping is the grammar of complete values

A skip walks flat over the bytes with one counter of the values that are still to come, while the
grammar nests. The two are tied together one lead byte at a time: a row of values whose first one
has been opened is a row again, with the elements of that value counted in.

* **`Reader.Skip.Ends`** says what each of the three ends of a skip means for the rows ahead, and
  **`Reader.Skip.run_ends`** is the induction over the turns.
* **`Reader.Skip.Fits`** is the bound that keeps the counter below the word size: a header takes at
  least five bytes to count `2 ^ 32` elements, so the counter cannot outgrow the bytes passed.
* **`Reader.trySkip_decides`** is the result for any input.
-/

namespace MessagePack

/-! ## Numbers in fields -/

/-- Every byte adds a factor of 256 to what the bytes before it stay below. -/
theorem BigEndian.foldl_lt (bytes : List UInt8) (a m : Nat) (h : a < m) :
    bytes.foldl (fun n b => 256 * n + b.toNat) a < m * 256 ^ bytes.length := by
  induction bytes generalizing a m with
  | nil => rwa [List.foldl_nil, List.length_nil, Nat.pow_zero, Nat.mul_one]
  | cons b bytes ih =>
      have hb := b.toNat_lt
      have hlt := ih (256 * a + b.toNat) (m * 256) (by omega)
      rw [List.foldl_cons, List.length_cons, Nat.pow_succ, Nat.mul_comm (256 ^ _), ← Nat.mul_assoc]
      exact hlt

/-- A field holds a number below the power of its size. -/
theorem BigEndian.decode_lt (bytes : List UInt8) : decode bytes < 256 ^ bytes.length := by
  have h := foldl_lt bytes 0 1 Nat.one_pos
  rwa [Nat.one_mul] at h

namespace Reader

/-! ## Bodies -/

/-- Where a body is ahead in full, a skip passes over it, and finds what it counts. -/
theorem passBody?_of_fills {c : Cursor} {body : Body} {head rest : List UInt8} {k : Nat}
    (hc : c.WellFormed) (hfills : body.Fills head k) (hahead : c.ahead = head ++ rest) :
    passBody? c body = some (c.past head.length, UInt64.ofNat k) := by
  have hle := hc.length_le_remaining hahead
  cases hfills with
  | fixed hlength =>
      rw [passBody?, Cursor.advance_eq, if_pos (hlength ▸ hle), hlength]
      rfl
  | @sized e n more field payload he hlength =>
      cases he with
      | inLead n =>
          rw [List.nil_append] at hle ⊢
          rw [passBody?, Cursor.advance_eq, if_pos (hlength ▸ hle), hlength]
          rfl
      | @field w field hfield =>
          rw [List.length_append] at hle ⊢
          rw [passBody?, hc.nat?_eq, if_pos (by omega), hahead, List.append_assoc,
            List.take_left' hfield]
          show ((c.past w.bytes).advance _).toOption.map _ = _
          rw [Cursor.advance_eq, ← hlength, if_pos (by rw [Cursor.remaining_past]; omega),
            hc.past_past (by omega), hfield]
          rfl
  | @values e n each field he =>
      cases he with
      | inLead n => rw [passBody?, List.length_nil, hc.past_zero]
      | field hfield =>
          rw [passBody?, hc.nat?_eq, if_pos (hfield ▸ hle), hahead, List.take_left' hfield, hfield]
          rfl

/-- What a skip passes over is a body in full, and the count is what it counts. -/
theorem fills_of_passBody? {c c' : Cursor} {body : Body} {m : UInt64} (hc : c.WellFormed)
    (h : passBody? c body = some (c', m)) :
    ∃ n k, n ≤ c.remaining ∧ body.Fills (c.ahead.take n) k ∧ c' = c.past n
      ∧ m = UInt64.ofNat k := by
  -- by the kind of body, and by whether its number is in the lead byte or in a field
  cases body with
  | fixed n =>
      rw [passBody?, Cursor.advance_eq] at h
      split at h
      · rename_i hn
        cases h
        exact ⟨n, 0, hn, .fixed (hc.length_take_ahead hn), rfl, rfl⟩
      · cases h
  | sized e more =>
      cases e with
      | inLead n =>
          rw [passBody?, Cursor.advance_eq] at h
          split at h
          · rename_i hn
            cases h
            exact ⟨n + more, 0, hn, .sized (.inLead n) (hc.length_take_ahead hn), rfl, rfl⟩
          · cases h
      | field w =>
          rw [passBody?, hc.nat?_eq] at h
          split at h
          · -- the payload is behind its length field
            rename_i hw
            simp only [Option.bind_eq_bind, Option.bind_some, Cursor.advance_eq,
              Cursor.remaining_past] at h
            split at h
            · rename_i hn
              cases h
              refine ⟨_, 0, ?_, ?_, hc.past_past ?_, rfl⟩
              · omega
              · rw [List.take_add]
                refine .sized (.field (hc.length_take_ahead hw)) ?_
                rw [List.length_take, List.length_drop, hc.length_ahead, Nat.min_eq_left hn]
              · omega
            · cases h
          · cases h
  | values e each =>
      cases e with
      | inLead n =>
          cases h
          exact ⟨0, each * n, Nat.zero_le _, .values (.inLead n), hc.past_zero.symm, rfl⟩
      | field w =>
          rw [passBody?, hc.nat?_eq] at h
          split at h
          · rename_i hw
            cases h
            exact ⟨w.bytes, _, hw, .values (.field (hc.length_take_ahead hw)), rfl, rfl⟩
          · cases h

/-! ## One turn -/

namespace Skip

/-- A counter that the bytes ahead leave room for. Opening an array or a map adds fewer than
    `2 ^ 33` values and takes at least five bytes if it adds more than a few. -/
def Fits (s : Skip) : Prop :=
  5 * s.pending.toNat + 2 ^ 33 * s.cursor.remaining ≤ 5 + 2 ^ 33 * (2 ^ 64 - 1)

/-- One value that is to come is no more than the bytes leave room for. -/
theorem fits_start {c : Cursor} (h : c.remaining < 2 ^ 64) : Fits ⟨c, 1⟩ := by
  have hone : (1 : UInt64).toNat = 1 := rfl
  rw [Fits, hone]
  have hle : (Skip.mk c 1).cursor.remaining ≤ 2 ^ 64 - 1 := Nat.le_sub_one_of_lt h
  omega

/-- Containers count few elements in the lead byte, and at most `2 ^ 32` in a field of four bytes,
    each of them for one value or two. -/
theorem counts_of_listed {b : UInt8} {e : Extent} {each n : Nat} {head : List UInt8}
    (h : Listed b (.values e each)) (he : e.Holds head n) :
    each ≤ 2 ∧ (n < 2 ^ 16 ∨ n < 2 ^ 32 ∧ head.length = 4) := by
  -- no container counts in a field of eight bytes, or of one
  have hfields : ∀ p ∈ arrayFields ++ mapFields, p.2 = .w16 ∨ p.2 = .w32 := by decide
  have hfield : ∀ {w : Width}, (b, w) ∈ arrayFields ++ mapFields → head.length = w.bytes →
      BigEndian.decode head < 2 ^ 16 ∨ BigEndian.decode head < 2 ^ 32 ∧ head.length = 4 := by
    intro w hw hlength
    have hlt := BigEndian.decode_lt head
    rcases hfields _ hw with hw | hw
    · rw [show w = .w16 from hw] at hlength
      rw [hlength] at hlt
      exact Or.inl hlt
    · rw [show w = .w32 from hw] at hlength
      rw [hlength] at hlt
      exact Or.inr ⟨hlt, hlength⟩
  rcases each with _ | _ | _ | each
  · cases e <;> exact h.elim
  · cases he with
    | inLead n => exact ⟨by omega, Or.inl (Nat.lt_trans h.1 (by omega))⟩
    | field hlength => exact ⟨by omega, hfield (List.mem_append_left _ h) hlength⟩
  · cases he with
    | inLead n => exact ⟨by omega, Or.inl (Nat.lt_trans h.1 (by omega))⟩
    | field hlength => exact ⟨by omega, hfield (List.mem_append_right _ h) hlength⟩
  · cases e <;> exact h.elim

/-- A body counts values at the price of bytes. -/
theorem price_of_opens {b : UInt8} {head : List UInt8} {k : Nat} (h : Opens b head k) :
    5 * k ≤ 2 ^ 33 * (head.length + 1) ∧ k < 2 ^ 33 := by
  obtain ⟨body, hbody, hfills⟩ := h
  cases hfills with
  | fixed _ => exact ⟨Nat.zero_le _, by omega⟩
  | sized _ _ => exact ⟨Nat.zero_le _, by omega⟩
  | @values e n each field he =>
      obtain ⟨heach, hn⟩ := counts_of_listed (listed_of_body? hbody) he
      have hk : each * n ≤ 2 * n := Nat.mul_le_mul_right n heach
      rcases hn with hn | ⟨hn, hlength⟩
      · omega
      · rw [hlength]
        omega

/-- What a turn that goes on has done: it has passed a lead byte and its body, and has replaced one
    value that was to come by the values that the body counts. The numbers are natural numbers, so
    nothing was lost to the size of a word. -/
def Steps (s t : Skip) : Prop :=
  ∃ b rest n k, s.cursor.ahead = b :: rest ∧ n ≤ rest.length ∧ Opens b (rest.take n) k
    ∧ t.cursor = s.cursor.past (1 + n) ∧ 1 ≤ s.pending.toNat
    ∧ s.pending.toNat - 1 + k < 2 ^ 64 ∧ t.pending.toNat = s.pending.toNat - 1 + k

/-- Counting in words is exact as long as the count fits. -/
theorem toNat_counted {pending : UInt64} {k : Nat} (hpos : 1 ≤ pending.toNat) (hk : k < 2 ^ 64)
    (hbound : pending.toNat - 1 + k < 2 ^ 64) :
    (pending - 1 + UInt64.ofNat k).toNat = pending.toNat - 1 + k := by
  have hsub : (pending - 1).toNat = pending.toNat - 1 := UInt64.toNat_sub_of_le _ _ hpos
  rw [UInt64.toNat_add, hsub, UInt64.toNat_ofNat_of_lt' hk, Nat.mod_eq_of_lt hbound]

/-- With room for the counter, a turn that goes on is exact. -/
theorem steps_of_turn {s t : Skip} (hs : s.cursor.WellFormed) (hfits : s.Fits)
    (h : s.turn = .again t) : Steps s t := by
  rw [turn] at h
  split at h
  · cases h
  · rename_i hzero
    split at h
    · cases h
    · rename_i hroom
      cases hahead : s.cursor.ahead with
      | nil =>
          rw [hs.read?_nil hahead] at h
          cases h
      | cons b rest =>
          have hlength := hs.remaining_eq_succ hahead
          rw [hs.read?_cons hahead] at h
          simp only at h
          split at h
          · cases h
          · rename_i body hbody
            split at h
            · cases h
            · rename_i c k hpass
              cases h
              obtain ⟨n, k, hn, hfills, rfl, rfl⟩ := fills_of_passBody? (hs.past (by omega)) hpass
              rw [Cursor.remaining_past] at hn
              rw [Cursor.ahead_past, hahead, List.drop_succ_cons, List.drop_zero] at hfills
              have hopens : Opens b (rest.take n) k := ⟨body, hbody, hfills⟩
              -- what was added to the counter has been paid for by the bytes that were passed
              obtain ⟨hprice, hk⟩ := price_of_opens hopens
              rw [List.length_take, Nat.min_eq_left (by omega)] at hprice
              have hpos : 1 ≤ s.pending.toNat :=
                Nat.pos_of_ne_zero fun h0 => hzero (UInt64.toNat_inj.mp h0)
              have hbound : s.pending.toNat - 1 + k < 2 ^ 64 := by
                rw [Fits] at hfits
                omega
              exact ⟨b, rest, n, k, hahead, by omega, hopens, hs.past_past (by omega), hpos, hbound,
                toNat_counted hpos (Nat.lt_trans hk (by decide)) hbound⟩

/-- A turn that goes on leaves fewer bytes ahead, and the cursor in order. -/
theorem Steps.wellFormed {s t : Skip} (h : Steps s t) (hs : s.cursor.WellFormed) :
    t.cursor.WellFormed ∧ t.cursor.remaining < s.cursor.remaining := by
  obtain ⟨b, rest, n, k, hahead, hn, -, hcursor, -⟩ := h
  have hlength := hs.remaining_eq_succ hahead
  rw [hcursor, Cursor.remaining_past]
  exact ⟨hs.past (by omega), by omega⟩

/-- A turn that goes on keeps the room for the counter. -/
theorem Steps.fits {s t : Skip} (h : Steps s t) (hs : s.cursor.WellFormed) (hfits : s.Fits) :
    t.Fits := by
  obtain ⟨b, rest, n, k, hahead, hn, hopens, hcursor, hpos, -, hpending⟩ := h
  have hlength := hs.remaining_eq_succ hahead
  obtain ⟨hprice, -⟩ := price_of_opens hopens
  rw [List.length_take, Nat.min_eq_left hn] at hprice
  rw [Fits] at hfits ⊢
  rw [hcursor, Cursor.remaining_past, hpending]
  omega

/-! ## All turns -/

/-- What the end of a skip says about the rows of `n` values ahead of a cursor: where one ends, that
    none has arrived in full, or that none ever will. -/
def Ends (c : Cursor) (n : Nat) : SkipEnd → Prop
  | .complete c' => ∃ row, row <+: c.ahead ∧ IsRow n row ∧ c' = c.past row.length
  | .incomplete => ∀ row, row <+: c.ahead → ¬ IsRow n row
  | .invalid f => f = .neverUsed ∧ ∀ more row, row <+: c.ahead ++ more → ¬ IsRow n row

/-- Only one format has no body. -/
theorem body?_eq_none {f : Format} (h : f.body? = none) :
    f = .neverUsed := by
  cases f <;> first | rfl | cases h

/-- No row has more values than there are bytes for it. -/
theorem not_isRow_of_remaining_lt {c : Cursor} {n : Nat} {row : List UInt8} (hc : c.WellFormed)
    (h : c.remaining < n) (hrow : row <+: c.ahead) : ¬ IsRow n row := by
  intro hvalues
  have hle := hvalues.le_length
  have hlength := hrow.length_le
  rw [hc.length_ahead] at hlength
  omega

/-- No row starts with a byte that is never used. -/
theorem not_isRow_of_body?_eq_none {b : UInt8} {n : Nat} {row bytes : List UInt8}
    (h : (Format.ofByte b).body? = none) (hrow : row <+: b :: bytes) : ¬ IsRow (n + 1) row := by
  intro hvalues
  obtain ⟨b', head, k, values, ⟨body, hbody, -⟩, -, rfl⟩ := isRow_succ_iff.mp hvalues
  obtain ⟨rfl, -⟩ := List.cons_prefix_cons.mp hrow
  cases h.symm.trans hbody

/-- No row starts with a value whose body is not there in full. -/
theorem not_isRow_of_passBody?_eq_none {c : Cursor} {b : UInt8} {n : Nat} {body : Body}
    {row : List UInt8} (hc : c.WellFormed) (hbody : (Format.ofByte b).body? = some body)
    (h : passBody? c body = none) (hrow : row <+: b :: c.ahead) : ¬ IsRow (n + 1) row := by
  intro hvalues
  obtain ⟨b', head, k, values, ⟨body', hbody', hfills⟩, -, rfl⟩ := isRow_succ_iff.mp hvalues
  obtain ⟨rfl, tail, hrest⟩ := List.cons_prefix_cons.mp hrow
  cases Option.some.inj (hbody.symm.trans hbody')
  rw [List.append_assoc] at hrest
  rw [passBody?_of_fills hc hfills hrest.symm] at h
  cases h

/-- The end of a skip is right for the state that it is reached in. -/
theorem ends_of_turn {s : Skip} {e : SkipEnd} (hs : s.cursor.WellFormed)
    (h : s.turn = .done e) : Ends s.cursor s.pending.toNat e := by
  -- a turn ends in five places: nothing is to come, too few bytes, no byte, no format, no body
  rw [turn] at h
  split at h
  · rename_i hzero
    cases h
    refine ⟨[], List.nil_prefix, ?_, hs.past_zero.symm⟩
    rw [hzero]
    exact isRow_zero
  · rename_i hzero
    obtain ⟨n, hn⟩ : ∃ n, s.pending.toNat = n + 1 :=
      Nat.exists_eq_succ_of_ne_zero fun h0 => hzero (UInt64.toNat_inj.mp h0)
    rw [hn] at h ⊢
    split at h
    · -- more values are pending than there are bytes left
      rename_i hroom
      cases h
      intro row hrow
      exact not_isRow_of_remaining_lt hs (by omega) hrow
    · cases hahead : s.cursor.ahead with
      | nil =>
          rw [hs.read?_nil hahead] at h
          cases h
          intro row hrow
          have hremaining := hs.length_ahead
          rw [hahead, List.length_nil] at hremaining
          exact not_isRow_of_remaining_lt hs (by omega) hrow
      | cons b rest =>
          have hlength := hs.remaining_eq_succ hahead
          rw [hs.read?_cons hahead] at h
          simp only at h
          split at h
          · rename_i hbody
            cases h
            refine ⟨body?_eq_none hbody, ?_⟩
            intro more row hrow
            rw [hahead] at hrow
            exact not_isRow_of_body?_eq_none hbody hrow
          · rename_i body hbody
            split at h
            · rename_i hpass
              cases h
              intro row hrow
              have hbehind : s.cursor.ahead = b :: (s.cursor.past 1).ahead := by
                rw [Cursor.ahead_past, hahead]
                rfl
              rw [hbehind] at hrow
              exact not_isRow_of_passBody?_eq_none (hs.past (by omega)) hbody hpass hrow
            · cases h

/-- What the end of a skip says after a turn, it says before that turn as well: the value that was
    opened is put together again. -/
theorem Steps.ends {s t : Skip} {e : SkipEnd} (h : Steps s t) (hs : s.cursor.WellFormed)
    (he : Ends t.cursor t.pending.toNat e) : Ends s.cursor s.pending.toNat e := by
  obtain ⟨b, rest, n, k, hahead, hn, hopens, hcursor, hpos, -, hpending⟩ := h
  obtain ⟨m, hm⟩ : ∃ m, s.pending.toNat = m + 1 := Nat.exists_eq_succ_of_ne_zero (by omega)
  rw [show t.pending.toNat = k + m by omega] at he
  have hbehind : t.cursor.ahead = rest.drop n := by
    rw [hcursor, Cursor.ahead_past, hahead, Nat.add_comm, List.drop_succ_cons]
  have htake : (rest.take n).length = n := by rw [List.length_take, Nat.min_eq_left hn]
  -- a row of the values that were pending is the opened value and a row of those pending now
  have hrow : ∀ (more : List UInt8) {row : List UInt8}, row <+: b :: rest ++ more →
      IsRow (m + 1) row → ∃ row', row' <+: rest.drop n ++ more ∧ IsRow (k + m) row' := by
    rintro more row ⟨tail, hrow⟩ hvalues
    obtain ⟨b', head, k', row', hopens', hrow', rfl⟩ := isRow_succ_iff.mp hvalues
    obtain ⟨rfl, htail⟩ := List.cons.inj hrow
    have hsplit : rest.take n ++ (rest.drop n ++ more) = head ++ (row' ++ tail) := by
      rw [← List.append_assoc, List.take_append_drop, ← List.append_assoc]
      exact htail.symm
    obtain ⟨rfl, rfl⟩ := hopens.unique hopens' hsplit
    exact ⟨row', ⟨tail, (List.append_cancel_left hsplit).symm⟩, hrow'⟩
  rw [hm]
  cases e with
  | complete c =>
      obtain ⟨row, hprefix, hvalues, rfl⟩ := he
      rw [hbehind] at hprefix
      refine ⟨b :: (rest.take n ++ row), ?_,
        isRow_succ_iff.mpr ⟨b, _, k, row, hopens, hvalues, rfl⟩, ?_⟩
      · rw [hahead]
        refine List.cons_prefix_cons.mpr ⟨rfl, ?_⟩
        obtain ⟨tail, hrest⟩ := hprefix
        exact ⟨tail, by rw [List.append_assoc, hrest, List.take_append_drop]⟩
      · have hle := hprefix.length_le
        have hlength := hs.remaining_eq_succ hahead
        rw [List.length_drop] at hle
        rw [hcursor, hs.past_past (by omega), List.length_cons, List.length_append, htake]
        congr 1
        omega
  | incomplete =>
      intro row hprefix hvalues
      rw [hahead] at hprefix
      obtain ⟨row', hprefix', hvalues'⟩ := hrow [] (by rwa [List.append_nil]) hvalues
      rw [List.append_nil, ← hbehind] at hprefix'
      exact he row' hprefix' hvalues'
  | invalid f =>
      refine ⟨he.1, ?_⟩
      intro more row hprefix hvalues
      rw [hahead] at hprefix
      obtain ⟨row', hprefix', hvalues'⟩ := hrow more hprefix hvalues
      exact he.2 more row' (hbehind ▸ hprefix') hvalues'

/-- **THE LOOP IS THE GRAMMAR**: a skip ends, and how it ends says what rows are ahead. -/
theorem run_ends {turns : Nat} {s : Skip} (hs : s.cursor.WellFormed) (hfits : s.Fits)
    (hturns : s.cursor.remaining < turns) :
    ∃ e, Turn.run turn turns s = some e ∧ Ends s.cursor s.pending.toNat e := by
  -- by induction on the turns; each of them that goes on has passed at least one byte
  induction turns generalizing s with
  | zero => exact absurd hturns (Nat.not_lt_zero _)
  | succ turns ih =>
      rw [Turn.run]
      cases hturn : s.turn with
      | done e => exact ⟨e, rfl, ends_of_turn hs hturn⟩
      | again t =>
          have hstep := steps_of_turn hs hfits hturn
          obtain ⟨ht, hshorter⟩ := hstep.wellFormed hs
          obtain ⟨e, hrun, he⟩ := ih ht (hstep.fits hs hfits) (by omega)
          exact ⟨e, hrun, hstep.ends hs he⟩

end Skip

/-- How a skip from a cursor ends says what values are ahead. -/
theorem skipFrom_ends {c : Cursor} (hc : c.WellFormed) (hlt : c.remaining < 2 ^ 64) :
    Skip.Ends c 1 (skipFrom c) := by
  obtain ⟨e, hrun, he⟩ := Skip.run_ends (s := ⟨c, 1⟩) hc (Skip.fits_start hlt) (Nat.lt_succ_self _)
  rw [skipFrom, hrun]
  exact he

/-! ## Readers -/

variable {r s : Reader}

/-- A complete value ahead is passed over. -/
theorem trySkip_of_isValue {x rest : List UInt8} (hr : r.cursor.WellFormed)
    (hlt : r.cursor.remaining < 2 ^ 64) (hx : IsValue x) (hahead : r.cursor.ahead = x ++ rest) :
    trySkip r = .ok true (r.past x.length) := by
  have hends := skipFrom_ends hr hlt
  have hprefix : x <+: r.cursor.ahead := ⟨rest, hahead.symm⟩
  rw [trySkip]
  -- of the three ends only the first one leaves room for a value in front
  cases hend : skipFrom r.cursor with
  | complete c =>
      rw [hend] at hends
      obtain ⟨row, ⟨tail, hrow⟩, hvalue, rfl⟩ := hends
      rw [(isRow_one_iff.mp hvalue).eq_of_append hx (hrow.trans hahead)]
      rfl
  | incomplete =>
      rw [hend] at hends
      exact absurd (isRow_one_iff.mpr hx) (hends x hprefix)
  | invalid f =>
      rw [hend] at hends
      refine absurd (isRow_one_iff.mpr hx) (hends.2 [] x ?_)
      rwa [List.append_nil]

/-- What a skip can do: pass over the complete value ahead, or stay where it is. -/
theorem trySkip_cases (hr : r.cursor.WellFormed) (hlt : r.cursor.remaining < 2 ^ 64) :
    (∃ n ≤ r.cursor.remaining, IsValue (r.cursor.ahead.take n)
        ∧ trySkip r = .ok true (r.past n))
      ∨ trySkip r = .ok false r
      ∨ trySkip r = .error (.invalidCode (.ofByte 0xc1)) r
        ∧ ∀ more x, x <+: r.cursor.ahead ++ more → ¬ IsValue x := by
  have hends := skipFrom_ends hr hlt
  rw [trySkip]
  cases hend : skipFrom r.cursor with
  | complete c =>
      rw [hend] at hends
      obtain ⟨row, hprefix, hvalue, rfl⟩ := hends
      refine Or.inl ⟨row.length, ?_, ?_, rfl⟩
      · rw [← hr.length_ahead]
        exact hprefix.length_le
      · rw [← List.prefix_iff_eq_take.mp hprefix]
        exact isRow_one_iff.mp hvalue
  | incomplete => exact Or.inr (Or.inl rfl)
  | invalid f =>
      rw [hend] at hends
      obtain ⟨rfl, hnone⟩ := hends
      refine Or.inr (Or.inr ⟨?_, fun more x hx hvalue =>
        hnone more x hx (isRow_one_iff.mpr hvalue)⟩)
      rw [show Format.ofByte 0xc1 = .neverUsed from Format.ofByte_byte .neverUsed]

/-- What has been passed over is a complete value. -/
theorem isValue_of_trySkip (hr : r.cursor.WellFormed) (hlt : r.cursor.remaining < 2 ^ 64)
    (h : trySkip r = .ok true s) :
    ∃ n ≤ r.cursor.remaining, s = r.past n ∧ IsValue (r.cursor.ahead.take n) := by
  rcases trySkip_cases hr hlt with ⟨n, hn, hvalue, hok⟩ | hfalse | ⟨herror, -⟩
  · rw [hok] at h
    cases h
    exact ⟨n, hn, rfl, hvalue⟩
  · rw [hfalse] at h
    cases h
  · rw [herror] at h
    cases h

/-- A strict start of a complete value is not complete, and no error either. -/
theorem trySkip_of_start {more : List UInt8} (hr : r.cursor.WellFormed)
    (hlt : r.cursor.remaining < 2 ^ 64) (hmore : more ≠ [])
    (hvalue : IsValue (r.cursor.ahead ++ more)) : trySkip r = .ok false r := by
  rcases trySkip_cases hr hlt with ⟨n, -, htake, -⟩ | hfalse | ⟨-, hnone⟩
  · -- a complete value at the front would be all of it, and that is more than there is
    have heq := htake.eq_of_append hvalue (x := r.cursor.ahead.drop n ++ more) (y := []) (by
      rw [← List.append_assoc, List.take_append_drop, List.append_nil])
    have hlength := congrArg List.length heq
    rw [List.length_take, List.length_append] at hlength
    have hpos := List.length_pos_iff.mpr hmore
    omega
  · exact hfalse
  · exact absurd hvalue (hnone more _ List.prefix_rfl)

/-- Every turn that a skip takes is exact: its counter never wraps around. -/
theorem Skip.steps_of_reaches {c : Cursor} {s t : Skip} (hc : c.WellFormed)
    (hlt : c.remaining < 2 ^ 64) (hs : Turn.Reaches Skip.turn ⟨c, 1⟩ s) (h : s.turn = .again t) :
    Steps s t := by
  have hturn : ∀ {s t : Skip}, s.cursor.WellFormed ∧ s.Fits → s.turn = .again t →
      t.cursor.WellFormed ∧ t.Fits := by
    intro s t hs hst
    have hstep := steps_of_turn hs.1 hs.2 hst
    exact ⟨(hstep.wellFormed hs.1).1, hstep.fits hs.1 hs.2⟩
  obtain ⟨hwf, hfits⟩ := Turn.Reaches.invariant (fun s => s.cursor.WellFormed ∧ s.Fits)
    ⟨hc, fits_start hlt⟩ hturn hs
  exact steps_of_turn hwf hfits h

/-- **SKIPPING IS THE GRAMMAR.** Of a reader with the bytes `b` ahead, a skip moves by `n` bytes
    exactly if the first `n` of them are one complete value. Otherwise the reader stays: there is an
    error only at the byte that is never used, and then no more bytes make a value of it. A strict
    start of a value is never an error. And no turn of the skip loses anything to the size of its
    counter. -/
theorem trySkip_decides {r : Reader} {b : List UInt8} (hr : r.cursor.WellFormed)
    (hb : r.cursor.ahead = b) (hlt : b.length < 2 ^ 63) :
    (∀ n, (∃ s, trySkip r = .ok true s ∧ s.consumed = r.consumed + n) ↔
        n ≤ b.length ∧ IsValue (b.take n))
      ∧ ((∃ n ≤ b.length, IsValue (b.take n) ∧ trySkip r = .ok true (r.past n))
        ∨ trySkip r = .ok false r
        ∨ trySkip r = .error (.invalidCode (.ofByte 0xc1)) r
          ∧ ∀ more x, x <+: b ++ more → ¬ IsValue x)
      ∧ (∀ more, more ≠ [] → IsValue (b ++ more) → trySkip r = .ok false r)
      ∧ ∀ s t, Turn.Reaches Skip.turn ⟨r.cursor, 1⟩ s → s.turn = .again t → s.Steps t := by
  subst hb
  rw [hr.length_ahead] at hlt ⊢
  have hlt64 : r.cursor.remaining < 2 ^ 64 := Nat.lt_trans hlt (by decide)
  refine ⟨?_, trySkip_cases hr hlt64, ?_, ?_⟩
  · intro n
    constructor
    · rintro ⟨s, hok, hconsumed⟩
      obtain ⟨m, hm, rfl, hvalue⟩ := isValue_of_trySkip hr hlt64 hok
      obtain rfl : m = n := Nat.add_left_cancel hconsumed
      exact ⟨hm, hvalue⟩
    · rintro ⟨hn, hvalue⟩
      refine ⟨r.past n, ?_, rfl⟩
      have hok := trySkip_of_isValue hr hlt64 hvalue (List.take_append_drop n _).symm
      rwa [hr.length_take_ahead hn] at hok
  · intro more hmore hvalue
    exact trySkip_of_start hr hlt64 hmore hvalue
  · intro s t hs hst
    exact Skip.steps_of_reaches hr hlt64 hs hst

/-- An array of one nil is passed over, and the byte behind it is left. -/
theorem trySkip_array_of_nil :
    ∃ s, trySkip (.ofBytes ⟨#[0x91, 0xc0, 0x07]⟩) = .ok true s ∧ s.consumed = 0 + 2 := by
  have hitems : ∀ item ∈ [[0xc0]], IsValue item :=
    List.forall_mem_singleton.mpr (.lead (by decide))
  have hvalue : IsValue [0x91, 0xc0] := IsValue.fixArray (by decide) hitems
  have hahead : (Cursor.ofBytes ⟨#[0x91, 0xc0, 0x07]⟩).ahead = [0x91, 0xc0, 0x07] :=
    Cursor.ahead_ofBytes _
  exact ((trySkip_decides (r := .ofBytes ⟨#[0x91, 0xc0, 0x07]⟩) (Cursor.wellFormed_ofBytes _) hahead
    (by decide)).1 2).mpr ⟨by decide, hvalue⟩

end Reader

end MessagePack
