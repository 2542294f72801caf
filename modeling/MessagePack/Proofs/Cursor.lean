import MessagePack.Cursor
import MessagePack.Proofs.View

/-!
# Cursors as lists of bytes ahead

For everything that is read, a cursor is the list of bytes ahead of it. How those bytes are split
into pieces shows in the place of the cursor alone, and the place is determined by the number of
bytes consumed. So a cursor that has moved is named by how far it has moved, `c.past n`, whatever
way it took.

* **`Cursor.WellFormed`** is what every cursor keeps to: its place is settled and has the consumed
  bytes before it.
* **`Cursor.ahead`** is the bytes ahead. Each operation is stated through it: what it gives is taken
  from the front of that list, and the new cursor is `c.past n`.
-/

namespace MessagePack

namespace Cursor

/-- What every cursor keeps to. -/
structure WellFormed (c : Cursor) : Prop where
  whole : c.segments.chunked = false → c.segments.count ≤ 1
  length_eq : c.length = c.segments.length
  located : c.segments.Locates c.place c.consumed
  settled : c.segments.Settled c.place

/-- The bytes ahead of a cursor. -/
def ahead (c : Cursor) : List UInt8 :=
  c.segments.toList.drop c.consumed

/-- As many bytes are ahead as remain. -/
theorem WellFormed.length_ahead {c : Cursor} (h : c.WellFormed) :
    c.ahead.length = c.remaining := by
  rw [ahead, List.length_drop, Segments.length_toList, remaining, h.length_eq]

/-- If enough remain, the first of the bytes ahead are as many as asked for. -/
theorem WellFormed.length_take_ahead {c : Cursor} {n : Nat} (h : c.WellFormed)
    (hn : n ≤ c.remaining) : (c.ahead.take n).length = n := by
  rw [List.length_take, h.length_ahead, Nat.min_eq_left hn]

/-- Bytes that are known to be ahead remain. -/
theorem WellFormed.length_le_remaining {c : Cursor} {x rest : List UInt8} (h : c.WellFormed)
    (hahead : c.ahead = x ++ rest) : x.length ≤ c.remaining := by
  rw [← h.length_ahead, hahead, List.length_append]
  exact Nat.le_add_right _ _

theorem WellFormed.remaining_eq_succ {c : Cursor} {b : UInt8} {rest : List UInt8}
    (h : c.WellFormed) (hahead : c.ahead = b :: rest) : c.remaining = rest.length + 1 := by
  rw [← h.length_ahead, hahead, List.length_cons]

/-! ## Fresh cursors -/

/-- A cursor at the start of a block is well formed. -/
theorem wellFormed_ofBytes (bytes : ByteArray) : (ofBytes bytes).WellFormed where
  whole _ := Nat.le_refl 1
  length_eq := (Nat.zero_add bytes.size).symm
  located := ⟨Nat.zero_le _, Nat.zero_le _, rfl⟩
  settled h := absurd h (Nat.not_lt_zero _)

/-- A cursor at the start of pieces is well formed, since it has settled. -/
theorem wellFormed_ofParts (parts : Array ByteArray) : (ofParts parts).WellFormed := by
  have hstart : (Segments.ofParts parts).Locates ⟨0, 0⟩ 0 :=
    ⟨Nat.zero_le _, Nat.zero_le _, rfl⟩
  obtain ⟨hlocated, hsettled⟩ := Segments.settle_spec hstart
  refine ⟨?_, rfl, hlocated, hsettled⟩
  intro hwhole
  cases hwhole

/-- At the start of a block all of its bytes are ahead. -/
theorem ahead_ofBytes (bytes : ByteArray) : (ofBytes bytes).ahead = bytes.data.toList := by
  rw [ahead, ofBytes, List.drop_zero, Segments.ofBytes, Segments.toList, List.flatMap_singleton]

/-- At the start of pieces the bytes of all of them are ahead, one after the other. -/
theorem ahead_ofParts (parts : Array ByteArray) :
    (ofParts parts).ahead = parts.toList.flatMap fun part => part.data.toList := rfl

/-! ## Moving forward -/

@[simp] theorem consumed_past (c : Cursor) (n : Nat) : (c.past n).consumed = c.consumed + n := rfl

@[simp] theorem ahead_past (c : Cursor) (n : Nat) : (c.past n).ahead = c.ahead.drop n := by
  rw [ahead, ahead, List.drop_drop]
  rfl

theorem remaining_past (c : Cursor) (n : Nat) : (c.past n).remaining = c.remaining - n :=
  (Nat.sub_sub _ _ _).symm

theorem WellFormed.add_le {c : Cursor} {n : Nat} (h : c.WellFormed) (hn : n ≤ c.remaining) :
    c.consumed + n ≤ c.segments.length := by
  have hle := h.located.le_length
  have hlength := h.length_eq
  rw [remaining] at hn
  omega

/-- To pass bytes that are ahead keeps a cursor well formed. -/
theorem WellFormed.past {c : Cursor} {n : Nat} (h : c.WellFormed) (hn : n ≤ c.remaining) :
    (c.past n).WellFormed := by
  obtain ⟨hlocated, hsettled⟩ := Segments.forward_spec h.located (h.add_le hn)
  exact ⟨h.whole, h.length_eq, hlocated, hsettled⟩

/-- A cursor that has come to a position forward is where any settled place of that position is. -/
theorem WellFormed.past_eq {c : Cursor} {n : Nat} {p : Place} (h : c.WellFormed)
    (hn : n ≤ c.remaining) (hp : c.segments.Locates p (c.consumed + n))
    (hsettled : c.segments.Settled p) :
    { c with place := p, consumed := c.consumed + n } = c.past n := by
  obtain ⟨hlocated, hforward⟩ := Segments.forward_spec h.located (h.add_le hn)
  rw [Cursor.past, hsettled.unique hforward hp hlocated]

/-- To pass no bytes leaves a cursor that has settled where it is. -/
theorem WellFormed.past_zero {c : Cursor} (h : c.WellFormed) : c.past 0 = c :=
  (h.past_eq (Nat.zero_le _) h.located h.settled).symm

/-- To pass bytes in two steps comes to the same place as in one. -/
theorem WellFormed.past_past {c : Cursor} {n m : Nat} (h : c.WellFormed)
    (hn : n + m ≤ c.remaining) : (c.past n).past m = c.past (n + m) := by
  have hpast := (h.past (n := n) (by omega)).past (n := m) (by rw [remaining_past]; omega)
  rw [← h.past_eq hn (Nat.add_assoc c.consumed n m ▸ hpast.located) hpast.settled]
  rw [← Nat.add_assoc]
  rfl

/-! ## Moving back -/

/-- The cursor before the last `n` bytes, which must have been consumed. -/
def before (c : Cursor) (n : Nat) : Cursor :=
  { c with place := c.segments.backward c.place n, consumed := c.consumed - n }

/-- A cursor goes back if it has passed enough bytes, and says how many it has passed otherwise. -/
theorem rewind_eq (c : Cursor) (n : Nat) :
    c.rewind n = if n ≤ c.consumed then .ok (c.before n) else .error ⟨n, c.consumed⟩ := rfl

/-- To go back over bytes that have been passed keeps a cursor well formed. -/
theorem WellFormed.before {c : Cursor} {n : Nat} (h : c.WellFormed) (hn : n ≤ c.consumed) :
    (c.before n).WellFormed := by
  obtain ⟨hlocated, hsettled⟩ := Segments.backward_spec h.located hn
  exact ⟨h.whole, h.length_eq, hlocated, hsettled⟩

/-- **DETERMINACY**: two cursors over a sequence that have consumed as much are one cursor, whatever
    way either of them took. -/
theorem WellFormed.eq_of_consumed {c d : Cursor} (hc : c.WellFormed) (hd : d.WellFormed)
    (hsegments : c.segments = d.segments) (hconsumed : c.consumed = d.consumed) : c = d := by
  have hlength : c.length = d.length := by rw [hc.length_eq, hd.length_eq, hsegments]
  have hplace : c.place = d.place := by
    refine hc.settled.unique (hsegments ▸ hd.settled) hc.located ?_
    rw [hsegments, hconsumed]
    exact hd.located
  cases c; cases d
  cases hsegments; cases hconsumed; cases hlength; cases hplace
  rfl

/-! ## Looking and reading -/

theorem getElem?_data (block : ByteArray) (i : Nat) : block[i]? = block.data.toList[i]? := by
  by_cases h : i < block.size
  · rw [getElem?_pos block i h, List.getElem?_eq_getElem (by
      rw [Segments.length_toList_data]; exact h)]
    rfl
  · rw [getElem?_neg block i h, List.getElem?_eq_none (by
      rw [Segments.length_toList_data]; exact Nat.le_of_not_lt h)]

/-- A look at the next byte finds the first of the bytes ahead. -/
theorem WellFormed.peek?_eq {c : Cursor} (h : c.WellFormed) : c.peek? = c.ahead.head? := by
  rw [peek?, getElem?_data, ahead, h.located.drop_toList, List.head?_append, List.head?_drop]
  by_cases hlt : c.place.offset < (c.segments.get c.place.index).size
  · rw [List.getElem?_eq_getElem (by rw [Segments.length_toList_data]; exact hlt)]
    rfl
  · -- a settled place at the end of its piece is at the end of it all
    have hlast : c.segments.count ≤ c.place.index + 1 := by
      have hnot : ¬ c.place.index < c.segments.count - 1 := fun hindex => hlt (h.settled hindex)
      omega
    have hend := c.segments.length_le_startOf hlast
    rw [List.getElem?_eq_none (by rw [Segments.length_toList_data]; omega),
      List.drop_eq_nil_of_le (by rw [Segments.length_toList]; exact hend)]
    rfl

/-- A cursor with a byte ahead is within a piece. -/
theorem WellFormed.offset_lt {c : Cursor} {b : UInt8} {rest : List UInt8} (h : c.WellFormed)
    (hahead : c.ahead = b :: rest) : c.place.offset < (c.segments.get c.place.index).size := by
  have hpeek : c.peek? = some b := by rw [h.peek?_eq, hahead]; rfl
  refine Nat.lt_of_not_le ?_
  intro hle
  rw [peek?, getElem?_data, List.getElem?_eq_none (by
    rw [Segments.length_toList_data]; exact hle)] at hpeek
  cases hpeek

/-- With nothing ahead, no byte is read. -/
theorem WellFormed.read?_nil {c : Cursor} (h : c.WellFormed) (hahead : c.ahead = []) :
    c.read? = none := by
  rw [read?, h.peek?_eq, hahead]
  rfl

/-- Behind the next byte there is a place, be it at the end of a piece. -/
theorem WellFormed.located_next {c : Cursor} {b : UInt8} {rest : List UInt8} (h : c.WellFormed)
    (hahead : c.ahead = b :: rest) :
    c.segments.Locates ⟨c.place.index, c.place.offset + 1⟩ (c.consumed + 1) := by
  refine ⟨h.located.index_le, h.offset_lt hahead, ?_⟩
  rw [← Nat.add_assoc, h.located.position]

/-- With a byte ahead, it is read, and the cursor is behind it. -/
theorem WellFormed.read?_cons {c : Cursor} {b : UInt8} {rest : List UInt8} (h : c.WellFormed)
    (hahead : c.ahead = b :: rest) : c.read? = some (b, c.past 1) := by
  have hpeek : c.peek? = some b := by rw [h.peek?_eq, hahead]; rfl
  have hremaining : 1 ≤ c.remaining := h.length_le_remaining (x := [b]) hahead
  obtain ⟨hlocated, hsettled⟩ := Segments.settle_spec (h.located_next hahead)
  rw [read?, hpeek, ← h.past_eq hremaining hlocated hsettled]

/-- What is copied is the first of the bytes ahead. -/
theorem WellFormed.copy?_eq_some {c : Cursor} {n : Nat} {block : ByteArray} (h : c.WellFormed)
    (hblock : c.copy? n = some block) : n ≤ c.remaining ∧ block.data.toList = c.ahead.take n := by
  rw [copy?] at hblock
  split at hblock
  · rename_i hn
    cases hblock
    exact ⟨hn, Segments.toList_copy h.located (h.add_le hn)⟩
  · cases hblock

/-- What the piece of a cursor has remains. -/
theorem WellFormed.available_le {c : Cursor} (h : c.WellFormed) :
    c.segments.available c.place ≤ c.remaining := by
  have hbytes := h.located.toList_bytesAt (Nat.le_refl (c.segments.available c.place))
  have hlength := congrArg List.length hbytes
  rw [Segments.toList_bytesAt, List.length_take, List.length_drop, Segments.length_toList_data,
    ← Segments.available, Nat.min_self, List.length_take] at hlength
  rw [← h.length_ahead, ahead]
  omega

/-- A field is the bytes ahead, whether they lie in one piece or not. -/
theorem WellFormed.field?_eq {c : Cursor} (h : c.WellFormed) (n : Nat) :
    c.field? n = if n ≤ c.remaining then some (c.ahead.take n, c.past n) else none := by
  rw [field?]
  split
  · -- the piece of the cursor has the whole field
    rename_i hn
    rw [if_pos (Nat.le_trans hn h.available_le), h.located.toList_bytesAt hn]
    rfl
  · -- the field goes on in other pieces, and is copied
    cases hcopy : c.copy? n with
    | none =>
        rw [copy?] at hcopy
        split at hcopy
        · cases hcopy
        · rename_i hn
          rw [if_neg hn]
    | some block =>
        obtain ⟨hn, hblock⟩ := h.copy?_eq_some hcopy
        rw [if_pos hn, ← hblock]

/-- An unsigned field is read from the bytes ahead, if there are enough. -/
theorem WellFormed.nat?_eq {c : Cursor} (h : c.WellFormed) (w : Width) :
    c.nat? w = if w.bytes ≤ c.remaining then
      some (BigEndian.decode (c.ahead.take w.bytes), c.past w.bytes) else none := by
  rw [nat?, h.field?_eq]
  split <;> rfl

/-- A field of any integer type is read from the bytes ahead, if there are enough. -/
theorem WellFormed.int?_eq {c : Cursor} (h : c.WellFormed) (t : IntType) :
    c.int? t = if t.width.bytes ≤ c.remaining then
      some (t.decode (c.ahead.take t.width.bytes), c.past t.width.bytes) else none := by
  rw [int?, h.field?_eq]
  split <;> rfl

/-! ## Views -/

/-- The view of the next bytes. -/
def viewOf (c : Cursor) (n : Nat) : View :=
  ⟨c.segments, c.place, n⟩

/-- A view shows the first of the bytes ahead. -/
theorem WellFormed.shows_viewOf {c : Cursor} {n : Nat} (h : c.WellFormed)
    (hn : n ≤ c.remaining) : (c.viewOf n).Shows (c.ahead.take n) where
  whole := h.whole
  length_eq := by
    rw [List.length_take, h.length_ahead, Nat.min_eq_left hn]
    rfl
  bytes_eq := Or.inr ⟨c.consumed, h.located, rfl⟩

/-- A view of the bytes ahead is taken with a step over them, if there are enough. -/
theorem take?_eq (c : Cursor) (n : Nat) :
    c.take? n = if n ≤ c.remaining then some (c.viewOf n, c.past n) else none := by
  rw [take?, view?]
  split <;> rfl

/-- A step over bytes is possible if there are enough. -/
theorem advance_eq (c : Cursor) (n : Nat) :
    (c.advance n).toOption = if n ≤ c.remaining then some (c.past n) else none := by
  rw [advance]
  split <;> rfl

end Cursor

end MessagePack
