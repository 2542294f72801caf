import MessagePack.Proofs.Checked
import MessagePack.Proofs.Consumption

/-!
# Walks end, and stay within bounds

Past the last piece every piece is empty, so a walk that misses its end would go on for ever, and
nothing in the pieces would stop it. What stops it is the number of bytes that it has to go. Where
that number and the pieces agree, no walk takes more turns than one for each piece and one more, and
none of its steps is refused.

* **`Segments.checkedForward_eq`** and the others are the walks from a place that is where it is
  said to be.
* **`Cursor.WellFormed.checkedRun`** is every request of a cursor that keeps to what cursors keep
  to.
* **`View.Shows.checkedNext`** and the others are the walks over a view that shows some bytes. A
  view with no bytes left may stand anywhere; what is known of its place is
  **`View.Over.offset_le`**.
* **`Cursor.Backing.walks_within_bounds`** is that this is the case for whatever is made of cursors
  and views.
-/

namespace MessagePack

namespace Segments

/-! ## Moving and collecting -/

variable {s : Segments} {p : Place} {n k : Nat}

/-- To settle stays within the pieces. -/
theorem checkedSettle_eq (h : s.Locates p n) : s.checkedSettle p = some (s.settle p) := by
  obtain ⟨q, hrun, -⟩ := run_settle h
  rw [checkedSettle, settle, hrun]
  rfl

/-- A walk forward over bytes that are there stays within the pieces. -/
theorem checkedForward_eq (h : s.Locates p n) (hk : n + k ≤ s.length) :
    s.checkedForward p k = some (s.forward p k) := by
  obtain ⟨q, hrun, hq⟩ := run_forward h hk
  have htry : Turn.tryRun s.checkedForwardTurn s.turns (p, k) = some q :=
    (Turn.tryRun_eq_of_forall s.checkedForwardTurn_eq _ _).trans hrun
  rw [checkedForward, htry, forward, hrun]
  exact checkedSettle_eq hq

/-- A walk back that has bytes to go is not in the first piece, or it has them there. -/
theorem Retreats.checkedBackwardTurn {goal : Nat} {x : Place × Nat} (h : s.Retreats goal x) :
    s.checkedBackwardTurn x = some (s.backwardTurn x) := by
  obtain ⟨p, n⟩ := x
  refine checkedBackwardTurn_eq s fun hn => ?_
  exact (Locates.previous h (Nat.lt_of_lt_of_le hn (Nat.le_add_left n goal))).1

/-- A walk back over bytes that have been passed stays within the pieces. -/
theorem checkedBackward_eq (h : s.Locates p n) (hk : k ≤ n) :
    s.checkedBackward p k = some (s.backward p k) := by
  obtain ⟨q, hrun, hq⟩ := run_backward h hk
  have hstart : s.Retreats (n - k) (p, k) := by
    rw [Retreats, Nat.sub_add_cancel hk]
    exact h
  have htry : Turn.tryRun s.checkedBackwardTurn s.turns (p, k) = some q :=
    (Turn.tryRun_eq (s.Retreats (n - k)) Retreats.checkedBackwardTurn
      (fun hx hturn => (hx.again hturn).1) hstart _).trans hrun
  rw [checkedBackward, htry, backward, hrun]
  exact checkedSettle_eq hq

/-- A copy of bytes that are there stays within the pieces. -/
theorem checkedCopy_eq (h : s.Locates p n) (hk : n + k ≤ s.length) :
    s.checkedCopy p k = some (s.copy p k) := by
  obtain ⟨copied, hrun, -⟩ := run_copy h hk
  rw [checkedCopy, Turn.tryRun_eq_of_forall (s.checkedCopyTurn_eq k), copy, hrun]
  rfl

end Segments

/-! ## Requests -/

namespace Cursor

variable {c : Cursor} {n : Nat}

/-- A look at the next byte checks itself whether there is one. -/
theorem checkedPeek_eq (c : Cursor) : c.checkedPeek = some c.peek? := by
  have hfirst : (c.segments.bytesAt c.place (c.segments.available c.place))[0]? = c.peek? := by
    rw [peek?, getElem?_data, getElem?_data, Segments.toList_bytesAt, List.getElem?_take,
      List.getElem?_drop]
    split
    · rfl
    · rename_i hnone
      rw [Segments.available] at hnone
      rw [List.getElem?_eq_none (by rw [Segments.length_toList_data]; omega)]
  rw [checkedPeek, Segments.checkedUnread_eq]
  exact congrArg some hfirst

/-- No cursor has consumed more than there is. -/
theorem WellFormed.checkedRemaining (h : c.WellFormed) :
    c.checkedRemaining = some c.remaining := by
  have hle := h.located.le_length
  exact minus?_eq (by rw [h.length_eq]; exact hle)

/-- A step over bytes that are ahead stays within the pieces. -/
theorem WellFormed.checkedPast (h : c.WellFormed) (hn : n ≤ c.remaining) :
    c.checkedPast n = some (c.past n) := by
  rw [Cursor.checkedPast, Segments.checkedForward_eq h.located (h.add_le hn)]
  rfl

/-- A byte is read only if there is one ahead. -/
theorem WellFormed.checkedRead (h : c.WellFormed) : c.checkedRead = some c.read? := by
  rw [Cursor.checkedRead, checkedPeek_eq, read?, h.peek?_eq]
  cases hahead : c.ahead with
  | nil => rfl
  | cons b rest =>
      show (c.segments.checkedSettle ⟨c.place.index, c.place.offset + 1⟩ >>= _) = _
      rw [Segments.checkedSettle_eq (h.located_next hahead)]
      rfl

/-- Bytes are copied only if enough are ahead. -/
theorem WellFormed.checkedCopy (h : c.WellFormed) (n : Nat) :
    c.checkedCopy n = some (c.copy? n) := by
  rw [Cursor.checkedCopy, h.checkedRemaining, copy?]
  by_cases hn : n ≤ c.remaining
  · simp [hn, Segments.checkedCopy_eq h.located (h.add_le hn)]
  · simp [hn]

/-- A field is taken from its piece if it lies within it, and copied into a buffer that has room for
    it otherwise. -/
theorem WellFormed.checkedField (h : c.WellFormed) (hn : n ≤ longestField) :
    c.checkedField n = some (c.field? n) := by
  rw [Cursor.checkedField, Segments.checkedUnread_eq, field?]
  by_cases havailable : n ≤ c.segments.available c.place
  · have hrange : n ≤ (c.segments.bytesAt c.place (c.segments.available c.place)).size := by
      rw [Segments.size_bytesAt_available]
      exact havailable
    have hpast := h.checkedPast (Nat.le_trans havailable h.available_le)
    simp [Segments.size_bytesAt_available, havailable, range?_eq (Nat.zero_le n) hrange,
      Segments.extract_bytesAt _ havailable, hpast]
  -- the field does not lie within its piece, so it is put together
  · cases hcopy : c.copy? n with
    | none => simp [Segments.size_bytesAt_available, havailable, fits?_eq hn, h.checkedCopy, hcopy]
    | some block =>
        have hpast := h.checkedPast (h.copy?_eq_some hcopy).1
        simp [Segments.size_bytesAt_available, havailable, fits?_eq hn, h.checkedCopy, hcopy, hpast]

/-- A cursor advances only if enough bytes are ahead. -/
theorem WellFormed.checkedAdvance (h : c.WellFormed) (n : Nat) :
    c.checkedAdvance n = some (c.advance n) := by
  rw [Cursor.checkedAdvance, h.checkedRemaining, advance]
  by_cases hn : n ≤ c.remaining
  · simp [hn, h.checkedPast hn]
  · simp [hn]

/-- A cursor goes back only if it has passed enough bytes. -/
theorem WellFormed.checkedRewind (h : c.WellFormed) (n : Nat) :
    c.checkedRewind n = some (c.rewind n) := by
  rw [Cursor.checkedRewind, rewind]
  by_cases hn : n ≤ c.consumed
  · simp [hn, minus?_eq hn, Segments.checkedBackward_eq h.located hn]
  · simp [hn]

/-- A view is given only if enough bytes are ahead. -/
theorem WellFormed.checkedView (h : c.WellFormed) (n : Nat) :
    c.checkedView n = some (c.view? n) := by
  rw [Cursor.checkedView, h.checkedRemaining, view?]
  by_cases hn : n ≤ c.remaining
  · simp [hn]
  · simp [hn]

/-- A view is taken only if enough bytes are ahead. -/
theorem WellFormed.checkedTake (h : c.WellFormed) (n : Nat) :
    c.checkedTake n = some (c.take? n) := by
  rw [Cursor.checkedTake, h.checkedView, take?, view?]
  by_cases hn : n ≤ c.remaining
  · simp [hn, h.checkedPast hn]
  · simp [hn]

/-- The buffer for fields has room for every width. -/
theorem bytes_le_longestField (w : Width) : w.bytes ≤ longestField := by
  cases w <;> decide

/-- Every request of a cursor is carried out without a step being refused. -/
theorem WellFormed.checkedRun (h : c.WellFormed) (q : Request) :
    q.checkedRun c = some (q.run c) := by
  -- by cases on the request; where two share a walk, they share its lemma
  cases q with
  | peek => rw [Request.checkedRun, checkedPeek_eq]; rfl
  | read => rw [Request.checkedRun, h.checkedRead]; rfl
  | nat w => rw [Request.checkedRun, h.checkedField (bytes_le_longestField w)]; rfl
  | int t => rw [Request.checkedRun, h.checkedField (bytes_le_longestField t.width)]; rfl
  | advance n => rw [Request.checkedRun, h.checkedAdvance]; rfl
  | rewind n => rw [Request.checkedRun, h.checkedRewind]; rfl
  | unread => rw [Request.checkedRun, Segments.checkedUnread_eq]; rfl
  | copyTo target =>
      rw [Request.checkedRun, h.checkedCopy, Request.run, copyTo]
      cases c.copy? target.size with
      | none => rfl
      | some block => rfl
  | view n => rw [Request.checkedRun, h.checkedView]; rfl
  | take n => rw [Request.checkedRun, h.checkedTake]; rfl

end Cursor

namespace View

/-! ## Piece by piece -/

variable {v w : View} {bytes : List UInt8}

/-- The search for the first part of a view comes to an end, be there one or not. -/
theorem Shows.exists_run_next (h : v.Shows bytes) :
    ∃ found, Turn.run nextTurn v.segments.turns v = some found := by
  by_cases hne : bytes = []
  · exact ⟨none, run_next_of_length_eq_zero (h.length_eq_zero_iff.mpr hne)⟩
  · obtain ⟨found, hrun, -⟩ := h.run_next hne
    exact ⟨found, hrun⟩

/-- The next piece of a view is looked for among the pieces that there are. -/
theorem Shows.checkedNext (h : v.Shows bytes) : v.checkedNext = some v.next? := by
  obtain ⟨found, hrun⟩ := h.exists_run_next
  rw [View.checkedNext, Turn.tryRun_eq_of_forall checkedNextTurn_eq, next?, hrun]
  rfl

/-- What is left behind a part shows the rest of the bytes, and has fewer pieces to go. -/
theorem Shows.rest {part : ByteArray} (h : v.Shows bytes) (hw : v.next? = some (part, w)) :
    w.Shows (bytes.drop part.size)
      ∧ w.segments.count - w.place.index < v.segments.count - v.place.index := by
  by_cases hne : bytes = []
  · rw [next?_of_length_eq_zero (h.length_eq_zero_iff.mpr hne)] at hw
    cases hw
  · have hfinds := h.finds hne
    rw [hw] at hfinds
    exact hfinds.2

/-- As many pieces as there can be are given out without leaving the list of them. -/
theorem Shows.checkedPiecesUpTo {turns : Nat} (h : v.Shows bytes)
    (hturns : v.segments.count - v.place.index < turns) :
    v.checkedPiecesUpTo turns = some (v.piecesUpTo turns) := by
  -- by induction on the turns; behind every part there are fewer pieces
  induction turns generalizing v bytes with
  | zero => exact absurd hturns (Nat.not_lt_zero _)
  | succ turns ih =>
      rw [View.checkedPiecesUpTo, View.piecesUpTo, h.checkedNext]
      cases hnext : v.next? with
      | none => rfl
      | some found =>
          obtain ⟨part, rest⟩ := found
          obtain ⟨hrest, hindex⟩ := h.rest hnext
          have hpieces := ih hrest (by omega)
          simp [hpieces]

theorem Shows.checkedPieces (h : v.Shows bytes) : v.checkedPieces = some v.pieces :=
  h.checkedPiecesUpTo (by show v.segments.count - v.place.index < v.segments.count + 1; omega)

/-- The content of a view is put together from pieces that are there. -/
theorem Shows.checkedContent (h : v.Shows bytes) : v.checkedContent = some v.content := by
  rw [View.checkedContent, h.checkedPieces]
  rfl

/-- The copy of a view. Of one block the range is taken unseen, so it has to be in there. -/
theorem Shows.checkedToBytes (h : v.Shows bytes)
    (hwhole : v.segments.chunked = false → v.place.offset + v.length ≤ (v.segments.get 0).size) :
    v.checkedToBytes = some v.toBytes := by
  rw [View.checkedToBytes, toBytes]
  by_cases hchunked : v.segments.chunked
  · rw [if_pos hchunked, if_pos hchunked]
    -- a view over pieces is cut out of one of them if it lies within it
    cases hpiece : v.segments.parts[v.place.index]? with
    | none => exact h.checkedContent
    | some piece =>
        by_cases hfit : v.place.offset + v.length ≤ piece.size
        · simp only [if_pos hfit]
          exact range?_eq (Nat.le_add_right _ _) hfit
        · simp only [if_neg hfit]
          exact h.checkedContent
  · rw [if_neg hchunked, if_neg hchunked]
    exact range?_eq (Nat.le_add_right _ _) (hwhole (Bool.eq_false_iff.mpr hchunked))

/-! ## From the front -/

/-- The first piece with bytes is looked for among the pieces that there are. -/
theorem Shows.checkedChunk (h : v.Shows bytes) : v.checkedChunk = some v.chunk := by
  rw [View.checkedChunk, View.chunk]
  split
  · rfl
  · rename_i hlength
    obtain ⟨part, hrun, -⟩ := h.run_chunk fun hnil => hlength (h.length_eq_zero_iff.mpr hnil)
    rw [Turn.tryRun_eq_of_forall checkedChunkTurn_eq, hrun]
    rfl

/-- Passing bytes that there are comes to an end. -/
theorem Shows.run_advance {j : Nat} (h : v.Shows bytes) (hj : j ≤ v.length) :
    ∃ q, Turn.run (advanceTurn v.segments) v.segments.turns (v.place, j) = some q := by
  by_cases hzero : j = 0
  · refine ⟨v.place, ?_⟩
    rw [Segments.turns, Turn.run, advanceTurn, if_pos hzero]
  · have hne : bytes ≠ [] := by
      intro hnil
      rw [h.length_eq_zero_iff.mpr hnil] at hj
      omega
    obtain ⟨n, hn, hbytes⟩ := h.bytes_eq.resolve_left hne
    obtain ⟨q, hrun, -⟩ := advanceTurn_spec hn (Nat.pos_of_ne_zero hzero)
      (Nat.add_le_add_left hj n) (h.le_length hne hbytes)
    exact ⟨q, hrun⟩

/-- A view passes no more bytes than it has, and stays within the pieces. -/
theorem Shows.checkedAdvance {j : Nat} (h : v.Shows bytes) (hj : j ≤ v.length) :
    ∃ w, v.advance? j = some w ∧ v.checkedAdvance j = some w := by
  obtain ⟨q, hrun⟩ := h.run_advance hj
  have htry : Turn.tryRun (checkedAdvanceTurn v.segments) v.segments.turns (v.place, j) = some q :=
    (Turn.tryRun_eq_of_forall (checkedAdvanceTurn_eq v.segments) _ _).trans hrun
  refine ⟨{ v with place := q, length := v.length - j }, ?_, ?_⟩
  · rw [advance?, if_pos hj, hrun]
    rfl
  · rw [View.checkedAdvance, minus?_eq hj, htry]
    rfl

/-! ## Where a view stands -/

/-- No turn of a walk that passes bytes goes beyond the end of a piece. -/
theorem offset_le_of_advanceTurn {s : Segments} {x y : Place × Nat}
    (h : x.1.offset ≤ (s.get x.1.index).size) (hturn : advanceTurn s x = .again y) :
    y.1.offset ≤ (s.get y.1.index).size := by
  obtain ⟨p, n⟩ := x
  rw [advanceTurn] at hturn
  -- a turn ends within the piece, goes to its end, or goes on with the next one
  split at hturn
  · cases hturn
  · split at hturn
    · rename_i hless
      cases hturn
      rw [Segments.available] at hless
      show p.offset + n ≤ (s.get p.index).size
      omega
    · cases hturn
      exact Nat.zero_le _

/-- Wherever the bytes end that are passed, it is not beyond the end of a piece. -/
theorem offset_le_of_run {s : Segments} {p q : Place} {turns n : Nat}
    (h : p.offset ≤ (s.get p.index).size)
    (hrun : Turn.run (advanceTurn s) turns (p, n) = some q) : q.offset ≤ (s.get q.index).size := by
  obtain ⟨x, hreaches, hdone⟩ := Turn.exists_done_of_run hrun
  have hx : x.1.offset ≤ (s.get x.1.index).size :=
    hreaches.invariant (fun x => x.1.offset ≤ (s.get x.1.index).size) h offset_le_of_advanceTurn
  obtain ⟨p', n'⟩ := x
  rw [advanceTurn] at hdone
  split at hdone
  · cases hdone
    exact hx
  · split at hdone <;> cases hdone

variable {b : Cursor.Backing} {start n k : Nat}

/-- Not even a view with no bytes left stands beyond the end of a piece. -/
theorem Over.offset_le (h : Over b start n k v) :
    v.place.offset ≤ (v.segments.get v.place.index).size := by
  induction h with
  | given _ hc hv =>
      obtain ⟨hwf, -, -, rfl⟩ := viewOf_of_given hc hv
      exact hwf.located.offset_le
  | passed h hw ih =>
      obtain ⟨-, -, hshows⟩ := h.shows
      obtain ⟨hj, hsegments, -, hplace⟩ := of_advance? hw
      obtain ⟨q, hrun⟩ := hshows.run_advance hj
      rw [hsegments, hplace, hrun]
      exact offset_le_of_run ih hrun

/-- Of a sequence that is one block, every view lies within that block. -/
theorem Over.fits_of_whole (h : Over b start n k v) (hwhole : v.segments.chunked = false) :
    v.place.offset + v.length ≤ (v.segments.get 0).size := by
  obtain ⟨-, -, hshows⟩ := h.shows
  by_cases hne : (b.bytes.drop (start + k)).take (n - k) = []
  · have hoffset := h.offset_le
    rw [hshows.length_eq_zero_iff.mpr hne]
    by_cases hindex : v.place.index = 0
    · rw [hindex] at hoffset
      exact hoffset
    · -- behind the block there is nothing, and the view stands at the start of it
      have hcount := hshows.whole hwhole
      rw [Segments.get_of_le (by omega)] at hoffset
      exact Nat.le_trans hoffset (Nat.zero_le _)
  · exact (hshows.fits_of_whole hwhole hne).2

/-- What is left of a view behind any number of its parts. -/
inductive Remainder (v : View) : View → Prop
  | refl : Remainder v v
  | next {w rest : View} {part : ByteArray} (h : Remainder v w)
      (hw : w.next? = some (part, rest)) : Remainder v rest

/-- What is left of a view that shows some bytes shows some bytes. -/
theorem Remainder.shows (h : v.Remainder w) (hv : v.Shows bytes) : ∃ rest, w.Shows rest := by
  induction h with
  | refl => exact ⟨bytes, hv⟩
  | next _ hw ih =>
      obtain ⟨rest, hrest⟩ := ih
      exact ⟨_, (hrest.rest hw).1⟩

end View

/-! ## All together -/

/-- **WITHIN BOUNDS**: over any pieces, from the making of a cursor on, whatever has been done with
    it and with copies of it, whatever is asked next is carried out without a difference that would
    be negative, without a range that would leave its block, and with no walk that takes more turns
    than one for each piece and one more. So it is with all views that cursors give and the ways to
    look at them, whatever has been passed, and with the parts of a view that come one by one. -/
theorem Cursor.Backing.walks_within_bounds (b : Backing) :
    b.cursor.segments.checkedSettle ⟨0, 0⟩ = some b.cursor.place
      ∧ (∀ steps, ∀ c ∈ (runSteps Request.run [b.cursor] steps).2,
        ∀ q : Request, q.checkedRun c = some (q.run c))
      ∧ ∀ start n k v, View.Over b start n k v →
        v.checkedPieces = some v.pieces ∧ v.checkedToBytes = some v.toBytes
          ∧ v.checkedChunk = some v.chunk
          ∧ (∀ j, j ≤ v.length → ∃ w, v.advance? j = some w ∧ v.checkedAdvance j = some w)
          ∧ ∀ w, v.Remainder w → w.checkedNext = some w.next? := by
  refine ⟨?_, ?_, ?_⟩
  · cases b with
    | block bytes => rfl
    | pieces parts => exact Segments.checkedSettle_eq ⟨Nat.zero_le _, Nat.zero_le _, rfl⟩
  -- every cursor that is reached follows the plain one, so it is well formed
  · intro steps c hc q
    obtain ⟨p, hfollows⟩ := follows_of_mem hc
    exact hfollows.wellFormed.checkedRun q
  · intro start n k v h
    obtain ⟨-, -, hshows⟩ := h.shows
    refine ⟨hshows.checkedPieces, hshows.checkedToBytes h.fits_of_whole, hshows.checkedChunk,
      fun j hj => hshows.checkedAdvance hj, ?_⟩
    intro w hw
    obtain ⟨rest, hrest⟩ := hw.shows hshows
    exact hrest.checkedNext

/-- A cursor goes back over an empty piece; and of a view over all the bytes, one of which has been
    passed, the others are passed as well, and the first part is found behind that piece. -/
theorem Cursor.Backing.within_bounds_at_gap :
    let b := Backing.pieces #[⟨#[1]⟩, ⟨#[]⟩, ⟨#[2, 3]⟩]
    (∃ c ∈ (runSteps Request.run [b.cursor] [.ask 0 (.advance 2)]).2,
      (Request.rewind 2).checkedRun c = some (.moved none, b.cursor))
      ∧ ∃ v, View.Over b 0 3 1 v ∧ v.place = ⟨1, 0⟩ ∧ (∃ w, v.checkedAdvance 2 = some w)
        ∧ ∃ rest, v.checkedNext = some (some (⟨#[2, 3]⟩, rest)) := by
  intro b
  obtain ⟨-, hrequests, hviews⟩ := walks_within_bounds b
  have hgiven : View.Over b 0 3 0 ⟨.ofParts #[⟨#[1]⟩, ⟨#[]⟩, ⟨#[2, 3]⟩], ⟨0, 0⟩, 3⟩ :=
    .given [] (List.mem_singleton.mpr rfl) (Or.inr ⟨_, rfl⟩)
  have hpassed := hgiven.passed (j := 1) rfl
  obtain ⟨-, -, -, hadvance, hnext⟩ := hviews _ _ _ _ hpassed
  obtain ⟨w, -, hw⟩ := hadvance 2 (by decide)
  refine ⟨⟨_, List.mem_singleton.mpr rfl, hrequests [.ask 0 (.advance 2)] _
    (List.mem_singleton.mpr rfl) (.rewind 2)⟩, _, hpassed, rfl, ⟨w, hw⟩, ?_⟩
  exact ⟨_, hnext _ .refl⟩

end MessagePack
