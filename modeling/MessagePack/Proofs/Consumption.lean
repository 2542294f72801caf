import MessagePack.Proofs.PlainCursor

/-!
# Views that are consumed from the front

A view can be consumed bit by bit: `View.chunk` shows bytes at its front, and `View.advance?` passes
some. A cursor settles after every move, a view does not: passing may stop at the start of a piece
without bytes, or behind the last piece, and each of the ways to look at a view has to cope with
wherever that is.

* **`View.Passing`** is the walk over the bytes that are passed, and **`Segments.Lands`** is where
  it ends: right behind a byte, before any piece without bytes that comes next.
* **`View.Over`** is the views that there are: those that cursors give, after any number of bytes
  have been passed in any number of steps.
* **`View.views_agree`** is that all ways to look at such a view give the same bytes.
-/

namespace MessagePack

namespace Segments

/-- A place right behind a byte: within the piece of that byte if it goes on, and else at the start
    of the next piece, whether that has bytes or not. -/
def Lands (s : Segments) (p : Place) : Prop :=
  0 < p.offset ∧ p.offset < (s.get p.index).size
    ∨ p.offset = 0 ∧ ∃ i, p.index = i + 1 ∧ 0 < (s.get i).size

/-- A place with bytes behind it is in one of the pieces. -/
theorem Locates.index_lt {s : Segments} {p : Place} {n : Nat} (h : s.Locates p n)
    (hn : n < s.length) : p.index < s.count := by
  refine Nat.lt_of_not_le ?_
  intro hlast
  have hpos := h.position
  have hend := s.length_le_startOf hlast
  omega

end Segments

namespace View

/-! ## Passing bytes -/

/-- A walk that passes bytes stands at a position and has `n` bytes to go to its goal. At the goal
    it has landed, unless the view stops there: behind its last byte a view may stand anywhere. -/
structure Passing (s : Segments) (goal stop : Nat) (p : Place) (n : Nat) : Prop where
  underway : 0 < n → ∃ i, s.Locates p i ∧ i + n = goal
  landed : n = 0 → goal < stop → s.Locates p goal ∧ s.Lands p

variable {s : Segments} {goal stop n m : Nat} {p q : Place}

/-- The number of pieces that a walk may still enter. -/
def piecesToPass (s : Segments) (p : Place) (n : Nat) : Nat :=
  if n = 0 then 0 else s.count - p.index

/-- A walk that ends within a piece has landed there. -/
theorem Passing.within (h : Passing s goal stop p n) (hn : 0 < n) (hless : n < s.available p) :
    Passing s goal stop ⟨p.index, p.offset + n⟩ 0 := by
  obtain ⟨i, hp, hi⟩ := h.underway hn
  have hpos := hp.position
  rw [Segments.available] at hless
  -- nothing more is to be passed, and the goal is inside of the piece
  refine ⟨fun hmore => absurd hmore (Nat.lt_irrefl 0), ?_⟩
  intro _ _
  refine ⟨⟨hp.index_le, ?_, ?_⟩, Or.inl ⟨?_, ?_⟩⟩
  · show p.offset + n ≤ (s.get p.index).size
    omega
  · show s.startOf p.index + (p.offset + n) = goal
    omega
  · show 0 < p.offset + n
    omega
  · show p.offset + n < (s.get p.index).size
    omega

/-- A walk that passes the rest of a piece goes on in the next one, or has landed before it. -/
theorem Passing.next (hgoal : goal ≤ stop) (hstop : stop ≤ s.length)
    (h : Passing s goal stop p n) (hn : 0 < n) (hall : s.available p ≤ n) :
    Passing s goal stop (Segments.next p) (n - s.available p) := by
  obtain ⟨i, hp, hi⟩ := h.underway hn
  constructor
  · intro hmore
    exact ⟨_, hp.next (k := n) (by omega) (by omega), by omega⟩
  · intro hdone hlt
    have hn' : n = s.available p := by omega
    have hnext := hp.next (k := stop - i) (by omega) (by omega)
    rw [← hn', hi] at hnext
    refine ⟨hnext, Or.inr ⟨rfl, p.index, rfl, ?_⟩⟩
    rw [Segments.available] at hn'
    omega

/-- A turn that goes on has passed the rest of a piece, so there are fewer pieces to pass. -/
theorem Passing.again (hgoal : goal ≤ stop) (hstop : stop ≤ s.length)
    (h : Passing s goal stop p n) (hturn : advanceTurn s (p, n) = .again (q, m)) :
    Passing s goal stop q m ∧ piecesToPass s q m < piecesToPass s p n := by
  by_cases hn : n = 0
  · rw [advanceTurn, if_pos hn] at hturn
    cases hturn
  · have hpos : 0 < n := Nat.pos_of_ne_zero hn
    obtain ⟨i, hp, hi⟩ := h.underway hpos
    have hindex : p.index < s.count := hp.index_lt (by omega)
    have hpieces : piecesToPass s p n = s.count - p.index := if_neg hn
    rw [hpieces]
    rw [advanceTurn, if_neg hn] at hturn
    -- the goal is inside of the piece, or the piece is passed to its end
    by_cases hless : n < s.available p
    · rw [if_pos hless] at hturn
      cases hturn
      exact ⟨h.within hpos hless, Nat.sub_pos_of_lt hindex⟩
    · rw [if_neg hless] at hturn
      cases hturn
      refine ⟨h.next hgoal hstop hpos (Nat.le_of_not_lt hless), ?_⟩
      rw [piecesToPass]
      split
      · exact Nat.sub_pos_of_lt hindex
      · show s.count - (p.index + 1) < s.count - p.index
        omega

/-- Where the last turn ends, the place is that of the goal, if there are bytes behind it. -/
theorem Passing.done (h : Passing s goal stop p n) (hturn : advanceTurn s (p, n) = .done q) :
    goal < stop → s.Locates q goal ∧ s.Lands q := by
  rw [advanceTurn] at hturn
  by_cases hn : n = 0
  · rw [if_pos hn] at hturn
    cases hturn
    exact h.landed hn
  · rw [if_neg hn] at hturn
    split at hturn <;> cases hturn

/-- Passing bytes comes to an end. If the view does not stop there, that is right behind the last of
    the bytes. -/
theorem advanceTurn_spec {k : Nat} (h : s.Locates p n) (hk : 0 < k) (hgoal : n + k ≤ stop)
    (hstop : stop ≤ s.length) :
    ∃ q, Turn.run (advanceTurn s) s.turns (p, k) = some q
      ∧ (n + k < stop → s.Locates q (n + k) ∧ s.Lands q) := by
  refine Turn.run_spec (advanceTurn s) s.turns (fun x => Passing s (n + k) stop x.1 x.2) _
    (fun x => piecesToPass s x.1 x.2) (Passing.again hgoal hstop) Passing.done
    ⟨fun _ => ⟨n, h, rfl⟩, fun hzero => absurd hzero (Nat.ne_of_gt hk)⟩ ?_
  show piecesToPass s p k < s.count + 1
  rw [piecesToPass]
  split <;> omega

/-- Passing no bytes. -/
theorem advance?_zero {v w : View} (h : v.advance? 0 = some w) : w = v := by
  rw [advance?, if_pos (Nat.zero_le _), Segments.turns, Turn.run, advanceTurn, if_pos rfl] at h
  exact (Option.some.inj h).symm

/-- A view that has been advanced is over the same pieces, shorter by what was passed. -/
theorem of_advance? {v w : View} {k : Nat} (h : v.advance? k = some w) :
    k ≤ v.length ∧ w.segments = v.segments ∧ w.length = v.length - k
      ∧ w.place
        = (Turn.run (advanceTurn v.segments) v.segments.turns (v.place, k)).getD v.place := by
  rw [advance?] at h
  split at h
  · rename_i hk
    cases h
    exact ⟨hk, rfl, rfl, rfl⟩
  · cases h

/-- Behind bytes that have been passed, a view shows the others. -/
theorem Shows.advance {v w : View} {bytes : List UInt8} {k : Nat} (h : v.Shows bytes)
    (hw : v.advance? k = some w) : w.Shows (bytes.drop k) := by
  obtain ⟨hk, hsegments, hlength, hplace⟩ := of_advance? hw
  by_cases hzero : k = 0
  · subst hzero
    rw [advance?_zero hw]
    exact h
  refine ⟨?_, ?_, ?_⟩
  · rw [hsegments]
    exact h.whole
  · rw [hlength, List.length_drop, h.length_eq]
  -- where everything has been passed, no place has to be right
  · by_cases hall : k = v.length
    · exact Or.inl (List.drop_eq_nil_of_le
        (Nat.le_of_eq (h.length_eq.symm.trans hall.symm)))
    · have hne : bytes ≠ [] := by
        rintro rfl
        rw [h.length_eq, List.length_nil] at hk
        omega
      obtain ⟨n, hn, hbytes⟩ := h.bytes_eq.resolve_left hne
      obtain ⟨q, hrun, hq⟩ := advanceTurn_spec hn (Nat.pos_of_ne_zero hzero)
        (Nat.add_le_add_left hk n) (h.le_length hne hbytes)
      obtain ⟨hlocates, -⟩ := hq (by omega)
      refine Or.inr ⟨n + k, ?_, ?_⟩
      · rw [hsegments, hplace, hrun]
        exact hlocates
      · rw [hsegments, hlength, ← hbytes, List.drop_take, List.drop_drop]

/-! ## At the front -/

/-- A turn that goes on has found an empty piece, so there is one less to look at. -/
theorem Seeks.chunk_again {v w u : View} {bytes : List UInt8} (h : v.Seeks bytes w)
    (hne : bytes ≠ []) (hturn : w.chunkTurn = .again u) :
    v.Seeks bytes u ∧ u.segments.count - u.place.index < w.segments.count - w.place.index := by
  have hlt := h.shows.index_lt hne
  obtain ⟨-, hrest⟩ := h.shows.behind hne
  rw [chunkTurn] at hturn
  split at hturn
  · rename_i hempty
    cases hturn
    rw [hempty.1, List.drop_zero, Nat.sub_zero] at hrest
    refine ⟨⟨hrest, h.segments_eq, Nat.le_succ_of_le h.index_le⟩, ?_⟩
    show w.segments.count - (w.place.index + 1) < w.segments.count - w.place.index
    omega
  · cases hturn

/-- The last turn has found a piece with bytes, and they are the first of the view. -/
theorem Seeks.chunk_done {v w : View} {bytes : List UInt8} {part : ByteArray}
    (h : v.Seeks bytes w) (hne : bytes ≠ []) (hturn : w.chunkTurn = .done part) :
    part.size ≠ 0 ∧ part.data.toList = bytes.take part.size := by
  obtain ⟨hcurrent, hrest⟩ := h.shows.behind hne
  rw [chunkTurn] at hturn
  split at hturn
  · cases hturn
  · rename_i hstays
    cases hturn
    refine ⟨?_, hcurrent⟩
    -- behind a last piece that has nothing of the view there would be no bytes at all
    intro hempty
    rw [hempty, List.drop_zero] at hrest
    exact hstays ⟨hempty, hrest.index_lt hne⟩

/-- The search for bytes at the front of a view that has some comes to an end. -/
theorem Shows.run_chunk {v : View} {bytes : List UInt8} (h : v.Shows bytes) (hne : bytes ≠ []) :
    ∃ part, Turn.run chunkTurn v.segments.turns v = some part
      ∧ part.size ≠ 0 ∧ part.data.toList = bytes.take part.size :=
  Turn.run_spec chunkTurn v.segments.turns (v.Seeks bytes)
    (fun part => part.size ≠ 0 ∧ part.data.toList = bytes.take part.size)
    (fun w => w.segments.count - w.place.index)
    (fun hw hturn => hw.chunk_again hne hturn) (fun hw hturn => hw.chunk_done hne hturn)
    ⟨h, rfl, Nat.le_refl _⟩
    (by show v.segments.count - v.place.index < v.segments.count + 1; omega)

/-- What is at the front of a view with bytes is some of them. -/
theorem Shows.chunk {v : View} {bytes : List UInt8} (h : v.Shows bytes) (hne : bytes ≠ []) :
    v.chunk.size ≠ 0 ∧ v.chunk.data.toList = bytes.take v.chunk.size := by
  obtain ⟨part, hrun, hpart⟩ := h.run_chunk hne
  rw [View.chunk, if_neg (fun hzero => hne (h.length_eq_zero_iff.mp hzero)), hrun]
  exact hpart

/-- A view with no bytes has nothing to offer. -/
theorem chunk_of_length_eq_zero {v : View} (h : v.length = 0) : v.chunk = .empty :=
  if_pos h

/-- What is at the front of a view is never more than the view. -/
theorem Shows.size_chunk_le {v : View} {bytes : List UInt8} (h : v.Shows bytes) :
    v.chunk.size ≤ v.length := by
  by_cases hne : bytes = []
  · rw [chunk_of_length_eq_zero (h.length_eq_zero_iff.mpr hne)]
    exact Nat.zero_le _
  · obtain ⟨-, hchunk⟩ := h.chunk hne
    have hlength := congrArg List.length hchunk
    rw [Segments.length_toList_data, List.length_take, ← h.length_eq] at hlength
    omega

/-- A view is read from the front by taking what is there and passing it. -/
def readTurn : View × ByteArray → Turn (View × ByteArray) (Option ByteArray)
  | (v, read) =>
    if v.length = 0 then .done (some read)
    else
      match v.advance? v.chunk.size with
      | some rest => .again (rest, read ++ v.chunk)
      | none => .done none

/-- Everything that is read from the front of a view until none of it is left. -/
def readAll? (v : View) : Option ByteArray :=
  (Turn.run readTurn (v.length + 1) (v, .empty)).join

/-- What has been read and what the rest shows make up all the bytes. -/
def ReadsOn (bytes : List UInt8) (x : View × ByteArray) : Prop :=
  ∃ rest, x.1.Shows rest ∧ bytes = x.2.data.toList ++ rest

/-- What is at the front is read on top of what has been read. -/
theorem ReadsOn.again {bytes : List UInt8} {v w : View} {read read' : ByteArray}
    (h : ReadsOn bytes (v, read)) (hturn : readTurn (v, read) = .again (w, read')) :
    ReadsOn bytes (w, read') ∧ w.length < v.length := by
  obtain ⟨rest, hv, hbytes⟩ : ∃ rest, v.Shows rest ∧ bytes = read.data.toList ++ rest := h
  by_cases hzero : v.length = 0
  · rw [readTurn, if_pos hzero] at hturn
    cases hturn
  -- there are bytes left, so a chunk of them is found, and it is not empty
  · have hne : rest ≠ [] := fun hnil => hzero (hv.length_eq_zero_iff.mpr hnil)
    obtain ⟨hsize, hchunk⟩ := hv.chunk hne
    rw [readTurn, if_neg hzero] at hturn
    split at hturn
    · rename_i rest hw
      cases hturn
      obtain ⟨hle, -, hlength, -⟩ := of_advance? hw
      refine ⟨⟨_, hv.advance hw, ?_⟩, by omega⟩
      rw [ByteArray.data_append, Array.toList_append, List.append_assoc, hchunk,
        List.take_append_drop]
      exact hbytes
    · cases hturn

/-- When nothing is left, everything has been read. -/
theorem ReadsOn.done {bytes : List UInt8} {v : View} {read : ByteArray} {result : Option ByteArray}
    (h : ReadsOn bytes (v, read)) (hturn : readTurn (v, read) = .done result) :
    ∃ block, result = some block ∧ block.data.toList = bytes := by
  obtain ⟨rest, hv, hbytes⟩ : ∃ rest, v.Shows rest ∧ bytes = read.data.toList ++ rest := h
  by_cases hzero : v.length = 0
  · rw [readTurn, if_pos hzero] at hturn
    cases hturn
    refine ⟨read, rfl, ?_⟩
    rw [hbytes, hv.length_eq_zero_iff.mp hzero, List.append_nil]
  · rw [readTurn, if_neg hzero] at hturn
    split at hturn
    · cases hturn
    · rename_i hnone
      rw [advance?, if_pos hv.size_chunk_le] at hnone
      cases hnone

/-- Reading a view from the front gives all its bytes. -/
theorem Shows.readAll? {v : View} {bytes : List UInt8} (h : v.Shows bytes) :
    ∃ block, v.readAll? = some block ∧ block.data.toList = bytes := by
  obtain ⟨result, hrun, block, rfl, hblock⟩ := Turn.run_spec readTurn (v.length + 1)
    (ReadsOn bytes) (fun result => ∃ block, result = some block ∧ block.data.toList = bytes)
    (fun x => x.1.length) ReadsOn.again ReadsOn.done
    (show ReadsOn bytes (v, .empty) from ⟨bytes, h, rfl⟩) (Nat.lt_succ_self v.length)
  rw [View.readAll?, hrun]
  exact ⟨block, rfl, hblock⟩

/-! ## Piece by piece -/

/-- The parts of a view that are found have bytes. -/
theorem size_of_next? {v rest : View} {part : ByteArray} (h : v.next? = some (part, rest)) :
    part.size ≠ 0 := by
  rw [next?] at h
  cases hrun : Turn.run nextTurn v.segments.turns v with
  | none =>
      rw [hrun] at h
      cases h
  | some found =>
      rw [hrun] at h
      -- the last turn gave the piece, and it gives none that is empty
      obtain ⟨w, -, hdone⟩ := Turn.exists_done_of_run hrun
      rw [show found = some (part, rest) from h, nextTurn] at hdone
      split at hdone
      · cases hdone
      · dsimp only at hdone
        split at hdone
        · cases hdone
        · rename_i hsize
          cases hdone
          exact hsize

/-- No piece that is given out is empty. -/
theorem size_of_mem_piecesUpTo {v : View} {turns : Nat} {part : ByteArray}
    (h : part ∈ v.piecesUpTo turns) : part.size ≠ 0 := by
  induction turns generalizing v with
  | zero => cases h
  | succ turns ih =>
      rw [piecesUpTo] at h
      split at h
      · rename_i first rest hnext
        rcases List.mem_cons.mp h with rfl | hrest
        · exact size_of_next? hnext
        · exact ih hrest
      · cases h

/-! ## Comparing -/

theorem beq_iff_toList {a b : ByteArray} : (a == b) = true ↔ a.data.toList = b.data.toList := by
  rw [show (a == b) = (a.data == b.data) from rfl, beq_iff_eq, Array.toList_inj]

/-- Two views are equal if they give the same bytes, wherever these lie. -/
theorem Gives.equals_iff {v w : View} {bytes bytes' : List UInt8} (h : v.Gives bytes)
    (h' : w.Gives bytes') : v.equals w = true ↔ bytes = bytes' := by
  rw [equals, Bool.and_eq_true, decide_eq_true_eq, beq_iff_toList, h.length_eq, h'.length_eq,
    h.content_eq, h'.content_eq]
  constructor
  · intro hequal
    exact hequal.2
  · rintro rfl
    exact ⟨rfl, rfl⟩

/-- A view equals a block exactly if the bytes are the same. -/
theorem Gives.equalsBytes_iff {v : View} {bytes : List UInt8} (h : v.Gives bytes)
    (block : ByteArray) : v.equalsBytes block = true ↔ bytes = block.data.toList := by
  rw [equalsBytes, Bool.and_eq_true, decide_eq_true_eq, beq_iff_toList, h.length_eq, h.content_eq,
    ← Segments.length_toList_data]
  constructor
  · intro hequal
    exact hequal.2
  · rintro rfl
    exact ⟨rfl, rfl⟩

/-! ## All together -/

/-- **Over b start n k v**: a view of the `n` bytes from `start` on that a cursor over `b` gave,
    after whatever had been done with it, with or without consuming them, and of which `k` bytes
    have been passed since. -/
inductive Over (b : Cursor.Backing) : (start n k : Nat) → View → Prop
  | given (steps : List Cursor.Step) {c : Cursor} {n : Nat} {v : View}
      (hc : c ∈ (Cursor.runSteps Cursor.Request.run [b.cursor] steps).2)
      (hv : c.view? n = some v ∨ ∃ d, c.take? n = some (v, d)) : Over b c.consumed n 0 v
  | passed {start n k j : Nat} {v w : View} (h : Over b start n k v)
      (hw : v.advance? j = some w) : Over b start n (k + j) w

variable {b : Cursor.Backing} {start k : Nat} {v : View}

/-- A view is given at the place of the cursor, for bytes that are there. -/
theorem viewOf_of_given {steps : List Cursor.Step} {c : Cursor}
    (hc : c ∈ (Cursor.runSteps Cursor.Request.run [b.cursor] steps).2)
    (hv : c.view? n = some v ∨ ∃ d, c.take? n = some (v, d)) :
    c.WellFormed ∧ c.segments = b.cursor.segments ∧ n ≤ c.remaining ∧ v = c.viewOf n := by
  obtain ⟨p, hfollows⟩ := Cursor.follows_of_mem hc
  refine ⟨hfollows.wellFormed, hfollows.segments_eq, ?_⟩
  -- a view is given without moving the cursor or with
  rcases hv with hv | ⟨d, hv⟩
  · rw [Cursor.view?] at hv
    split at hv
    · rename_i hn
      cases hv
      exact ⟨hn, rfl⟩
    · cases hv
  · rw [Cursor.take?_eq] at hv
    split at hv
    · rename_i hn
      cases hv
      exact ⟨hn, rfl⟩
    · cases hv

/-- The bytes of a sequence that a view shows. -/
theorem Over.shows (h : Over b start n k v) : k ≤ n ∧ v.length = n - k
    ∧ v.Shows ((b.bytes.drop (start + k)).take (n - k)) := by
  induction h with
  | given _ hc hv =>
      obtain ⟨hwf, hsegments, hn, rfl⟩ := viewOf_of_given hc hv
      have hshows := hwf.shows_viewOf hn
      rw [Cursor.ahead, hsegments, ← b.follows.bytes_eq] at hshows
      exact ⟨Nat.zero_le _, rfl, hshows⟩
  | @passed start n k j v w _ hw ih =>
      obtain ⟨hk, hlength, hshows⟩ := ih
      obtain ⟨hj, -, hrest, -⟩ := of_advance? hw
      have hadvance := hshows.advance hw
      rw [List.drop_take, List.drop_drop, Nat.add_assoc, Nat.sub_sub] at hadvance
      exact ⟨by omega, by omega, hadvance⟩

/-- A view whose every way to be looked at gives some bytes. -/
structure Agrees (v : View) (bytes : List UInt8) : Prop extends v.Gives bytes where
  chunk_prefix : v.chunk.data.toList <+: bytes
  chunk_eq_nil : v.chunk.data.toList = [] → bytes = []
  size_of_mem_pieces : ∀ part ∈ v.pieces, part.size ≠ 0
  equalsBytes_iff : ∀ block : ByteArray, v.equalsBytes block = true ↔ bytes = block.data.toList
  readAll?_eq : ∃ block, v.readAll? = some block ∧ block.data.toList = bytes

/-- Everything that a view can be asked is told from the bytes that it shows. -/
theorem Shows.agrees {bytes : List UInt8} (h : v.Shows bytes) : v.Agrees bytes where
  toGives := h.gives
  chunk_prefix := by
    by_cases hne : bytes = []
    · rw [chunk_of_length_eq_zero (h.length_eq_zero_iff.mpr hne)]
      exact List.nil_prefix
    · obtain ⟨-, hchunk⟩ := h.chunk hne
      rw [hchunk]
      exact List.take_prefix _ _
  chunk_eq_nil := by
    intro hnil
    by_cases hne : bytes = []
    · exact hne
    · obtain ⟨hsize, -⟩ := h.chunk hne
      rw [← Segments.length_toList_data, hnil] at hsize
      exact absurd rfl hsize
  size_of_mem_pieces _ hpart := size_of_mem_piecesUpTo hpart
  equalsBytes_iff := h.gives.equalsBytes_iff
  readAll?_eq := h.readAll?

/-- **ALL VIEWS AGREE**, over any pieces, wherever a cursor gave the view, and after any bytes of
    it have been passed in any steps: what is left of `n` bytes is those behind the first `k`, and
    every way to look at the view gives them. What is at its front is some of them unless none are
    left, its parts have bytes, and reading it from the front to its end gives them all. Two views
    are equal if these bytes are; and as many bytes can be passed as are left, and no more. -/
theorem views_agree (h : Over b start n k v) :
    k ≤ n ∧ v.length = n - k
      ∧ v.Agrees ((b.bytes.drop (start + k)).take (n - k))
      ∧ (∀ (b' : Cursor.Backing) (start' n' k' : Nat) (w : View), Over b' start' n' k' w →
        (v.equals w = true ↔ (b.bytes.drop (start + k)).take (n - k)
          = (b'.bytes.drop (start' + k')).take (n' - k')))
      ∧ ∀ j, (∃ w, v.advance? j = some w ∧ Over b start n (k + j) w) ↔ j ≤ n - k := by
  obtain ⟨hk, hlength, hshows⟩ := h.shows
  refine ⟨hk, hlength, hshows.agrees, ?_, ?_⟩
  · intro b' start' n' k' w h'
    obtain ⟨-, -, hshows'⟩ := h'.shows
    exact hshows.gives.equals_iff hshows'.gives
  -- no more can be passed than there is, and everything that there is can be
  · intro j
    constructor
    · rintro ⟨w, hw, -⟩
      rw [← hlength]
      exact (of_advance? hw).1
    · intro hj
      rw [← hlength] at hj
      exact ⟨_, if_pos hj, h.passed (if_pos hj)⟩

/-- Behind a byte that was the last of its piece a view stands at a piece without bytes. -/
theorem views_agree_at_empty_piece :
    ∃ w, Over (.pieces #[⟨#[]⟩, ⟨#[1, 2]⟩, ⟨#[]⟩, ⟨#[3]⟩]) 1 2 1 w
      ∧ w.place = ⟨2, 0⟩ ∧ w.Agrees [3] := by
  have hgiven : Over (.pieces #[⟨#[]⟩, ⟨#[1, 2]⟩, ⟨#[]⟩, ⟨#[3]⟩]) 1 2 0
      ⟨.ofParts #[⟨#[]⟩, ⟨#[1, 2]⟩, ⟨#[]⟩, ⟨#[3]⟩], ⟨1, 1⟩, 2⟩ :=
    .given [.ask 0 .read] (List.mem_singleton.mpr rfl) (Or.inr ⟨_, rfl⟩)
  have hpassed := hgiven.passed (j := 1) rfl
  exact ⟨_, hpassed, rfl, (views_agree hpassed).2.2.1⟩

end View

end MessagePack
