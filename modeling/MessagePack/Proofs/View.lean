import MessagePack.Proofs.Place
import MessagePack.View

/-!
# What a view shows

A view is a place and a length; the bytes that it stands for are found by walking over pieces, of
which any number may be empty. `View.Shows v bytes` says once which bytes those are, and every way
of copying them agrees with it:

* **`Shows.toList_content`** for the parts put together one by one;
* **`Shows.toList_toBytes`** for the copy that takes a shortcut within one piece;
* **`Shows.toList_contiguous`** for the block that is handed out without copying.
-/

namespace MessagePack

namespace View

/-- The bytes of a view. A sequence that was given as one block has no second piece, and a view
    without bytes may stand anywhere. -/
structure Shows (v : View) (bytes : List UInt8) : Prop where
  whole : v.segments.chunked = false → v.segments.count ≤ 1
  length_eq : v.length = bytes.length
  bytes_eq : bytes = [] ∨ ∃ n, v.segments.Locates v.place n
    ∧ (v.segments.toList.drop n).take v.length = bytes

/-- A view is of length zero if there is nothing to show. -/
theorem Shows.length_eq_zero_iff {v : View} {bytes : List UInt8} (h : v.Shows bytes) :
    v.length = 0 ↔ bytes = [] := by
  rw [h.length_eq, List.length_eq_zero_iff]

/-- A place behind which there are bytes is in one of the pieces. -/
theorem Shows.index_lt {v : View} {bytes : List UInt8} (h : v.Shows bytes) (hne : bytes ≠ []) :
    v.place.index < v.segments.count := by
  obtain ⟨n, hn, hbytes⟩ := h.bytes_eq.resolve_left hne
  refine Nat.lt_of_not_le fun hlast => hne ?_
  have hpos := hn.position
  have hend := v.segments.length_le_startOf hlast
  rw [← hbytes, List.drop_eq_nil_of_le (by rw [Segments.length_toList]; omega), List.take_nil]

/-- The bytes of a view that has some lie within its sequence. -/
theorem Shows.le_length {v : View} {bytes : List UInt8} {n : Nat} (h : v.Shows bytes)
    (hne : bytes ≠ []) (hbytes : (v.segments.toList.drop n).take v.length = bytes) :
    n + v.length ≤ v.segments.length := by
  have hlength := congrArg List.length hbytes
  rw [List.length_take, List.length_drop, Segments.length_toList, ← h.length_eq] at hlength
  have hpos : 0 < v.length := h.length_eq ▸ List.length_pos_iff.mpr hne
  omega

/-! ## Piece by piece -/

/-- The part of a view in its first piece. -/
theorem Shows.size_current {v : View} {bytes : List UInt8} {n : Nat} (h : v.Shows bytes)
    (hne : bytes ≠ []) (hn : v.segments.Locates v.place n)
    (hbytes : (v.segments.toList.drop n).take v.length = bytes) :
    v.current.size = min (v.segments.available v.place) v.length
      ∧ v.current.data.toList = bytes.take v.current.size := by
  have hle := h.le_length hne hbytes
  have hcurrent := hn.toList_bytesAt (Nat.min_le_left (v.segments.available v.place) v.length)
  have hsize : v.current.size = min (v.segments.available v.place) v.length := by
    rw [← Segments.length_toList_data, current, hcurrent, List.length_take, List.length_drop,
      Segments.length_toList]
    omega
  refine ⟨hsize, ?_⟩
  rw [hsize, ← hbytes, List.take_take, Nat.min_eq_left (Nat.min_le_right _ _)]
  exact hcurrent

/-- Behind the part in its first piece, a view shows the rest of its bytes. -/
theorem Shows.behind {v : View} {bytes : List UInt8} (h : v.Shows bytes) (hne : bytes ≠ []) :
    v.current.data.toList = bytes.take v.current.size
      ∧ Shows { v with place := Segments.next v.place, length := v.length - v.current.size }
        (bytes.drop v.current.size) := by
  obtain ⟨n, hn, hbytes⟩ := h.bytes_eq.resolve_left hne
  obtain ⟨hsize, hcurrent⟩ := h.size_current hne hn hbytes
  have hle := h.le_length hne hbytes
  refine ⟨hcurrent, h.whole, by rw [List.length_drop, ← h.length_eq], ?_⟩
  -- the view goes on in the next piece, or its last byte is in this one
  by_cases hmore : v.segments.available v.place < v.length
  · refine Or.inr ⟨_, hn.next hmore hle, ?_⟩
    rw [hsize, Nat.min_eq_left (Nat.le_of_lt hmore), ← hbytes, List.drop_take, List.drop_drop]
  · refine Or.inl (List.drop_eq_nil_of_le ?_)
    rw [hsize, ← h.length_eq]
    omega

/-- A search for the first part of a view still shows all the bytes, and it only goes forward. -/
structure Seeks (v : View) (bytes : List UInt8) (w : View) : Prop where
  shows : w.Shows bytes
  segments_eq : w.segments = v.segments
  index_le : v.place.index ≤ w.place.index

/-- What the search is for: some of the bytes, with the others behind them. -/
def Finds (v : View) (bytes : List UInt8) : Option (ByteArray × View) → Prop
  | none => False
  | some (part, rest) => part.data.toList = bytes.take part.size
      ∧ rest.Shows (bytes.drop part.size)
      ∧ rest.segments.count - rest.place.index < v.segments.count - v.place.index

/-- A piece without bytes is passed over. -/
theorem Seeks.again {v w u : View} {bytes : List UInt8} (h : v.Seeks bytes w) (hne : bytes ≠ [])
    (hturn : w.nextTurn = .again u) :
    v.Seeks bytes u ∧ u.segments.count - u.place.index < w.segments.count - w.place.index := by
  have hlt := h.shows.index_lt hne
  obtain ⟨hcurrent, hrest⟩ := h.shows.behind hne
  rw [nextTurn] at hturn
  split at hturn
  · cases hturn
  · simp only at hturn
    split at hturn
    · rename_i hempty
      cases hturn
      rw [hempty, List.drop_zero, Nat.sub_zero] at hrest
      refine ⟨⟨hrest, h.segments_eq, Nat.le_succ_of_le h.index_le⟩, ?_⟩
      show w.segments.count - (w.place.index + 1) < w.segments.count - w.place.index
      omega
    · cases hturn

/-- The search ends at the first piece that has bytes to show. -/
theorem Seeks.done {v w : View} {bytes : List UInt8} {found : Option (ByteArray × View)}
    (h : v.Seeks bytes w) (hne : bytes ≠ []) (hturn : w.nextTurn = .done found) :
    v.Finds bytes found := by
  have hlt := h.shows.index_lt hne
  obtain ⟨hcurrent, hrest⟩ := h.shows.behind hne
  rw [nextTurn] at hturn
  split at hturn
  · -- a view without bytes shows none
    rename_i hzero
    exact absurd (h.shows.length_eq_zero_iff.mp hzero) hne
  · simp only at hturn
    split at hturn
    · cases hturn
    · cases hturn
      refine ⟨hcurrent, hrest, ?_⟩
      show w.segments.count - (w.place.index + 1) < v.segments.count - v.place.index
      have hindex := h.index_le
      rw [← h.segments_eq]
      omega

/-- The search for the first part of a view that has bytes comes to an end. -/
theorem Shows.run_next {v : View} {bytes : List UInt8} (h : v.Shows bytes) (hne : bytes ≠ []) :
    ∃ found, Turn.run nextTurn v.segments.turns v = some found ∧ v.Finds bytes found :=
  Turn.run_spec nextTurn v.segments.turns (v.Seeks bytes)
    (v.Finds bytes) (fun w => w.segments.count - w.place.index)
    (fun hw hturn => hw.again hne hturn) (fun hw hturn => hw.done hne hturn)
    ⟨h, rfl, Nat.le_refl _⟩
    (by show v.segments.count - v.place.index < v.segments.count + 1; omega)

/-- The first part of a view that has bytes is found. -/
theorem Shows.finds {v : View} {bytes : List UInt8} (h : v.Shows bytes) (hne : bytes ≠ []) :
    v.Finds bytes v.next? := by
  obtain ⟨found, hrun, hfound⟩ := h.run_next hne
  rw [View.next?, hrun]
  exact hfound

/-- In a view without bytes there is nothing to search for. -/
theorem run_next_of_length_eq_zero {v : View} (h : v.length = 0) :
    Turn.run nextTurn v.segments.turns v = some none := by
  rw [Segments.turns, Turn.run, nextTurn, if_pos h]

/-- A view without bytes has no parts. -/
theorem next?_of_length_eq_zero {v : View} (h : v.length = 0) : v.next? = none := by
  rw [next?, run_next_of_length_eq_zero h]
  rfl

/-- The parts of a view have its bytes. -/
theorem Shows.piecesUpTo {v : View} {bytes : List UInt8} {turns : Nat} (h : v.Shows bytes)
    (hturns : v.segments.count - v.place.index < turns) :
    ((v.piecesUpTo turns).flatMap fun part => part.data.toList) = bytes := by
  -- by induction on the turns; behind every part there are fewer pieces
  induction turns generalizing v bytes with
  | zero => exact absurd hturns (Nat.not_lt_zero _)
  | succ turns ih =>
      rw [View.piecesUpTo]
      by_cases hne : bytes = []
      · rw [next?_of_length_eq_zero (h.length_eq_zero_iff.mpr hne), hne]
        rfl
      · have hfinds := h.finds hne
        cases hnext : v.next? with
        | none =>
            rw [hnext] at hfinds
            exact hfinds.elim
        | some found =>
            obtain ⟨part, rest⟩ := found
            rw [hnext] at hfinds
            obtain ⟨hpart, hrest, hindex⟩ := hfinds
            show part.data.toList ++ (rest.piecesUpTo turns).flatMap _ = bytes
            rw [ih hrest (by omega), hpart, List.take_append_drop]

/-! ## Copies -/

/-- Blocks put together one by one. -/
theorem toList_foldl_append (parts : List ByteArray) (block : ByteArray) :
    (parts.foldl (· ++ ·) block).data.toList
      = block.data.toList ++ parts.flatMap fun part => part.data.toList := by
  induction parts generalizing block with
  | nil => rw [List.foldl_nil, List.flatMap_nil, List.append_nil]
  | cons part rest ih =>
      rw [List.foldl_cons, ih, ByteArray.data_append, Array.toList_append, List.flatMap_cons,
        List.append_assoc]

/-- Put together, the parts are the bytes. -/
theorem Shows.toList_content {v : View} {bytes : List UInt8} (h : v.Shows bytes) :
    v.content.data.toList = bytes := by
  rw [content, toList_foldl_append, pieces, h.piecesUpTo]
  · rfl
  · show v.segments.count - v.place.index < v.segments.count + 1
    omega

/-- An empty range of a block. -/
theorem toList_extract_zero (block : ByteArray) (i : Nat) :
    (block.extract i (i + 0)).data.toList = [] := by
  rw [MessagePack.toList_extract, Nat.add_zero, Nat.sub_self, List.take_zero]

/-- A range that lies within the piece of its place. -/
theorem Shows.toList_extract {v : View} {bytes : List UInt8} (h : v.Shows bytes)
    (hfit : v.place.offset + v.length ≤ (v.segments.get v.place.index).size) :
    ((v.segments.get v.place.index).extract v.place.offset
      (v.place.offset + v.length)).data.toList = bytes := by
  show (v.segments.bytesAt v.place v.length).data.toList = bytes
  by_cases hne : bytes = []
  · rw [Segments.toList_bytesAt, h.length_eq, hne]
    rfl
  · obtain ⟨n, hn, hbytes⟩ := h.bytes_eq.resolve_left hne
    rw [hn.toList_bytesAt (by rw [Segments.available]; omega), hbytes]

/-- The block that is handed out without copying, if there is one, has the bytes of the view. -/
theorem Shows.toList_contiguous {v : View} {bytes : List UInt8} {block : ByteArray}
    (h : v.Shows bytes) (hblock : v.contiguous? = some block) : block.data.toList = bytes := by
  rw [contiguous?] at hblock
  split at hblock
  · rename_i hfit
    cases hblock
    by_cases hle : v.place.offset ≤ (v.segments.get v.place.index).size
    · rw [Nat.min_eq_left hle] at hfit ⊢
      exact h.toList_extract hfit
    · -- a place beyond its piece is no harm to a view without bytes
      have hlength : v.length = 0 := by omega
      rw [h.length_eq_zero_iff.mp hlength, hlength]
      exact toList_extract_zero _ _
  · cases hblock

/-- In a sequence that is one block, every range that has bytes lies within the only piece. -/
theorem Shows.fits_of_whole {v : View} {bytes : List UInt8} (h : v.Shows bytes)
    (hwhole : v.segments.chunked = false) (hne : bytes ≠ []) : v.place.index = 0
      ∧ v.place.offset + v.length ≤ (v.segments.get 0).size := by
  obtain ⟨n, hn, hbytes⟩ := h.bytes_eq.resolve_left hne
  have hle := h.le_length hne hbytes
  have hcount := h.whole hwhole
  have hlt := h.index_lt hne
  have hindex : v.place.index = 0 := by omega
  have hend := v.segments.startOf_count
  rw [show v.segments.count = 0 + 1 by omega, Segments.startOf, Segments.startOf] at hend
  have hpos := hn.position
  rw [hindex, Segments.startOf] at hpos
  exact ⟨hindex, by omega⟩

/-- A range of one block is handed out without copying. -/
theorem Shows.contiguous_of_whole {v : View} {bytes : List UInt8} (h : v.Shows bytes)
    (hwhole : v.segments.chunked = false) : ∃ block, v.contiguous? = some block := by
  have hsize : min v.place.offset (v.segments.get v.place.index).size + v.length
      ≤ (v.segments.get v.place.index).size := by
    by_cases hne : bytes = []
    · have hlength := h.length_eq_zero_iff.mpr hne
      omega
    · obtain ⟨hindex, hfit⟩ := h.fits_of_whole hwhole hne
      rw [hindex]
      omega
  exact ⟨_, if_pos hsize⟩

/-- The copy of a view has its bytes. -/
theorem Shows.toList_toBytes {v : View} {bytes : List UInt8} (h : v.Shows bytes) :
    v.toBytes.data.toList = bytes := by
  rw [toBytes]
  split
  · split
    · rename_i piece hpiece
      split
      · -- the shortcut: one range of one piece
        rename_i hfit
        have hget : v.segments.get v.place.index = piece := by
          rw [Segments.get, hpiece, Option.getD_some]
        rw [← hget] at hfit ⊢
        exact h.toList_extract hfit
      · exact h.toList_content
    · exact h.toList_content
  · rename_i hchunked
    by_cases hne : bytes = []
    · rw [h.length_eq_zero_iff.mpr hne, hne]
      exact toList_extract_zero _ _
    · -- the only piece is the one that the view starts in
      obtain ⟨hindex, hfit⟩ := h.fits_of_whole (Bool.eq_false_iff.mpr hchunked) hne
      have hextract := h.toList_extract (by rw [hindex]; exact hfit)
      rw [hindex] at hextract
      exact hextract

end View

end MessagePack
