import MessagePack.Overwrite
import MessagePack.Proofs.Turn
import MessagePack.Segments

/-!
# Places and the bytes behind them

A place names a piece and an offset into it; what a reader wants to know is how many bytes lie
before it. The number decides everything else: once a place has been settled, it is determined by
the bytes before it, so two ways of getting to a position give the same place.

* **`Segments.Locates s p n`** says that `n` bytes lie before `p`, and **`Segments.Settled`** that
  `p` is not at the end of a piece with another piece behind it.
* **`Segments.Settled.unique`** is that determinacy.
* **`Segments.settle_spec`**, **`Segments.forward_spec`**, **`Segments.backward_spec`** and
  **`Segments.toList_copy`** say what the walks lead to. Each is an invariant of one turn and the
  number of pieces that are left, which is also why each of the walks ends
  (**`Segments.run_settle`** and the others).
-/

namespace MessagePack

namespace Segments

/-! ## The bytes before a piece -/

/-- The number of bytes in the first pieces of a sequence. -/
def startOf (s : Segments) : Nat → Nat
  | 0 => 0
  | i + 1 => s.startOf i + (s.get i).size

/-- A later piece does not start earlier. -/
theorem startOf_mono (s : Segments) {i j : Nat} (h : i ≤ j) : s.startOf i ≤ s.startOf j := by
  induction h with
  | refl => exact Nat.le_refl _
  | step _ ih => exact Nat.le_trans ih (Nat.le_add_right _ _)

/-- The bytes of a block in a list. -/
theorem length_toList_data (block : ByteArray) : block.data.toList.length = block.size := by
  rw [Array.length_toList, ByteArray.size_data]

/-- The first bytes of a block and the others make up the block. -/
theorem extract_append_rest {b : ByteArray} {n : Nat} (hn : n ≤ b.size) :
    b.extract 0 n ++ b.extract n b.size = b := by
  rw [← ByteArray.extract_eq_extract_append_extract n (Nat.zero_le n) hn,
    ByteArray.extract_zero_size]

/-- The front of a block has the size that is asked for. -/
theorem size_extract {b : ByteArray} {n : Nat} (hn : n ≤ b.size) : (b.extract 0 n).size = n := by
  rw [ByteArray.size_extract]
  omega

/-- A piece by its number in the list of pieces. -/
theorem get_eq_getElem {s : Segments} {i : Nat} (h : i < s.parts.toList.length) :
    s.get i = s.parts.toList[i] := by
  rw [get, ← Array.getElem?_toList, List.getElem?_eq_getElem h, Option.getD_some]

/-- Past the last piece there is an empty one. -/
theorem get_of_le {s : Segments} {i : Nat} (h : s.count ≤ i) : s.get i = .empty := by
  rw [get, Array.getElem?_eq_none h, Option.getD_none]

/-- The first pieces have as many bytes as their sizes add up to. -/
theorem startOf_eq_length (s : Segments) (i : Nat) :
    s.startOf i = ((s.parts.toList.take i).flatMap fun part => part.data.toList).length := by
  induction i with
  | zero => rfl
  | succ i ih =>
      rw [startOf, ih]
      by_cases hi : i < s.parts.toList.length
      · rw [List.take_succ_eq_append_getElem hi, List.flatMap_append, List.length_append,
          List.flatMap_singleton, length_toList_data, get_eq_getElem hi]
      · -- past the last piece nothing is added
        have hcount : s.count ≤ i := by
          rw [count, ← Array.length_toList]; exact Nat.le_of_not_lt hi
        rw [get_of_le hcount, List.take_of_length_le (Nat.le_of_not_lt hi),
          List.take_of_length_le (Nat.le_succ_of_le (Nat.le_of_not_lt hi))]
        rfl

/-- What is left behind the first pieces is the pieces that follow them. -/
theorem drop_startOf (s : Segments) (i : Nat) :
    s.toList.drop (s.startOf i)
      = (s.parts.toList.drop i).flatMap fun part => part.data.toList := by
  have hsplit : s.toList = ((s.parts.toList.take i).flatMap fun part => part.data.toList)
      ++ (s.parts.toList.drop i).flatMap fun part => part.data.toList := by
    rw [← List.flatMap_append, List.take_append_drop, toList]
  rw [hsplit]
  exact List.drop_left' (s.startOf_eq_length i).symm

/-- The bytes from the start of a piece: the piece, and what is behind it. -/
theorem drop_startOf_succ (s : Segments) (i : Nat) :
    s.toList.drop (s.startOf i)
      = (s.get i).data.toList ++ s.toList.drop (s.startOf (i + 1)) := by
  rw [drop_startOf, drop_startOf]
  by_cases hi : i < s.parts.toList.length
  · rw [List.drop_eq_getElem_cons hi, List.flatMap_cons, get_eq_getElem hi]
  · have hcount : s.count ≤ i := by
      rw [count, ← Array.length_toList]; exact Nat.le_of_not_lt hi
    rw [get_of_le hcount, List.drop_eq_nil_of_le (Nat.le_of_not_lt hi),
      List.drop_eq_nil_of_le (Nat.le_succ_of_le (Nat.le_of_not_lt hi))]
    rfl

/-- The sizes of some pieces, added up one after the other. -/
theorem foldl_size (parts : List ByteArray) (n : Nat) :
    parts.foldl (fun n part => n + part.size) n
      = n + (parts.flatMap fun part => part.data.toList).length := by
  induction parts generalizing n with
  | nil => rfl
  | cons part rest ih =>
      rw [List.foldl_cons, ih, List.flatMap_cons, List.length_append, length_toList_data]
      omega

/-- A sequence has as many bytes as its length says. -/
theorem length_toList (s : Segments) : s.toList.length = s.length := by
  rw [length, ← Array.foldl_toList, foldl_size, Nat.zero_add, toList]

/-- All pieces together have the length of the sequence. -/
theorem startOf_count (s : Segments) : s.startOf s.count = s.length := by
  rw [startOf_eq_length, count, ← Array.length_toList, List.take_length, ← length_toList, toList]

/-- No piece starts beyond the end. -/
theorem startOf_le_length (s : Segments) {i : Nat} (h : i ≤ s.count) : s.startOf i ≤ s.length :=
  s.startOf_count ▸ s.startOf_mono h

/-- Behind all pieces is the end. -/
theorem length_le_startOf (s : Segments) {i : Nat} (h : s.count ≤ i) : s.length ≤ s.startOf i :=
  s.startOf_count ▸ s.startOf_mono h

/-! ## Places -/

/-- A place in a sequence with `n` bytes before it. -/
structure Locates (s : Segments) (p : Place) (n : Nat) : Prop where
  index_le : p.index ≤ s.count - 1
  offset_le : p.offset ≤ (s.get p.index).size
  position : s.startOf p.index + p.offset = n

/-- A place that is not at the end of a piece, unless that piece is the last. -/
def Settled (s : Segments) (p : Place) : Prop :=
  p.index < s.count - 1 → p.offset < (s.get p.index).size

/-- **DETERMINACY**: the bytes before a settled place determine it. -/
theorem Settled.unique {s : Segments} {p q : Place} {n : Nat} (hp : s.Settled p)
    (hq : s.Settled q) (hpn : s.Locates p n) (hqn : s.Locates q n) : p = q := by
  -- of two different pieces, the earlier one would end before the later one starts
  have aux : ∀ {p q : Place}, s.Settled p → s.Locates p n → s.Locates q n →
      ¬ p.index < q.index := by
    intro p q hp hpn hqn hlt
    have hoffset := hp (Nat.lt_of_lt_of_le hlt hqn.index_le)
    have hstart : s.startOf (p.index + 1) ≤ s.startOf q.index := s.startOf_mono hlt
    have hpos := hpn.position
    have hpos' := hqn.position
    rw [startOf] at hstart
    omega
  have hindex : p.index = q.index := by
    have h1 := aux hp hpn hqn
    have h2 := aux hq hqn hpn
    omega
  have hoffset : p.offset = q.offset := by
    have hpos := hpn.position
    have hpos' := hqn.position
    rw [hindex] at hpos
    omega
  cases p; cases q
  exact congr (congrArg Place.mk hindex) hoffset

/-- The bytes from a place on: the rest of its piece, and what is behind that piece. -/
theorem Locates.drop_toList {s : Segments} {p : Place} {n : Nat} (h : s.Locates p n) :
    s.toList.drop n
      = (s.get p.index).data.toList.drop p.offset ++ s.toList.drop (s.startOf (p.index + 1)) := by
  rw [← h.position, ← List.drop_drop, drop_startOf_succ,
    List.drop_append_of_le_length (by rw [length_toList_data]; exact h.offset_le)]

/-- The place of a position lies within the sequence. -/
theorem Locates.le_length {s : Segments} {p : Place} {n : Nat} (h : s.Locates p n) :
    n ≤ s.length := by
  have hpos := h.position
  have hoffset := h.offset_le
  by_cases hcount : s.count = 0
  · -- without pieces there are no bytes, and only one place
    have hempty : (s.get p.index).size = 0 := by rw [get_of_le (by omega)]; rfl
    have hindex : p.index = 0 := by have := h.index_le; omega
    rw [hindex, startOf] at hpos
    omega
  · have hle : s.startOf (p.index + 1) ≤ s.length :=
      s.startOf_le_length (by have := h.index_le; omega)
    rw [startOf] at hle
    omega

/-- A place with more bytes behind it than its piece has is followed by another piece. -/
theorem Locates.next {s : Segments} {p : Place} {n k : Nat} (h : s.Locates p n)
    (hk : s.available p < k) (hle : n + k ≤ s.length) :
    s.Locates (next p) (n + s.available p) := by
  have hpos := h.position
  have hoffset := h.offset_le
  rw [available] at hk ⊢
  -- the last piece and what follows it hold no more than what is available there
  have hindex : p.index + 1 < s.count := by
    refine Nat.lt_of_not_le ?_
    intro hlast
    have hend := s.length_le_startOf hlast
    rw [startOf] at hend
    omega
  refine ⟨by rw [Segments.next]; show p.index + 1 ≤ s.count - 1; omega, Nat.zero_le _, ?_⟩
  show s.startOf p.index + (s.get p.index).size + 0 = _
  omega

/-! ## Walks

    Every turn of a walk that goes on enters the next piece, so no walk has more turns than there
    are pieces. -/

/-- A turn of settling leaves a piece at its end, which keeps the position. -/
theorem Locates.settleTurn {s : Segments} {p q : Place} {n : Nat} (h : s.Locates p n)
    (hturn : s.settleTurn p = .again q) :
    s.Locates q n ∧ s.count - q.index < s.count - p.index := by
  rw [Segments.settleTurn] at hturn
  -- the place moves to the start of the next piece, which has the same bytes before it
  split at hturn
  · rename_i hpassed
    cases hturn
    have hpos := h.position
    have hoffset := h.offset_le
    refine ⟨⟨?_, Nat.zero_le _, ?_⟩, ?_⟩
    · show p.index + 1 ≤ s.count - 1
      omega
    · show s.startOf p.index + (s.get p.index).size + 0 = n
      omega
    · show s.count - (p.index + 1) < s.count - p.index
      omega
  · cases hturn

/-- Settling stops at a settled place. -/
theorem settled_of_settleTurn {s : Segments} {p q : Place} (hturn : s.settleTurn p = .done q) :
    q = p ∧ s.Settled q := by
  rw [settleTurn] at hturn
  split at hturn
  · cases hturn
  · rename_i hpassed
    cases hturn
    exact ⟨rfl, fun hindex => Nat.lt_of_not_le fun hend => hpassed ⟨hindex, hend⟩⟩

/-- Settling comes to an end, at a settled place of the same position. -/
theorem run_settle {s : Segments} {p : Place} {n : Nat} (h : s.Locates p n) :
    ∃ q, Turn.run s.settleTurn s.turns p = some q ∧ s.Locates q n ∧ s.Settled q :=
  Turn.run_spec s.settleTurn s.turns (fun q => s.Locates q n)
    (fun q => s.Locates q n ∧ s.Settled q) (fun q => s.count - q.index)
    Locates.settleTurn
    (fun hq hturn => by
      obtain ⟨rfl, hsettled⟩ := settled_of_settleTurn hturn
      exact ⟨hq, hsettled⟩)
    h (by show s.count - p.index < s.count + 1; omega)

/-- Settling keeps the position and ends at a settled place. -/
theorem settle_spec {s : Segments} {p : Place} {n : Nat} (h : s.Locates p n) :
    s.Locates (s.settle p) n ∧ s.Settled (s.settle p) := by
  obtain ⟨q, hrun, hq⟩ := run_settle h
  rw [settle, hrun]
  exact hq

/-- A walk forward stands at a position and has some bytes to go to its goal. -/
def Approaches (s : Segments) (goal : Nat) : Place × Nat → Prop
  | (p, n) => ∃ i, s.Locates p i ∧ i + n = goal

/-- A turn of a walk forward brings it nearer to its goal, in the next piece. -/
theorem Approaches.again {s : Segments} {goal : Nat} {x y : Place × Nat}
    (hgoal : goal ≤ s.length) (h : s.Approaches goal x) (hturn : s.forwardTurn x = .again y) :
    s.Approaches goal y ∧ s.count - y.1.index < s.count - x.1.index := by
  obtain ⟨p, n⟩ := x
  obtain ⟨i, hp, hi⟩ := h
  rw [forwardTurn] at hturn
  split at hturn
  · cases hturn
  · rename_i hn
    cases hturn
    have hnext := hp.next (Nat.lt_of_not_le hn) (hi.symm ▸ hgoal)
    have hindex : p.index + 1 ≤ s.count - 1 := hnext.index_le
    refine ⟨⟨_, hnext, by omega⟩, ?_⟩
    show s.count - (p.index + 1) < s.count - p.index
    omega

/-- A walk forward ends at its goal. -/
theorem Approaches.done {s : Segments} {goal : Nat} {x : Place × Nat} {q : Place}
    (h : s.Approaches goal x) (hturn : s.forwardTurn x = .done q) : s.Locates q goal := by
  obtain ⟨p, n⟩ := x
  obtain ⟨i, hp, hi⟩ := h
  have hpos := hp.position
  have hoffset := hp.offset_le
  rw [forwardTurn] at hturn
  -- the goal is in this piece
  split at hturn
  · rename_i hn
    cases hturn
    rw [available] at hn
    refine ⟨hp.index_le, ?_, ?_⟩
    · show p.offset + n ≤ (s.get p.index).size
      omega
    · show s.startOf p.index + (p.offset + n) = goal
      omega
  · cases hturn

/-- A walk forward over bytes that are there comes to an end. -/
theorem run_forward {s : Segments} {p : Place} {n k : Nat} (h : s.Locates p n)
    (hk : n + k ≤ s.length) :
    ∃ q, Turn.run s.forwardTurn s.turns (p, k) = some q ∧ s.Locates q (n + k) :=
  Turn.run_spec s.forwardTurn s.turns (s.Approaches (n + k))
    (fun q => s.Locates q (n + k)) (fun x => s.count - x.1.index)
    (Approaches.again hk) Approaches.done
    (show s.Approaches (n + k) (p, k) from ⟨n, h, rfl⟩)
    (by show s.count - p.index < s.count + 1; omega)

/-- Moving forward by bytes that are there adds them to the position. -/
theorem forward_spec {s : Segments} {p : Place} {n k : Nat} (h : s.Locates p n)
    (hk : n + k ≤ s.length) :
    s.Locates (s.forward p k) (n + k) ∧ s.Settled (s.forward p k) := by
  obtain ⟨q, hrun, hq⟩ := run_forward h hk
  rw [forward, hrun]
  exact settle_spec hq

/-- A walk back stands at a position that is some bytes beyond its goal. -/
def Retreats (s : Segments) (goal : Nat) : Place × Nat → Prop
  | (p, n) => s.Locates p (goal + n)

/-- The start of a piece that is not the first is also the end of the one before. -/
theorem Locates.previous {s : Segments} {p : Place} {n : Nat}
    (h : s.Locates p n) (hn : p.offset < n) :
    0 < p.index
      ∧ s.Locates ⟨p.index - 1, (s.get (p.index - 1)).size⟩ (n - p.offset) := by
  have hpos := h.position
  have hindex := h.index_le
  cases hi : p.index with
  | zero =>
      -- in the first piece there are no more bytes before a place than its offset
      rw [hi, startOf] at hpos
      omega
  | succ i =>
      rw [hi] at hpos hindex
      refine ⟨Nat.succ_pos i, ?_, Nat.le_refl _, ?_⟩
      · show i ≤ s.count - 1
        omega
      · show s.startOf (i + 1) = n - p.offset
        omega

/-- A turn of a walk back brings it nearer to its goal, in the piece before. -/
theorem Retreats.again {s : Segments} {goal : Nat} {x y : Place × Nat}
    (h : s.Retreats goal x) (hturn : s.backwardTurn x = .again y) :
    s.Retreats goal y ∧ y.1.index < x.1.index := by
  obtain ⟨p, n⟩ := x
  rw [backwardTurn] at hturn
  split at hturn
  · rename_i hn
    cases hturn
    obtain ⟨hindex, hplace⟩ := Locates.previous h (Nat.lt_of_lt_of_le hn (Nat.le_add_left n goal))
    rw [Nat.add_sub_assoc (Nat.le_of_lt hn)] at hplace
    exact ⟨hplace, Nat.sub_lt hindex Nat.one_pos⟩
  · cases hturn

/-- A walk back ends at its goal. -/
theorem Retreats.done {s : Segments} {goal : Nat} {x : Place × Nat} {q : Place}
    (h : s.Retreats goal x) (hturn : s.backwardTurn x = .done q) : s.Locates q goal := by
  obtain ⟨p, n⟩ := x
  obtain ⟨hindex, hoffset, hpos⟩ := h
  rw [backwardTurn] at hturn
  split at hturn
  · cases hturn
  · rename_i hn
    cases hturn
    refine ⟨hindex, Nat.le_trans (Nat.sub_le _ _) hoffset, ?_⟩
    show s.startOf p.index + (p.offset - n) = goal
    omega

/-- A walk back over bytes that have been passed comes to an end. -/
theorem run_backward {s : Segments} {p : Place} {n k : Nat} (h : s.Locates p n) (hk : k ≤ n) :
    ∃ q, Turn.run s.backwardTurn s.turns (p, k) = some q ∧ s.Locates q (n - k) :=
  Turn.run_spec s.backwardTurn s.turns (s.Retreats (n - k))
    (fun q => s.Locates q (n - k)) (fun x => x.1.index) Retreats.again Retreats.done
    (show s.Retreats (n - k) (p, k) by rw [Retreats, Nat.sub_add_cancel hk]; exact h)
    (by show p.index < s.count + 1; have := h.index_le; omega)

/-- Moving back by bytes that have been passed takes them from the position. -/
theorem backward_spec {s : Segments} {p : Place} {n k : Nat} (h : s.Locates p n) (hk : k ≤ n) :
    s.Locates (s.backward p k) (n - k) ∧ s.Settled (s.backward p k) := by
  obtain ⟨q, hrun, hq⟩ := run_backward h hk
  rw [backward, hrun]
  exact settle_spec hq

/-! ## Collecting bytes -/

/-- The bytes of a range within the piece of a place. -/
theorem toList_bytesAt (s : Segments) (p : Place) (n : Nat) :
    (s.bytesAt p n).data.toList = ((s.get p.index).data.toList.drop p.offset).take n := by
  rw [bytesAt, toList_extract, Nat.add_sub_cancel_left]

/-- The bytes that a piece has from a place on are the first of the bytes behind it. -/
theorem Locates.toList_bytesAt {s : Segments} {p : Place} {n m : Nat} (h : s.Locates p n)
    (hm : m ≤ s.available p) : (s.bytesAt p m).data.toList = (s.toList.drop n).take m := by
  rw [Segments.toList_bytesAt, h.drop_toList, List.take_append_of_le_length]
  rw [List.length_drop, length_toList_data]
  exact hm

/-- Collecting has the first of the bytes behind a position. Once it has them all, the place is of
    no interest any more. -/
def Collects (s : Segments) (n k : Nat) : Place × ByteArray → Prop
  | (p, copied) => copied.data.toList = (s.toList.drop n).take copied.size ∧ copied.size ≤ k
      ∧ (copied.size = k ∨ s.Locates p (n + copied.size))

/-- A turn of collecting adds what is wanted of one piece, and goes to the next. -/
theorem Collects.again {s : Segments} {n k : Nat} {x y : Place × ByteArray}
    (hk : n + k ≤ s.length) (h : s.Collects n k x) (hturn : s.copyTurn k x = .again y) :
    s.Collects n k y ∧ s.count - y.1.index < s.count - x.1.index := by
  obtain ⟨p, copied⟩ := x
  obtain ⟨hbytes, hsize, hplace⟩ := h
  rw [copyTurn] at hturn
  split at hturn
  · rename_i hlt
    cases hturn
    have hp : s.Locates p (n + copied.size) := hplace.resolve_left (Nat.ne_of_lt hlt)
    have hpart := hp.toList_bytesAt (Nat.min_le_left (s.available p) (k - copied.size))
    -- bytes are still missing, so the place is in a piece and not behind the last one
    have hcount : p.index < s.count := by
      refine Nat.lt_of_not_le ?_
      intro hlast
      have hpos := hp.position
      have hend := s.length_le_startOf hlast
      omega
    have hsize' : (copied ++ s.bytesAt p (min (s.available p) (k - copied.size))).size
        = copied.size + min (s.available p) (k - copied.size) := by
      rw [ByteArray.size_append, ← length_toList_data (s.bytesAt _ _), hpart, List.length_take,
        List.length_drop, length_toList]
      omega
    refine ⟨⟨?_, ?_, ?_⟩, ?_⟩
    · rw [hsize', ByteArray.data_append, Array.toList_append, hbytes, hpart, List.take_add,
        List.drop_drop]
    · rw [hsize']
      omega
    · -- either the piece is used up, or the last bytes came from it
      rw [hsize']
      by_cases hmore : s.available p < k - copied.size
      · refine Or.inr ?_
        rw [Nat.min_eq_left (Nat.le_of_lt hmore), ← Nat.add_assoc]
        exact hp.next hmore (by omega)
      · exact Or.inl (by omega)
    · show s.count - (p.index + 1) < s.count - p.index
      omega
  · cases hturn

/-- What has been collected at the end is what was asked for. -/
theorem Collects.done {s : Segments} {n k : Nat} {x : Place × ByteArray} {copied : ByteArray}
    (h : s.Collects n k x) (hturn : s.copyTurn k x = .done copied) :
    copied.data.toList = (s.toList.drop n).take k := by
  obtain ⟨p, bytes⟩ := x
  obtain ⟨hbytes, hsize, -⟩ := h
  rw [copyTurn] at hturn
  split at hturn
  · cases hturn
  · rename_i hlt
    cases hturn
    rw [hbytes, Nat.le_antisymm hsize (Nat.le_of_not_lt hlt)]

/-- Collecting bytes that are there comes to an end. -/
theorem run_copy {s : Segments} {p : Place} {n k : Nat} (h : s.Locates p n)
    (hk : n + k ≤ s.length) :
    ∃ copied, Turn.run (s.copyTurn k) s.turns (p, .empty) = some copied
      ∧ copied.data.toList = (s.toList.drop n).take k :=
  Turn.run_spec (s.copyTurn k) s.turns (s.Collects n k)
    (fun b => b.data.toList = (s.toList.drop n).take k)
    (fun x => s.count - x.1.index) (Collects.again hk) Collects.done
    (show s.Collects n k (p, .empty) from ⟨rfl, Nat.zero_le _, Or.inr h⟩)
    (by show s.count - p.index < s.count + 1; omega)

/-- Collecting bytes that are there gives the bytes behind the position. -/
theorem toList_copy {s : Segments} {p : Place} {n k : Nat} (h : s.Locates p n)
    (hk : n + k ≤ s.length) :
    (s.copy p k).data.toList = (s.toList.drop n).take k := by
  obtain ⟨copied, hrun, hcopied⟩ := run_copy h hk
  rw [copy, hrun]
  exact hcopied

end Segments

end MessagePack
