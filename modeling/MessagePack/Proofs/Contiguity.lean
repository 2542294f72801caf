import MessagePack.Proofs.Consumption

/-!
# Which views are contiguous

`View.contiguous?` hands out the bytes of a view without copying them, if they lie in the piece that
the view starts in. A cursor has settled when it gives a view, so this is the piece that has the
first of the bytes. A view that is passed does not settle, and so it may start in a piece that has
none of its bytes: right behind a byte that is the last of its piece, where the next piece is empty.

* **`Segments.OnePiece`** is that some bytes lie within a single piece, and **`Segments.GapAt`** is
  that a position is at such an empty piece.
* **`Segments.Stands`** is where a view may stand, by **`View.Over.placed`**; and
  **`View.contiguous_iff`** is when its bytes are handed out.
-/

namespace MessagePack

namespace Segments

/-- The `len` bytes from a position on lie within a single piece. -/
def OnePiece (s : Segments) (n len : Nat) : Prop :=
  len = 0 ∨ ∃ i, i < s.count ∧ s.startOf i ≤ n ∧ n + len ≤ s.startOf (i + 1)

instance (s : Segments) (n len : Nat) : Decidable (s.OnePiece n len) := by
  unfold OnePiece
  infer_instance

/-- At a position a piece with bytes ends, and a piece without any comes next. -/
def GapAt (s : Segments) (n : Nat) : Prop :=
  ∃ i, i < s.count - 1 ∧ 0 < (s.get i).size ∧ s.startOf (i + 1) = n ∧ (s.get (i + 1)).size = 0

instance (s : Segments) (n : Nat) : Decidable (s.GapAt n) := by
  unfold GapAt
  infer_instance

variable {s : Segments} {p : Place} {n : Nat}

/-- A byte lies in one piece only. -/
theorem index_unique (s : Segments) {i j n : Nat} (hi : s.startOf i ≤ n ∧ n < s.startOf (i + 1))
    (hj : s.startOf j ≤ n ∧ n < s.startOf (j + 1)) : i = j := by
  rcases Nat.lt_trichotomy i j with hlt | heq | hlt
  · have hmono : s.startOf (i + 1) ≤ s.startOf j := s.startOf_mono hlt
    omega
  · exact heq
  · have hmono : s.startOf (j + 1) ≤ s.startOf i := s.startOf_mono hlt
    omega

/-- A settled place with bytes behind it is in the piece that has the first of them. -/
theorem Settled.offset_lt (hp : s.Settled p) (h : s.Locates p n) (hn : n < s.length) :
    p.offset < (s.get p.index).size := by
  by_cases hlast : p.index < s.count - 1
  · exact hp hlast
  · have hpos := h.position
    have hend := s.length_le_startOf (i := p.index + 1) (by omega)
    rw [startOf] at hend
    omega

/-- A place right behind a byte is in the piece that has the next one, unless that is another piece
    and an empty one lies between them. -/
theorem Lands.offset_lt_iff (hp : s.Lands p) (h : s.Locates p n) (hn : n < s.length) :
    p.offset < (s.get p.index).size ↔ ¬ s.GapAt n := by
  have hpos := h.position
  have hindex := h.index_lt hn
  rcases hp with ⟨hoffset, hsize⟩ | ⟨hoffset, i, hi, hsize⟩
  · -- no piece ends within another
    refine ⟨?_, fun _ => hsize⟩
    rintro - ⟨j, -, hj, hend, -⟩
    have hj' : p.index = j :=
      s.index_unique (n := n - 1) (by rw [startOf]; omega) (by rw [startOf] at hend ⊢; omega)
    rw [← hj', startOf] at hend
    omega
  · rw [hi] at hpos hindex ⊢
    rw [startOf] at hpos
    constructor
    · rintro hlt ⟨j, -, hj, hend, hempty⟩
      have hj' : i = j :=
        s.index_unique (n := n - 1) (by rw [startOf]; omega) (by rw [startOf] at hend ⊢; omega)
      rw [← hj'] at hempty
      omega
    · intro hgap
      refine Nat.lt_of_not_le ?_
      intro hle
      exact hgap ⟨i, by omega, hsize, by rw [startOf]; omega, by omega⟩

/-- Where a view stands that has bytes left: before them, settled as long as none has been passed,
    and then right behind the last that has. -/
structure Stands (s : Segments) (p : Place) (n k : Nat) : Prop where
  locates : s.Locates p n
  settled : k = 0 → s.Settled p
  lands : 0 < k → s.Lands p

/-- It stands in the piece that has the next byte, unless bytes have been passed and a gap comes
    next. -/
theorem Stands.offset_lt_iff {k : Nat} (h : s.Stands p n k) (hn : n < s.length) :
    p.offset < (s.get p.index).size ↔ ¬ (0 < k ∧ s.GapAt n) := by
  by_cases hk : k = 0
  · refine ⟨fun _ hgap => absurd hgap.1 (by omega), fun _ => ?_⟩
    exact (h.settled hk).offset_lt h.locates hn
  · have hpos : 0 < k := Nat.pos_of_ne_zero hk
    rw [(h.lands hpos).offset_lt_iff h.locates hn]
    exact ⟨fun hgap hgap' => hgap hgap'.2, fun hgap hgap' => hgap ⟨hpos, hgap'⟩⟩

end Segments

namespace View

variable {b : Cursor.Backing} {start n k : Nat} {v : View}

/-- A view is handed out if it lies within the piece that it starts in. -/
theorem contiguous?_isSome_iff (v : View) : v.contiguous?.isSome = true
    ↔ min v.place.offset (v.segments.get v.place.index).size + v.length
      ≤ (v.segments.get v.place.index).size := by
  rw [contiguous?]
  split
  · rename_i hfit
    exact ⟨fun _ => hfit, fun _ => rfl⟩
  · rename_i hfit
    exact ⟨fun hnone => Bool.noConfusion hnone, fun hfit' => absurd hfit' hfit⟩

/-- A view that starts in the piece with the first of its bytes is handed out whenever they lie
    within a single piece. -/
theorem contiguous?_of_offset_lt (h : v.segments.Locates v.place n) (hlength : 0 < v.length)
    (hlt : v.place.offset < (v.segments.get v.place.index).size) :
    v.contiguous?.isSome = true ↔ v.segments.OnePiece n v.length := by
  have hpos := h.position
  rw [contiguous?_isSome_iff, Nat.min_eq_left (Nat.le_of_lt hlt)]
  constructor
  · intro hfit
    refine Or.inr ⟨v.place.index, ?_, by omega, by rw [Segments.startOf]; omega⟩
    refine Nat.lt_of_not_le ?_
    intro hle
    rw [Segments.get_of_le hle] at hlt
    exact absurd hlt (Nat.not_lt_zero _)
  · rintro (hzero | ⟨i, -, hstart, hend⟩)
    · omega
    · -- the single piece is the one that has the first byte
      have hi : i = v.place.index :=
        v.segments.index_unique (n := n) (by omega) (by rw [Segments.startOf]; omega)
      rw [hi, Segments.startOf] at hend
      omega

/-- What is left of a view lies within the sequence, and if there is any, the view stands before it.
-/
theorem Over.placed (h : Over b start n k v) :
    v.segments = b.cursor.segments ∧ start + n ≤ v.segments.length
      ∧ (k < n → v.segments.Stands v.place (start + k) k) := by
  -- a view that was given stands where the cursor did; to advance walks on from there
  induction h with
  | given _ hc hv =>
      obtain ⟨hwf, hsegments, hn, rfl⟩ := viewOf_of_given hc hv
      exact ⟨hsegments, hwf.add_le hn, fun _ =>
        ⟨hwf.located, fun _ => hwf.settled, fun hk => absurd hk (Nat.lt_irrefl 0)⟩⟩
  | @passed start n k j v w _ hw ih =>
      obtain ⟨hsegments, hle, hplace⟩ := ih
      obtain ⟨-, hsegments', -, hplace'⟩ := of_advance? hw
      by_cases hj : j = 0
      · subst hj
        rw [advance?_zero hw]
        exact ⟨hsegments, hle, hplace⟩
      · refine ⟨hsegments'.trans hsegments, hsegments'.symm ▸ hle, ?_⟩
        intro hk
        obtain ⟨q, hrun, hq⟩ := advanceTurn_spec (hplace (by omega)).locates
          (Nat.pos_of_ne_zero hj) (by omega : start + k + j ≤ start + n) hle
        obtain ⟨hlocates, hlands⟩ := hq (by omega)
        rw [hsegments', hplace', hrun, ← Nat.add_assoc]
        exact ⟨hlocates, fun hzero => absurd hzero (by omega), fun _ => hlands⟩

/-- **COMPLETENESS, BUT FOR GAPS**: of a view that a cursor gave for `n` bytes from `start` on, and
    of which `k` have been passed in any steps, the rest is handed out without copying exactly if it
    lies within a single piece, unless some of the bytes have been passed, and some have not, and an
    empty piece lies between the last one that has and the first one that has not. -/
theorem contiguous_iff (h : Over b start n k v) :
    v.contiguous?.isSome = true ↔ b.cursor.segments.OnePiece (start + k) (n - k)
      ∧ ¬ (0 < k ∧ k < n ∧ b.cursor.segments.GapAt (start + k)) := by
  obtain ⟨hk, hlength, -⟩ := h.shows
  obtain ⟨hsegments, hle, hplace⟩ := h.placed
  rw [← hsegments, ← hlength]
  by_cases hall : k = n
  · have hzero : v.length = 0 := by omega
    exact ⟨fun _ => ⟨Or.inl hzero, by omega⟩, fun _ => v.contiguous?_isSome_iff.mpr (by omega)⟩
  · have hstands := hplace (by omega)
    have hoffset := hstands.offset_lt_iff (by omega)
    by_cases hgap : 0 < k ∧ v.segments.GapAt (start + k)
    · -- the piece that the view starts in has none of its bytes
      have hsize := Nat.le_of_not_lt (fun hlt => hoffset.mp hlt hgap)
      rw [v.contiguous?_isSome_iff]
      exact ⟨fun hfit => by omega, fun hnone => absurd ⟨hgap.1, by omega, hgap.2⟩ hnone.2⟩
    · rw [contiguous?_of_offset_lt hstands.locates (by omega) (hoffset.mpr hgap)]
      exact ⟨fun hone => ⟨hone, fun hgap' => hgap ⟨hgap'.1, hgap'.2.2⟩⟩, fun hone => hone.1⟩

/-- The two bytes that are left of four lie within the last piece, as does one of those that have
    been passed. -/
theorem contiguous_behind_gap :
    ∃ v, Over (.pieces #[⟨#[1]⟩, ⟨#[]⟩, ⟨#[2, 3, 4]⟩]) 0 4 2 v ∧ v.contiguous?.isSome = true := by
  have hgiven : Over (.pieces #[⟨#[1]⟩, ⟨#[]⟩, ⟨#[2, 3, 4]⟩]) 0 4 0
      ⟨.ofParts #[⟨#[1]⟩, ⟨#[]⟩, ⟨#[2, 3, 4]⟩], ⟨0, 0⟩, 4⟩ :=
    .given [] (List.mem_singleton.mpr rfl) (Or.inr ⟨_, rfl⟩)
  have hpassed := hgiven.passed (j := 2) rfl
  exact ⟨_, hpassed, (contiguous_iff hpassed).mpr (by decide)⟩

/-- At a gap a view is not handed out, although what is left of it lies within the last piece. -/
theorem not_contiguous_at_gap :
    ∃ v, Over (.pieces #[⟨#[0x61, 0x62]⟩, ⟨#[]⟩, ⟨#[0x63, 0x64]⟩]) 0 4 2 v
      ∧ v.contiguous?.isSome = false ∧ v.segments.OnePiece 2 2 := by
  have hgiven : Over (.pieces #[⟨#[0x61, 0x62]⟩, ⟨#[]⟩, ⟨#[0x63, 0x64]⟩]) 0 4 0
      ⟨.ofParts #[⟨#[0x61, 0x62]⟩, ⟨#[]⟩, ⟨#[0x63, 0x64]⟩], ⟨0, 0⟩, 4⟩ :=
    .given [] (List.mem_singleton.mpr rfl) (Or.inr ⟨_, rfl⟩)
  exact ⟨_, hgiven.passed (j := 2) rfl, rfl, by decide⟩

end View

end MessagePack
