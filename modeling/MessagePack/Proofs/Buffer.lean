import Mathlib.Data.List.Infix
import MessagePack.Buffer

/-!
# A buffer is a list of bytes

What is committed to a buffer, and what is dropped from it, is all that its content depends on. The
block behind it has a size of its own, and bytes behind the content that were handed out before and
are handed out again; none of that shows in the content.

* **`Buffer.Account`** is what a user of a buffer knows of it without looking: the list of what has
  been committed, and the region in hand as the user has left it. `Step.record` keeps the account,
  and `Step.Fits` is what a user keeps to: no more is put into a region or committed from it than
  there is of it.
* **`Buffer.Kept`** is the buffers that come of any number of steps, each with its account.
* **`Buffer.Tracks.step`** is the step, and **`Buffer.refines_list`** the run.
-/

namespace MessagePack

namespace Buffer

/-! ## The block as a list -/

/-- The content is the bytes of the block that have been committed. -/
theorem toList_content (b : Buffer) :
    b.content.data.toList = b.store.data.toList.take b.written := by
  rw [content, toList_extract, List.drop_zero, Nat.sub_zero]

/-- The region is the bytes of the block behind the content. -/
theorem toList_region (b : Buffer) : b.region.data.toList = b.store.data.toList.drop b.written :=
  toList_extract_size b.store b.written

theorem length_store (b : Buffer) : b.store.data.toList.length = b.store.size := by
  rw [Array.length_toList, ByteArray.size_data]

theorem length_content (b : Buffer) : b.content.data.toList.length = b.size := by
  rw [toList_content, List.length_take, length_store]
  exact Nat.min_eq_left b.written_le

/-- The region has as many bytes as there is room for. -/
theorem size_region (b : Buffer) : b.region.size = b.room := by
  rw [← ByteArray.size_data, ← Array.length_toList, toList_region, List.length_drop, length_store]
  rfl

/-- A region that is asked for is at least as long as asked. -/
theorem le_size_region_writable (b : Buffer) (hint : Nat) :
    hint ≤ (b.writable hint).region.size := by
  rw [size_region]
  exact le_room_writable b hint

/-- The block, cut off behind the content, is the content. -/
theorem toList_intoBytes (b : Buffer) : b.intoBytes.data.toList = b.content.data.toList := by
  rw [toList_content, intoBytes, firstBytes]
  split
  · rename_i hle
    rw [List.take_of_length_le (by rw [length_store]; exact hle)]
  · rw [toList_extract, List.drop_zero, Nat.sub_zero]

/-! ## What each step does to content and region -/

theorem store_fill (b : Buffer) (bytes : ByteArray) :
    (b.fill bytes).store = overwriteAt b.store b.written (firstBytes bytes b.room) := by
  rw [fill]

theorem written_fill (b : Buffer) (bytes : ByteArray) : (b.fill bytes).written = b.written := by
  rw [fill]

/-- What is put into the region goes behind the content, over as many bytes of the region. -/
theorem toList_store_fill (b : Buffer) {bytes : ByteArray} (h : bytes.size ≤ b.room) :
    (b.fill bytes).store.data.toList = b.content.data.toList ++ bytes.data.toList
      ++ b.region.data.toList.drop bytes.size := by
  have hfits : firstBytes bytes b.room = bytes := if_pos h
  rw [store_fill, hfits, toList_overwriteAt, toList_content, toList_region, List.drop_drop]

/-- No bytes put into the region change the content, be they more than it has room for. -/
theorem content_fill (b : Buffer) (bytes : ByteArray) : (b.fill bytes).content = b.content := by
  have hwritten := b.written_le
  have hlength : b.written ≤ (b.store.data.toList.take b.written).length := by
    rw [List.length_take, length_store]
    omega
  apply ByteArray.ext
  rw [← Array.toList_inj, toList_content, toList_content, store_fill, written_fill,
    toList_overwriteAt, List.append_assoc, List.take_append_of_le_length hlength, List.take_take,
    Nat.min_self]

/-- Bytes that a region has room for stand at its start, and the rest of it stays. -/
theorem region_fill (b : Buffer) {bytes : ByteArray} (h : bytes.size ≤ b.room) :
    (b.fill bytes).region.data.toList
      = bytes.data.toList ++ b.region.data.toList.drop bytes.size := by
  have hlength : b.content.data.toList.length = b.written := b.length_content
  rw [toList_region, toList_store_fill b h, written_fill, List.append_assoc,
    List.drop_left' hlength]

/-- Committing moves bytes from the front of the region to the end of the content. -/
theorem content_commit (b : Buffer) {count : Nat} (h : count ≤ b.room) :
    (b.commit count).content.data.toList
      = b.content.data.toList ++ b.region.data.toList.take count := by
  have hwritten := b.written_le
  rw [room] at h
  rw [toList_content, toList_content, toList_region, ← List.take_add]
  show b.store.data.toList.take (min (b.written + count) b.store.size) = _
  rw [Nat.min_eq_left (by omega)]

/-- What is committed leaves the region. -/
theorem region_commit (b : Buffer) {count : Nat} (h : count ≤ b.room) :
    (b.commit count).region.data.toList = b.region.data.toList.drop count := by
  have hwritten := b.written_le
  rw [room] at h
  rw [toList_region, toList_region, List.drop_drop]
  show b.store.data.toList.drop (min (b.written + count) b.store.size) = _
  rw [Nat.min_eq_left (by omega)]

/-- To truncate keeps the first bytes of the content. -/
theorem content_truncate (b : Buffer) (size : Nat) :
    (b.truncate size).content.data.toList = b.content.data.toList.take size := by
  rw [truncate]
  split
  · rename_i hlt
    rw [toList_content, toList_content, List.take_take]
    show b.store.data.toList.take size = _
    rw [Nat.min_eq_left (Nat.le_of_lt hlt)]
  · rename_i hle
    rw [List.take_of_length_le]
    rw [length_content]
    exact Nat.le_of_not_lt hle

/-- Dropping bytes that are not there leaves a buffer as it is. -/
theorem truncate_of_size_le {b : Buffer} {size : Nat} (h : b.size ≤ size) : b.truncate size = b :=
  dif_neg (Nat.not_lt_of_le h)

/-! ## Accounts -/

/-- What a user of a buffer knows: the committed bytes, and the region in hand. -/
structure Account where
  content : List UInt8
  region : List UInt8

/-- The account after a step. A region is handed out with bytes of no meaning in it, so these are
    looked up in the buffer afterwards; committing uses up the front of it, and dropping content
    takes it back. -/
def Step.record (a : Account) (after : Buffer) : Step → Account
  | .writable _ => ⟨a.content, after.region.data.toList⟩
  | .fill bytes => ⟨a.content, bytes.data.toList ++ a.region.drop bytes.size⟩
  | .commit count => ⟨a.content ++ a.region.take count, a.region.drop count⟩
  | .truncate size => ⟨a.content.take size, if a.content.length ≤ size then a.region else []⟩
  | .reset => ⟨[], []⟩
  | .clone => a

/-- A step that stays within the region in hand. -/
def Step.Fits (a : Account) : Step → Prop
  | .fill bytes => bytes.size ≤ a.region.length
  | .commit count => count ≤ a.region.length
  | _ => True

/-- **Kept b a**: the buffer comes of a fresh one by any number of steps that stay within the region
    in hand, and `a` is the account that was kept of them. -/
inductive Kept : Buffer → Account → Prop
  | fresh (capacity : Nat) (growth : Growth) : Kept (withCapacity capacity growth) ⟨[], []⟩
  | step {b : Buffer} {a : Account} (h : Kept b a) (step : Step) (hfits : step.Fits a) :
      Kept (step.run b) (step.record a (step.run b))

/-- What the account says of the buffer. -/
structure Tracks (b : Buffer) (a : Account) : Prop where
  content_eq : b.content.data.toList = a.content
  region_prefix : a.region <+: b.region.data.toList

variable {b : Buffer} {a : Account}

/-- The region in hand is no more than there is room for. -/
theorem Tracks.length_region_le (h : Tracks b a) : a.region.length ≤ b.room := by
  have hle := h.region_prefix.length_le
  rwa [Array.length_toList, ByteArray.size_data, size_region] at hle

/-- A region that is asked for is all accounted for, and the content stays. -/
theorem Tracks.writable (h : Tracks b a) (hint : Nat) :
    Tracks (b.writable hint) ⟨a.content, (b.writable hint).region.data.toList⟩ where
  content_eq := by rw [content_writable]; exact h.content_eq
  region_prefix := List.prefix_rfl

/-- What is filled in is accounted for, at the start of the region. -/
theorem Tracks.fill {bytes : ByteArray} (h : Tracks b a) (hfits : bytes.size ≤ a.region.length) :
    Tracks (b.fill bytes) ⟨a.content, bytes.data.toList ++ a.region.drop bytes.size⟩ where
  content_eq := by rw [content_fill]; exact h.content_eq
  region_prefix := by
    rw [region_fill b (Nat.le_trans hfits h.length_region_le)]
    exact (List.prefix_append_right_inj _).mpr (h.region_prefix.drop bytes.size)

/-- What is committed moves from the region to the content. -/
theorem Tracks.commit {count : Nat} (h : Tracks b a) (hfits : count ≤ a.region.length) :
    Tracks (b.commit count) ⟨a.content ++ a.region.take count, a.region.drop count⟩ := by
  have hroom := Nat.le_trans hfits h.length_region_le
  obtain ⟨rest, hrest⟩ := h.region_prefix
  constructor
  · show _ = a.content ++ a.region.take count
    rw [content_commit b hroom, h.content_eq, ← hrest, List.take_append_of_le_length hfits]
  · rw [region_commit b hroom]
    exact h.region_prefix.drop count

/-- Of a buffer that is cut off, the content that is kept is accounted for; the region is only if
    nothing was dropped. -/
theorem Tracks.truncate (h : Tracks b a) (size : Nat) : Tracks (b.truncate size)
    ⟨a.content.take size, if a.content.length ≤ size then a.region else []⟩ := by
  -- once content is cut off, nothing is known of the region behind it
  have hlength : a.content.length = b.size := by rw [← h.content_eq, length_content]
  constructor
  · show _ = a.content.take size
    rw [content_truncate, h.content_eq]
  · show (if a.content.length ≤ size then a.region else []) <+: _
    split
    · rename_i hle
      rw [truncate_of_size_le (hlength ▸ hle)]
      exact h.region_prefix
    · exact List.nil_prefix

/-- The step: whatever is done with a buffer, the account stays right. -/
theorem Tracks.step (h : Tracks b a) (step : Step) (hfits : step.Fits a) :
    Tracks (step.run b) (step.record a (step.run b)) := by
  cases step with
  | writable hint => exact h.writable hint
  | fill bytes => exact h.fill hfits
  | commit count => exact h.commit hfits
  | truncate size => exact h.truncate size
  | reset => exact ⟨rfl, List.nil_prefix⟩
  | clone => exact ⟨h.content_eq, h.region_prefix⟩

/-- The run. -/
theorem Kept.tracks (h : Kept b a) : Tracks b a := by
  induction h with
  | fresh capacity growth => exact ⟨rfl, List.nil_prefix⟩
  | step _ step hfits ih => exact ih.step step hfits

/-- **REFINEMENT**: whatever has been done with a buffer and with copies of it, its content is the
    list of what was committed and has not been dropped, and the region in hand holds what its user
    put there. Every region is as large as it was asked to be; neither a new region, however the
    block grows for it, nor anything put there changes the content; the content lies within the
    block and the block within the memory; and every way of giving the content away, from the
    buffer and from a copy of it, gives that list. -/
theorem refines_list (h : Kept b a) :
    b.content.data.toList = a.content ∧ b.size = a.content.length
      ∧ a.region <+: b.region.data.toList
      ∧ (∀ hint, hint ≤ (b.writable hint).region.size)
      ∧ (∀ hint bytes, ((b.writable hint).fill bytes).content = b.content)
      ∧ b.size ≤ b.store.size ∧ b.store.size ≤ b.capacity
      ∧ ∀ c ∈ [b, b.clone], c.content.data.toList = a.content
        ∧ c.toBytes.data.toList = a.content ∧ c.intoBytes.data.toList = a.content := by
  obtain ⟨hcontent, hregion⟩ := h.tracks
  have hlength : b.size = a.content.length := by rw [← length_content, hcontent]
  refine ⟨hcontent, hlength, hregion, b.le_size_region_writable, ?_, b.written_le, b.size_le, ?_⟩
  · intro hint bytes
    rw [content_fill, content_writable]
  -- a copy has the same block, so what is said of the one holds of the other
  · intro c hc
    have hc' : c.content.data.toList = a.content := by
      rcases List.mem_cons.mp hc with rfl | hclone
      · exact hcontent
      · rw [List.mem_singleton.mp hclone]
        exact hcontent
    exact ⟨hc', hc', by rw [toList_intoBytes, hc']⟩

/-- Bytes for which a region is asked, and which are put there and committed, come behind the list.
-/
theorem Kept.put (h : Kept b a) (bytes : ByteArray) : ∃ region,
    Kept (((b.writable bytes.size).fill bytes).commit bytes.size)
      ⟨a.content ++ bytes.data.toList, region⟩ := by
  have hlength : bytes.data.toList.length = bytes.size := by
    rw [Array.length_toList, ByteArray.size_data]
  -- three steps of the history: a region is asked for, filled and committed
  have hasked : Kept (b.writable bytes.size)
      ⟨a.content, (b.writable bytes.size).region.data.toList⟩ :=
    h.step (.writable bytes.size) trivial
  have hroom : bytes.size ≤ (b.writable bytes.size).region.data.toList.length := by
    rw [Array.length_toList, ByteArray.size_data]
    exact b.le_size_region_writable bytes.size
  have hfilled : Kept ((b.writable bytes.size).fill bytes) ⟨a.content,
      bytes.data.toList ++ (b.writable bytes.size).region.data.toList.drop bytes.size⟩ :=
    hasked.step (.fill bytes) hroom
  generalize (b.writable bytes.size).region.data.toList.drop bytes.size = rest at hfilled
  have hfits : bytes.size ≤ (bytes.data.toList ++ rest).length := by
    rw [List.length_append, hlength]
    exact Nat.le_add_right _ _
  have hcommitted : Kept (((b.writable bytes.size).fill bytes).commit bytes.size)
      ⟨a.content ++ (bytes.data.toList ++ rest).take bytes.size,
        (bytes.data.toList ++ rest).drop bytes.size⟩ := hfilled.step (.commit bytes.size) hfits
  rw [List.take_left' hlength] at hcommitted
  exact ⟨_, hcommitted⟩

/-- Three bytes are committed and all but the first dropped; the region that is then handed out
    still has the others in it, and what is put over them is committed in their place. -/
theorem refines_list_reused : ∃ b region, Kept b ⟨[1, 7], region⟩
    ∧ b.content.data.toList = [1, 7] ∧ b.clone.intoBytes.data.toList = [1, 7] := by
  obtain ⟨_, hfirst⟩ := (Kept.fresh 0 .exact).put ⟨#[1, 2, 3]⟩
  obtain ⟨_, hkept⟩ := (hfirst.step (.truncate 1) trivial).put ⟨#[7]⟩
  obtain ⟨hcontent, -, -, -, -, -, -, hcopies⟩ := refines_list hkept
  obtain ⟨-, -, hclone⟩ := hcopies _ (List.mem_cons_of_mem _ (List.mem_singleton.mpr rfl))
  exact ⟨_, _, hkept, hcontent, hclone⟩

end Buffer

end MessagePack
