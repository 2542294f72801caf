import MessagePack.Overwrite
import MessagePack.Sink

/-!
# Growable buffers

A `Buffer` hands out the tail of one block of memory as its region. Only what has been committed is
content; what lies behind it is space that later regions hand out again, with whatever was left
there.

* **`Buffer.writable`** makes the region at least as large as asked. When it has to grow, it grows
  by no less than 256 bytes and no less than the content, and the new bytes are zero.
* **`Buffer.commit`**, **`Buffer.truncate`** and **`Buffer.reset`** move the end of the content.
* **`Buffer.toBytes`** and **`Buffer.intoBytes`** give the content away, and **`Buffer.clone`** is a
  buffer of its own.
* **`Growth`** is how much memory is obtained when a block has to be larger: any amount that is
  enough. No operation but the pool, which refuses buffers that hold too much, depends on it.
-/

namespace MessagePack

/-- How much memory a block holds once it must hold `needed` bytes, given what it holds now. -/
structure Growth where
  next : (current needed : Nat) → Nat
  covers : ∀ current needed, needed ≤ next current needed

/-- The growth that obtains exactly what is needed, and gives nothing back. -/
def Growth.exact : Growth :=
  ⟨max, Nat.le_max_right⟩

/-- A block of `n` zero bytes. -/
def zeros (n : Nat) : ByteArray :=
  ⟨Array.replicate n 0⟩

@[simp] theorem size_zeros (n : Nat) : (zeros n).size = n := by
  simp [zeros, ByteArray.size]

/-- A growable buffer. The content is the first `written` bytes of `store`, and `capacity` is the
amount of memory that the buffer holds. -/
structure Buffer where
  store : ByteArray
  written : Nat
  capacity : Nat
  growth : Growth
  written_le : written ≤ store.size
  size_le : store.size ≤ capacity

namespace Buffer

/-- The least number of bytes by which a buffer grows. -/
def minGrowth : Nat :=
  256

/-- A buffer with no content that holds memory from the start. -/
def withCapacity (capacity : Nat) (growth : Growth := .exact) : Buffer :=
  ⟨.empty, 0, capacity, growth, Nat.zero_le _, Nat.zero_le _⟩

/-- A buffer that holds no memory. -/
def empty (growth : Growth := .exact) : Buffer :=
  withCapacity 0 growth

instance : Inhabited Buffer :=
  ⟨empty⟩

/-- The committed content. -/
def content (b : Buffer) : ByteArray :=
  b.store.extract 0 b.written

/-- The number of bytes of content. -/
def size (b : Buffer) : Nat :=
  b.written

/-- The size of the region behind the content. -/
def room (b : Buffer) : Nat :=
  b.store.size - b.written

/-- The region behind the content, with the bytes that are there now. -/
def region (b : Buffer) : ByteArray :=
  b.store.extract b.written b.store.size

/-- The first `n` of some bytes. -/
def firstBytes (bytes : ByteArray) (n : Nat) : ByteArray :=
  if bytes.size ≤ n then bytes else bytes.extract 0 n

/-- There are as many first bytes as asked for, or all of them. -/
theorem size_firstBytes (bytes : ByteArray) (n : Nat) :
    (firstBytes bytes n).size = min bytes.size n := by
  unfold firstBytes
  split
  · omega
  · rw [ByteArray.size_extract]
    omega

/-- A block of another size: its first bytes, with zeros behind them if there are not enough. -/
def resized (block : ByteArray) (size : Nat) : ByteArray :=
  firstBytes block size ++ zeros (size - block.size)

@[simp] theorem size_resized (block : ByteArray) (size : Nat) :
    (resized block size).size = size := by
  rw [resized, ByteArray.size_append, size_firstBytes, size_zeros]
  omega

/-- Gives the block another size, which must leave the content in it. -/
def resize (b : Buffer) (size : Nat) (h : b.written ≤ size) : Buffer where
  store := resized b.store size
  written := b.written
  capacity := b.growth.next b.capacity size
  growth := b.growth
  written_le := by rw [size_resized]; exact h
  size_le := by rw [size_resized]; exact b.growth.covers b.capacity size

/-- Makes the region at least `hint` bytes long. -/
def writable (b : Buffer) (hint : Nat) : Buffer :=
  if b.room < hint then
    b.resize (b.written + max (max hint minGrowth) b.written) (Nat.le_add_right _ _)
  else b

/-- Filling a region leaves the size of the block as it is. -/
theorem size_overwriteAt_firstBytes (b : Buffer) (bytes : ByteArray) :
    (overwriteAt b.store b.written (firstBytes bytes b.room)).size = b.store.size := by
  have := b.written_le
  apply size_overwriteAt
  rw [size_firstBytes, room]
  omega

/-- Puts bytes at the start of the region, as many as it has room for. -/
def fill (b : Buffer) (bytes : ByteArray) : Buffer where
  store := overwriteAt b.store b.written (firstBytes bytes b.room)
  written := b.written
  capacity := b.capacity
  growth := b.growth
  written_le := by rw [size_overwriteAt_firstBytes]; exact b.written_le
  size_le := by rw [size_overwriteAt_firstBytes]; exact b.size_le

/-- Adds the first `count` bytes of the region to the content. -/
def commit (b : Buffer) (count : Nat) : Buffer :=
  { b with
    written := min (b.written + count) b.store.size
    written_le := Nat.min_le_right _ _ }

/-- Drops the content behind the first `size` bytes. -/
def truncate (b : Buffer) (size : Nat) : Buffer :=
  if h : size < b.written then
    { b with
      written := size
      written_le := Nat.le_trans (Nat.le_of_lt h) b.written_le }
  else b

/-- Drops the content and everything behind it, and keeps the memory. -/
def reset (b : Buffer) : Buffer :=
  withCapacity b.capacity b.growth

/-! ## Copies -/

/-- A buffer of its own with the same block. Memory is obtained for it if the block has bytes. -/
def clone (b : Buffer) : Buffer where
  store := b.store
  written := b.written
  capacity := if b.store.size = 0 then 0 else b.growth.next 0 b.store.size
  growth := b.growth
  written_le := b.written_le
  size_le := by
    have := b.growth.covers 0 b.store.size
    split <;> omega

/-- A copy of the content. -/
def toBytes (b : Buffer) : ByteArray :=
  b.content

/-- The block itself, cut off behind the content. -/
def intoBytes (b : Buffer) : ByteArray :=
  firstBytes b.store b.written

instance : Sink Buffer where
  request b hint := b.writable hint
  room b := b.room
  append b bytes := (b.fill bytes).commit bytes.size

/-! ## What the content is -/

/-- Another size keeps the first bytes that there is room for. -/
theorem extract_resized {block : ByteArray} {size n : Nat} (hsize : n ≤ size)
    (hblock : n ≤ block.size) : (resized block size).extract 0 n = block.extract 0 n := by
  have hzeros : (zeros (size - block.size)).extract (0 - min block.size size) 0 = .empty :=
    ByteArray.extract_eq_empty_iff.mpr (by omega)
  rw [resized, ByteArray.extract_append, size_firstBytes,
    show n - min block.size size = 0 by omega, hzeros, ByteArray.append_empty, firstBytes]
  split
  · rfl
  · rw [ByteArray.extract_extract, Nat.zero_add, Nat.zero_add, Nat.min_eq_left hsize]

/-- To ask for a region leaves the content as it is. -/
theorem content_writable (b : Buffer) (hint : Nat) : (b.writable hint).content = b.content := by
  unfold writable
  split
  · exact extract_resized (Nat.le_add_right _ _) b.written_le
  · rfl

/-- A region that is asked for is at least as long as asked. -/
theorem le_room_writable (b : Buffer) (hint : Nat) : hint ≤ (b.writable hint).room := by
  unfold writable
  split
  · simp only [room, resize, size_resized]
    omega
  · omega

/-- What is put into a region that has room for it and committed comes behind the content. -/
theorem content_commit_fill (b : Buffer) {bytes : ByteArray} (h : bytes.size ≤ b.room) :
    ((b.fill bytes).commit bytes.size).content = b.content ++ bytes := by
  have hb : firstBytes bytes b.room = bytes := by simp [firstBytes, h]
  have hsize := size_overwriteAt_firstBytes b bytes
  have := b.written_le
  rw [room] at h
  rw [hb] at hsize
  simp only [content, commit, fill, hb, hsize]
  rw [Nat.min_eq_left (by omega), extract_overwriteAt bytes b.written_le]

instance : LawfulSink Buffer where
  content b := b.content.data.toList
  content_request b hint := by
    rw [show Sink.request b hint = b.writable hint from rfl, content_writable]
  le_room_request b hint := le_room_writable b hint
  content_append b bytes h := by
    rw [show Sink.append b bytes = (b.fill bytes).commit bytes.size from rfl,
      content_commit_fill b h]
    simp

/-! ## Histories -/

/-- One use of a buffer. After `clone` the copy is used in its place. -/
inductive Step where
  | writable (hint : Nat)
  | fill (bytes : ByteArray)
  | commit (count : Nat)
  | truncate (size : Nat)
  | reset
  | clone

/-- The buffer after one use. -/
def Step.run (b : Buffer) : Step → Buffer
  | .writable hint => b.writable hint
  | .fill bytes => b.fill bytes
  | .commit count => b.commit count
  | .truncate size => b.truncate size
  | .reset => b.reset
  | .clone => b.clone

end Buffer

end MessagePack
