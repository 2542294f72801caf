/-!
# Parts of a block

A part of a block is a range of its list of bytes. `overwriteAt` replaces bytes inside a block by as
many others. If they lie within the block, then its size stays the same, and so do all bytes before
and behind them.
-/

namespace MessagePack

/-- The bytes of a range of a block. -/
theorem toList_extract (block : ByteArray) (start stop : Nat) :
    (block.extract start stop).data.toList
      = (block.data.toList.drop start).take (stop - start) := by
  rw [ByteArray.data_extract, Array.toList_extract, List.extract_eq_take_drop]

/-- The bytes of a block from an offset on. -/
theorem toList_extract_size (block : ByteArray) (start : Nat) :
    (block.extract start block.size).data.toList = block.data.toList.drop start := by
  have hlength : (block.data.toList.drop start).length = block.size - start := by
    rw [List.length_drop, Array.length_toList, ByteArray.size_data]
  rw [toList_extract, List.take_of_length_le (Nat.le_of_eq hlength)]

/-- Offsets beyond the end of a block are as good as its end. -/
theorem extract_clamp (block : ByteArray) (start stop : Nat) :
    block.extract (min start block.size) (min stop block.size) = block.extract start stop := by
  by_cases hstart : start ≤ block.size
  · rw [Nat.min_eq_left hstart]
    apply ByteArray.ext
    rw [ByteArray.data_extract, ByteArray.data_extract]
    exact Array.extract_eq_extract_right.mpr (by rw [ByteArray.size_data]; omega)
  · have hempty : block.extract start stop = .empty :=
      ByteArray.extract_eq_empty_iff.mpr (by omega)
    rw [hempty]
    exact ByteArray.extract_eq_empty_iff.mpr (by omega)

/-- Puts bytes into a block from an offset on, over what is there. -/
def overwriteAt (block : ByteArray) (offset : Nat) (bytes : ByteArray) : ByteArray :=
  bytes.copySlice 0 block offset bytes.size

theorem data_overwriteAt (block : ByteArray) (offset : Nat) (bytes : ByteArray) :
    (overwriteAt block offset bytes).data = block.data.extract 0 offset ++ bytes.data
      ++ block.data.extract (offset + bytes.size) block.size := by
  simp [overwriteAt, ByteArray.copySlice, ← ByteArray.size_data]

/-- The bytes of a block that has been written over. -/
theorem toList_overwriteAt (block : ByteArray) (offset : Nat) (bytes : ByteArray) :
    (overwriteAt block offset bytes).data.toList = block.data.toList.take offset
      ++ bytes.data.toList ++ block.data.toList.drop (offset + bytes.size) := by
  have hrest := toList_extract_size block (offset + bytes.size)
  rw [ByteArray.data_extract] at hrest
  rw [data_overwriteAt, Array.toList_append, Array.toList_append, hrest, Array.toList_extract,
    List.extract_eq_take_drop, Nat.sub_zero, List.drop_zero]

/-- Bytes that lie within a block do not change its size. -/
theorem size_overwriteAt {block : ByteArray} {offset : Nat} {bytes : ByteArray}
    (h : offset + bytes.size ≤ block.size) :
    (overwriteAt block offset bytes).size = block.size := by
  rw [← ByteArray.size_data, data_overwriteAt]
  simp only [Array.size_append, Array.size_extract, ByteArray.size_data]
  omega

/-- A block up to the end of what was put into it: what was there before, and what was put there. -/
theorem extract_overwriteAt {block : ByteArray} {offset : Nat} (bytes : ByteArray)
    (h : offset ≤ block.size) :
    (overwriteAt block offset bytes).extract 0 (offset + bytes.size)
      = block.extract 0 offset ++ bytes := by
  have hsize : (block.data.extract 0 offset ++ bytes.data).size = offset + bytes.size := by
    simp only [Array.size_append, Array.size_extract, ByteArray.size_data]
    omega
  apply ByteArray.ext
  rw [ByteArray.data_extract, data_overwriteAt, ByteArray.data_append, ByteArray.data_extract,
    Array.extract_append, ← hsize, Array.extract_size]
  simp

end MessagePack
