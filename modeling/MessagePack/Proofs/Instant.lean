import MessagePack.Proofs.Header

/-!
# Instants in every layout

A timestamp is an instant with a nanosecond below one second. It is made from parts, from a clock
with any offset, whose leap seconds run on to almost two seconds, or from the payload of an
extension in one of three layouts.

* **`Timestamp.Made`** is the ways to a timestamp but for reading, with the instant that each of
  them starts from: `Timestamp.Made.instant_eq` says that it is kept.
* **`Timestamp.Fields`** writes the layouts out, and `Timestamp.fields_iff` shows them to be what is
  read.
* **`timestamp_any_layout`**: what is written for a timestamp, and what is read from an extension of
  its type in any form.
-/

namespace MessagePack

/-! ## Where timestamps come from -/

namespace DateTime

/-- The instant in nanoseconds since the epoch. A leap second runs on into the second after it. -/
def instant (d : DateTime) : Int :=
  d.seconds.toInt * nanosPerSecond + d.nanoseconds.toNat

/-- A clock that is ahead of UTC shows an instant before it is there in UTC. -/
theorem instant_of_ofLocal? {clock : Calendar.LocalTime} {offset : Int} {d : DateTime}
    (h : ofLocal? clock offset = some d) :
    d.instant = (clock.toSeconds - offset) * nanosPerSecond + clock.nanosecond := by
  simp only [ofLocal?] at h
  split at h
  · rename_i hmem
    cases h
    obtain ⟨hseconds, hnanos⟩ := hmem
    simp only [minCalendarSeconds, maxCalendarSeconds] at hseconds
    simp only [nanosPerSecond] at hnanos
    simp only [instant]
    rw [Int64.toInt_ofInt_of_le (by omega) (by omega),
      UInt32.toNat_ofNat_of_lt' (by simp only [UInt32.size]; omega)]
  · cases h

end DateTime

namespace Timestamp

/-- The instant in nanoseconds since the epoch. -/
def instant (t : Timestamp) : Int :=
  t.seconds.toInt * nanosPerSecond + t.nanoseconds.toNat

/-- A leap second is the start of the second after it: the nanoseconds are carried over. -/
theorem instant_ofDateTime (d : DateTime) : (ofDateTime d).instant = d.instant := by
  obtain ⟨hle, hlt⟩ := d.seconds_mem
  have hnanos := d.nanoseconds_lt
  rw [ofDateTime]
  split
  · rfl
  · rename_i hleap
    simp only [minCalendarSeconds, maxCalendarSeconds] at hle hlt
    simp only [nanosPerSecond] at hleap hnanos
    -- the calendar ends long before the seconds of a word do
    have hseconds : (d.seconds + 1).toInt = d.seconds.toInt + 1 := by
      rw [Int64.toInt_add, show (1 : Int64).toInt = 1 from rfl]
      exact Int.bmod_eq_of_le (by omega) (by omega)
    simp only [instant, DateTime.instant, nanosPerSecond, hseconds]
    rw [UInt32.toNat_ofNat_of_lt' (by simp only [UInt32.size]; omega)]
    omega

/-- The ways to a timestamp, with the instant that each starts from, in nanoseconds since the epoch.
    A date-time without an offset is taken to be in UTC. -/
inductive Made : Int → Timestamp → Prop
  | ofParts {s : Int64} {n : UInt32} {t : Timestamp} (h : Timestamp.ofParts s n = .ok t) :
      Made (s.toInt * nanosPerSecond + n.toNat) t
  | ofSeconds (s : Int64) : Made (s.toInt * nanosPerSecond) (Timestamp.ofSeconds s)
  | ofDateTime (d : DateTime) : Made d.instant (Timestamp.ofDateTime d)
  | ofLocal {clock : Calendar.LocalTime} {offset : Int} {d : DateTime}
      (h : DateTime.ofLocal? clock offset = some d) :
      Made ((clock.toSeconds - offset) * nanosPerSecond + clock.nanosecond)
        (Timestamp.ofDateTime d)

/-- **THE INSTANT IS KEPT** on every way to a timestamp. As the nanosecond is below one second,
    there is one timestamp for the instant. -/
theorem Made.instant_eq {i : Int} {t : Timestamp} (h : Made i t) : t.instant = i := by
  cases h with
  | ofParts h =>
      rw [Timestamp.ofParts] at h
      split at h <;> cases h
      rfl
  | ofSeconds s => exact Int.add_zero _
  | ofDateTime d => exact instant_ofDateTime d
  | ofLocal h => rw [instant_ofDateTime, DateTime.instant_of_ofLocal? h]

/-! ## Layouts -/

/-- The payloads of timestamps, with their seconds and nanoseconds. The fields are big-endian, and
    the seconds that may be negative are in two's complement. -/
inductive Fields : List UInt8 → Int → Nat → Prop
  /-- Seconds alone, in 32 bits. -/
  | seconds {s : Nat} (hs : s < 2 ^ 32) : Fields (BigEndian.encode 4 s) s 0
  /-- Nanoseconds in the upper 30 bits of a word, and seconds in the other 34. -/
  | packed {s n : Nat} (hs : s < 2 ^ 34) (hn : n < 2 ^ 30) :
      Fields (BigEndian.encode 8 (n * 2 ^ 34 + s)) s n
  /-- Nanoseconds in 32 bits, and then seconds in 64 bits. -/
  | full {s : Int} {n : Nat} (hs : -2 ^ 63 ≤ s ∧ s < 2 ^ 63) (hn : n < 2 ^ 32) :
      Fields (BigEndian.encode 4 n ++ BigEndian.encode 8 (s % 2 ^ 64).toNat) s n

/-- **THE LAYOUTS ARE ALL THERE ARE**: these are the parts that a payload is read as. -/
theorem fields_iff {payload : List UInt8} {s : Int} {n : Nat} :
    Fields payload s n ↔ partsOfPayload? payload = some (s, n) := by
  constructor
  · intro h
    cases h with
    | @seconds s hs =>
        rw [partsOfPayload?_seconds (BigEndian.length_encode 4 s),
          BigEndian.decode_encode_of_lt hs]
    | @packed s n hs hn =>
        rw [partsOfPayload?_packed (BigEndian.length_encode 8 _),
          BigEndian.decode_encode_of_lt (by omega)]
        congr 2 <;> omega
    | full hs hn =>
        have hlength : (BigEndian.encode 4 n).length = 4 := BigEndian.length_encode _ _
        have hseconds : (IntType.signed .w64).decode (BigEndian.encode 8 (s % 2 ^ 64).toNat) = s :=
          IntType.decode_encode_signed (w := .w64) hs.1 hs.2
        rw [partsOfPayload?_full, List.drop_left' hlength, List.take_left' hlength, hseconds,
          BigEndian.decode_encode_of_lt hn]
        rw [List.length_append, hlength, BigEndian.length_encode]
  · intro h
    have hlt := BigEndian.decode_lt payload
    have hpayload := BigEndian.encode_decode payload
    rcases partsOfPayload?_length h with hlength | hlength | hlength
    · rw [partsOfPayload?_seconds hlength] at h
      cases h
      rw [hlength] at hlt hpayload
      rw [← hpayload, BigEndian.decode_encode_of_lt hlt]
      exact .seconds hlt
    · rw [partsOfPayload?_packed hlength] at h
      cases h
      rw [hlength] at hlt hpayload
      -- a word is put together again from its upper 30 bits and the other 34
      have hform := Fields.packed (s := BigEndian.decode payload % 2 ^ 34)
        (n := BigEndian.decode payload / 2 ^ 34) (by omega) (by omega)
      rwa [Nat.div_add_mod', hpayload] at hform
    · rw [partsOfPayload?_full hlength] at h
      obtain ⟨rfl, rfl⟩ := Prod.mk.inj (Option.some.inj h)
      have hnanos := BigEndian.encode_decode (payload.take 4)
      have hlt := BigEndian.decode_lt (payload.take 4)
      rw [show (payload.take 4).length = 4 by rw [List.length_take, hlength]; rfl] at hnanos hlt
      have hdrop : (payload.drop 4).length = (IntType.signed .w64).width.bytes := by
        rw [List.length_drop, hlength]
        rfl
      have hmem := IntType.decode_mem hdrop
      simp only [IntType.least, IntType.greatest, Width.bits, Width.bytes] at hmem
      have hseconds : BigEndian.encode 8
          ((IntType.signed .w64).decode (payload.drop 4) % 2 ^ 64).toNat = payload.drop 4 :=
        IntType.encode_decode hdrop
      have hform := Fields.full (s := (IntType.signed .w64).decode (payload.drop 4)) (by omega) hlt
      rwa [hnanos, hseconds, List.take_append_drop] at hform

/-- Seconds fit into 64 bits with a sign, and nanoseconds into 32 bits, in every layout. -/
theorem Fields.mem {payload : List UInt8} {s : Int} {n : Nat} (h : Fields payload s n) :
    -2 ^ 63 ≤ s ∧ s < 2 ^ 63 ∧ n < 2 ^ 32 := by
  cases h <;> omega

/-- A payload of one of three lengths has fields, whatever its bytes are. -/
theorem exists_fields {payload : List UInt8}
    (h : payload.length = 4 ∨ payload.length = 8 ∨ payload.length = 12) :
    ∃ s n, Fields payload s n := by
  simp only [fields_iff]
  rcases h with h | h | h
  · exact ⟨_, _, partsOfPayload?_seconds h⟩
  · exact ⟨_, _, partsOfPayload?_packed h⟩
  · exact ⟨_, _, partsOfPayload?_full h⟩

/-- A payload stands for the timestamp that its fields denote. -/
theorem ofPayload?_eq_some_iff {payload : List UInt8} {t : Timestamp} :
    ofPayload? payload = some t ↔ Fields payload t.seconds.toInt t.nanoseconds.toNat := by
  constructor
  · intro h
    obtain ⟨s, n, hparts, hseconds, hnanos⟩ := parts_of_ofPayload? h
    have hfields := fields_iff.mpr hparts
    obtain ⟨hle, hlt, hn⟩ := hfields.mem
    rw [hseconds, hnanos, Int64.toInt_ofInt_of_le hle hlt, UInt32.toNat_ofNat_of_lt' hn]
    exact hfields
  · intro h
    exact ofPayload?_of_parts (fields_iff.mp h)

/-- Fields with too many nanoseconds denote nothing. -/
theorem ofPayload?_eq_none {payload : List UInt8} {s : Int} {n : Nat} (h : Fields payload s n)
    (hn : nanosPerSecond ≤ n) : ofPayload? payload = none := by
  cases ht : ofPayload? payload with
  | none => rfl
  | some t =>
      have hparts := fields_iff.mp (ofPayload?_eq_some_iff.mp ht)
      rw [fields_iff.mp h] at hparts
      cases hparts
      exact absurd t.nanoseconds_lt (Nat.not_lt.mpr hn)

/-- A payload of any other length denotes nothing. -/
theorem ofPayload?_of_length {payload : List UInt8}
    (h : ¬ (payload.length = 4 ∨ payload.length = 8 ∨ payload.length = 12)) :
    ofPayload? payload = none := by
  cases ht : ofPayload? payload with
  | none => rfl
  | some t =>
      obtain ⟨s, n, hparts, -, -⟩ := parts_of_ofPayload? ht
      exact absurd (partsOfPayload?_length hparts) h

end Timestamp

/-! ## Reading -/

namespace Reader

variable {header payload x : List UInt8} {t : Timestamp}

/-- The byte of the type of timestamps. -/
theorem extended_timestamp (h : HeaderForm .ext payload.length header) :
    Extended (header ++ 0xff :: payload) timestampType payload :=
  ⟨header, 0xff, headerForm_iff.mp h, rfl, rfl⟩

/-- An extension of the type of timestamps is read as the timestamp that its payload denotes. -/
theorem gives_timestamp (h : Extended x timestampType payload)
    (ht : Timestamp.ofPayload? payload = some t) : Gives timestamp x t := by
  refine Gives.of_reads fun d rest => (Reads.timestamp h).mono ?_ ?_
  · intro t' ht'
    exact Option.some.inj (ht'.symm.trans ht)
  · rintro e ⟨-, hnone⟩
    cases hnone.symm.trans ht

/-- A payload that denotes no timestamp is refused as such. -/
theorem rejects_timestamp (h : Extended x timestampType payload)
    (ht : Timestamp.ofPayload? payload = none) : Rejects timestamp x .invalidTimestamp := by
  refine Rejects.of_reads fun d rest => (Reads.timestamp h).mono ?_ ?_
  · intro t' ht'
    cases ht'.symm.trans ht
  · rintro e ⟨he, -⟩
    exact he

/-- Whatever is read as a timestamp is an extension of its type, and the timestamp is the one that
    the fields denote. -/
theorem of_timestamp_eq_ok {r s : Reader} (hr : r.cursor.WellFormed)
    (h : timestamp r = .ok t s) : ∃ header payload rest, HeaderForm .ext payload.length header
      ∧ Timestamp.Fields payload t.seconds.toInt t.nanoseconds.toNat
      ∧ r.cursor.ahead = (header ++ 0xff :: payload) ++ rest
      ∧ s = r.past (header ++ 0xff :: payload).length := by
  obtain ⟨n, hn, rfl, payload, ⟨header, b, hheader, htype, htake⟩, ht⟩ :=
    Recognizes.timestamp (d := r.depth) hr rfl h
  have hb : b = 0xff := by rw [← UInt8.toUInt8_toInt8 b, ← htype]; rfl
  subst hb
  refine ⟨header, payload, r.cursor.ahead.drop n, headerForm_iff.mpr hheader,
    Timestamp.ofPayload?_eq_some_iff.mp ht, ?_, ?_⟩
  · rw [← htake, List.take_append_drop]
  · rw [← htake, hr.length_take_ahead hn]

end Reader

/-! ## Writing -/

/-- The size of a timestamp, by the instant. -/
theorem Token.length_encodeTimestamp_eq (t : Timestamp) : (encodeTimestamp t).length =
    if t.nanoseconds = 0 ∧ 0 ≤ t.seconds.toInt ∧ t.seconds.toInt < 2 ^ 32 then 6
    else if 0 ≤ t.seconds.toInt ∧ t.seconds.toInt < 2 ^ 34 then 10 else 15 := by
  have hzero : t.nanoseconds = 0 ↔ t.nanoseconds.toNat = 0 := by
    rw [← UInt32.toNat_inj]
    rfl
  -- both fit into 32 bits exactly if there are no nanoseconds above the seconds
  simp only [length_encodeTimestamp, hzero]
  split_ifs <;> omega

/-! ## The result -/

/-- **TIMESTAMPS SURVIVE IN EVERY LAYOUT.**
    * However a timestamp is made, its nanosecond is below one second, and it is the instant it was
      made from. One that is read is what the fields of the payload denote.
    * A timestamp is written in 6, 10 or 15 bytes, as its instant needs, and is read from these
      bytes whatever is behind them.
    * An extension of the type of timestamps, in any form, is read as the timestamp that its fields
      denote. If the nanoseconds are not below one second, or the length is none of the three, it is
      no valid timestamp. -/
theorem timestamp_any_layout :
    (∀ i t, Timestamp.Made i t → t.nanoseconds.toNat < nanosPerSecond ∧ t.instant = i)
      ∧ (∀ (r s : Reader) (t : Timestamp), r.cursor.WellFormed → Reader.timestamp r = .ok t s →
        t.nanoseconds.toNat < nanosPerSecond
          ∧ ∃ header payload rest, HeaderForm .ext payload.length header
            ∧ Timestamp.Fields payload t.seconds.toInt t.nanoseconds.toNat
            ∧ r.cursor.ahead = (header ++ 0xff :: payload) ++ rest
            ∧ s = r.past (header ++ 0xff :: payload).length)
      ∧ (∀ t : Timestamp, ∃ x,
        (∀ (σ : Type) [LawfulSink σ],
          Writer.Emits (σ := σ) false (Writer.Command.timestamp t).run x ())
          ∧ (x.length = if t.nanoseconds = 0 ∧ 0 ≤ t.seconds.toInt ∧ t.seconds.toInt < 2 ^ 32 then 6
            else if 0 ≤ t.seconds.toInt ∧ t.seconds.toInt < 2 ^ 34 then 10 else 15)
          ∧ Reader.Gives Reader.timestamp x t)
      ∧ ∀ header payload, HeaderForm .ext payload.length header →
        (payload.length = 4 ∨ payload.length = 8 ∨ payload.length = 12 →
          ∃ s n, Timestamp.Fields payload s n)
        ∧ (∀ s n, Timestamp.Fields payload s n → n < nanosPerSecond →
          ∃ t : Timestamp, t.seconds.toInt = s ∧ t.nanoseconds.toNat = n
            ∧ Reader.Gives Reader.timestamp (header ++ 0xff :: payload) t)
        ∧ (∀ s n, Timestamp.Fields payload s n → nanosPerSecond ≤ n →
          Reader.Rejects Reader.timestamp (header ++ 0xff :: payload) .invalidTimestamp)
        ∧ (¬ (payload.length = 4 ∨ payload.length = 8 ∨ payload.length = 12) →
          Reader.Rejects Reader.timestamp (header ++ 0xff :: payload) .invalidTimestamp) := by
  refine ⟨?_, ?_, ?_, ?_⟩
  · intro i t h
    exact ⟨t.nanoseconds_lt, h.instant_eq⟩
  · intro r s t hr h
    exact ⟨t.nanoseconds_lt, Reader.of_timestamp_eq_ok hr h⟩
  · intro t
    obtain ⟨payload, hx, ht⟩ := Token.exists_encodeTimestamp t
    refine ⟨Token.encodeTimestamp t, ?_, Token.length_encodeTimestamp_eq t, ?_⟩
    · intro σ _
      exact Writer.emits_command rfl
    · exact Reader.gives_timestamp hx ht
  · intro header payload hheader
    have hx := Reader.extended_timestamp hheader
    refine ⟨Timestamp.exists_fields, ?_, ?_, ?_⟩
    · intro s n hfields hn
      obtain ⟨hle, hlt, hword⟩ := hfields.mem
      have hs : (Int64.ofInt s).toInt = s := Int64.toInt_ofInt_of_le hle hlt
      have hnanos : (UInt32.ofNat n).toNat = n := UInt32.toNat_ofNat_of_lt' hword
      refine ⟨⟨Int64.ofInt s, UInt32.ofNat n, hnanos.symm ▸ hn⟩, hs, hnanos, ?_⟩
      refine Reader.gives_timestamp hx (Timestamp.ofPayload?_eq_some_iff.mpr ?_)
      rw [hs, hnanos]
      exact hfields
    · intro s n hfields hn
      exact Reader.rejects_timestamp hx (Timestamp.ofPayload?_eq_none hfields hn)
    · intro hlength
      exact Reader.rejects_timestamp hx (Timestamp.ofPayload?_of_length hlength)

/-- Half a second into the leap second at the end of 1972, on a clock that is an hour ahead of UTC,
    is half a second into 1973. A second after the epoch is read from an extension with a length
    field, which it would not be written in. -/
theorem timestamp_any_layout_leap_second :
    (∃ d, DateTime.ofLocal? ⟨⟨1973, 1, 1⟩, 0, 59, 59, 1500000000⟩ 3600 = some d
        ∧ (Timestamp.ofDateTime d).nanoseconds.toNat < nanosPerSecond
        ∧ (Timestamp.ofDateTime d).instant = 94694400500000000)
      ∧ ∃ (t : Timestamp) (s : Reader), t.seconds.toInt = 1 ∧ t.nanoseconds.toNat = 0
        ∧ Reader.timestamp (.ofBytes ⟨#[0xc7, 0x04, 0xff, 0x00, 0x00, 0x00, 0x01]⟩) = .ok t s := by
  obtain ⟨hmade, -, -, hread⟩ := timestamp_any_layout
  constructor
  · have hclock : DateTime.ofLocal? ⟨⟨1973, 1, 1⟩, 0, 59, 59, 1500000000⟩ 3600
        = some ⟨94694399, 1500000000, by decide, by decide⟩ := by decide
    exact ⟨_, hclock, hmade _ _ (.ofLocal hclock)⟩
  · have hheader : HeaderForm .ext 4 [0xc7, 0x04] := .field (w := .w8) (by decide) (by decide)
    obtain ⟨-, hdenoted, -⟩ := hread [0xc7, 0x04] [0x00, 0x00, 0x00, 0x01] hheader
    obtain ⟨t, hseconds, hnanos, hgives⟩ :=
      hdenoted 1 0 (Timestamp.Fields.seconds (s := 1) (by decide)) (by decide)
    exact ⟨t, _, hseconds, hnanos,
      hgives (r := .ofBytes _) (Cursor.wellFormed_ofBytes _) (Cursor.ahead_ofBytes _)⟩

end MessagePack
