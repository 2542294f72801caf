import MessagePack.Calendar

/-!
# Instants

`Timestamp` is an instant on the UTC time line as the timestamp extension carries it: a number of
seconds since the epoch, of any sign, and a nanosecond below one second. The bound is part of the
type. `DateTime` is an instant that the calendar can name; it covers fewer seconds, and inside a
leap second its nanosecond runs on to almost two seconds.

* `Timestamp.ofDateTime` is total: a leap second counts as the start of the second that follows it;
* `Timestamp.toDateTime?` fails exactly outside the seconds that the calendar covers.

`DateTime` is what the codec gets from a library for dates and times. Of its range, results use no
more than that it ends within the seconds of 64 bits.
-/

namespace MessagePack

/-- The number of nanoseconds of a second. -/
def nanosPerSecond : Nat :=
  1000000000

/-! ## Instants that the calendar can name -/

/-- The first second that the calendar covers. -/
def minCalendarSeconds : Int :=
  -8334601228800

/-- The last second that the calendar covers. -/
def maxCalendarSeconds : Int :=
  8210266876799

/-- An instant that the calendar can name, in UTC. -/
structure DateTime where
  seconds : Int64
  nanoseconds : UInt32
  seconds_mem : minCalendarSeconds ≤ seconds.toInt ∧ seconds.toInt ≤ maxCalendarSeconds
  nanoseconds_lt : nanoseconds.toNat < 2 * nanosPerSecond
  deriving DecidableEq

/-- The instant at which a clock that is `offset` seconds ahead of UTC shows a local time, if the
calendar can name it. Like the calendar, this stands for a library that the codec uses. Results
about it say how seconds and nanoseconds come out, and nothing of how a date becomes a number of
seconds.
-/
def DateTime.ofLocal? (clock : Calendar.LocalTime) (offset : Int) : Option DateTime :=
  let seconds := clock.toSeconds - offset
  if h : (minCalendarSeconds ≤ seconds ∧ seconds ≤ maxCalendarSeconds)
      ∧ clock.nanosecond < 2 * nanosPerSecond then
    some
      { seconds := Int64.ofInt seconds
        nanoseconds := UInt32.ofNat clock.nanosecond
        seconds_mem := by
          have bounds := h.1
          simp only [minCalendarSeconds, maxCalendarSeconds] at bounds
          rw [Int64.toInt_ofInt_of_le (by omega) (by omega)]
          exact h.1
        nanoseconds_lt := by
          have bound := h.2
          simp only [nanosPerSecond] at bound
          rw [UInt32.toNat_ofNat_of_lt' (by simp only [UInt32.size]; omega)]
          exact h.2 }
  else none

/-- The order of time: by seconds, then by nanoseconds. -/
def DateTime.compare (x y : DateTime) : Ordering :=
  (Ord.compare x.seconds y.seconds).then (Ord.compare x.nanoseconds y.nanoseconds)

/-! ## Timestamps -/

/-- An instant as the timestamp extension carries it. -/
structure Timestamp where
  seconds : Int64
  nanoseconds : UInt32
  nanoseconds_lt : nanoseconds.toNat < nanosPerSecond
  deriving DecidableEq

/-- A nanosecond that is not below one second. -/
structure InvalidNanoseconds where
  nanoseconds : UInt32
  deriving DecidableEq

namespace Timestamp

/-- The start of 1970-01-01 in UTC. -/
def epoch : Timestamp :=
  ⟨0, 0, by decide⟩

instance : Inhabited Timestamp :=
  ⟨epoch⟩

/-- The instant with the given parts, if the nanosecond is below one second. -/
def ofParts (seconds : Int64) (nanoseconds : UInt32) : Except InvalidNanoseconds Timestamp :=
  if h : nanoseconds.toNat < nanosPerSecond then .ok ⟨seconds, nanoseconds, h⟩
  else .error ⟨nanoseconds⟩

/-- The instant at a whole number of seconds. -/
def ofSeconds (seconds : Int64) : Timestamp :=
  ⟨seconds, 0, by simp [nanosPerSecond]⟩

/-- The instant of a date-time. A leap second counts as the start of the second after it. -/
def ofDateTime (d : DateTime) : Timestamp :=
  if h : d.nanoseconds.toNat < nanosPerSecond then ⟨d.seconds, d.nanoseconds, h⟩
  else
    ⟨d.seconds + 1, UInt32.ofNat (d.nanoseconds.toNat - nanosPerSecond), by
      have := d.nanoseconds_lt
      rw [UInt32.toNat_ofNat_of_lt' (by simp only [nanosPerSecond, UInt32.size] at *; omega)]
      omega⟩

/-- The instant as a date-time, if the calendar covers its second. -/
def toDateTime? (t : Timestamp) : Option DateTime :=
  if h : minCalendarSeconds ≤ t.seconds.toInt ∧ t.seconds.toInt ≤ maxCalendarSeconds then
    some ⟨t.seconds, t.nanoseconds, h, by have := t.nanoseconds_lt; omega⟩
  else none

/-- The order of time: by seconds, then by nanoseconds. -/
def compare (x y : Timestamp) : Ordering :=
  (Ord.compare x.seconds y.seconds).then (Ord.compare x.nanoseconds y.nanoseconds)

/-- The instant in the notation of RFC 3339, or as a decimal number of seconds if the calendar does
not cover it. -/
def render (t : Timestamp) : String :=
  match t.toDateTime? with
  | some d => (Calendar.LocalTime.ofSeconds d.seconds.toInt d.nanoseconds.toNat).render
  | none => toString t.seconds.toInt ++ "." ++ Calendar.padded 9 t.nanoseconds.toNat ++ "s"

end Timestamp

end MessagePack
