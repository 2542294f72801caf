import MessagePack.Proofs.StableSkip
import MessagePack.Proofs.Turn
import MessagePack.StreamReader

/-!
# Reads from a stream

A call on a stream reader looks into the buffer, and waits for more bytes while that has not enough.
So its answer could depend on which bytes happen to be in the buffer when it looks. It does not, for
two reasons.

* What a look finds, or finds wrong, it finds again when more bytes follow: looks are **steady**. A
  call that had waited for all bytes would come to the same.
* No turn of a call moves a byte out of order. The bytes in the buffer and behind them those that
  the source has not delivered yet are **unconsumed**, and a turn that goes on leaves them as they
  are.

**`StreamReader.run_turn_eq_await`** is that a call has as many turns as it takes, whatever the
reader and the source: each turn that goes on uses up some of what the source will do.
**`StreamReader.await_settles`** puts this together for a whole call: what it answers, and what it
leaves, is told from the unconsumed bytes alone. A call that fails or is cancelled leaves them all,
and has used up some of what the source will do.
-/

namespace MessagePack

/-! ## Sources -/

namespace Source

/-- The bytes that an event delivers. -/
def delivery : Event → ByteArray
  | .data bytes => bytes
  | _ => .empty

/-- The bytes that events deliver, one after the other. -/
def deliveries : List Event → ByteArray
  | [] => .empty
  | e :: events => delivery e ++ deliveries events

/-- The bytes that a source has not delivered yet. -/
def undelivered (s : Source) : ByteArray :=
  deliveries s.events

/-- A source that seems to have ended has delivered everything. -/
def EndsLast : List Event → Prop
  | [] => True
  | e :: events => (e = .data .empty → deliveries events = .empty) ∧ EndsLast events

/-- Where no delivery is empty, nothing looks like the end of the source before it has ended. -/
theorem endsLast_of_nonempty {events : List Event}
    (h : ∀ bytes, .data bytes ∈ events → bytes ≠ .empty) : EndsLast events := by
  induction events with
  | nil => trivial
  | cons e events ih =>
      constructor
      · intro he
        subst he
        exact absurd rfl (h .empty List.mem_cons_self)
      · exact ih fun bytes hbytes => h bytes (List.mem_cons_of_mem e hbytes)

/-- What a poll does to a source: the bytes that it gives are the next ones. Every poll uses up some
    of what the source will do, unless the source has ended. -/
inductive Polled (s : Source) : Poll → Source → Prop
  | notReady {t : Source} (heq : t.undelivered = s.undelivered) (ht : EndsLast t.events)
      (hlt : t.polls < s.polls) : Polled s .notReady t
  | failed {t : Source} (reason : String) (heq : t.undelivered = s.undelivered)
      (ht : EndsLast t.events) (hlt : t.polls < s.polls) : Polled s (.failed reason) t
  | bytes {t : Source} {given : ByteArray} (hsome : given ≠ .empty)
      (heq : s.undelivered = given ++ t.undelivered) (ht : EndsLast t.events)
      (hlt : t.polls < s.polls) : Polled s (.bytes given) t
  | ended {t : Source} (hs : s.undelivered = .empty) (heq : t.undelivered = .empty)
      (ht : EndsLast t.events) : Polled s (.bytes .empty) t

theorem isEmpty_iff {bytes : ByteArray} : bytes.isEmpty = true ↔ bytes = .empty := by
  simp [ByteArray.isEmpty]

/-- The rest of a delivery comes before the other deliveries. -/
theorem deliveries_keep (kept : ByteArray) (events : List Event) :
    deliveries (if kept.isEmpty then events else .data kept :: events)
      = kept ++ deliveries events := by
  by_cases hkept : kept.isEmpty = true
  · rw [if_pos hkept, isEmpty_iff.mp hkept, ByteArray.empty_append]
  · rw [if_neg hkept]
    rfl

/-- What was not taken of a delivery stays in front of the others. -/
theorem endsLast_keep {kept : ByteArray} {events : List Event} (h : EndsLast events) :
    EndsLast (if kept.isEmpty then events else .data kept :: events) := by
  by_cases hkept : kept.isEmpty = true
  · rw [if_pos hkept]
    exact h
  · rw [if_neg hkept]
    refine ⟨?_, h⟩
    intro hempty
    cases hempty
    exact absurd rfl hkept

/-- Keeping the rest of a delivery takes no more polls than its bytes and one more. -/
theorem polls_keep (kept : ByteArray) (events : List Event) (tokens : Tokens) :
    polls ⟨if kept.isEmpty then events else .data kept :: events, tokens⟩
      ≤ kept.size + 1 + polls ⟨events, tokens⟩ := by
  by_cases hkept : kept.isEmpty = true
  · rw [if_pos hkept]
    exact Nat.le_add_left _ _
  · rw [if_neg hkept]
    exact Nat.le_refl _

/-- A poll that finds a delivery takes the first bytes of it. -/
theorem polled_data {bytes : ByteArray} {events : List Event} {tokens : Tokens} {limit : Nat}
    (hlimit : 0 < limit) (h : EndsLast (.data bytes :: events)) :
    Polled ⟨.data bytes :: events, tokens⟩ (.bytes (bytes.extract 0 (min limit bytes.size)))
      ⟨if (bytes.extract (min limit bytes.size) bytes.size).isEmpty then events
        else .data (bytes.extract (min limit bytes.size) bytes.size) :: events, tokens⟩ := by
  obtain ⟨hlast, hevents⟩ := h
  have hn : min limit bytes.size ≤ bytes.size := Nat.min_le_right _ _
  have hsplit := Segments.extract_append_rest hn
  have hgiven := Segments.size_extract hn
  generalize bytes.extract 0 (min limit bytes.size) = given at hsplit hgiven
  generalize bytes.extract (min limit bytes.size) bytes.size = kept at hsplit
  have hsize : given.size + kept.size = bytes.size := by
    rw [← ByteArray.size_append, hsplit]
  by_cases hempty : given = .empty
  · -- nothing is taken only from an empty delivery, and that is the last one
    have hzero : given.size = 0 := ByteArray.size_eq_zero_iff.mpr hempty
    have hbytes : bytes = .empty := ByteArray.size_eq_zero_iff.mp (by omega)
    have hkept : kept = .empty := ByteArray.size_eq_zero_iff.mp (by omega)
    subst hempty hbytes
    have hall : deliveries events = .empty := hlast rfl
    refine .ended ?_ ?_ (endsLast_keep hevents)
    · show ByteArray.empty ++ deliveries events = .empty
      rw [hall, ByteArray.append_empty]
    · show deliveries _ = .empty
      rw [deliveries_keep, hall, hkept, ByteArray.append_empty]
  · have hpos : given.size ≠ 0 := fun hzero => hempty (ByteArray.size_eq_zero_iff.mp hzero)
    refine .bytes hempty ?_ (endsLast_keep hevents) ?_
    · show bytes ++ deliveries events = given ++ deliveries _
      rw [deliveries_keep, ← hsplit, ByteArray.append_assoc]
    · show _ < bytes.size + 1 + polls ⟨events, tokens⟩
      have hkeep := polls_keep kept events tokens
      omega

/-- Every poll gives the next bytes, or none, and uses up some of what the source will do. -/
theorem polled {s : Source} {limit : Nat} (hlimit : 0 < limit) (hs : EndsLast s.events) :
    Polled s (s.poll limit).1 (s.poll limit).2 := by
  obtain ⟨events, tokens⟩ := s
  cases events with
  | nil => exact .ended rfl rfl trivial
  | cons e events =>
      have hskip : ∀ tokens' : Tokens,
          (Source.mk events tokens').polls < (Source.mk (e :: events) tokens).polls := by
        intro tokens'
        show polls ⟨events, tokens'⟩ < e.polls + polls ⟨events, tokens'⟩
        have hpos : 0 < e.polls := by cases e <;> simp [Event.polls]
        omega
      -- a delivery is taken in parts; any other event is used up whole
      cases e with
      | data bytes => exact polled_data hlimit hs
      | fail reason => exact .failed reason ByteArray.empty_append.symm hs.2 (hskip tokens)
      | pending => exact .notReady ByteArray.empty_append.symm hs.2 (hskip tokens)
      | cancel => exact .notReady ByteArray.empty_append.symm hs.2 (hskip _)

/-- A poll uses up some of what the source will do, unless it finds nothing more to come. -/
theorem polls_poll_lt {s : Source} {limit : Nat} (h : (s.poll limit).1 ≠ .bytes .empty) :
    (s.poll limit).2.polls < s.polls := by
  obtain ⟨events, tokens⟩ := s
  cases events with
  | nil => exact absurd rfl h
  | cons e events =>
      cases e with
      | data bytes =>
          -- what is kept of the delivery is shorter by what was given, and that is at least a byte
          have hn : min limit bytes.size ≤ bytes.size := Nat.min_le_right _ _
          have hgiven := Segments.size_extract hn
          have hpos : (bytes.extract 0 (min limit bytes.size)).size ≠ 0 := fun hzero =>
            h (congrArg Poll.bytes (ByteArray.size_eq_zero_iff.mp hzero))
          have hkept : (bytes.extract (min limit bytes.size) bytes.size).size
              = bytes.size - min limit bytes.size := by
            rw [ByteArray.size_extract, Nat.min_self]
          have hkeep := polls_keep (bytes.extract (min limit bytes.size) bytes.size) events tokens
          show polls _ < bytes.size + 1 + polls ⟨events, tokens⟩
          exact Nat.lt_of_le_of_lt hkeep (by omega)
      | fail _ | pending | cancel => exact Nat.lt_add_of_pos_left Nat.one_pos

end Source

namespace StreamReader

variable {α : Type}

/-! ## The number of turns -/

/-- A poll that lets a call go on has used up some of what the source will do. -/
theorem polls_lt_of_pollTurn {cancellable : Bool} {r s : StreamReader}
    (h : pollTurn (α := α) cancellable r = .again s) : s.source.polls < r.source.polls := by
  rw [pollTurn] at h
  split at h
  · cases h
  · have hlt : (r.source.poll r.readSize).1 ≠ .bytes .empty →
        (r.source.poll r.readSize).2.polls < r.source.polls := Source.polls_poll_lt
    generalize r.source.poll r.readSize = polled at h hlt
    obtain ⟨poll, source⟩ := polled
    cases poll with
    | notReady =>
        cases h
        exact hlt fun hempty => by cases hempty
    | failed reason => cases h
    | bytes given =>
        dsimp only at h
        split at h
        · cases h
        · rename_i hsome
          cases h
          exact hlt fun hempty => hsome (Source.isEmpty_iff.mpr (Poll.bytes.inj hempty))

/-- A turn goes on only if it has polled the source. -/
theorem polls_lt_of_turn {cancellable : Bool} {look : Look α} {r s : StreamReader}
    (h : turn cancellable look r = .again s) : s.source.polls < r.source.polls := by
  rw [turn] at h
  split at h
  · cases h
  · cases h
  · split at h
    · cases h
    · exact polls_lt_of_pollTurn h

/-- **THE TURNS SUFFICE.** Whatever the reader is like, and whatever is looked for, a call comes to
    its end within the turns that it has: the outcome of `StreamReader.await` is always that of its
    last turn, and never what stands there for a call that has run out of turns. -/
theorem run_turn_eq_await (cancellable : Bool) (look : Look α) (r : StreamReader) :
    Turn.run (turn cancellable look) (r.source.polls + 1) r = some (await cancellable look r) := by
  obtain ⟨o, hrun, -⟩ := Turn.run_spec (turn cancellable look) (r.source.polls + 1)
    (fun _ => True) (fun _ => True) (fun s => s.source.polls)
    (fun _ hst => ⟨trivial, polls_lt_of_turn hst⟩) (fun _ _ => trivial) trivial
    (Nat.lt_succ_self _)
  rw [await, hrun]
  rfl

/-! ## Looks -/

/-- A look that decides the same when more bytes follow. What it finds is at the start of the bytes,
    and it leaves the bytes behind that. -/
structure Steady (look : Look α) : Prop where
  found : ∀ {bytes rest : ByteArray} {a : α}, look bytes = .ok (some (a, rest)) →
    ∃ taken, bytes = taken ++ rest
      ∧ ∀ more, look (bytes ++ more) = .ok (some (a, rest ++ more))
  fault : ∀ {bytes : ByteArray} {e : ReadError}, look bytes = .error e →
    ∀ more, look (bytes ++ more) = .error e

/-- What is cut off at a position is the same with more bytes behind the block. -/
theorem splitAt_append {bytes : ByteArray} {n : Nat} (hn : n ≤ bytes.size) (more : ByteArray) :
    Frame.splitAt (bytes ++ more) n
      = ((Frame.splitAt bytes n).1, (Frame.splitAt bytes n).2 ++ more) := by
  have hsize : n = (bytes.extract 0 n).size := (Segments.size_extract hn).symm
  have happend : bytes ++ more = bytes.extract 0 n ++ (bytes.extract n bytes.size ++ more) := by
    rw [← ByteArray.append_assoc, Segments.extract_append_rest hn]
  refine Prod.ext ?_ ?_
  · show (bytes ++ more).extract 0 n = bytes.extract 0 n
    rw [happend]
    exact ByteArray.extract_append_eq_left hsize
  · show (bytes ++ more).extract n (bytes ++ more).size = bytes.extract n bytes.size ++ more
    rw [happend]
    exact ByteArray.extract_append_eq_right hsize (by rw [ByteArray.size_append, ← hsize])

section Runs

variable {m : Read α} {K : Nat → Reader.Comparison α α} {bytes : ByteArray} {r : Reader}

/-- A run that has come to a decision comes to it with more bytes behind the input. -/
theorem run_append (hm : ∀ {c : List UInt8} {k : Nat}, Reader.Stable c k m m (K k)) {a : α}
    (hgave : ¬ (K bytes.size).GaveUp a) (h : m (.ofBytes bytes) = .ok a r) (more : ByteArray) :
    r.consumed ≤ bytes.size
      ∧ ∃ b s, m (.ofBytes (bytes ++ more)) = .ok b s ∧ (K bytes.size).Same a b
        ∧ s.consumed = r.consumed := by
  have hagree := hm.agree ⟨.ofBytes bytes, 0⟩ ⟨.ofBytes (bytes ++ more), 0⟩ (.ofBytes 0 bytes more)
  rw [show m ⟨.ofBytes bytes, 0⟩ = .ok a r from h] at hagree
  show _ ∧ ∃ b s, m ⟨.ofBytes (bytes ++ more), 0⟩ = .ok b s ∧ _
  generalize m ⟨.ofBytes (bytes ++ more), 0⟩ = y at hagree
  cases hagree with
  | @ok n _ b hn hab =>
      have hconsumed : ∀ bytes : ByteArray, ((Reader.ofBytes bytes).past n).consumed = n :=
        fun bytes => Nat.zero_add n
      refine ⟨?_, b, _, rfl, hab, (hconsumed _).trans (hconsumed bytes).symm⟩
      exact Nat.le_trans (Nat.le_of_eq (hconsumed bytes)) hn
  | short hc hx => exact absurd hx hgave

/-- A run that has found a fault finds it with more bytes behind the input. -/
theorem run_append_error (hm : ∀ {c : List UInt8} {k : Nat}, Reader.Stable c k m m (K k))
    (hwaits : Reader.Waits m) {e : ReadError} (h : m (.ofBytes bytes) = .error e r)
    (more : ByteArray) : ∃ s, m (.ofBytes (bytes ++ more)) = .error e s := by
  have hagree := hm.agree ⟨.ofBytes bytes, 0⟩ ⟨.ofBytes (bytes ++ more), 0⟩ (.ofBytes 0 bytes more)
  rw [show m ⟨.ofBytes bytes, 0⟩ = .error e r from h] at hagree
  show ∃ s, m ⟨.ofBytes (bytes ++ more), 0⟩ = .error e s
  generalize m ⟨.ofBytes (bytes ++ more), 0⟩ = y at hagree
  cases hagree with
  | error hn => exact ⟨_, rfl⟩
  | short hc hx =>
      have he : e = .endOfStream := hx
      rw [he] at h
      exact absurd h (hwaits (r := .ofBytes bytes) (s := r))

end Runs

/-- A look for a header is steady if the header is. -/
theorem steady_lookFor {header : Read (Option α)}
    (hstable : ∀ {c : List UInt8} {k : Nat}, Reader.Stable c k header header (.found k Eq))
    (hwaits : Reader.Waits header) : Steady (lookFor header) where
  found := by
    intro bytes rest a h
    cases hrun : header (.ofBytes bytes) with
    | error e r =>
        rw [lookFor, hrun] at h
        cases h
    | ok o r =>
        cases o with
        | none =>
            rw [lookFor, hrun] at h
            cases h
        | some b =>
            rw [lookFor, hrun] at h
            cases h
            -- what was found took only bytes of the shorter block, so the cut is at the same place
            have hgave : ¬ (Reader.Comparison.found bytes.size Eq).GaveUp (some a) := by
              intro hgave
              cases hgave
            obtain ⟨hle, -⟩ := run_append hstable hgave hrun .empty
            refine ⟨bytes.extract 0 r.consumed, (Segments.extract_append_rest hle).symm, ?_⟩
            intro more
            obtain ⟨-, o, s, hagain, hsame, hconsumed⟩ := run_append hstable hgave hrun more
            cases hsame with
            | some hab =>
                cases hab
                rw [lookFor, hagain]
                dsimp only
                rw [hconsumed]
                exact congrArg (fun split => Except.ok (some (a, split.2)))
                  (splitAt_append hle more)
  fault := by
    intro bytes e h more
    cases hrun : header (.ofBytes bytes) with
    | error e' r =>
        rw [lookFor, hrun] at h
        cases h
        obtain ⟨s, hagain⟩ := run_append_error hstable hwaits hrun more
        rw [lookFor, hagain]
    | ok o r =>
        rw [lookFor, hrun] at h
        cases o <;> cases h

/-- A frame that is cut off was skipped. -/
theorem next?_eq_some {bytes rest frame : ByteArray}
    (h : Frame.next? bytes = .ok (some (frame, rest))) :
    ∃ r, Reader.trySkip (.ofBytes bytes) = .ok true r ∧ r.consumed ≤ bytes.size
      ∧ Frame.splitAt bytes r.consumed = (frame, rest) := by
  cases hrun : Reader.trySkip (.ofBytes bytes) with
  | error e r =>
      rw [Frame.next?, Frame.size?, hrun] at h
      cases h
  | ok done r =>
      cases done with
      | false =>
          rw [Frame.next?, Frame.size?, hrun] at h
          cases h
      | true =>
          rw [Frame.next?, Frame.size?, hrun] at h
          cases h
          have hgave : ¬ (Reader.Comparison.whether bytes.size).GaveUp true := by
            intro hgave
            cases hgave
          exact ⟨r, rfl, (run_append Reader.Stable.trySkip hgave hrun .empty).1, rfl⟩

/-- A frame and what is behind it are the bytes that it was cut off from. -/
theorem next?_append {bytes rest frame : ByteArray}
    (h : Frame.next? bytes = .ok (some (frame, rest))) : frame ++ rest = bytes := by
  obtain ⟨r, -, hle, hsplit⟩ := next?_eq_some h
  cases hsplit
  exact Segments.extract_append_rest hle

/-- Where a value ends, or that there is none, is told from its own bytes. -/
theorem steady_next? : Steady Frame.next? where
  found := by
    intro bytes rest frame h
    refine ⟨frame, (next?_append h).symm, ?_⟩
    intro more
    obtain ⟨r, hrun, hle, hsplit⟩ := next?_eq_some h
    have hgave : ¬ (Reader.Comparison.whether bytes.size).GaveUp true := by
      intro hgave
      cases hgave
    obtain ⟨-, done, s, hagain, hsame, hconsumed⟩ :=
      run_append Reader.Stable.trySkip hgave hrun more
    cases hsame
    rw [Frame.next?, Frame.size?, hagain]
    dsimp only [Option.map_some]
    rw [hconsumed, splitAt_append hle more, hsplit]
  fault := by
    intro bytes e h more
    cases hrun : Reader.trySkip (.ofBytes bytes) with
    | error e' r =>
        rw [Frame.next?, Frame.size?, hrun] at h
        cases h
        obtain ⟨s, hagain⟩ :=
          run_append_error Reader.Stable.trySkip Reader.Waits.trySkip hrun more
        rw [Frame.next?, Frame.size?, hagain]
    | ok done r =>
        rw [Frame.next?, Frame.size?, hrun] at h
        cases done <;> cases h

/-- A look for the header of an array is steady. -/
theorem steady_arrayHeader : Steady (lookFor Reader.tryArrayHeader) :=
  steady_lookFor Reader.Stable.tryArrayHeader Reader.Waits.tryArrayHeader

theorem steady_mapHeader : Steady (lookFor Reader.tryMapHeader) :=
  steady_lookFor Reader.Stable.tryMapHeader Reader.Waits.tryMapHeader

/-! ## Turns -/

/-- The bytes that have not been given out: those in the buffer, and those that are to come. -/
def unconsumed (r : StreamReader) : ByteArray :=
  r.buffer ++ r.source.undelivered

/-- A reader whose source ends after its last byte. The reader has not missed that. -/
structure Sound (r : StreamReader) : Prop where
  readSize_pos : 0 < r.readSize
  endsLast : Source.EndsLast r.source.events
  ended : r.ended = true → r.source.undelivered = .empty

/-- A call has waited, and nothing else has happened. -/
structure Waited (r s : StreamReader) : Prop where
  sound : s.Sound
  unconsumed_eq : s.unconsumed = r.unconsumed
  polls_lt : s.source.polls < r.source.polls

/-- To wait twice is to wait. -/
theorem Waited.trans {r s t : StreamReader} (hs : Waited r s) (ht : Waited s t) : Waited r t :=
  ⟨ht.sound, ht.unconsumed_eq.trans hs.unconsumed_eq, Nat.lt_trans ht.polls_lt hs.polls_lt⟩

/-- What a call comes to, told from the unconsumed bytes. -/
inductive Settles (look : Look α) (r : StreamReader) : Outcome α → Prop
  | found {a : α} {s : StreamReader} (hlook : look r.unconsumed = .ok (some (a, s.unconsumed)))
      (hs : s.Sound) : Settles look r (.ok (some a) s)
  | nothing {s : StreamReader} (hlook : look r.unconsumed = .ok none)
      (heq : s.unconsumed = r.unconsumed) (hs : s.Sound) : Settles look r (.ok none s)
  | fault {e : ReadError} {s : StreamReader} (hlook : look r.unconsumed = .error e)
      (heq : s.unconsumed = r.unconsumed) (hs : s.Sound) : Settles look r (.error (.format e) s)
  | failed {reason : String} {s : StreamReader} (h : Waited r s) :
      Settles look r (.error (.io reason) s)
  | cancelled {s : StreamReader} (h : Waited r s) : Settles look r (.error .cancelled s)
  /-- The token had been cancelled before. -/
  | refused (hr : r.Sound) (htokens : r.source.tokens.isCancelled = true) :
      Settles look r (.error .cancelled r)

/-- What a call comes to after it has waited. -/
theorem Settles.of_waited {look : Look α} {r s : StreamReader} {o : Outcome α} (h : Waited r s)
    (hs : Settles look s o) : Settles look r o := by
  have hunconsumed := h.unconsumed_eq
  cases hs with
  | found hlook ht =>
      rw [hunconsumed] at hlook
      exact .found hlook ht
  | nothing hlook heq ht =>
      rw [hunconsumed] at hlook heq
      exact .nothing hlook heq ht
  | fault hlook heq ht =>
      rw [hunconsumed] at hlook heq
      exact .fault hlook heq ht
  | failed ht => exact .failed (h.trans ht)
  | cancelled ht => exact .cancelled (h.trans ht)
  | refused _ _ => exact .cancelled h

/-- What a turn comes to: the call goes on waiting, or it has settled. -/
inductive Turned (look : Look α) (r : StreamReader) : Turn StreamReader (Outcome α) → Prop
  | again {s : StreamReader} (h : Waited r s) : Turned look r (.again s)
  | done {o : Outcome α} (h : Settles look r o) : Turned look r (.done o)

/-- A turn that finds too few bytes polls the source. It goes on with the bytes that this gives, or
    ends the call. -/
theorem pollTurn_turned {look : Look α} {r : StreamReader} (cancellable : Bool) (hr : r.Sound)
    (hlook : look r.buffer = .ok none) (hended : r.ended = false) :
    Turned look r (pollTurn cancellable r) := by
  rw [pollTurn]
  by_cases hcancelled : (cancellable && r.source.tokens.isCancelled) = true
  · rw [if_pos hcancelled]
    exact .done (.refused hr (Bool.and_eq_true_iff.mp hcancelled).2)
  · rw [if_neg hcancelled]
    have hpolled := Source.polled hr.readSize_pos hr.endsLast
    generalize r.source.poll r.readSize = polled at hpolled
    obtain ⟨poll, source⟩ := polled
    have hstill : r.ended = true → source.undelivered = .empty := by
      intro h
      rw [hended] at h
      cases h
    have hsame : source.undelivered = r.source.undelivered →
        (StreamReader.mk source r.buffer r.readSize r.ended).unconsumed = r.unconsumed :=
      congrArg (r.buffer ++ ·)
    cases hpolled with
    | notReady heq ht hlt => exact .again ⟨⟨hr.readSize_pos, ht, hstill⟩, hsame heq, hlt⟩
    | failed reason heq ht hlt =>
        exact .done (.failed ⟨⟨hr.readSize_pos, ht, hstill⟩, hsame heq, hlt⟩)
    | bytes hsome heq ht hlt =>
        dsimp only
        rw [if_neg (fun hempty => hsome (Source.isEmpty_iff.mp hempty))]
        refine .again ⟨⟨hr.readSize_pos, ht, hstill⟩, ?_, hlt⟩
        show (r.buffer ++ _) ++ source.undelivered = r.buffer ++ r.source.undelivered
        rw [heq, ByteArray.append_assoc]
    | ended hs heq ht =>
        -- everything has been delivered, so the look has been at all that there is
        have hall : r.unconsumed = r.buffer := by
          rw [unconsumed, hs, ByteArray.append_empty]
        refine .done (.nothing ?_ ?_ ⟨hr.readSize_pos, ht, fun _ => heq⟩)
        · rw [hall]
          exact hlook
        · rw [hall, unconsumed]
          show r.buffer ++ source.undelivered = r.buffer
          rw [heq, ByteArray.append_empty]

/-- **ONE TURN** of a call. What is found in the buffer would be found in all bytes. -/
theorem turn_turned {look : Look α} {r : StreamReader} (cancellable : Bool) (hlook : Steady look)
    (hr : r.Sound) : Turned look r (turn cancellable look r) := by
  rw [turn]
  -- whatever the buffer decides, all the unconsumed bytes decide, as the look is steady
  cases hbuffer : look r.buffer with
  | error e => exact .done (.fault (hlook.fault hbuffer _) rfl hr)
  | ok found =>
      cases found with
      | some found =>
          obtain ⟨a, rest⟩ := found
          obtain ⟨taken, -, hmore⟩ := hlook.found hbuffer
          exact .done (.found (hmore _) ⟨hr.readSize_pos, hr.endsLast, hr.ended⟩)
      | none =>
          dsimp only
          by_cases hended : r.ended = true
          · rw [if_pos hended]
            refine .done (.nothing ?_ rfl hr)
            rw [unconsumed, hr.ended hended, ByteArray.append_empty]
            exact hbuffer
          · rw [if_neg hended]
            exact pollTurn_turned cancellable hr hbuffer (by simpa using hended)

/-- A call that is under way has not done anything yet, or it has waited. -/
def UnderWay (r s : StreamReader) : Prop :=
  s.Sound ∧ (s = r ∨ Waited r s)

/-- A turn that goes on keeps the call under way. -/
theorem UnderWay.again {look : Look α} {r s t : StreamReader} {cancellable : Bool}
    (hlook : Steady look) (hs : UnderWay r s) (hst : turn cancellable look s = .again t) :
    UnderWay r t := by
  obtain ⟨hsound, hway⟩ := hs
  have hturned := turn_turned cancellable hlook hsound
  rw [hst] at hturned
  cases hturned with
  | again ht =>
      refine ⟨ht.sound, Or.inr ?_⟩
      rcases hway with rfl | hway
      · exact ht
      · exact hway.trans ht

/-- A turn that ends the call has settled it. -/
theorem UnderWay.done {look : Look α} {r s : StreamReader} {o : Outcome α} {cancellable : Bool}
    (hlook : Steady look) (hs : UnderWay r s) (hso : turn cancellable look s = .done o) :
    Settles look r o := by
  obtain ⟨hsound, hway⟩ := hs
  have hturned := turn_turned cancellable hlook hsound
  rw [hso] at hturned
  cases hturned with
  | done ho =>
      rcases hway with rfl | hway
      · exact ho
      · exact ho.of_waited hway

/-- **AT EVERY MOMENT** of a call it is under way. -/
theorem underWay_of_reaches {look : Look α} {r s : StreamReader} {cancellable : Bool}
    (hlook : Steady look) (hr : r.Sound) (h : Turn.Reaches (turn cancellable look) r s) :
    UnderWay r s :=
  h.invariant (UnderWay r) ⟨hr, Or.inl rfl⟩ fun hs hst => hs.again hlook hst

/-- **A WHOLE CALL** settles: the turns come to an end, and what they come to is told from the bytes
    that were unconsumed when the call was made. -/
theorem await_settles {look : Look α} {r : StreamReader} (cancellable : Bool) (hlook : Steady look)
    (hr : r.Sound) : Settles look r (await cancellable look r) := by
  -- the last turn starts at a moment of the call, and its outcome is that of the call
  obtain ⟨s, hreaches, hdone⟩ := Turn.exists_done_of_run (run_turn_eq_await cancellable look r)
  exact (underWay_of_reaches hlook hr hreaches).done hlook hdone

end StreamReader

end MessagePack
