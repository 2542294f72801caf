import MessagePack.Proofs.Stream

/-!
# Streams are read the same however they arrive

The bytes of a stream may be in the buffer from the start or arrive later, in deliveries of any
size; between them the source may fail, and calls may be cancelled or dropped. None of this shows in
what completed calls reply.

* **`StreamReader.answers`** is what calls come to when all bytes are there: each looks at the bytes
  that the one before has left.
* **`StreamReader.History`** is everything that can happen to a reader: calls one after the other,
  changes of the tokens, and calls that are under way and may be dropped. Calls that failed or were
  cancelled are in its log, and may be repeated or not.
* **`StreamReader.retryAll`** repeats such calls until they complete.

**`StreamReader.delivery_invisible`** says that replies are answers, for every history, and that
repeated calls do complete. At every moment the bytes that were consumed, those in the buffer and
those that are still to come make up the stream.
-/

namespace MessagePack

namespace StreamReader

variable {α : Type}

/-! ## Answers -/

/-- What a call comes to on bytes that are all there. -/
structure Answer where
  reply : Reply
  consumed : ByteArray
  rest : ByteArray

/-- The answer of a call that looks for something. -/
def Answer.of (wrap : Option α → Reply) (look : Look α) (bytes : ByteArray) : Answer :=
  match look bytes with
  | .ok (some (a, rest)) => ⟨wrap (some a), bytes.extract 0 (bytes.size - rest.size), rest⟩
  | .ok none => ⟨wrap none, .empty, bytes⟩
  | .error e => ⟨.failed (.format e), .empty, bytes⟩

/-- The answer of a call. -/
def Request.answer (bytes : ByteArray) : Request → Answer
  | read | readWithCancellation => .of .value Frame.next? bytes
  | arrayHeader => .of .count (lookFor Reader.tryArrayHeader) bytes
  | mapHeader => .of .count (lookFor Reader.tryMapHeader) bytes
  | cancel | renewToken => ⟨.done, .empty, bytes⟩

/-- The answers of calls one after the other. -/
def answers : List Request → ByteArray → List Reply
  | [], _ => []
  | q :: qs, bytes => (q.answer bytes).reply :: answers qs (q.answer bytes).rest

/-- The bytes that calls consume. -/
def consumed : List Request → ByteArray → ByteArray
  | [], _ => .empty
  | q :: qs, bytes => (q.answer bytes).consumed ++ consumed qs (q.answer bytes).rest

/-- The bytes that calls leave. -/
def left : List Request → ByteArray → ByteArray
  | [], bytes => bytes
  | q :: qs, bytes => left qs (q.answer bytes).rest

/-- One more call answers for the bytes that those before have left. -/
theorem answers_concat (qs : List Request) (q : Request) (bytes : ByteArray) :
    answers (qs ++ [q]) bytes = answers qs bytes ++ [(q.answer (left qs bytes)).reply] := by
  induction qs generalizing bytes with
  | nil => rfl
  | cons p qs ih =>
      show _ :: answers (qs ++ [q]) _ = _ :: (answers qs _ ++ _)
      rw [ih]
      rfl

theorem left_concat (qs : List Request) (q : Request) (bytes : ByteArray) :
    left (qs ++ [q]) bytes = (q.answer (left qs bytes)).rest := by
  induction qs generalizing bytes with
  | nil => rfl
  | cons p qs ih => exact ih _

/-- Whether a call was stopped by something else than the bytes of the stream. -/
def Reply.interrupted : Reply → Bool
  | failed (.io _) | failed .cancelled => true
  | _ => false

/-- Whether a call has given nothing out. -/
def Reply.nothing : Reply → Bool
  | value none | count none | failed _ => true
  | _ => false

section Answers

variable {look : Look α} {wrap : Option α → Reply}

/-- A call takes its bytes from the front, and leaves the others. -/
theorem Answer.consumed_append_rest (hlook : Steady look) (bytes : ByteArray) :
    (Answer.of wrap look bytes).consumed ++ (Answer.of wrap look bytes).rest = bytes := by
  rw [Answer.of]
  cases hbytes : look bytes with
  | error e => exact ByteArray.empty_append
  | ok found =>
      cases found with
      | none => exact ByteArray.empty_append
      | some found =>
          obtain ⟨a, rest⟩ := found
          obtain ⟨taken, htaken, -⟩ := hlook.found hbytes
          subst htaken
          show (taken ++ rest).extract 0 ((taken ++ rest).size - rest.size) ++ rest = taken ++ rest
          rw [ByteArray.extract_append_eq_left]
          rw [ByteArray.size_append, Nat.add_sub_cancel]

/-- Where all bytes are there, no call is interrupted. -/
theorem Answer.not_interrupted (hwrap : ∀ o, (wrap o).interrupted = false) (bytes : ByteArray) :
    (Answer.of wrap look bytes).reply.interrupted = false := by
  rw [Answer.of]
  split
  · exact hwrap _
  · exact hwrap _
  · rfl

/-- A call that finds nothing leaves everything. -/
theorem Answer.rest_of_nothing (hwrap : ∀ a, (wrap (some a)).nothing = false) {bytes : ByteArray}
    (h : (Answer.of wrap look bytes).reply.nothing = true) :
    (Answer.of wrap look bytes).rest = bytes := by
  rw [Answer.of] at h ⊢
  split
  · rename_i a rest hlook
    rw [hlook] at h
    exact absurd ((hwrap a).symm.trans h) Bool.false_ne_true
  · rfl
  · rfl

end Answers

/-- A call takes its bytes from the front, and leaves the others, whatever it looks for. -/
theorem Request.consumed_append_rest (q : Request) (bytes : ByteArray) :
    (q.answer bytes).consumed ++ (q.answer bytes).rest = bytes := by
  cases q with
  | read => exact Answer.consumed_append_rest steady_next? bytes
  | readWithCancellation => exact Answer.consumed_append_rest steady_next? bytes
  | arrayHeader => exact Answer.consumed_append_rest steady_arrayHeader bytes
  | mapHeader => exact Answer.consumed_append_rest steady_mapHeader bytes
  | cancel => exact ByteArray.empty_append
  | renewToken => exact ByteArray.empty_append

/-- Where all bytes are there, no call of any kind is interrupted. -/
theorem Request.answer_not_interrupted (q : Request) (bytes : ByteArray) :
    (q.answer bytes).reply.interrupted = false := by
  cases q with
  | read => exact Answer.not_interrupted (fun _ => rfl) bytes
  | readWithCancellation => exact Answer.not_interrupted (fun _ => rfl) bytes
  | arrayHeader => exact Answer.not_interrupted (fun _ => rfl) bytes
  | mapHeader => exact Answer.not_interrupted (fun _ => rfl) bytes
  | cancel => rfl
  | renewToken => rfl

/-- A call of any kind that finds nothing leaves everything. -/
theorem Request.rest_of_nothing {q : Request} {bytes : ByteArray}
    (h : (q.answer bytes).reply.nothing = true) : (q.answer bytes).rest = bytes := by
  cases q with
  | read => exact Answer.rest_of_nothing (fun _ => rfl) h
  | readWithCancellation => exact Answer.rest_of_nothing (fun _ => rfl) h
  | arrayHeader => exact Answer.rest_of_nothing (fun _ => rfl) h
  | mapHeader => exact Answer.rest_of_nothing (fun _ => rfl) h
  | cancel => rfl
  | renewToken => rfl

/-- What calls have consumed, and what they have left, make up the stream. -/
theorem consumed_append_left (qs : List Request) (bytes : ByteArray) :
    consumed qs bytes ++ left qs bytes = bytes := by
  induction qs generalizing bytes with
  | nil => exact ByteArray.empty_append
  | cons q qs ih =>
      show ((q.answer bytes).consumed ++ consumed qs _) ++ left qs _ = bytes
      rw [ByteArray.append_assoc, ih, q.consumed_append_rest]

/-! ## Calls -/

/-- How a call ends: with the answer to the unconsumed bytes, or without having changed them. -/
inductive Ends (a : Answer) (r : StreamReader) : Reply × StreamReader → Prop
  | completed {s : StreamReader} (hs : s.Sound) (hrest : s.unconsumed = a.rest) :
      Ends a r (a.reply, s)
  | interrupted {reply : Reply} {s : StreamReader} (hreply : reply.interrupted = true)
      (h : Waited r s) : Ends a r (reply, s)
  | refused {reply : Reply} (hreply : reply.interrupted = true) (hr : r.Sound)
      (htokens : r.source.tokens.isCancelled = true) : Ends a r (reply, r)

/-- A call that has settled has its answer, or it was interrupted. -/
theorem Settles.ends {look : Look α} {r : StreamReader} {o : Outcome α} (wrap : Option α → Reply)
    (h : Settles look r o) : Ends (.of wrap look r.unconsumed) r (StreamReader.reply wrap o) := by
  have hanswer : ∀ {found : Except ReadError (Option (α × ByteArray))},
      look r.unconsumed = found → Answer.of wrap look r.unconsumed
        = match found with
          | .ok (some (a, rest)) =>
            ⟨wrap (some a), r.unconsumed.extract 0 (r.unconsumed.size - rest.size), rest⟩
          | .ok none => ⟨wrap none, .empty, r.unconsumed⟩
          | .error e => ⟨.failed (.format e), .empty, r.unconsumed⟩ := by
    rintro _ rfl
    rfl
  -- the first three outcomes are the answer, and the others are interruptions
  cases h with
  | found hlook hs =>
      rw [hanswer hlook]
      exact .completed hs rfl
  | nothing hlook heq hs =>
      rw [hanswer hlook]
      exact .completed hs heq
  | fault hlook heq hs =>
      rw [hanswer hlook]
      exact .completed hs heq
  | failed h => exact .interrupted rfl h
  | cancelled h => exact .interrupted rfl h
  | refused hr htokens => exact .refused rfl hr htokens

/-- A change of the tokens does not concern the bytes. -/
theorem Sound.withTokens {r : StreamReader} (hr : r.Sound) (f : Tokens → Tokens) :
    (r.withTokens f).Sound :=
  ⟨hr.readSize_pos, hr.endsLast, hr.ended⟩

/-- **EVERY CALL ENDS** with its answer, or it was interrupted and has changed nothing. -/
theorem Request.run_ends (q : Request) {r : StreamReader} (hr : r.Sound) :
    Ends (q.answer r.unconsumed) r (q.run r) := by
  cases q with
  | read => exact (await_settles false steady_next? hr).ends .value
  | readWithCancellation =>
      show Ends _ r (StreamReader.reply .value (StreamReader.readWithCancellation r))
      rw [StreamReader.readWithCancellation]
      by_cases htokens : r.source.tokens.isCancelled = true
      · rw [if_pos htokens]
        exact .refused rfl hr htokens
      · rw [if_neg htokens]
        exact (await_settles true steady_next? hr).ends .value
  | arrayHeader => exact (await_settles false steady_arrayHeader hr).ends .count
  | mapHeader => exact (await_settles false steady_mapHeader hr).ends .count
  | cancel => exact .completed (hr.withTokens _) rfl
  | renewToken => exact .completed (hr.withTokens _) rfl

/-- A call that gives nothing out leaves the bytes as they are. -/
theorem Request.unconsumed_of_nothing {q : Request} {r : StreamReader} (hr : r.Sound)
    (h : (q.run r).1.nothing = true) : (q.run r).2.unconsumed = r.unconsumed := by
  have hends := q.run_ends hr
  generalize q.run r = result at h hends
  cases hends with
  | completed hs hrest => rw [hrest, Request.rest_of_nothing h]
  | interrupted hreply hwaited => exact hwaited.unconsumed_eq
  | refused hreply _ htokens => rfl

/-! ## Histories -/

/-- The moments of a call. -/
def Request.Reaches (r s : StreamReader) : Request → Prop
  | read => Turn.Reaches (turn false Frame.next?) r s
  | readWithCancellation =>
    r.source.tokens.isCancelled = false ∧ Turn.Reaches (turn true Frame.next?) r s
  | arrayHeader => Turn.Reaches (turn false (lookFor Reader.tryArrayHeader)) r s
  | mapHeader => Turn.Reaches (turn false (lookFor Reader.tryMapHeader)) r s
  | cancel | renewToken => s = r

/-- What a reader can come to from a start, with the calls that were made and their replies. -/
inductive History (start : StreamReader) : List (Request × Reply) → StreamReader → Prop
  | start : History start [] start
  | call {log : List (Request × Reply)} {r : StreamReader} (h : History start log r) (q : Request) :
      History start (log ++ [(q, (q.run r).1)]) (q.run r).2
  /-- The tokens change, in any way. -/
  | tokens {log : List (Request × Reply)} {r : StreamReader} (h : History start log r)
      (f : Tokens → Tokens) : History start log (r.withTokens f)
  /-- A call is under way. It has not replied, and may be dropped. -/
  | during {log : List (Request × Reply)} {r s : StreamReader} (h : History start log r)
      (q : Request) (hs : q.Reaches r s) : History start log s

/-- The calls that have completed. -/
def completed (log : List (Request × Reply)) : List (Request × Reply) :=
  log.filter fun entry => !entry.2.interrupted

/-- Nothing is lost: the replies are the answers, and what they have not consumed is still there. -/
structure Keeps (bytes : ByteArray) (log : List (Request × Reply)) (r : StreamReader) : Prop where
  sound : r.Sound
  replies_eq : (completed log).map Prod.snd = answers ((completed log).map Prod.fst) bytes
  unconsumed_eq : r.unconsumed = left ((completed log).map Prod.fst) bytes

/-- A reader in the middle of a call of any kind is under way. -/
theorem Request.underWay {q : Request} {r s : StreamReader} (hr : r.Sound) (h : q.Reaches r s) :
    UnderWay r s := by
  cases q with
  | read => exact underWay_of_reaches steady_next? hr h
  | readWithCancellation => exact underWay_of_reaches steady_next? hr h.2
  | arrayHeader => exact underWay_of_reaches steady_arrayHeader hr h
  | mapHeader => exact underWay_of_reaches steady_mapHeader hr h
  | cancel =>
      have hs : s = r := h
      exact ⟨hs ▸ hr, Or.inl hs⟩
  | renewToken =>
      have hs : s = r := h
      exact ⟨hs ▸ hr, Or.inl hs⟩

/-- A call that is under way has consumed nothing. -/
theorem UnderWay.unconsumed_eq {r s : StreamReader} (h : UnderWay r s) :
    s.unconsumed = r.unconsumed := by
  rcases h.2 with rfl | hwaited
  · rfl
  · exact hwaited.unconsumed_eq

/-- What a call keeps. -/
theorem Keeps.call {bytes : ByteArray} {log : List (Request × Reply)} {r : StreamReader}
    (h : Keeps bytes log r) (q : Request) :
    Keeps bytes (log ++ [(q, (q.run r).1)]) (q.run r).2 := by
  have hends := q.run_ends h.sound
  have hanswer := q.answer_not_interrupted r.unconsumed
  have hcompleted : ∀ entry : Request × Reply, completed (log ++ [entry])
      = if entry.2.interrupted then completed log else completed log ++ [entry] := by
    intro entry
    rw [completed, List.filter_append]
    cases hentry : entry.2.interrupted <;> simp [completed, hentry]
  generalize q.run r = result at hends
  -- only a call that is completed adds to the answers; the others leave the bytes as they were
  cases hends with
  | completed hs hrest =>
      have hlog : completed (log ++ [(q, (q.answer r.unconsumed).reply)])
          = completed log ++ [(q, (q.answer r.unconsumed).reply)] := by
        rw [hcompleted, if_neg (by simp [hanswer])]
      refine ⟨hs, ?_, ?_⟩
      · dsimp only
        rw [hlog, List.map_append, List.map_append, List.map_singleton, List.map_singleton,
          answers_concat, h.replies_eq, h.unconsumed_eq]
      · dsimp only
        rw [hlog, List.map_append, List.map_singleton, left_concat, hrest, h.unconsumed_eq]
  | @interrupted reply s hreply hwaited =>
      have hlog : completed (log ++ [(q, reply)]) = completed log := by
        rw [hcompleted, if_pos hreply]
      refine ⟨hwaited.sound, ?_, ?_⟩
      · rw [hlog]
        exact h.replies_eq
      · rw [hlog]
        exact hwaited.unconsumed_eq.trans h.unconsumed_eq
  | @refused reply hreply hr htokens =>
      have hlog : completed (log ++ [(q, reply)]) = completed log := by
        rw [hcompleted, if_pos hreply]
      refine ⟨hr, ?_, ?_⟩
      · rw [hlog]
        exact h.replies_eq
      · rw [hlog]
        exact h.unconsumed_eq

/-- **NOTHING IS LOST** in any history. -/
theorem History.keeps {start r : StreamReader} {log : List (Request × Reply)}
    (hstart : start.Sound) (h : History start log r) : Keeps start.unconsumed log r := by
  induction h with
  | start => exact ⟨hstart, rfl, rfl⟩
  | call _ q ih => exact ih.call q
  | tokens _ f ih => exact ⟨ih.sound.withTokens f, ih.replies_eq, ih.unconsumed_eq⟩
  | during _ q hs ih =>
      have hway := Request.underWay ih.sound hs
      exact ⟨hway.1, ih.replies_eq, hway.unconsumed_eq.trans ih.unconsumed_eq⟩

/-! ## Repeated calls -/

/-- Makes a call. If it is interrupted it has to be made again, with a fresh token. -/
def retryTurn (q : Request) (r : StreamReader) : Turn StreamReader (Reply × StreamReader) :=
  if (q.run r).1.interrupted then .again ((q.run r).2.withTokens fun _ => ⟨false, none⟩)
  else .done (q.run r)

/-- The number of interruptions that are possible, with that by the token in use. -/
def interruptions (r : StreamReader) : Nat :=
  2 * r.source.polls + if r.source.tokens.isCancelled then 1 else 0

/-- Makes a call until it is not interrupted. -/
def retry (q : Request) (r : StreamReader) : Reply × StreamReader :=
  (Turn.run (retryTurn q) (r.interruptions + 1) r).getD (.done, r)

/-- Makes calls one after the other, each until it is not interrupted, and gives their replies. -/
def retryAll : List Request → StreamReader → List Reply
  | [], _ => []
  | q :: qs, r => (retry q r).1 :: retryAll qs (retry q r).2

/-- An interrupted call has changed nothing, and one interruption less is possible. -/
theorem retryTurn_again {q : Request} {r s : StreamReader} (hr : r.Sound)
    (h : retryTurn q r = .again s) :
    s.Sound ∧ s.unconsumed = r.unconsumed ∧ s.interruptions < r.interruptions := by
  have hends := q.run_ends hr
  have hanswer := q.answer_not_interrupted r.unconsumed
  rw [retryTurn] at h
  generalize q.run r = result at h hends
  by_cases hreply : result.1.interrupted = true
  · rw [if_pos hreply] at h
    cases h
    -- the token is fresh, so what may interrupt the call again is the source alone
    have hfresh : ∀ t : StreamReader,
        (t.withTokens fun _ => ⟨false, none⟩).interruptions = 2 * t.source.polls := fun _ => rfl
    rw [hfresh, interruptions]
    cases hends with
    | completed hs hrest => exact absurd (hanswer.symm.trans hreply) Bool.false_ne_true
    | interrupted _ hwaited =>
        have hpolls := hwaited.polls_lt
        refine ⟨hwaited.sound.withTokens _, hwaited.unconsumed_eq, ?_⟩
        dsimp only
        omega
    | refused _ _ htokens =>
        refine ⟨hr.withTokens _, rfl, ?_⟩
        rw [if_pos htokens]
        exact Nat.lt_succ_self _
  · rw [if_neg hreply] at h
    cases h

/-- When a repeated call completes, it has the answer that it would have had at once. -/
theorem retryTurn_done {q : Request} {r : StreamReader} {result : Reply × StreamReader}
    (hr : r.Sound) (h : retryTurn q r = .done result) :
    result.1 = (q.answer r.unconsumed).reply ∧ result.2.Sound
      ∧ result.2.unconsumed = (q.answer r.unconsumed).rest := by
  have hends := q.run_ends hr
  rw [retryTurn] at h
  generalize q.run r = ended at h hends
  by_cases hreply : ended.1.interrupted = true
  · rw [if_pos hreply] at h
    cases h
  · rw [if_neg hreply] at h
    cases h
    cases hends with
    | completed hs hrest => exact ⟨rfl, hs, hrest⟩
    | interrupted hinterrupted _ => exact absurd hinterrupted hreply
    | refused hinterrupted _ _ => exact absurd hinterrupted hreply

/-- **REPEATED CALLS COMPLETE**, with the answer to the bytes that were unconsumed at first. -/
theorem retry_eq (q : Request) {r : StreamReader} (hr : r.Sound) :
    (retry q r).1 = (q.answer r.unconsumed).reply ∧ (retry q r).2.Sound
      ∧ (retry q r).2.unconsumed = (q.answer r.unconsumed).rest := by
  obtain ⟨result, hrun, hresult⟩ := Turn.run_spec (retryTurn q) (r.interruptions + 1)
    (fun s => s.Sound ∧ s.unconsumed = r.unconsumed)
    (fun result => result.1 = (q.answer r.unconsumed).reply ∧ result.2.Sound
      ∧ result.2.unconsumed = (q.answer r.unconsumed).rest) interruptions
    (fun {s t} hs hst => by
      obtain ⟨hsound, hunconsumed, hlt⟩ := retryTurn_again hs.1 hst
      exact ⟨⟨hsound, hunconsumed.trans hs.2⟩, hlt⟩)
    (fun {s o} hs hso => by
      have hdone := retryTurn_done hs.1 hso
      rwa [hs.2] at hdone)
    ⟨hr, rfl⟩ (Nat.lt_succ_self _)
  rw [retry, hrun]
  exact hresult

/-- Calls that are each repeated until they complete have the answers for the whole stream. -/
theorem retryAll_eq (qs : List Request) {r : StreamReader} (hr : r.Sound) :
    retryAll qs r = answers qs r.unconsumed := by
  induction qs generalizing r with
  | nil => rfl
  | cons q qs ih =>
      obtain ⟨hreply, hsound, hrest⟩ := retry_eq q hr
      rw [retryAll, answers, hreply, ih hsound, hrest]

/-- A new reader over a source that ends after its last byte is sound. -/
theorem sound_ofSource {source : Source} (h : Source.EndsLast source.events) (buffer : ByteArray)
    (readSize : Nat) : (ofSource source buffer readSize).Sound where
  readSize_pos := Nat.le_max_right _ _
  endsLast := h
  ended := by
    intro hended
    cases hended

/-- **DELIVERY IS INVISIBLE.** A stream of bytes, some of which are in the buffer and the others are
    delivered by a source that does not end before it has delivered them all.

    * Calls that are repeated while they are interrupted complete, and reply what they reply when
      all the bytes are in the buffer from the start: the answers.
    * In every history the completed calls reply their answers. What they consumed, the bytes in the
      buffer and those that are to come make up the stream, and a call that gives nothing out
      consumes nothing. -/
theorem delivery_invisible {source : Source} {buffer bytes : ByteArray} (readSize : Nat)
    (hsource : Source.EndsLast source.events) (hbytes : buffer ++ source.undelivered = bytes) :
    (∀ requests : List Request,
      retryAll requests (ofSource source buffer readSize) = answers requests bytes
        ∧ retryAll requests (ofSource (.ofEvents []) bytes readSize) = answers requests bytes)
      ∧ ∀ (log : List (Request × Reply)) (r : StreamReader),
        History (ofSource source buffer readSize) log r →
        (completed log).map Prod.snd = answers ((completed log).map Prod.fst) bytes
          ∧ consumed ((completed log).map Prod.fst) bytes ++ r.buffer ++ r.source.undelivered
            = bytes
          ∧ ∀ q : Request, (q.run r).1.nothing = true →
            (q.run r).2.unconsumed = r.unconsumed := by
  have hsound := sound_ofSource hsource buffer readSize
  have hstart : (ofSource source buffer readSize).unconsumed = bytes := hbytes
  constructor
  · intro requests
    constructor
    · rw [retryAll_eq requests hsound, hstart]
    -- the reader that has all the bytes at once has the same unconsumed bytes
    · have hall : (ofSource (.ofEvents []) bytes readSize).unconsumed = bytes :=
        ByteArray.append_empty
      have hended : Source.EndsLast (Source.ofEvents []).events := trivial
      rw [retryAll_eq requests (sound_ofSource hended bytes readSize), hall]
  · intro log r hhistory
    have hkeeps := hhistory.keeps hsound
    rw [hstart] at hkeeps
    refine ⟨hkeeps.replies_eq, ?_, fun q => q.unconsumed_of_nothing hkeeps.sound⟩
    rw [ByteArray.append_assoc]
    show _ ++ r.unconsumed = bytes
    rw [hkeeps.unconsumed_eq, consumed_append_left]

/-- An array whose header has arrived, with a failure and a cancellation within its last element. -/
theorem delivery_invisible_interrupted :
    retryAll [.arrayHeader, .read, .readWithCancellation, .read]
        (ofSource (.ofEvents [.data ⟨#[0x01, 0xcd]⟩, .fail "reset", .cancel, .data ⟨#[0x02]⟩,
          .pending, .data ⟨#[0x03]⟩]) ⟨#[0x92]⟩ 1)
      = [.count (some 2), .value (some ⟨#[0x01]⟩), .value (some ⟨#[0xcd, 0x02, 0x03]⟩),
        .value none] := by
  have hsource : Source.EndsLast (Source.ofEvents [.data ⟨#[0x01, 0xcd]⟩, .fail "reset", .cancel,
      .data ⟨#[0x02]⟩, .pending, .data ⟨#[0x03]⟩]).events := by
    refine Source.endsLast_of_nonempty ?_
    intro bytes hbytes
    simp [Source.ofEvents] at hbytes
    rcases hbytes with rfl | rfl | rfl <;> decide
  obtain ⟨hretry, -⟩ := @delivery_invisible _ ⟨#[0x92]⟩ _ 1 hsource rfl
  exact (hretry _).1.trans rfl

end StreamReader

end MessagePack
