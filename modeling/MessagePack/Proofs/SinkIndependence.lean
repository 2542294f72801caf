import MessagePack.Proofs.Command
import MessagePack.Proofs.Sink

/-!
# What is written does not depend on the sink

A sink decides how large the regions are that it hands out, and so how often a writer has to ask. It
decides nothing else: the bytes, and the outcome of every operation, are those that the operation
has in the mode of the writer, in the order of the operations.

* **`attempt_spec`** is the step, one operation over a sink that promises to take its bytes; the
  requests that it makes are **`asked`**.
* **`sink_invisible`** is the run, for any list of operations, refused ones among them.
-/

namespace MessagePack

namespace Writer

section Run

variable {σ : Type} [Sink σ]

/-- The outcome of an operation, and the writer after it. -/
def attempt (c : Command) (w : Writer σ) : Except WriteError Unit × Writer σ :=
  match c.run w with
  | .ok _ w => (.ok (), w)
  | .error e w => (.error e, w)

/-- Carries out operations one after the other, whatever comes of each. -/
def runAll : List Command → Writer σ → List (Except WriteError Unit) × Writer σ
  | [], w => ([], w)
  | c :: commands, w =>
    let (outcome, w) := attempt c w
    let (outcomes, w) := runAll commands w
    (outcome :: outcomes, w)

/-- To carry out two lists of operations is to carry out one after the other. -/
theorem runAll_append (before after : List Command) (w : Writer σ) :
    (runAll (before ++ after) w).2 = (runAll after (runAll before w).2).2 := by
  induction before generalizing w with
  | nil => rfl
  | cons c before ih => exact ih (attempt c w).2

end Run

variable {σ : Type} [Sink σ]

/-- The sizes that are requested of a sink for some bytes: first whatever is at hand and then, only
    if that is too small for them, exactly their number. For no bytes there is no request. -/
def asked (s : σ) (bytes : List UInt8) : Array Nat :=
  if bytes = [] then #[]
  else if bytes.length ≤ Sink.room (Sink.request s 0) then #[0] else #[0, bytes.length]

/-- What an operation with some bytes leaves behind: the requests that they need, and the bytes
    behind the content. -/
structure Puts (P : Sink.Promise σ) (k : Nat) (bytes : List UInt8) (w w' : Writer (Recorded σ)) :
    Prop where
  mode_eq : w'.oldSpec = w.oldSpec
  requests_eq : w'.sink.requests = w.sink.requests ++ asked w.sink.sink bytes
  content_eq : P.bytes w'.sink.sink = P.bytes w.sink.sink ++ bytes
  takes : P.Takes w'.sink.sink k

variable {P : Sink.Promise σ} {w : Writer (Recorded σ)} {k : Nat} {x : List UInt8}

/-- An operation that puts out nothing leaves everything as it was. -/
theorem Puts.refl (h : P.Takes w.sink.sink k) : Puts P k [] w w where
  mode_eq := rfl
  requests_eq := (Array.append_empty).symm
  content_eq := (List.append_nil _).symm
  takes := h

/-- Bytes that the sink promises to take are put out, with at most two requests. -/
theorem put_spec (h : P.Takes w.sink.sink (x.length + k)) :
    ∃ w', put (.ok x) w = .ok () w' ∧ Puts P k x w w' := by
  obtain ⟨⟨s, requests⟩, oldSpec⟩ := w
  rw [put, raw]
  by_cases hx : x = []
  · -- nothing is put out without a request
    rw [hx, List.length_nil, Nat.zero_add] at h
    rw [hx]
    exact ⟨_, rfl, .refl h⟩
  · have hempty : ¬ (⟨x.toArray⟩ : ByteArray).isEmpty = true := by
      rw [ByteArray.isEmpty, beq_iff_eq]
      exact fun hsize => hx (List.eq_nil_of_length_eq_zero hsize)
    have hfirst : P.Takes (Sink.request s 0) (x.length + k) := P.takes_request s _ 0 h
    rw [if_neg hempty, emit]
    simp only
    by_cases hroom : x.length ≤ Sink.room (Sink.request s 0)
    · -- the region at hand is large enough
      refine ⟨_, if_pos hroom, ⟨rfl, ?_, ?_, ?_⟩⟩
      · rw [asked, if_neg hx, if_pos hroom]
        rfl
      · exact (P.bytes_append _ ⟨x.toArray⟩ hroom).trans (by rw [P.bytes_request])
      · exact P.takes_append _ k ⟨x.toArray⟩ hfirst hroom
    · -- the second request is for as many bytes as are put out, and is granted
      have hsecond := P.takes_request (Sink.request s 0) _ x.length hfirst
      have hgranted : x.length ≤ Sink.room (Sink.request (Sink.request s 0) x.length) :=
        P.le_room_request _ _ _ hfirst (Nat.le_add_right _ _)
      refine ⟨_, (if_neg hroom).trans (if_pos hgranted), ⟨rfl, ?_, ?_, ?_⟩⟩
      · rw [asked, if_neg hx, if_neg hroom]
        rfl
      · exact (P.bytes_append _ ⟨x.toArray⟩ hgranted).trans (by
          rw [P.bytes_request, P.bytes_request])
      · exact P.takes_append _ k ⟨x.toArray⟩ hsecond hgranted

/-- The step: an operation is refused and leaves everything as it is, or puts out its bytes. -/
theorem attempt_spec {c : Command} (h : P.Takes w.sink.sink ((c.committed w.oldSpec).length + k)) :
    (attempt c w).1 = (c.output w.oldSpec).map (fun _ => ())
      ∧ Puts P k (c.committed w.oldSpec) w (attempt c w).2
      ∧ ∀ e, c.output w.oldSpec = .error e → (attempt c w).2 = w := by
  rw [Command.committed] at h ⊢
  rw [attempt, c.run_eq]
  -- an operation that is refused asks for no region
  cases hc : c.output w.oldSpec with
  | error e =>
      rw [hc, List.length_nil, Nat.zero_add] at h
      exact ⟨rfl, .refl h, fun _ _ => rfl⟩
  | ok x =>
      rw [hc] at h
      obtain ⟨w', hput, hw'⟩ := put_spec h
      rw [hput]
      refine ⟨rfl, hw', ?_⟩
      intro e he
      cases he

/-- The run: operations whose bytes the sink promises to take have the outcomes that they have in
    the mode of the writer, and their bytes come one after the other. -/
theorem runAll_spec {commands : List Command}
    (h : P.Takes w.sink.sink ((commands.flatMap (Command.committed w.oldSpec)).length + k)) :
    (runAll commands w).1 = commands.map (fun c => (c.output w.oldSpec).map fun _ => ())
      ∧ (runAll commands w).2.oldSpec = w.oldSpec
      ∧ P.bytes (runAll commands w).2.sink.sink
        = P.bytes w.sink.sink ++ commands.flatMap (Command.committed w.oldSpec)
      ∧ P.Takes (runAll commands w).2.sink.sink k := by
  -- by induction on the operations; what the sink promises is what is still to come
  induction commands generalizing w with
  | nil =>
      rw [List.flatMap_nil, List.length_nil, Nat.zero_add] at h
      exact ⟨rfl, rfl, (List.append_nil _).symm, h⟩
  | cons c commands ih =>
      rw [List.flatMap_cons, List.length_append, Nat.add_assoc] at h
      obtain ⟨houtcome, hputs, -⟩ := attempt_spec h
      have hmode := hputs.mode_eq
      obtain ⟨houtcomes, hmodes, hbytes, htakes⟩ := ih (w := (attempt c w).2) (by
        rw [hmode]
        exact hputs.takes)
      rw [hmode] at houtcomes hbytes
      refine ⟨congr (congrArg List.cons houtcome) houtcomes, hmodes.trans hmode, ?_, htakes⟩
      rw [List.flatMap_cons, ← List.append_assoc, ← hputs.content_eq]
      exact hbytes

/-- No operation is refused because a region is too small. -/
theorem Command.output_ne_regionTooSmall (oldSpec : Bool) (c : Command) (n : Nat) :
    c.output oldSpec ≠ .error (.regionTooSmall n) := by
  have hlength : ∀ m bytes, ofLength m bytes ≠ .error (.regionTooSmall n) := by
    intro m bytes h
    rw [ofLength] at h
    split at h <;> cases h
  have htimestamp : ∀ t, ofTimestamp oldSpec t ≠ .error (.regionTooSmall n) := by
    intro t h
    rw [ofTimestamp] at h
    split at h <;> cases h
  -- no operation has another error than that of a length or of a timestamp
  cases c with
  | strHeader | str | strBytes | binHeader | bin | ext => exact hlength _ _
  | timestamp | dateTime => exact htimestamp _
  | _ =>
      intro h
      cases h

/-- **INDEPENDENCE OF THE SINK**: over any sink that promises to take the bytes of some operations,
    whatever regions it hands out, in either mode and whatever the lengths of the arguments, no
    region is ever too small. Every operation has the outcome that it has in the mode of the writer,
    and the bytes of the operations that are not refused come behind the content in their order,
    each the shortest header that the mode has and the body behind it. An operation that is refused
    leaves the writer as it is; any other makes at most two requests, the second only if the first
    region is too small, and for exactly as many bytes as it commits. -/
theorem sink_invisible (P : Sink.Promise σ) (commands : List Command) (w : Writer (Recorded σ))
    (h : P.Takes w.sink.sink (commands.flatMap (Command.committed w.oldSpec)).length) :
    (∀ n, .error (.regionTooSmall n) ∉ (runAll commands w).1)
      ∧ (runAll commands w).1 = commands.map (fun c => (c.output w.oldSpec).map fun _ => ())
      ∧ P.bytes (runAll commands w).2.sink.sink
        = P.bytes w.sink.sink ++ commands.flatMap (Command.committed w.oldSpec)
      ∧ (∀ c ∈ commands, ∀ x, c.output w.oldSpec = .ok x → c.Encodes w.oldSpec x)
      ∧ ∀ before c after, commands = before ++ c :: after →
        let u := (runAll before w).2
        let v := (runAll (before ++ [c]) w).2
        v.sink.requests = u.sink.requests ++ asked u.sink.sink (c.committed w.oldSpec)
          ∧ ∀ e, c.output w.oldSpec = .error e → v = u := by
  obtain ⟨houtcomes, -, hbytes, -⟩ := runAll_spec (k := 0) h
  refine ⟨?_, houtcomes, hbytes, fun c _ x => Command.encodes_of_output, ?_⟩
  · intro n hmem
    rw [houtcomes] at hmem
    obtain ⟨c, -, hc⟩ := List.mem_map.mp hmem
    cases houtput : c.output w.oldSpec with
    | ok x =>
        rw [houtput] at hc
        cases hc
    | error e =>
        rw [houtput] at hc
        cases hc
        exact c.output_ne_regionTooSmall w.oldSpec n houtput
  · intro before c after hcommands u v
    -- what the sink promises once the operations before have been carried out
    rw [hcommands, List.flatMap_append, List.flatMap_cons, List.length_append,
      List.length_append] at h
    obtain ⟨-, hmode, -, htakes⟩ := runAll_spec h
    have hv : v = (attempt c u).2 := runAll_append before [c] w
    rw [← hmode] at htakes ⊢
    obtain ⟨-, hputs, hrefused⟩ := attempt_spec htakes
    rw [hv]
    exact ⟨hputs.requests_eq, hrefused⟩

/-- A writer in the old mode over a region of nine bytes: a timestamp is refused, a string header
    stands in for that of binary data, and the region is filled to its end. -/
theorem sink_invisible_fixed :
    let commands := [Command.timestamp (.ofSeconds 1), .bin ⟨#[1, 2, 3, 4]⟩, .nil, .strHeader 40]
    let w : Writer (Recorded Fixed) := ⟨.ofSink (.ofSize 9), true⟩
    Sink.Promise.fixed.Takes w.sink.sink (commands.flatMap (Command.committed true)).length
      ∧ (runAll commands w).1 = [.error .oldSpecTimestamp, .ok (), .ok (), .ok ()]
      ∧ (runAll commands w).2.sink.sink.content.data.toList
        = [0xa4, 1, 2, 3, 4, 0xc0, 0xda, 0, 40] := by
  intro commands w
  have h : Sink.Promise.fixed.Takes w.sink.sink
      (commands.flatMap (Command.committed true)).length := by
    show 0 + _ ≤ 9
    decide
  obtain ⟨-, houtcomes, hbytes, -⟩ := sink_invisible Sink.Promise.fixed commands w h
  exact ⟨h, houtcomes, hbytes⟩

end Writer

end MessagePack
