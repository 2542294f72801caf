import MessagePack.Proofs.Locality
import MessagePack.Proofs.PlainCursor

/-!
# Attempts move the reader only when they find something

Six operations try to read: they tell whether they found what they were asked for. However such an
attempt ends otherwise, the reader is where it was, so anything else may be tried from there.

* **`Reader.Tentative`** is what each of them keeps to, and **`Operation.tentative`** that all do.
* **`Reader.Reached`** is the readers that there are over some bytes, and `Reached.follows` where
  they may stand.
* **`Operation.found_or_untouched`** puts both together.
* **`Operation.outcome_of_found_later`** is how an attempt ends on an input that is only the
  beginning of one on which it finds something.
-/

namespace MessagePack

namespace Reader

variable {ε α : Type} {r s : Reader}

/-- A computation that moves the reader only when it finds something, and then over some bytes. -/
structure Tentative (Found : α → Prop) (m : EStateM ε Reader α) : Prop where
  of_error : ∀ {r s : Reader} {e : ε}, r.cursor.WellFormed → m r = .error e s → s = r
  of_missed : ∀ {r s : Reader} {a : α}, r.cursor.WellFormed → m r = .ok a s → ¬ Found a → s = r
  of_found : ∀ {r s : Reader} {a : α}, r.cursor.WellFormed → m r = .ok a s → Found a →
    ∃ n, 0 < n ∧ n ≤ r.cursor.remaining ∧ s = r.past n

/-- What has consumed a form that is not empty has moved. -/
theorem Recognizes.exists_past {m : EStateM ε Reader α} {G : List UInt8 → α → Prop} {a : α}
    (h : ∀ d, Recognizes d m G) (hG : ∀ x, G x a → x ≠ []) (hr : r.cursor.WellFormed)
    (hm : m r = .ok a s) : ∃ n, 0 < n ∧ n ≤ r.cursor.remaining ∧ s = r.past n := by
  obtain ⟨n, hn, rfl, ha⟩ := h r.depth hr rfl hm
  refine ⟨n, Nat.pos_of_ne_zero ?_, hn, rfl⟩
  rintro rfl
  exact hG _ ha (List.take_zero)

/-- What is made with `Reader.attempt` is tentative, if what it attempts consumes some bytes. -/
theorem Tentative.attempt {m : Read (Option α)}
    (h : ∀ d, Recognizes d m fun x o => ∀ a, o = some a → x ≠ []) :
    Tentative (fun o => o.isSome = true) (attempt m) where
  of_error hr hm := by
    -- an attempt puts the reader back unless something was found
    rw [Reader.attempt] at hm
    split at hm <;> cases hm
    rfl
  of_missed hr hm hmissed := by
    rw [Reader.attempt] at hm
    split at hm
    · cases hm
      exact absurd rfl hmissed
    · cases hm
      rfl
    · cases hm
  of_found hr hm hfound := by
    obtain ⟨a, rfl⟩ := Option.isSome_iff_exists.mp hfound
    exact Recognizes.exists_past (fun d => (h d).attempt) (fun x hx => hx a rfl) hr hm

/-- An error of another kind does not change what an attempt leaves. -/
theorem Tentative.ofRead {Found : α → Prop} {m : Read α} (h : Tentative Found m) :
    Tentative Found (Decode.ofRead m) where
  of_error {r s e} hr hm := by
    rw [Decode.ofRead, EStateM.adaptExcept] at hm
    split at hm
    · rename_i e' t hfails
      cases hm
      exact h.of_error hr hfails
    · cases hm
  of_missed hr hm := h.of_missed hr (Operation.ofRead_eq_ok.mp hm)
  of_found hr hm := h.of_found hr (Operation.ofRead_eq_ok.mp hm)

/-- However it ends, it has moved the reader forward, if at all. -/
theorem Tentative.exists_past {Found : α → Prop} {m : EStateM ε Reader α} (h : Tentative Found m)
    (hr : r.cursor.WellFormed) : ∃ n ≤ r.cursor.remaining, after (m r) = r.past n := by
  cases hm : m r with
  | error e s => exact ⟨0, Nat.zero_le _, (h.of_error hr hm).trans (past_zero hr).symm⟩
  | ok a s =>
      by_cases hfound : Found a
      · obtain ⟨n, -, hn, hs⟩ := h.of_found hr hm hfound
        exact ⟨n, hn, hs⟩
      · exact ⟨0, Nat.zero_le _, (h.of_missed hr hm hfound).trans (past_zero hr).symm⟩

/-! ## The six attempts -/

/-- A look at a lead byte that is not there moves nothing. -/
theorem eq_of_nextFormat_eq_error {e : ReadError} (h : nextFormat r = .error e s) : s = r := by
  rw [nextFormat_apply] at h
  cases hpeek : r.cursor.peek? with
  | none =>
      rw [hpeek] at h
      cases h
      rfl
  | some b =>
      rw [hpeek] at h
      cases h

/-- Neither do bytes that are not there. -/
theorem eq_of_take_eq_error {n : Nat} {e : ReadError} (h : take n r = .error e s) : s = r := by
  rw [take_apply] at h
  split at h <;> cases h
  rfl

/-- Nil is consumed or nothing is, also where there is no byte to look at. -/
theorem tentative_tryNil : Tentative (fun b => b = true) tryNil where
  of_error {r s e} hr hm := by
    rw [tryNil_eq] at hm
    -- the error may come from the look at the lead byte or from the byte that is then taken
    cases hformat : nextFormat r with
    | error e' t =>
        rw [bind_of_error hformat] at hm
        cases hm
        exact eq_of_nextFormat_eq_error hformat
    | ok f t =>
        obtain ⟨rfl, -⟩ := peeks_nextFormat hr hformat
        rw [bind_of_ok hformat] at hm
        split at hm
        · cases htake : take 1 t with
          | ok v u =>
              rw [bind_of_ok htake] at hm
              cases hm
          | error e' u =>
              rw [bind_of_error htake] at hm
              cases hm
              exact eq_of_take_eq_error htake
        · cases hm
  of_missed {r s a} hr hm hmissed := by
    obtain ⟨n, hn, rfl, hx⟩ := Recognizes.tryNil hr rfl hm
    rw [if_neg hmissed] at hx
    -- what was not nil has been looked at and nothing of it consumed
    have hlength := congrArg List.length hx
    rw [hr.length_take_ahead hn, List.length_nil] at hlength
    rw [hlength, past_zero hr]
  of_found {r s a} hr hm hfound := by
    refine Recognizes.exists_past (fun _ => Recognizes.tryNil) ?_ hr hm
    rintro _ rfl
    rw [if_pos hfound]
    exact List.cons_ne_nil _ _

/-- A header is consumed as a whole or not at all. -/
theorem tentative_header? {select : Format → Option Extent} (hselect : Narrow select) :
    Tentative (fun o => o.isSome = true) (attempt (header? select)) :=
  Tentative.attempt fun _ => (Recognizes.header? hselect).mono fun _ _ h m hm => (h m hm).ne_nil

/-- The header of an extension and its type are consumed together or not at all. -/
theorem tentative_tryExtHeader : Tentative (fun o => o.isSome = true) tryExtHeader := by
  refine Tentative.attempt fun d => (Recognizes.header? narrow_extLength).bind fun x o ho => ?_
  cases o with
  | none => exact Recognizes.of_pure fun _ hm => by cases hm
  | some length =>
      refine (Recognizes.int? (.signed .w8)).map ?_
      intro y t _ m _
      exact List.append_ne_nil_of_left_ne_nil (ho length rfl).ne_nil y

/-- A string is consumed with its header or not at all. -/
theorem tentative_tryStringSpan : Tentative (fun o => o.isSome = true) tryStringSpan := by
  refine Tentative.attempt fun d => (Stable.isNil (c := []) (k := 0)).moves d |>.bind ?_
  intro x b _
  split
  · exact Recognizes.of_pure fun _ hm => by cases hm
  · refine Recognizes.strHeader.bind fun y n hn => (Recognizes.take n.toNat).map ?_
    intro z v _ block _
    exact List.append_ne_nil_of_right_ne_nil x (List.append_ne_nil_of_left_ne_nil hn.ne_nil z)

/-- A turn of a skip that goes on has consumed a lead byte, and what was behind it. -/
theorem Skip.past_of_turn {s t : Skip} (hs : s.cursor.WellFormed) (hturn : s.turn = .again t) :
    ∃ n, 0 < n ∧ n ≤ s.cursor.remaining ∧ t.cursor = s.cursor.past n := by
  rw [Skip.turn] at hturn
  split at hturn
  · cases hturn
  split at hturn
  · cases hturn
  rw [hs.read?_eq] at hturn
  by_cases hone : 1 ≤ s.cursor.remaining
  · rw [if_pos hone] at hturn
    dsimp only at hturn
    split at hturn
    · cases hturn
    · split at hturn
      · cases hturn
      · rename_i hbody
        cases hturn
        -- the lead byte has been read, and with it what its format says
        obtain ⟨n, -, hn, -, rfl, -⟩ := fills_of_passBody? (hs.past hone) hbody
        rw [Cursor.remaining_past] at hn
        exact ⟨1 + n, by omega, by omega, hs.past_past (by omega)⟩
  · rw [if_neg hone] at hturn
    cases hturn

/-- What a skip comes to is ahead of its start, but for the start itself. -/
theorem Skip.past_of_reaches {c : Cursor} {t : Skip} (hc : c.WellFormed)
    (h : Turn.Reaches Skip.turn ⟨c, 1⟩ t) :
    ∃ n ≤ c.remaining, t.cursor = c.past n ∧ (n = 0 → t.pending = 1) := by
  refine h.invariant (fun t => ∃ n ≤ c.remaining, t.cursor = c.past n ∧ (n = 0 → t.pending = 1))
    ⟨0, Nat.zero_le _, hc.past_zero.symm, fun _ => rfl⟩ ?_
  rintro s t ⟨n, hn, hs, -⟩ hturn
  obtain ⟨m, hpos, hm, ht⟩ := Skip.past_of_turn (by rw [hs]; exact hc.past hn) hturn
  rw [hs, Cursor.remaining_past] at hm
  rw [hs, hc.past_past (by omega)] at ht
  exact ⟨n + m, by omega, ht, fun hzero => by omega⟩

/-- A skip is complete where no values are to come. -/
theorem Skip.of_turn_eq_complete {t : Skip} {d : Cursor} (h : t.turn = .done (.complete d)) :
    t.pending = 0 ∧ d = t.cursor := by
  rw [Skip.turn] at h
  split at h
  · rename_i hnone
    cases h
    exact ⟨hnone, rfl⟩
  split at h
  · cases h
  split at h
  · cases h
  split at h
  · cases h
  split at h <;> cases h

/-- A value that has been skipped had some bytes. -/
theorem past_of_skipFrom {c d : Cursor} (hc : c.WellFormed) (h : skipFrom c = .complete d) :
    ∃ n, 0 < n ∧ n ≤ c.remaining ∧ d = c.past n := by
  rw [skipFrom] at h
  cases hrun : Turn.run Skip.turn (c.remaining + 1) ⟨c, 1⟩ with
  | none =>
      rw [hrun] at h
      cases h
  | some e =>
      rw [hrun] at h
      obtain ⟨t, hreaches, hdone⟩ := Turn.exists_done_of_run hrun
      obtain ⟨n, hn, ht, hstart⟩ := Skip.past_of_reaches hc hreaches
      rw [show e = .complete d from h] at hdone
      obtain ⟨hnone, rfl⟩ := Skip.of_turn_eq_complete hdone
      refine ⟨n, Nat.pos_of_ne_zero ?_, hn, ht⟩
      -- with nothing consumed there would be a value left to skip
      intro hzero
      rw [hstart hzero] at hnone
      cases hnone

/-- A value is skipped as a whole or not at all. -/
theorem tentative_trySkip : Tentative (fun b => b = true) trySkip where
  of_error {r s e} hr hm := by
    -- skipping keeps its own cursor, and gives it to the reader at the end alone
    rw [trySkip] at hm
    split at hm <;> cases hm
    rfl
  of_missed {r s a} hr hm hmissed := by
    rw [trySkip] at hm
    split at hm
    · cases hm
      exact absurd rfl hmissed
    · cases hm
      rfl
    · cases hm
  of_found {r s a} hr hm hfound := by
    rw [trySkip] at hm
    split at hm
    · rename_i d hskip
      cases hm
      obtain ⟨n, hpos, hn, rfl⟩ := past_of_skipFrom hr hskip
      exact ⟨n, hpos, hn, rfl⟩
    · cases hm
      cases hfound
    · cases hm

end Reader

namespace Operation

open Reader

variable {α : Type}

/-- Whether an operation tells if it found what it tried to read. -/
def tries : Operation α → Bool
  | tryNil | tryArrayHeader | tryMapHeader | tryExtHeader | tryStringSpan | trySkip => true
  | _ => false

/-- A result that says that something was found. -/
def Found : Operation α → α → Prop
  | tryNil, found => found = true
  | tryArrayHeader, o => o.isSome = true
  | tryMapHeader, o => o.isSome = true
  | tryExtHeader, o => o.isSome = true
  | tryStringSpan, o => o.isSome = true
  | trySkip, found => found = true
  | _, _ => False

/-- **EVERY ATTEMPT IS TENTATIVE**, over any pieces. -/
theorem tentative (op : Operation α) (hop : op.tries = true) : Tentative op.Found op.run := by
  cases op with
  | tryNil => exact tentative_tryNil.ofRead
  | tryArrayHeader => exact (tentative_header? narrow_arrayCount).ofRead
  | tryMapHeader => exact (tentative_header? narrow_mapCount).ofRead
  | tryExtHeader => exact tentative_tryExtHeader.ofRead
  | tryStringSpan => exact tentative_tryStringSpan.ofRead
  | trySkip => exact tentative_trySkip.ofRead
  | _ => cases hop

end Operation

namespace Reader

/-! ## The readers that there are -/

/-- The readers over some bytes: at their start, and after any operation, however it ended. -/
inductive Reached (b : Cursor.Backing) : Reader → Prop
  | fresh : Reached b ⟨b.cursor, 0⟩
  | after {α : Type} {r : Reader} (op : Operation α) (h : Reached b r) :
      Reached b (Reader.after (op.run r))

variable {α : Type} {b : Cursor.Backing} {r : Reader}

/-- No operation moves a reader but forward, within its bytes. -/
theorem exists_past_of_run (op : Operation α) (hr : r.cursor.WellFormed) :
    ∃ n ≤ r.cursor.remaining, (after (op.run r)).cursor = r.cursor.past n := by
  have hstays : ∃ n ≤ r.cursor.remaining, r.cursor = r.cursor.past n :=
    ⟨0, Nat.zero_le _, hr.past_zero.symm⟩
  cases hsteps : op.stepsDepth with
  | true =>
      cases op with
      | enter policy =>
          rw [Operation.run, Decode.ofRead, EStateM.adaptExcept, enter]
          by_cases hdepth : policy.maxDepth.toNat ≤ r.depth
          · rw [if_pos hdepth]
            exact hstays
          · rw [if_neg hdepth]
            exact hstays
      | leave => exact hstays
      | _ => cases hsteps
  | false =>
      cases hpieces : op.looksAtPieces with
      | true =>
          cases op with
          | tryStringSpan =>
              obtain ⟨n, hn, hpast⟩ := tentative_tryStringSpan.ofRead.exists_past hr
              exact ⟨n, hn, congrArg Reader.cursor hpast⟩
          | _ => cases hpieces
      | false =>
          -- an operation agrees with itself, and no bytes are missing
          have hself : Extends [] r.cursor.remaining r r :=
            ⟨hr, hr, (List.append_nil _).symm, rfl, Nat.le_refl _⟩
          have hagree := (op.stable hsteps hpieces).agree r r hself
          generalize op.run r = x at hagree
          cases hagree with
          | ok hn _ => exact ⟨_, hn, rfl⟩
          | error hn => exact ⟨_, hn, rfl⟩
          | short hc => exact absurd rfl hc

/-- Whatever has been done with a reader, what it has ahead is the bytes behind those consumed. -/
theorem Reached.follows (h : Reached b r) :
    Cursor.Follows b.cursor.segments r.cursor ⟨b.bytes, r.consumed⟩ := by
  induction h with
  | fresh =>
      have hfresh := b.follows
      rwa [show (⟨b.bytes, 0⟩ : Plain) = ⟨b.bytes, b.cursor.consumed⟩ by
        rw [← hfresh.position_eq]] at hfresh
  | after op _ ih =>
      obtain ⟨n, hn, hpast⟩ := exists_past_of_run op ih.wellFormed
      rw [consumed, hpast]
      exact ih.past hn

end Reader

namespace Operation

open Reader

variable {α : Type} {b : Cursor.Backing} {r : Reader}

/-- **FOUND, OR UNTOUCHED.** Over any bytes in any pieces, after any operations, however these
    ended, and at any depth: an attempt that fails, or that tells that it did not find what it tried
    to read, leaves the reader just as it was. One that finds it has consumed some of the bytes that
    were not read yet, at least one and none but these, and is at the same depth. -/
theorem found_or_untouched (hr : Reached b r) (op : Operation α) (hop : op.tries = true) :
    (∀ e s, op.run r = .error e s → s = r)
      ∧ (∀ a s, op.run r = .ok a s → ¬ op.Found a → s = r)
      ∧ ∀ a s, op.run r = .ok a s → op.Found a →
        ∃ x, x ≠ [] ∧ b.bytes.drop r.consumed = x ++ b.bytes.drop s.consumed
          ∧ s.consumed = r.consumed + x.length ∧ s.consumed ≤ b.bytes.length
          ∧ s = r.past x.length := by
  have hfollows := hr.follows
  have htentative := op.tentative hop
  refine ⟨fun e s => htentative.of_error hfollows.wellFormed,
    fun a s => htentative.of_missed hfollows.wellFormed, ?_⟩
  intro a s hrun hfound
  obtain ⟨n, hpos, hn, rfl⟩ := htentative.of_found hfollows.wellFormed hrun hfound
  have hle : n ≤ b.bytes.length - r.consumed :=
    Nat.le_trans hn (Nat.le_of_eq hfollows.remaining_eq.symm)
  have hlength : ((b.bytes.drop r.consumed).take n).length = n := by
    rw [List.length_take, List.length_drop, Nat.min_eq_left hle]
  -- the bytes of the backing between the two positions are those that were passed
  have hconsumed : (r.past n).consumed = r.consumed + n := rfl
  refine ⟨(b.bytes.drop r.consumed).take n, ?_, ?_, ?_, by omega, ?_⟩
  · exact List.ne_nil_of_length_pos (hlength.symm ▸ hpos)
  · rw [hconsumed, ← List.drop_drop, List.take_append_drop]
  · rw [hlength, hconsumed]
  · rw [hlength]

/-- A header whose count is split is not that of a map; it is that of an array. -/
theorem found_or_untouched_split_header :
    ∃ r s, Reached (.pieces #[⟨#[0xc3, 0xdc, 0x00]⟩, ⟨#[]⟩, ⟨#[0x01, 0xc0]⟩]) r
      ∧ (∃ e, tryMapHeader.run r = .error e r)
      ∧ tryArrayHeader.run r = .ok (some 1) s ∧ r.consumed < s.consumed := by
  have hr : Reached (.pieces #[⟨#[0xc3, 0xdc, 0x00]⟩, ⟨#[]⟩, ⟨#[0x01, 0xc0]⟩]) _ :=
    Reached.fresh.after .boolean
  obtain ⟨herror, -, -⟩ := found_or_untouched hr .tryMapHeader rfl
  obtain ⟨-, -, hfound⟩ := found_or_untouched hr .tryArrayHeader rfl
  obtain ⟨x, hx, -, hconsumed, -⟩ := hfound (some 1) _ rfl rfl
  have hpos := List.length_pos_iff.mpr hx
  exact ⟨_, _, hr, ⟨_, congrArg _ (herror _ _ rfl)⟩, rfl, by omega⟩

/-! ## Input that has not come yet -/

/-- Whether an attempt finds what it tries to read at the start of one block. -/
def Finds (op : Operation α) (depth : Nat) (bytes : ByteArray) : Prop :=
  ∃ a, (op.outcome depth bytes).1 = .ok a ∧ op.Found a

/-- An attempt that did not find anything has consumed nothing. -/
theorem consumed_of_not_finds {op : Operation α} (hop : op.tries = true) {depth : Nat}
    {bytes : ByteArray} (h : ¬ op.Finds depth bytes) : (op.outcome depth bytes).2 = 0 := by
  have hwf := Cursor.wellFormed_ofBytes bytes
  rw [Finds, outcome] at h
  rw [outcome]
  cases hrun : op.run ⟨.ofBytes bytes, depth⟩ with
  | error e s =>
      rw [(op.tentative hop).of_error hwf hrun]
      rfl
  | ok a s =>
      rw [hrun] at h
      rw [(op.tentative hop).of_missed hwf hrun fun hfound => h ⟨a, rfl, hfound⟩]
      rfl

/-- Only operations that wait tell that the input is too short. -/
theorem waits_of_gaveUp {op : Operation α} {a : α} (h : op.GaveUp a) :
    op.waits = true ∧ ¬ op.Found a := by
  cases op with
  | tryArrayHeader | tryMapHeader | tryExtHeader =>
      rw [show a = none from h]
      exact ⟨rfl, Bool.noConfusion⟩
  | trySkip =>
      rw [show a = false from h]
      exact ⟨rfl, Bool.noConfusion⟩
  | _ => exact h.elim

/-- **FOUND LATER.** An attempt that does not find what it tries to read in one block, but does so
    with more bytes behind the block, consumes nothing of the block. Attempts at headers and skips
    tell then that nothing was found. Attempts at nil and at strings fail instead, with the error of
    an input that ended too early. -/
theorem outcome_of_found_later (op : Operation α) (hop : op.tries = true) (depth : Nat)
    (b c : ByteArray) (hmissed : ¬ op.Finds depth b) (hfound : op.Finds depth (b ++ c)) :
    (op.waits = true → ∃ a, op.outcome depth b = (.ok a, 0) ∧ ¬ op.Found a)
      ∧ (op.waits = false → op.outcome depth b = (.error (.read .endOfStream), 0)) := by
  -- if more bytes bring something to light, the outcome without them was not final
  have hincomplete : op.Incomplete (op.outcome depth b).1 := by
    refine Classical.byContradiction fun hcomplete => hmissed ?_
    rw [Finds, op.outcome_append depth b c hcomplete] at hfound
    exact hfound
  have hconsumed := consumed_of_not_finds hop hmissed
  generalize op.outcome depth b = out at hincomplete hconsumed
  obtain ⟨result, consumed⟩ := out
  cases hconsumed
  cases result with
  | ok a =>
      obtain ⟨hwaits, hmissed⟩ := waits_of_gaveUp (show op.GaveUp a from hincomplete)
      exact ⟨fun _ => ⟨a, rfl, hmissed⟩, fun h => Bool.noConfusion (hwaits.symm.trans h)⟩
  | error e =>
      obtain ⟨hwaits, rfl⟩ : op.waits = false ∧ e = .read .endOfStream := hincomplete
      exact ⟨fun h => Bool.noConfusion (hwaits.symm.trans h), fun _ => rfl⟩

/-- Of an array of one value that is not there yet, and of a string that lacks a byte. -/
theorem outcome_of_found_later_array :
    (∃ a, trySkip.outcome 0 ⟨#[0x91]⟩ = (.ok a, 0) ∧ ¬ trySkip.Found a)
      ∧ tryStringSpan.outcome 0 ⟨#[0xa2, 0x6f]⟩ = (.error (.read .endOfStream), 0) := by
  obtain ⟨hskip, -⟩ := outcome_of_found_later trySkip rfl 0 ⟨#[0x91]⟩ ⟨#[0xc0]⟩
    (by rintro ⟨a, ha, hfound⟩; cases ha; cases hfound) ⟨true, rfl, rfl⟩
  obtain ⟨-, hspan⟩ := outcome_of_found_later tryStringSpan rfl 0 ⟨#[0xa2, 0x6f]⟩ ⟨#[0x6b]⟩
    (by rintro ⟨a, ha, -⟩; cases ha) ⟨some ⟨#[0x6f, 0x6b]⟩, rfl, rfl⟩
  exact ⟨hskip rfl, hspan rfl⟩

/-- Nil that is not there yet is an error. -/
theorem incomplete_nil_fails :
    ¬ ∀ (α : Type) (op : Operation α) (b c : ByteArray), op.tries = true → ¬ op.Finds 0 b →
      op.Finds 0 (b ++ c) → ∃ a, (op.outcome 0 b).1 = .ok a := by
  intro h
  obtain ⟨a, ha⟩ := h _ tryNil ⟨#[]⟩ ⟨#[0xc0]⟩ rfl
    (by rintro ⟨a, ha, -⟩; cases ha) ⟨true, by decide +kernel, rfl⟩
  cases ha

end Operation

end MessagePack
