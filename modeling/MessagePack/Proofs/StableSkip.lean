import MessagePack.Proofs.Skip
import MessagePack.Proofs.StableToken

/-!
# Skips in step

A skip runs over lead bytes and bodies, and counts how many values are still to come. Over an input
and the same input with more behind it two skips are in step: turn by turn they are behind the same
bytes and have the same count, until both end in the same way or the shorter input has ended.

* **`Reader.Skip.run_alike`** is that for whole runs. No bound on the input is needed for it: where
  the count of one skip overflows, the count of the other does too.
* Skipping a value and reading its bytes are stable for that reason. That a value is not complete
  says nothing about the longer input.
-/

namespace MessagePack

namespace Reader

variable {c : List UInt8} {k : Nat}

/-! ## Bodies -/

section Skips

variable {r r' : Reader}

/-- A body is passed over in the same way, unless the shorter input ends within it. -/
inductive Passes (c : List UInt8) (r r' : Reader) :
    Option (Cursor × UInt64) → Option (Cursor × UInt64) → Prop
  | both {n : Nat} (hn : n ≤ r.cursor.remaining) (children : UInt64) :
      Passes c r r' (some (r.cursor.past n, children)) (some (r'.cursor.past n, children))
  | neither : Passes c r r' none none
  | short {passed : Option (Cursor × UInt64)} (hc : c ≠ []) : Passes c r r' none passed

/-- Bodies passed over in the same way are so as well when counted from further back. -/
theorem Passes.of_past {n : Nat} {x y : Option (Cursor × UInt64)} (hr : Extends c k r r')
    (hn : n ≤ r.cursor.remaining) (h : Passes c (r.past n) (r'.past n) x y) :
    Passes c r r' x y := by
  have hlonger := hr.remaining_le_longer
  cases h with
  | @both l hl children =>
      rw [cursor_past, Cursor.remaining_past] at hl
      rw [cursor_past, cursor_past, hr.shorter.past_past (by omega),
        hr.longer.past_past (by omega)]
      exact .both (by omega) children
  | neither => exact .neither
  | short hc => exact .short hc

/-- Over a number of bytes both go alike. -/
theorem passes_advance (hr : Extends c k r r') (n : Nat) :
    Passes c r r' ((r.cursor.advance n).toOption.map fun c => (c, 0))
      ((r'.cursor.advance n).toOption.map fun c => (c, 0)) := by
  have hlonger := hr.length_eq
  rw [Cursor.advance_eq, Cursor.advance_eq]
  by_cases hn : n ≤ r.cursor.remaining
  · rw [if_pos hn, if_pos (by omega)]
    exact .both hn 0
  · rw [if_neg hn]
    by_cases hc : c = []
    · rw [if_neg (by rw [hlonger, hc]; exact hn)]
      exact .neither
    · exact .short hc

/-- A field comes first, and what follows depends on the number in it. -/
theorem passes_field (hr : Extends c k r r') (w : Width)
    (next : Nat → Cursor → Option (Cursor × UInt64))
    (hnext : ∀ {k : Nat} {r r' : Reader}, Extends c k r r' → ∀ n,
      Passes c r r' (next n r.cursor) (next n r'.cursor)) :
    Passes c r r' ((r.cursor.nat? w).bind fun p => next p.1 p.2)
      ((r'.cursor.nat? w).bind fun p => next p.1 p.2) := by
  have hlonger := hr.length_eq
  rw [hr.shorter.nat?_eq, hr.longer.nat?_eq]
  by_cases hw : w.bytes ≤ r.cursor.remaining
  · rw [if_pos hw, if_pos (by omega), hr.take_eq hw]
    exact Passes.of_past hr hw (hnext (hr.past hw) _)
  · rw [if_neg hw]
    by_cases hc : c = []
    · rw [if_neg (by rw [hlonger, hc]; exact hw)]
      exact .neither
    · exact .short hc

/-- A body is passed over alike, unless the shorter input ends in it. -/
theorem passes_body (hr : Extends c k r r') (body : Body) :
    Passes c r r' (passBody? r.cursor body) (passBody? r'.cursor body) := by
  have hstay : ∀ {k : Nat} {r r' : Reader}, Extends c k r r' → ∀ children : UInt64,
      Passes c r r' (some (r.cursor, children)) (some (r'.cursor, children)) := by
    intro k r r' hr children
    have hboth : Passes c r r' _ _ := .both (Nat.zero_le _) children
    rwa [hr.shorter.past_zero, hr.longer.past_zero] at hboth
  -- the number of bytes is in the body itself, in the lead byte or in a field
  cases body with
  | fixed n => exact passes_advance hr n
  | sized length more =>
      cases length with
      | inLead n => exact passes_advance hr (n + more)
      | field w =>
          exact passes_field hr w (fun n c => (c.advance (n + more)).toOption.map fun c => (c, 0))
            fun hr n => passes_advance hr (n + more)
  | values count each =>
      cases count with
      | inLead n => exact hstay hr _
      | field w =>
          exact passes_field hr w (fun n c => some (c, UInt64.ofNat (each * n)))
            fun hr n => hstay hr _

/-- Two skips that end in the same way, unless the shorter input ends within the value. -/
inductive SkipEnd.Alike (c : List UInt8) (r r' : Reader) : SkipEnd → SkipEnd → Prop
  | complete {n : Nat} (hn : n ≤ r.cursor.remaining) :
      Alike c r r' (.complete (r.cursor.past n)) (.complete (r'.cursor.past n))
  | invalid (f : Format) : Alike c r r' (.invalid f) (.invalid f)
  | incomplete : Alike c r r' .incomplete .incomplete
  | short {e : SkipEnd} (hc : c ≠ []) : Alike c r r' .incomplete e

/-- Ends that are alike are so as well when counted from further back. -/
theorem SkipEnd.Alike.of_past {n : Nat} {e e' : SkipEnd} (hr : Extends c k r r')
    (hn : n ≤ r.cursor.remaining) (h : SkipEnd.Alike c (r.past n) (r'.past n) e e') :
    SkipEnd.Alike c r r' e e' := by
  have hlonger := hr.remaining_le_longer
  cases h with
  | @complete l hl =>
      rw [cursor_past, Cursor.remaining_past] at hl
      rw [cursor_past, cursor_past, hr.shorter.past_past (by omega),
        hr.longer.past_past (by omega)]
      exact .complete (by omega)
  | invalid f => exact .invalid f
  | incomplete => exact .incomplete
  | short hc => exact .short hc

/-- What two turns come to: both go on behind the same bytes and with as many values to come, or
    both end alike. -/
inductive Skip.TurnsAlike (c : List UInt8) (r r' : Reader) :
    Turn Skip SkipEnd → Turn Skip SkipEnd → Prop
  | again {n : Nat} (hn : n ≤ r.cursor.remaining) (pending : UInt64) :
      TurnsAlike c r r' (.again ⟨r.cursor.past n, pending⟩) (.again ⟨r'.cursor.past n, pending⟩)
  | done {e e' : SkipEnd} (h : SkipEnd.Alike c r r' e e') : TurnsAlike c r r' (.done e) (.done e')
  | short {turn : Turn Skip SkipEnd} (hc : c ≠ []) : TurnsAlike c r r' (.done .incomplete) turn

/-- One turn of both comes to the same. -/
theorem Skip.turn_alike (hr : Extends c k r r') (pending : UInt64) :
    Skip.TurnsAlike c r r' (Skip.turn ⟨r.cursor, pending⟩) (Skip.turn ⟨r'.cursor, pending⟩) := by
  have hlonger := hr.length_eq
  rw [Skip.turn, Skip.turn]
  by_cases hdone : pending = 0
  · rw [if_pos hdone, if_pos hdone]
    have hcomplete : SkipEnd.Alike c r r' _ _ := .complete (Nat.zero_le _)
    rw [hr.shorter.past_zero, hr.longer.past_zero] at hcomplete
    exact .done hcomplete
  · rw [if_neg hdone, if_neg hdone]
    by_cases hshort : r.cursor.remaining < pending.toNat
    · rw [if_pos hshort]
      by_cases hc : c = []
      · rw [if_pos (by rw [hlonger, hc]; exact hshort)]
        exact .done .incomplete
      · exact .short hc
    · have hlong : ¬ r'.cursor.remaining < pending.toNat := by omega
      rw [if_neg hshort, if_neg hlong]
      -- a value is to come, so there is a lead byte, and its body is passed behind it
      have hpositive : pending.toNat ≠ 0 := fun hzero => hdone (UInt64.toNat_inj.mp hzero)
      have hone : 1 ≤ r.cursor.remaining := by omega
      rw [hr.shorter.read?_eq, hr.longer.read?_eq, if_pos hone, if_pos (by omega),
        headD_eq_of_take_eq (hr.take_eq hone)]
      simp only
      cases (Format.ofByte (r.cursor.ahead.headD 0)).body? with
      | none => exact .done (.invalid _)
      | some body =>
          have hpasses := Passes.of_past hr hone (passes_body (hr.past hone) body)
          rw [cursor_past, cursor_past] at hpasses
          simp only
          generalize passBody? (r.cursor.past 1) body = x at hpasses
          generalize passBody? (r'.cursor.past 1) body = y at hpasses
          cases hpasses with
          | both hn children => exact .again hn _
          | neither => exact .done .incomplete
          | short hc => exact .short hc

/-- **TWO SKIPS IN STEP** end alike, if the one with the longer input takes at least as many turns,
    and just as many where the inputs have the same bytes. -/
theorem Skip.run_alike {turns turns' : Nat} (hr : Extends c k r r') (hle : turns ≤ turns')
    (heq : c = [] → turns = turns') (pending : UInt64) :
    SkipEnd.Alike c r r' ((Turn.run Skip.turn turns ⟨r.cursor, pending⟩).getD .incomplete)
      ((Turn.run Skip.turn turns' ⟨r'.cursor, pending⟩).getD .incomplete) := by
  induction turns generalizing turns' k r r' pending with
  | zero =>
      by_cases hc : c = []
      · rw [← heq hc]
        exact .incomplete
      · exact .short hc
  | succ turns ih =>
      obtain ⟨more, rfl⟩ : ∃ more, turns' = more + 1 := ⟨turns' - 1, by omega⟩
      have hturn := Skip.turn_alike hr pending
      rw [Turn.run, Turn.run]
      generalize Skip.turn ⟨r.cursor, pending⟩ = x at hturn
      generalize Skip.turn ⟨r'.cursor, pending⟩ = y at hturn
      cases hturn with
      | again hn pending =>
          refine SkipEnd.Alike.of_past hr hn (ih (hr.past hn) (by omega) (fun hc => ?_) pending)
          exact Nat.succ.inj (heq hc)
      | done h => exact h
      | short hc => exact .short hc

/-- Skips of one value end alike. -/
theorem skipFrom_alike (hr : Extends c k r r') :
    SkipEnd.Alike c r r' (skipFrom r.cursor) (skipFrom r'.cursor) := by
  have hlonger := hr.length_eq
  refine Skip.run_alike hr (by omega) (fun hc => ?_) 1
  rw [hlonger, hc]
  rfl

/-- Every skip moves the reader forward. -/
theorem recognizes_trySkip (d : Nat) : Recognizes d trySkip fun _ _ => True := by
  intro r s b hr _ hok
  -- a skip is in step with itself
  have hself : Extends [] r.cursor.remaining r r :=
    ⟨hr, hr, (List.append_nil _).symm, rfl, Nat.le_refl _⟩
  have hends := skipFrom_alike hself
  rw [trySkip] at hok
  generalize skipFrom r.cursor = e at hok hends
  cases hends with
  | complete hn =>
      cases hok
      exact ⟨_, hn, rfl, trivial⟩
  | invalid f => cases hok
  | incomplete =>
      cases hok
      exact ⟨0, Nat.zero_le _, (past_zero hr).symm, trivial⟩
  | short hc => exact absurd rfl hc

end Skips

/-- Whether a value is complete. That it is not says that the input is too short; about the longer
    input there is nothing to say then. -/
def Comparison.whether (k : Nat) : Comparison Bool Bool :=
  ⟨Eq, fun done => done = false, fun _ => k + 1⟩

/-- Where nothing is known about the longer input, every move in it is as good as another. -/
theorem Stable.late {α : Type} {m : Read α} {r r' s : Reader} {b : α} (hr : Extends c k r r')
    (hm : ∀ d, Recognizes d m fun _ _ => True) (hs : m r' = .ok b s) :
    ∃ n ≤ r'.cursor.remaining, s = r'.past n ∧ r.cursor.remaining < n + (k + 1) := by
  obtain ⟨n, hn, rfl, -⟩ := hm r'.depth hr.longer rfl hs
  have hle := hr.remaining_le
  exact ⟨n, hn, rfl, by omega⟩

/-- Whether a value is complete is stable; that it is not says nothing about the longer input. -/
theorem Stable.trySkip : Stable c k trySkip trySkip (.whether k) where
  moves d := (recognizes_trySkip d).mono fun _ b _ => ⟨b, rfl⟩
  agree r r' hr := by
    have hlate : ∀ b s, Reader.trySkip r' = .ok b s → _ := fun b s =>
      Stable.late hr recognizes_trySkip
    have hends := skipFrom_alike hr
    rw [Reader.trySkip] at hlate ⊢
    rw [Reader.trySkip]
    generalize skipFrom r.cursor = e at hends
    generalize skipFrom r'.cursor = e' at hends hlate
    cases hends with
    | @complete n hn =>
        have hok : Agree (.whether k) c r r' (.ok true (r.past n))
            (.ok true (r'.past n) : EStateM.Result ReadError Reader Bool) := .ok hn rfl
        exact hok
    | invalid f => exact Agree.error_at_once hr
    | incomplete => exact Agree.at_once hr rfl
    | short hc => exact .short hc rfl hlate

/-- To look whether a value is complete does not fail for want of bytes. -/
theorem Waits.trySkip : Waits trySkip := by
  intro r s h
  rw [Reader.trySkip] at h
  split at h <;> cases h

/-- Skipping has to find a complete value. -/
theorem recognizes_skip (d : Nat) : Recognizes d skip fun _ _ => True := by
  refine (recognizes_trySkip d).bind fun _ b _ => ?_
  split
  · exact Recognizes.of_pure trivial
  · exact Recognizes.of_throw _

/-- To skip a value is stable. -/
theorem Stable.skip : Stable c k skip skip (.owing Eq fun _ => k + 1) where
  moves d := (recognizes_skip d).mono fun _ b _ => ⟨b, rfl⟩
  agree r r' hr := by
    have hlate : ∀ b s, Reader.skip r' = .ok b s → _ := fun b s => Stable.late hr recognizes_skip
    have hagree := Stable.trySkip.agree r r' hr
    rw [Reader.skip] at hlate ⊢
    generalize hx : Reader.trySkip r = x at hagree
    generalize hy : Reader.trySkip r' = y at hagree
    cases hagree with
    | @ok n b _ hn hab =>
        rw [bind_of_ok hx, bind_of_ok hy, ← show b = _ from hab]
        cases b with
        | true => exact .ok hn rfl
        | false => exact .error hn
    | error hn =>
        rw [bind_of_error hx, bind_of_error hy]
        exact .error hn
    | short hc hshort =>
        refine .short hc ?_ hlate
        cases x with
        | ok b s =>
            rw [bind_of_ok hx, show b = false from hshort]
            rfl
        | error e s =>
            rw [bind_of_error hx]
            exact hshort

/-- The bytes that were passed since a start. -/
def passedSince (start : Cursor) : Read View :=
  require (return start.view? ((← get).consumed - start.consumed))

theorem rawValue_apply (r : Reader) :
    rawValue r = (skip >>= fun _ => passedSince r.cursor) r := rfl

/-- What was passed over since a place is a view of the bytes behind it. -/
theorem passedSince_past {r : Reader} {n : Nat} (hn : n ≤ r.cursor.remaining) :
    passedSince r.cursor (r.past n) = .ok (r.cursor.viewOf n) (r.past n) := by
  have hview : r.cursor.view? ((r.past n).consumed - r.cursor.consumed)
      = some (r.cursor.viewOf n) := by
    have hconsumed : (r.past n).consumed - r.cursor.consumed = n := Nat.add_sub_cancel_left _ _
    rw [hconsumed, Cursor.view?, if_pos hn]
    rfl
  have hget : (return r.cursor.view? ((← get).consumed - r.cursor.consumed) : Read (Option View))
      (r.past n) = .ok (some (r.cursor.viewOf n)) (r.past n) :=
    congrArg (fun v => EStateM.Result.ok v (r.past n)) hview
  rw [passedSince, require, bind_of_ok hget]
  rfl

/-- The view shows the bytes that were consumed. -/
theorem recognizes_rawValue (d : Nat) :
    Recognizes d rawValue fun x v => v.Shows x := by
  intro r s v hr _ hok
  rw [rawValue_apply] at hok
  obtain ⟨_, t, hskip, hview⟩ := of_bind_eq_ok hok
  obtain ⟨n, hn, rfl, -⟩ := recognizes_skip r.depth hr rfl hskip
  rw [passedSince_past hn] at hview
  cases hview
  exact ⟨n, hn, rfl, hr.shows_viewOf hn⟩

/-- The bytes of a value are stable, wherever they lie. -/
theorem Stable.rawValue :
    Stable c k rawValue rawValue (.owing View.Alike fun _ => k + 1) where
  moves d := (recognizes_rawValue d).mono fun x v hv => ⟨v, x, hv, hv⟩
  agree r r' hr := by
    have hlate : ∀ v s, Reader.rawValue r' = .ok v s → _ := fun v s =>
      Stable.late hr fun d => (recognizes_rawValue d).mono fun _ _ _ => trivial
    have hagree := Stable.skip.agree r r' hr
    rw [rawValue_apply] at hlate ⊢
    rw [rawValue_apply]
    generalize hx : Reader.skip r = x at hagree
    generalize hy : Reader.skip r' = y at hagree
    cases hagree with
    | @ok n a b hn hab =>
        have hn' := Nat.le_trans hn hr.remaining_le_longer
        rw [bind_of_ok hx, bind_of_ok hy, passedSince_past hn, passedSince_past hn']
        exact .ok hn ⟨_, hr.shorter.shows_viewOf hn, hr.take_eq hn ▸ hr.longer.shows_viewOf hn'⟩
    | error hn =>
        rw [bind_of_error hx, bind_of_error hy]
        exact .error hn
    | short hc hshort =>
        refine .short hc ?_ hlate
        cases x with
        | ok b s => exact hshort.elim
        | error e s =>
            rw [bind_of_error hx]
            exact hshort

end Reader

end MessagePack
