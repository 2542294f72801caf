import MessagePack.Proofs.Operation

/-!
# What is read depends on what is consumed

An operation has an outcome on one block of bytes, and the question is which bytes the outcome
depends on.

* Bytes behind the input do not change an outcome, unless it says that the input is too short.
* Where a whole token or value was read, even the bytes of the input behind it do not matter. The
  counts and lengths of headers are checked against all that is there, but whatever these checks ask
  for, reading the token consumes.

**`Operation.outcome_depends_on_consumed`** is both. Behind it is that all operations are stable
(`Operation.agree`); values that are skipped and not built are complete values of the grammar.
-/

namespace MessagePack

namespace Reader

/-! ## Positions and outcomes -/

/-- Where the longer input gives something, the shorter one gives the same, or it does not have the
    bytes for it. -/
theorem Agree.of_ok {ε α β : Type} [EndsEarly ε] {K : Comparison α β} {c : List UInt8}
    {r r' : Reader} {x : EStateM.Result ε Reader α} {y : EStateM.Result ε Reader β} {b : β}
    {n : Nat} (h : Agree K c r r' x y) (hy : y = .ok b (r'.past n)) :
    (∃ a, x = .ok a (r.past n) ∧ K.Same a b) ∨ r.cursor.remaining < n + K.owed b := by
  cases h with
  | @ok m a b hm hab =>
      injection hy with hb hpast
      subst hb
      rw [past_inj hpast] at hm ⊢
      exact Or.inl ⟨a, rfl, hab⟩
  | error hm => cases hy
  | short hc hx hlate =>
      obtain ⟨m, hm, hpast, hlt⟩ := hlate b _ hy
      rw [past_inj hpast]
      exact Or.inr hlt

/-! ## Skips over what was consumed -/

/-- What can be skipped is found to be there. -/
theorem trySkip_of_skip {r s : Reader} (h : skip r = .ok () s) : trySkip r = .ok true s := by
  obtain ⟨b, t, hok, hb⟩ := of_bind_eq_ok h
  cases b with
  | false => cases hb
  | true =>
      cases hb
      exact hok

theorem skip_of_trySkip {r s : Reader} (h : trySkip r = .ok true s) : skip r = .ok () s :=
  bind_of_ok h

/-- Where a value was found, its bytes are what was passed over. -/
theorem rawValue_of_trySkip {r : Reader} {n : Nat} (hn : n ≤ r.cursor.remaining)
    (h : trySkip r = .ok true (r.past n)) :
    rawValue r = .ok (r.cursor.viewOf n) (r.past n) := by
  rw [rawValue_apply, bind_of_ok (skip_of_trySkip h), passedSince_past hn]

/-- What a skip has passed over it passes over wherever the same bytes are ahead. -/
theorem trySkip_of_take_eq {r r' : Reader} {n : Nat} (hr : r.cursor.WellFormed)
    (hr' : r'.cursor.WellFormed) (hlt : r.cursor.remaining < 2 ^ 64)
    (hlt' : r'.cursor.remaining < 2 ^ 64) (hn' : n ≤ r'.cursor.remaining)
    (htake : r'.cursor.ahead.take n = r.cursor.ahead.take n)
    (h : trySkip r = .ok true (r.past n)) : trySkip r' = .ok true (r'.past n) := by
  obtain ⟨m, hm, hpast, hvalue⟩ := isValue_of_trySkip hr hlt h
  rw [← past_inj hpast, ← htake] at hvalue
  have hok := trySkip_of_isValue hr' hlt' hvalue (List.take_append_drop n _).symm
  rwa [hr'.length_take_ahead hn'] at hok

end Reader

namespace Operation

open Reader

variable {α : Type}

/-- What an operation gives at a depth, at the start of one block, and how many bytes it consumes.
-/
def outcome (op : Operation α) (depth : Nat) (bytes : ByteArray) :
    Except DocumentError α × Nat :=
  match op.run ⟨.ofBytes bytes, depth⟩ with
  | .ok a s => (.ok a, s.consumed)
  | .error e s => (.error e, s.consumed)

/-- Whether an operation answers that something is missing, and does not fail then. -/
def waits : Operation α → Bool
  | tryArrayHeader | tryMapHeader | tryExtHeader | trySkip => true
  | _ => false

/-- An outcome that says that the input is too short, as the operation says it. -/
def Incomplete (op : Operation α) : Except DocumentError α → Prop
  | .ok a => op.GaveUp a
  | .error e => op.waits = false ∧ e = .read .endOfStream

/-- The position of a reader that has moved from the start of a block. -/
theorem consumed_past_ofBytes (b : ByteArray) (depth n : Nat) :
    ((Reader.mk (.ofBytes b) depth).past n).consumed = n :=
  Nat.zero_add n

/-- An operation that waits does not fail for want of bytes. -/
theorem run_ne_endOfStream {op : Operation α} (hwaits : op.waits = true) {r s : Reader} :
    op.run r ≠ .error (.read .endOfStream) s := by
  -- the reading alone never fails so, and as an operation it keeps its error
  have hfails : ∀ {m : Read α}, Waits m →
      Decode.ofRead m r ≠ .error (.read .endOfStream) s := by
    intro m hm h
    rw [Decode.ofRead, EStateM.adaptExcept] at h
    cases hmr : m r with
    | ok a t =>
        rw [hmr] at h
        cases h
    | error e t =>
        rw [hmr] at h
        cases h
        exact hm hmr
  cases op with
  | tryArrayHeader => exact hfails Waits.tryArrayHeader
  | tryMapHeader => exact hfails Waits.tryMapHeader
  | tryExtHeader => exact hfails Waits.tryExtHeader
  | trySkip => exact hfails Waits.trySkip
  | _ => cases hwaits

/-- A depth step does not look at any bytes. -/
theorem outcome_of_stepsDepth (op : Operation α) (h : op.stepsDepth = true) (depth : Nat)
    (b c : ByteArray) : op.outcome depth b = op.outcome depth c := by
  -- of the two, only entering can fail, and it asks for the depth alone
  cases op with
  | enter policy =>
      have henter : ∀ b : ByteArray, (Operation.enter policy).outcome depth b
          = if policy.maxDepth.toNat ≤ depth then
              (.error (.read (.depthExceeded policy.maxDepth)), 0) else (.ok (), 0) := by
        intro b
        rw [outcome, run, Decode.ofRead, EStateM.adaptExcept, Reader.enter]
        by_cases hdepth : policy.maxDepth.toNat ≤ depth
        · rw [if_pos hdepth, if_pos hdepth]
          rfl
        · rw [if_neg hdepth, if_neg hdepth]
          rfl
      rw [henter, henter]
  | leave => rfl
  | _ => cases h

/-- **BYTES BEHIND THE INPUT** change no outcome but that the input is too short. -/
theorem outcome_append (op : Operation α) (depth : Nat) (b c : ByteArray)
    (h : ¬ op.Incomplete (op.outcome depth b).1) :
    op.outcome depth (b ++ c) = op.outcome depth b := by
  cases hsteps : op.stepsDepth with
  | true => exact op.outcome_of_stepsDepth hsteps depth _ _
  | false =>
      have hagree := op.agree (Extends.ofBytes depth b c) hsteps fun _ => ⟨rfl, rfl⟩
      have hwaits : op.waits = true →
          ∀ s, op.run ⟨.ofBytes b, depth⟩ ≠ .error (.read .endOfStream) s := by
        intro h s
        exact run_ne_endOfStream h
      rw [outcome] at h
      rw [outcome, outcome]
      generalize op.run ⟨.ofBytes b, depth⟩ = x at h hagree hwaits
      generalize op.run ⟨.ofBytes (b ++ c), depth⟩ = y at hagree
      cases hagree with
      | ok hn hab =>
          dsimp only
          rw [consumed_past_ofBytes, consumed_past_ofBytes, show _ = _ from hab]
      | error hn =>
          dsimp only
          rw [consumed_past_ofBytes, consumed_past_ofBytes]
      | short hc hx =>
          cases x with
          | ok a s => exact absurd hx h
          | error e s =>
              have he : e = .read .endOfStream := hx
              subst he
              cases hop : op.waits with
              | true => exact absurd rfl (hwaits hop s)
              | false => exact absurd ⟨hop, rfl⟩ h

/-- An outcome that gives something is a run that has moved forward. -/
theorem run_of_outcome {op : Operation α} {depth n : Nat} {b : ByteArray} {a : α}
    {G : List UInt8 → α → Prop} (hmoves : Recognizes depth op.run G)
    (h : op.outcome depth b = (.ok a, n)) :
    n ≤ b.size ∧ op.run ⟨.ofBytes b, depth⟩ = .ok a ((Reader.mk (.ofBytes b) depth).past n) := by
  rw [outcome] at h
  cases hrun : op.run ⟨.ofBytes b, depth⟩ with
  | error e s =>
      rw [hrun] at h
      cases h
  | ok a' s =>
      rw [hrun] at h
      obtain ⟨l, hl, rfl, -⟩ := hmoves (Cursor.wellFormed_ofBytes b) rfl hrun
      dsimp only at h
      rw [consumed_past_ofBytes] at h
      cases h
      exact ⟨hl, rfl⟩

/-- An operation on a whole token is a read, and not one that looks at pieces. -/
theorem reads_of_readsToken {op : Operation α} (h : op.readsToken = true) :
    op.stepsDepth = false ∧ op.looksAtPieces = false := by
  cases op <;> simp_all [readsToken, stepsDepth, looksAtPieces]

/-- A whole token or value has been found when something is given. -/
theorem not_gaveUp {op : Operation α} {a : α}
    (h : op.readsToken = true ∨ op.skipsValue = true) : ¬ op.GaveUp a := by
  cases op <;> simp_all [readsToken, skipsValue, GaveUp]

/-- **A WHOLE TOKEN OR VALUE** is read from the bytes that it consumes alone. -/
theorem outcome_extract {op : Operation α} {depth n : Nat} {b : ByteArray} {a : α}
    (htoken : op.readsToken = true) (h : op.outcome depth b = (.ok a, n)) :
    op.outcome depth (b.extract 0 n) = (.ok a, n) := by
  obtain ⟨hsteps, hpieces⟩ := reads_of_readsToken htoken
  obtain ⟨hn, hrun⟩ := run_of_outcome ((op.stable (c := []) (k := 0) hsteps hpieces).moves depth) h
  have hextends := Extends.ofBytes depth (b.extract 0 n) (b.extract n b.size)
  rw [Segments.extract_append_rest hn] at hextends
  have hagree := op.agree hextends hsteps fun _ => ⟨rfl, rfl⟩
  -- nothing is owed after a token, so the bytes that it consumed are not too short for it
  rcases hagree.of_ok hrun with ⟨a', hrun', haa'⟩ | hlt
  · rw [outcome, hrun', show a' = a from haa']
    dsimp only
    rw [consumed_past_ofBytes]
  · have howed : (op.comparison (b.extract 0 n).size).owed a = 0 := if_pos htoken
    have hremaining : (Cursor.ofBytes (b.extract 0 n)).remaining = (b.extract 0 n).size := rfl
    rw [howed, hremaining, Segments.size_extract hn] at hlt
    omega

/-- As an operation, a read succeeds just as it does alone. -/
theorem ofRead_eq_ok {m : Read α} {r s : Reader} {a : α} :
    Decode.ofRead m r = .ok a s ↔ m r = .ok a s := by
  rw [Decode.ofRead, EStateM.adaptExcept]
  cases m r <;> simp

/-- An operation that skips a value moves forward within the bytes, if it succeeds. -/
theorem recognizes_of_skipsValue {op : Operation α} (hskips : op.skipsValue = true) (d : Nat) :
    Recognizes d op.run fun _ _ => True := by
  cases op with
  | skip => exact (recognizes_skip d).ofRead
  | rawValue => exact ((recognizes_rawValue d).map fun _ _ _ => trivial).ofRead
  | _ => cases hskips

/-- **A SKIPPED VALUE** is complete by itself, so it is skipped wherever the same bytes are ahead.
-/
theorem run_of_skipsValue {op : Operation α} {r r' : Reader} {n : Nat} {a : α}
    (hskips : op.skipsValue = true) (hr : r.cursor.WellFormed) (hr' : r'.cursor.WellFormed)
    (hlt : r.cursor.remaining < 2 ^ 64) (hlt' : r'.cursor.remaining < 2 ^ 64)
    (hn : n ≤ r.cursor.remaining) (hn' : n ≤ r'.cursor.remaining)
    (htake : r'.cursor.ahead.take n = r.cursor.ahead.take n)
    (h : op.run r = .ok a (r.past n)) : op.run r' = .ok a (r'.past n) := by
  have hagain := trySkip_of_take_eq hr hr' hlt hlt' hn' htake
  cases op with
  | skip =>
      rw [run, ofRead_eq_ok] at h ⊢
      exact skip_of_trySkip (hagain (trySkip_of_skip h))
  | rawValue =>
      rw [run, ofRead_eq_ok] at h ⊢
      obtain ⟨v, s, hraw, hcontent⟩ := of_bind_eq_ok h
      cases hcontent
      have hskip := trySkip_of_rawValue hraw
      -- the two views show the same bytes
      rw [rawValue_of_trySkip hn hskip] at hraw
      cases hraw
      have halike : (r.cursor.viewOf n).Alike (r'.cursor.viewOf n) :=
        ⟨_, hr.shows_viewOf hn, htake ▸ hr'.shows_viewOf hn'⟩
      rw [bind_of_ok (rawValue_of_trySkip hn' (hagain hskip)), halike.content_eq]
      rfl
  | _ => cases hskips

/-- An operation that skips a value needs no other bytes than those it passes over. -/
theorem outcome_extract_of_skipsValue {op : Operation α} {depth n : Nat} {b : ByteArray} {a : α}
    (hskips : op.skipsValue = true) (hb : b.size < 2 ^ 64)
    (h : op.outcome depth b = (.ok a, n)) : op.outcome depth (b.extract 0 n) = (.ok a, n) := by
  obtain ⟨hn, hrun⟩ := run_of_outcome (recognizes_of_skipsValue hskips depth) h
  have hsize : (b.extract 0 n).size = n := Segments.size_extract hn
  -- the bytes that were passed over are the same in both, and skipping looks at no others
  have htake : (Cursor.ofBytes (b.extract 0 n)).ahead.take n
      = (Cursor.ofBytes b).ahead.take n := by
    have hlength : n ≤ (b.extract 0 n).data.toList.length :=
      Nat.le_of_eq (by rw [Segments.length_toList_data, hsize])
    have hsplit : b.data.toList
        = (b.extract 0 n).data.toList ++ (b.extract n b.size).data.toList := by
      rw [← Array.toList_append, ← ByteArray.data_append, Segments.extract_append_rest hn]
    rw [Cursor.ahead_ofBytes, Cursor.ahead_ofBytes, hsplit, List.take_append_of_le_length hlength]
  have hlt : (b.extract 0 n).size < 2 ^ 64 := by omega
  have hle : n ≤ (b.extract 0 n).size := Nat.le_of_eq hsize.symm
  have hown : op.run ⟨.ofBytes (b.extract 0 n), depth⟩
      = .ok a ((Reader.mk (.ofBytes (b.extract 0 n)) depth).past n) :=
    run_of_skipsValue (r := ⟨.ofBytes b, depth⟩) hskips (Cursor.wellFormed_ofBytes b)
      (Cursor.wellFormed_ofBytes _) hb hlt hn hle htake hrun
  rw [outcome, hown]
  dsimp only
  rw [consumed_past_ofBytes]

/-- **WHAT IS READ DEPENDS ON WHAT IS CONSUMED**, for every operation at every depth over one block.
    Unless the outcome says that the input is too short, it is the same with any bytes behind the
    input. And what reads a whole token or value and consumes `n` bytes gives the same value for
    these `n` bytes with anything behind them or nothing at all; skips do so where a word can count
    the bytes of the input. -/
theorem outcome_depends_on_consumed (op : Operation α) (depth : Nat) (b c : ByteArray) :
    (¬ op.Incomplete (op.outcome depth b).1 →
      op.outcome depth (b ++ c) = op.outcome depth b)
      ∧ ∀ (a : α) (n : Nat), op.outcome depth b = (.ok a, n) →
        op.readsToken = true ∨ op.skipsValue = true ∧ b.size < 2 ^ 64 →
        op.outcome depth (b.extract 0 n ++ c) = (.ok a, n) := by
  refine ⟨op.outcome_append depth b c, ?_⟩
  intro a n h hop
  have hown : op.outcome depth (b.extract 0 n) = (.ok a, n) := by
    rcases hop with htoken | ⟨hskips, hb⟩
    · exact outcome_extract htoken h
    · exact outcome_extract_of_skipsValue hskips hb h
  have hcomplete : ¬ op.Incomplete (op.outcome depth (b.extract 0 n)).1 := by
    rw [hown]
    exact not_gaveUp (hop.imp_right And.left)
  rw [op.outcome_append depth _ c hcomplete, hown]

/-- A list of one boolean is read although its count was checked against more than the list, and it
    is skipped, too. -/
theorem outcome_depends_on_consumed_list :
    (Operation.typed .standard (.list .boolean)).outcome 0
        (⟨#[0x91, 0xc3, 0x07, 0x07]⟩ ++ ⟨#[0xc1]⟩) = (.ok [true], 2)
      ∧ (Operation.typed .standard (.list .boolean)).outcome 0
        ((⟨#[0x91, 0xc3, 0x07, 0x07]⟩ : ByteArray).extract 0 2 ++ ⟨#[0xc1]⟩) = (.ok [true], 2)
      ∧ Operation.skip.outcome 0
        ((⟨#[0x91, 0xc3, 0x07, 0x07]⟩ : ByteArray).extract 0 2 ++ ⟨#[0xc1]⟩) = (.ok (), 2) := by
  have hlist : (Operation.typed .standard (.list .boolean)).outcome 0
      ⟨#[0x91, 0xc3, 0x07, 0x07]⟩ = (.ok [true], 2) := rfl
  have hskip : Operation.skip.outcome 0 ⟨#[0x91, 0xc3, 0x07, 0x07]⟩ = (.ok (), 2) := rfl
  obtain ⟨happend, hextract⟩ := outcome_depends_on_consumed
    (Operation.typed .standard (.list .boolean)) 0 ⟨#[0x91, 0xc3, 0x07, 0x07]⟩ ⟨#[0xc1]⟩
  obtain ⟨-, hpassed⟩ :=
    outcome_depends_on_consumed Operation.skip 0 ⟨#[0x91, 0xc3, 0x07, 0x07]⟩ ⟨#[0xc1]⟩
  have hcomplete : ¬ (Operation.typed .standard (.list .boolean)).Incomplete
      ((Operation.typed .standard (.list .boolean)).outcome 0 ⟨#[0x91, 0xc3, 0x07, 0x07]⟩).1 :=
    fun hgave => hgave
  refine ⟨(happend hcomplete).trans hlist, hextract [true] 2 hlist (Or.inl rfl), ?_⟩
  exact hpassed () 2 hskip (Or.inr ⟨rfl, by decide⟩)

end Operation

end MessagePack
