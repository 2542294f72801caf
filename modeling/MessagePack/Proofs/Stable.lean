import MessagePack.Proofs.Payload

/-!
# Reading the same bytes with more behind them

Two readers at the same depth, one of which has the bytes of the other ahead and then some more. A
computation is **stable** when its outcome on the longer input can be told from its outcome on the
shorter one: it is the same outcome after the same number of bytes, unless the shorter input ends
too early. With nothing more behind, the two readers differ only in how their bytes are split into
pieces, and the outcome is always the same.

* **`Reader.Extends`** relates the two readers.
* **`Reader.Comparison`** says what a computation owes: when two results count as the same, which
  results say that the input is too short, and how many bytes have to follow a result. A header of
  an array owes as many bytes as it counts elements.
* **`Reader.Agree`** relates two outcomes. An input that ends too early does so for a reason: what
  the longer input gives, it gives after more bytes than the shorter one has.
* **`Reader.Stable`** is closed under everything that computations are made of, as `Reads` and
  `Recognizes` are.
-/

namespace MessagePack

namespace Reader

variable {ε α β γ δ : Type} {c : List UInt8} {k : Nat} {r r' : Reader}

/-! ## Readers and outcomes -/

/-- The errors of computations of one kind, among which is the one of an input that ends early. -/
class EndsEarly (ε : Type) where
  endOfStream : ε

instance : EndsEarly ReadError := ⟨.endOfStream⟩

instance : EndsEarly DocumentError := ⟨.read .endOfStream⟩

/-- At the same depth, the second reader has the bytes of the first ahead and then `c`. The first
    has at most `k` bytes ahead. -/
structure Extends (c : List UInt8) (k : Nat) (r r' : Reader) : Prop where
  shorter : r.cursor.WellFormed
  longer : r'.cursor.WellFormed
  ahead_eq : r'.cursor.ahead = r.cursor.ahead ++ c
  depth_eq : r'.depth = r.depth
  remaining_le : r.cursor.remaining ≤ k

/-- How two computations are compared. -/
structure Comparison (α β : Type) where
  /-- Two results that count as the same. -/
  Same : α → β → Prop
  /-- A result that says that the input is too short. -/
  GaveUp : α → Prop
  /-- The number of bytes that have to follow what a result was read from. -/
  owed : β → Nat

namespace Comparison

/-- Results after which a number of bytes have to come. -/
def owing (R : α → β → Prop) (owed : β → Nat) : Comparison α β :=
  ⟨R, fun _ => False, owed⟩

/-- Results that are complete. -/
def of (R : α → β → Prop) : Comparison α β :=
  owing R fun _ => 0

/-- Results that have to be equal. -/
def eq : Comparison α α :=
  of Eq

/-- Results that may not be found in the shorter input. About finding nothing in the longer one
    there is nothing to say: the shorter has no more than `k` bytes. -/
def found (k : Nat) (R : α → β → Prop) : Comparison (Option α) (Option β) :=
  ⟨Option.Rel R, fun o => o = none, fun o => o.elim (k + 1) fun _ => 0⟩

end Comparison

section Outcomes

variable [EndsEarly ε]

/-- An outcome that says that the input is too short. -/
def TooShort (K : Comparison α β) : EStateM.Result ε Reader α → Prop
  | .ok a _ => K.GaveUp a
  | .error e _ => e = EndsEarly.endOfStream

/-- Two outcomes, on an input and on the same input with `c` behind it, that agree. -/
inductive Agree (K : Comparison α β) (c : List UInt8) (r r' : Reader) :
    EStateM.Result ε Reader α → EStateM.Result ε Reader β → Prop
  | ok {n : Nat} {a : α} {b : β} (hn : n ≤ r.cursor.remaining) (hab : K.Same a b) :
      Agree K c r r' (.ok a (r.past n)) (.ok b (r'.past n))
  | error {n : Nat} {e : ε} (hn : n ≤ r.cursor.remaining) :
      Agree K c r r' (.error e (r.past n)) (.error e (r'.past n))
  | short {x : EStateM.Result ε Reader α} {y : EStateM.Result ε Reader β} (hc : c ≠ [])
      (hx : TooShort K x)
      (hy : ∀ b s, y = .ok b s → ∃ n ≤ r'.cursor.remaining, s = r'.past n
        ∧ r.cursor.remaining < n + K.owed b) :
      Agree K c r r' x y

/-- Two computations, of which the second has the longer input, whose outcomes agree. -/
structure Stable (c : List UInt8) (k : Nat) (m : EStateM ε Reader α) (m' : EStateM ε Reader β)
    (K : Comparison α β) : Prop where
  agree : ∀ r r', Extends c k r r' → Agree K c r r' (m r) (m' r')
  moves : ∀ d, Recognizes d m' fun _ b => ∃ a, K.Same a b

end Outcomes

namespace Extends

theorem length_eq (h : Extends c k r r') :
    r'.cursor.remaining = r.cursor.remaining + c.length := by
  rw [← h.longer.length_ahead, h.ahead_eq, List.length_append, h.shorter.length_ahead]

/-- The longer input has no fewer bytes. -/
theorem remaining_le_longer (h : Extends c k r r') : r.cursor.remaining ≤ r'.cursor.remaining := by
  rw [h.length_eq]
  exact Nat.le_add_right _ _

/-- What the shorter input has, the longer one has in the same place. -/
theorem take_eq {n : Nat} (h : Extends c k r r') (hn : n ≤ r.cursor.remaining) :
    r'.cursor.ahead.take n = r.cursor.ahead.take n := by
  rw [h.ahead_eq, List.take_append_of_le_length]
  rwa [h.shorter.length_ahead]

/-- Both past the same bytes, the one still extends the other. -/
theorem past {n : Nat} (h : Extends c k r r') (hn : n ≤ r.cursor.remaining) :
    Extends c (k - n) (r.past n) (r'.past n) where
  shorter := h.shorter.past hn
  longer := h.longer.past (Nat.le_trans hn h.remaining_le_longer)
  ahead_eq := by
    rw [cursor_past, cursor_past, Cursor.ahead_past, Cursor.ahead_past, h.ahead_eq,
      List.drop_append_of_le_length]
    rwa [h.shorter.length_ahead]
  depth_eq := h.depth_eq
  remaining_le := by
    rw [cursor_past, Cursor.remaining_past]
    exact Nat.sub_le_sub_right h.remaining_le n

theorem mono {l : Nat} (h : Extends c k r r') (hkl : k ≤ l) : Extends c l r r' :=
  ⟨h.shorter, h.longer, h.ahead_eq, h.depth_eq, Nat.le_trans h.remaining_le hkl⟩

/-- The readers are still related one level deeper. -/
theorem nested (h : Extends c k r r') :
    Extends c k ⟨r.cursor, r.depth + 1⟩ ⟨r'.cursor, r'.depth + 1⟩ :=
  ⟨h.shorter, h.longer, h.ahead_eq, congrArg (· + 1) h.depth_eq, h.remaining_le⟩

/-- One block, and the same block with more behind it. -/
theorem ofBytes (depth : Nat) (b c : ByteArray) :
    Extends c.data.toList b.size ⟨.ofBytes b, depth⟩ ⟨.ofBytes (b ++ c), depth⟩ where
  shorter := Cursor.wellFormed_ofBytes b
  longer := Cursor.wellFormed_ofBytes (b ++ c)
  ahead_eq := by
    show (Cursor.ofBytes (b ++ c)).ahead = (Cursor.ofBytes b).ahead ++ c.data.toList
    rw [Cursor.ahead_ofBytes, Cursor.ahead_ofBytes, ByteArray.data_append, Array.toList_append]
  depth_eq := rfl
  remaining_le := Nat.le_refl _

end Extends

/-! ## Sequences -/

section Sequences

variable [EndsEarly ε] {K : Comparison α β} {L : Comparison γ δ} {R : α → β → Prop}
  {S : γ → δ → Prop} {owed : β → Nat}

/-- A computation that consumes nothing and always gives the same. -/
theorem Agree.at_once {a : α} {b : β} (h : Extends c k r r') (hab : K.Same a b) :
    Agree (ε := ε) K c r r' (.ok a r) (.ok b r') := by
  have hok : Agree (ε := ε) K c r r' (.ok a (r.past 0)) (.ok b (r'.past 0)) :=
    .ok (Nat.zero_le _) hab
  rwa [past_zero h.shorter, past_zero h.longer] at hok

/-- To fail at once, with the same error, is to agree. -/
theorem Agree.error_at_once {e : ε} (h : Extends c k r r') :
    Agree K c r r' (.error e r) (.error e r') := by
  have herror : Agree K c r r' (.error e (r.past 0)) (.error e (r'.past 0)) :=
    .error (Nat.zero_le _)
  rwa [past_zero h.shorter, past_zero h.longer] at herror

/-- Results that count as the same, found without reading, agree. -/
theorem Stable.of_pure {a : α} {b : β} (hab : K.Same a b) :
    Stable c k (pure a : EStateM ε Reader α) (pure b) K where
  agree _ _ h := Agree.at_once h hab
  moves _ := Recognizes.of_pure ⟨a, hab⟩

/-- To fail always is stable. -/
theorem Stable.of_throw (e : ε) :
    Stable c k (throw e : EStateM ε Reader α) (throw e) K where
  agree _ _ h := Agree.error_at_once h
  moves _ := Recognizes.of_throw e

/-- More may count as the same, and more may be owed. -/
theorem Stable.mono {m : EStateM ε Reader α} {m' : EStateM ε Reader β} {K' : Comparison α β}
    (h : Stable c k m m' K) (hsame : ∀ a b, K.Same a b → K'.Same a b)
    (hgave : ∀ a, K.GaveUp a → K'.GaveUp a) (howed : ∀ b, K.owed b ≤ K'.owed b) :
    Stable c k m m' K' where
  moves d := (h.moves d).mono fun _ b ⟨a, hab⟩ => ⟨a, hsame a b hab⟩
  agree r r' hr := by
    have hagree := h.agree r r' hr
    generalize m r = x at hagree
    generalize m' r' = y at hagree
    cases hagree with
    | ok hn hab => exact .ok hn (hsame _ _ hab)
    | error hn => exact .error hn
    | short hc hx hy =>
        refine .short hc ?_ ?_
        · cases x with
          | ok a s => exact hgave a hx
          | error e s => exact hx
        · intro b s hs
          obtain ⟨n, hn, hpast, hlt⟩ := hy b s hs
          exact ⟨n, hn, hpast, Nat.lt_of_lt_of_le hlt (Nat.add_le_add_left (howed b) n)⟩

/-- What is owed may be forgotten: the shorter input has no more than `k` bytes anyway. -/
theorem Stable.forget {m : EStateM ε Reader α} {m' : EStateM ε Reader β}
    (h : Stable c k m m' K) : Stable c k m m' ⟨K.Same, K.GaveUp, fun _ => k + 1⟩ where
  moves := h.moves
  agree r r' hr := by
    have hagree := h.agree r r' hr
    generalize m r = x at hagree
    generalize m' r' = y at hagree
    cases hagree with
    | ok hn hab => exact .ok hn hab
    | error hn => exact .error hn
    | short hc hx hy =>
        refine .short hc ?_ ?_
        · cases x with
          | ok a s => exact hx
          | error e s => exact hx
        · intro b s hs
          obtain ⟨n, hn, hpast, -⟩ := hy b s hs
          have hle : r.cursor.remaining < n + (k + 1) := by
            have hle := hr.remaining_le
            omega
          exact ⟨n, hn, hpast, hle⟩

/-- What agrees behind the next bytes agrees before them. -/
theorem Agree.of_past {n : Nat} {x : EStateM.Result ε Reader α} {y : EStateM.Result ε Reader β}
    (hr : Extends c k r r') (hn : n ≤ r.cursor.remaining)
    (h : Agree K c (r.past n) (r'.past n) x y) : Agree K c r r' x y := by
  have hlonger := hr.remaining_le_longer
  -- the same numbers of bytes, counted from further back
  cases h with
  | @ok l a b hl hab =>
      rw [cursor_past, Cursor.remaining_past] at hl
      rw [past_past hr.shorter (by omega), past_past hr.longer (by omega)]
      exact .ok (by omega) hab
  | @error l e hl =>
      rw [cursor_past, Cursor.remaining_past] at hl
      rw [past_past hr.shorter (by omega), past_past hr.longer (by omega)]
      exact .error (by omega)
  | short hc hx hy =>
      refine .short hc hx ?_
      intro b s hs
      obtain ⟨l, hl, rfl, hlt⟩ := hy b s hs
      rw [cursor_past, Cursor.remaining_past] at hl hlt
      exact ⟨n + l, by omega, past_past hr.longer (by omega), by omega⟩

/-- A computation whose results take at least `j` bytes. -/
def Consumes (j : Nat) (m : EStateM ε Reader α) : Prop :=
  ∀ ⦃r s : Reader⦄ ⦃a : α⦄, r.cursor.WellFormed → m r = .ok a s →
    j ≤ s.cursor.consumed - r.cursor.consumed

/-- **One part after the other.** The first part consumes at least `j` bytes, and what its results
    owe is consumed by the second part or still owed after it. -/
theorem Stable.bind_consuming {m : EStateM ε Reader α} {m' : EStateM ε Reader β}
    {f : α → EStateM ε Reader γ} {f' : β → EStateM ε Reader δ} {j : Nat}
    (hm : Stable c k m m' (.owing R owed)) (hj : Consumes j m)
    (hf : ∀ a b, R a b → Stable c (k - j) (f a) (f' b) L)
    (howed : ∀ d a b, R a b → Recognizes d (f' b) fun x b' => owed b ≤ x.length + L.owed b') :
    Stable c k (m >>= f) (m' >>= f') L where
  moves d := (hm.moves d).bind fun _ b ⟨a, hab⟩ => (hf a b hab).moves d
  agree r r' hr := by
    have hagree := hm.agree r r' hr
    generalize hmr : m r = x at hagree
    generalize hmr' : m' r' = y at hagree
    cases hagree with
    | @ok n a b hn hab =>
        -- the first part has consumed `j` bytes, and the second starts behind them
        have hjn := hj hr.shorter hmr
        rw [cursor_past, Cursor.consumed_past, Nat.add_sub_cancel_left] at hjn
        rw [bind_of_ok hmr, bind_of_ok hmr']
        exact Agree.of_past hr hn <|
          (hf a b hab).agree _ _ ((hr.past hn).mono (Nat.sub_le_sub_left hjn k))
    | error hn =>
        rw [bind_of_error hmr, bind_of_error hmr']
        exact .error hn
    | short hc hx hy =>
        refine .short hc ?_ ?_
        · cases x with
          | ok a s => exact hx.elim
          | error e s =>
              rw [bind_of_error hmr]
              exact hx
        · -- the second part consumes what the first one owes
          intro b' t ht
          obtain ⟨b, s, hok, hrest⟩ := of_bind_eq_ok ht
          obtain ⟨n, hn, rfl, hlt⟩ := hy b s (hmr'.symm.trans hok)
          obtain ⟨-, -, -, a, hab⟩ := hm.moves r'.depth hr.longer rfl hok
          have hpast : (r'.past n).cursor.WellFormed := hr.longer.past hn
          obtain ⟨l, hl, rfl, hle⟩ := howed r'.depth a b hab hpast rfl hrest
          rw [hpast.length_take_ahead hl] at hle
          rw [cursor_past, Cursor.remaining_past] at hl
          have howes : (Comparison.owing R owed).owed b = owed b := rfl
          exact ⟨n + l, by omega, past_past hr.longer (by omega), by omega⟩

/-- One part after the other, where the second part consumes what the first one owes. -/
theorem Stable.bind_owing {m m' : EStateM ε Reader α} {f : α → EStateM ε Reader γ}
    {f' : α → EStateM ε Reader δ} {owed : α → Nat} (hm : Stable c k m m' (.owing Eq owed))
    (hf : ∀ a, Stable c k (f a) (f' a) L)
    (howed : ∀ d a, Recognizes d (f' a) fun x b' => owed a ≤ x.length + L.owed b') :
    Stable c k (m >>= f) (m' >>= f') L := by
  refine Stable.bind_consuming (j := 0) hm (fun _ _ _ _ _ => Nat.zero_le _) ?_ ?_
  · rintro a _ rfl
    exact hf a
  · rintro d a _ rfl
    exact howed d a

/-- One part after the other, where the results of the first part are complete. -/
theorem Stable.bind {m : EStateM ε Reader α} {m' : EStateM ε Reader β}
    {f : α → EStateM ε Reader γ} {f' : β → EStateM ε Reader δ} (hm : Stable c k m m' (.of R))
    (hf : ∀ a b, R a b → Stable c k (f a) (f' b) L) : Stable c k (m >>= f) (m' >>= f') L :=
  Stable.bind_consuming (j := 0) hm (fun _ _ _ _ _ => Nat.zero_le _) hf fun d a b hab =>
    ((hf a b hab).moves d).mono fun _ _ _ => Nat.zero_le _

/-- A result is made from what was read. -/
theorem Stable.map {m : EStateM ε Reader α} {m' : EStateM ε Reader β} {f : α → γ} {f' : β → δ}
    (hm : Stable c k m m' (.of R)) (hf : ∀ a b, R a b → L.Same (f a) (f' b)) :
    Stable c k (do return f (← m)) (do return f' (← m')) L :=
  hm.bind fun a b hab => Stable.of_pure (hf a b hab)

/-- One part after the other, where the first part gives the same to both. -/
theorem Stable.bind_eq {m m' : EStateM ε Reader α} {f : α → EStateM ε Reader γ}
    {f' : α → EStateM ε Reader δ} (hm : Stable c k m m' .eq)
    (hf : ∀ a, Stable c k (f a) (f' a) L) : Stable c k (m >>= f) (m' >>= f') L := by
  refine hm.bind ?_
  rintro a _ rfl
  exact hf a

theorem Stable.map_eq {m m' : EStateM ε Reader α} (hm : Stable c k m m' .eq) (f : α → γ) :
    Stable c k (do return f (← m)) (do return f (← m')) .eq :=
  hm.map fun _ _ hab => congrArg f hab

/-- Where nothing was found, nothing is found in the end either. -/
theorem Stable.bind_found {m : EStateM ε Reader (Option α)} {m' : EStateM ε Reader (Option β)}
    {f : Option α → EStateM ε Reader (Option γ)} {f' : Option β → EStateM ε Reader (Option δ)}
    (hm : Stable c k m m' (.found k R)) (hnone : f none = pure none) (hnone' : f' none = pure none)
    (hf : ∀ a b, R a b → Stable c k (f (some a)) (f' (some b)) (.found k S)) :
    Stable c k (m >>= f) (m' >>= f') (.found k S) where
  moves d := by
    refine (hm.moves d).bind ?_
    rintro _ (_ | b) ⟨o, ho⟩
    · rw [hnone']
      exact Recognizes.of_pure ⟨none, .none⟩
    · cases ho with
      | some hab => exact (hf _ b hab).moves d
  agree r r' hr := by
    have hagree := hm.agree r r' hr
    generalize hmr : m r = x at hagree
    generalize hmr' : m' r' = y at hagree
    cases hagree with
    | ok hn hab =>
        rw [bind_of_ok hmr, bind_of_ok hmr']
        cases hab with
        | some hab =>
            refine Agree.of_past hr hn ((hf _ _ hab).agree _ _ ((hr.past hn).mono ?_))
            exact Nat.sub_le _ _
        | none =>
            rw [hnone, hnone']
            exact .ok hn .none
    | error hn =>
        rw [bind_of_error hmr, bind_of_error hmr']
        exact .error hn
    | short hc hx hy =>
        refine .short hc ?_ ?_
        · cases x with
          | ok a s =>
              rw [bind_of_ok hmr, show a = none from hx, hnone]
              rfl
          | error e s =>
              rw [bind_of_error hmr]
              exact hx
        · intro o t ht
          obtain ⟨b, s, hok, hrest⟩ := of_bind_eq_ok ht
          obtain ⟨n, hn, rfl, hlt⟩ := hy b s (hmr'.symm.trans hok)
          obtain ⟨-, -, -, a, hab⟩ := hm.moves r'.depth hr.longer rfl hok
          have hle := hr.remaining_le
          cases hab with
          | none =>
              rw [hnone'] at hrest
              cases hrest
              exact ⟨n, hn, rfl, hlt⟩
          | some hab =>
              have hpast : (r'.past n).cursor.WellFormed := hr.longer.past hn
              obtain ⟨l, hl, rfl, -⟩ := (hf _ _ hab).moves r'.depth hpast rfl hrest
              rw [cursor_past, Cursor.remaining_past] at hl
              refine ⟨n + l, by omega, past_past hr.longer (by omega), ?_⟩
              have hlt' : r.cursor.remaining < n := hlt
              omega

/-- What was found is changed. -/
theorem Stable.map_found {m : EStateM ε Reader (Option α)} {m' : EStateM ε Reader (Option β)}
    {f : α → γ} {f' : β → δ} (hm : Stable c k m m' (.found k R))
    (hf : ∀ a b, R a b → S (f a) (f' b)) :
    Stable c k (do return (← m).map f) (do return (← m').map f') (.found k S) :=
  hm.bind_found rfl rfl fun a b hab => Stable.of_pure (.some (hf a b hab))

/-! ## Containers -/

/-- Inside a container the depth is one more, or neither input can be entered. -/
theorem Stable.nested {inject : ReadError → ε} {policy : SecurityPolicy} {m : EStateM ε Reader α}
    {m' : EStateM ε Reader β} (hm : Stable c k m m' K) :
    Stable c k (nested inject policy m) (Reader.nested inject policy m') K where
  moves d := (hm.moves (d + 1)).nested.mono fun _ _ h => h.2
  agree r r' hr := by
    rw [Reader.nested, Reader.nested, hr.depth_eq]
    split
    · exact Agree.error_at_once hr
    · have hagree := hm.agree _ _ hr.nested
      rw [hr.depth_eq] at hagree
      generalize m ⟨r.cursor, r.depth + 1⟩ = x at hagree
      generalize m' ⟨r'.cursor, r.depth + 1⟩ = y at hagree
      -- the way back out puts the depths as they were
      have hleave : ∀ n, (⟨(r'.cursor.past n), r.depth⟩ : Reader) = r'.past n := by
        intro n
        rw [Reader.past, hr.depth_eq]
      cases hagree with
      | @ok n _ _ hn hab =>
          show Agree K c r r' _ (.ok _ ⟨r'.cursor.past n, r.depth⟩)
          rw [hleave]
          exact .ok hn hab
      | @error n _ hn =>
          show Agree K c r r' _ (.error _ ⟨r'.cursor.past n, r.depth⟩)
          rw [hleave]
          exact .error hn
      | short hc hx hy =>
          refine .short hc ?_ ?_
          · cases x with
            | ok a s => exact hx
            | error e s => exact hx
          · intro b s hs
            cases y with
            | error e t => cases hs
            | ok b' t =>
                cases hs
                obtain ⟨n, hn, rfl, hlt⟩ := hy _ t rfl
                exact ⟨n, hn, hleave n, hlt⟩

/-- Repeating gives as many results, all of them the same. -/
theorem Stable.replicateOnto {m m' : EStateM ε Reader α} (hm : Stable c k m m' .eq) (n : Nat)
    (acc : List α) : Stable c k (replicateOnto m n acc) (Reader.replicateOnto m' n acc) .eq := by
  induction n generalizing acc with
  | zero => exact Stable.of_pure rfl
  | succ n ih =>
      exact hm.bind_eq fun a => ih (a :: acc)

/-- To repeat what is stable is stable. -/
theorem Stable.replicate {m m' : EStateM ε Reader α} (hm : Stable c k m m' .eq) (n : Nat) :
    Stable c k (replicate n m) (Reader.replicate n m') .eq :=
  (hm.replicateOnto n []).map_eq _

end Sequences

/-! ## What has to be there, and what may be there -/

section Finding

variable {R : α → β → Prop}

/-- What has to be found is stable if what may be found is: finding nothing becomes the error of an
    input that ends early. -/
theorem Stable.require {m : Read (Option α)} {m' : Read (Option β)}
    (hm : Stable c k m m' (.found k R)) : Stable c k (require m) (Reader.require m') (.of R) where
  moves d := by
    refine Recognizes.require ((hm.moves d).mono ?_)
    rintro _ _ ⟨o, ho⟩ b rfl
    cases ho with
    | some hab => exact ⟨_, hab⟩
  agree r r' hr := by
    have hagree := hm.agree r r' hr
    generalize hmr : m r = x at hagree
    generalize hmr' : m' r' = y at hagree
    cases hagree with
    | ok hn hab =>
        rw [Reader.require, Reader.require, bind_of_ok hmr, bind_of_ok hmr']
        cases hab with
        | some hab => exact .ok hn hab
        | none => exact .error hn
    | error hn =>
        rw [Reader.require, Reader.require, bind_of_error hmr, bind_of_error hmr']
        exact .error hn
    | short hc hx hy =>
        refine .short hc ?_ ?_
        · cases x with
          | ok a s =>
              rw [Reader.require, bind_of_ok hmr, show a = none from hx]
              rfl
          | error e s =>
              rw [Reader.require, bind_of_error hmr]
              exact hx
        · intro b t ht
          obtain ⟨o, s, hok, hrest⟩ := of_bind_eq_ok ht
          cases o with
          | none => cases hrest
          | some b' =>
              cases hrest
              exact hy _ _ (hmr'.symm.trans hok)

/-- A failed attempt moves nothing, so nothing is known of the longer input after it. -/
theorem Stable.attempt_of {m : Read (Option α)} {m' : Read (Option β)}
    {K : Comparison (Option α) (Option β)} (hm : Stable c k m m' K)
    (hnone : ∀ o o', K.Same o o' → (o = none ↔ o' = none)) (hsame : K.Same none none)
    (hgave : ∀ o, K.GaveUp o → o = none) (howed : K.owed none = k + 1) :
    Stable c k (attempt m) (Reader.attempt m') K where
  moves d := by
    refine (Recognizes.attempt (G := fun _ b => ∃ o, K.Same o (some b)) ((hm.moves d).mono ?_)).mono
      ?_
    · rintro _ _ ⟨o, ho⟩ b rfl
      exact ⟨o, ho⟩
    · rintro _ (_ | b) h
      · exact ⟨none, hsame⟩
      · exact h b rfl
  agree r r' hr := by
    have hagree := hm.agree r r' hr
    rw [Reader.attempt, Reader.attempt]
    generalize m r = x at hagree
    generalize m' r' = y at hagree
    cases hagree with
    | @ok n o o' hn hab =>
        have hiff := hnone o o' hab
        cases o with
        | none =>
            rw [hiff.mp rfl]
            exact Agree.at_once hr hsame
        | some a =>
            cases o' with
            | none => cases hiff.mpr rfl
            | some b => exact .ok hn hab
    | error hn => exact Agree.error_at_once hr
    | short hc hx hy =>
        refine .short hc ?_ ?_
        · cases x with
          | ok o s =>
              have ho : o = none := hgave o hx
              subst ho
              exact hx
          | error e s => exact hx
        · intro o t ht
          cases y with
          | error e s => cases ht
          | ok o' s =>
              cases o' with
              | some b =>
                  cases ht
                  exact hy _ _ rfl
              | none =>
                  cases ht
                  have hle := hr.remaining_le
                  exact ⟨0, Nat.zero_le _, (past_zero hr.longer).symm, by omega⟩

/-- An attempt at what is stable is stable. -/
theorem Stable.attempt {m : Read (Option α)} {m' : Read (Option β)}
    (hm : Stable c k m m' (.found k R)) :
    Stable c k (attempt m) (Reader.attempt m') (.found k R) := by
  refine hm.attempt_of ?_ .none (fun _ ho => ho) rfl
  rintro _ _ (_ | _)
  · simp
  · simp

/-- A number that is checked against the bytes behind it owes as many bytes. -/
theorem Stable.check {m : Read α} {g : α → Nat} (hm : Stable c k m m .eq) :
    Stable c k (do
      let a ← m
      if (← get).remaining < g a then throw ReadError.endOfStream
      else pure a) (do
      let a ← m
      if (← get).remaining < g a then throw ReadError.endOfStream
      else pure a) (.owing Eq g) := by
  refine hm.bind_eq fun a => ⟨?_, ?_⟩
  · intro r r' hr
    have hlonger := hr.length_eq
    have hcheck : ∀ s : Reader, (get >>= fun s : Reader =>
        (if s.remaining < g a then throw ReadError.endOfStream else pure a : Read α)) s
          = if s.cursor.remaining < g a then .error .endOfStream s else .ok a s := by
      intro s
      show (if s.cursor.remaining < g a then throw ReadError.endOfStream else pure a : Read α) s = _
      split <;> rfl
    rw [hcheck, hcheck]
    by_cases hshort : r.cursor.remaining < g a
    · rw [if_pos hshort]
      by_cases hc : c = []
      · rw [if_pos (by rw [hlonger, hc]; exact hshort)]
        exact Agree.error_at_once hr
      · -- the longer input may have what is missing, but it is owed then
        refine .short hc rfl ?_
        intro b s hs
        split at hs
        · cases hs
        · cases hs
          exact ⟨0, Nat.zero_le _, (past_zero hr.longer).symm, by
            show r.cursor.remaining < 0 + g a
            omega⟩
    · rw [if_neg hshort, if_neg (by omega)]
      exact Agree.at_once hr rfl
  · intro d
    refine Recognizes.bind_get fun s => ?_
    split
    · exact Recognizes.of_throw _
    · exact Recognizes.of_pure ⟨a, rfl⟩

end Finding

/-! ## Inside documents -/

section Documents

variable {R : α → β → Prop} {K : Comparison α β}

theorem Stable.ofRead {m : Read α} {m' : Read β} (hm : Stable c k m m' K) :
    Stable c k (Decode.ofRead m) (Decode.ofRead m') K where
  moves d := (hm.moves d).ofRead
  agree r r' hr := by
    have hagree := hm.agree r r' hr
    rw [Decode.ofRead, Decode.ofRead, EStateM.adaptExcept, EStateM.adaptExcept]
    generalize m r = x at hagree
    generalize m' r' = y at hagree
    cases hagree with
    | ok hn hab => exact .ok hn hab
    | error hn => exact .error hn
    | short hc hx hy =>
        refine .short hc ?_ ?_
        · cases x with
          | ok a s => exact hx
          | error e s => exact congrArg DocumentError.read hx
        · intro b s hs
          cases y with
          | error e t => cases hs
          | ok b' t =>
              cases hs
              exact hy _ _ rfl

/-- What must not be nil. -/
theorem Stable.ofNonNil {m : Read (Option α)} {m' : Read (Option β)}
    (hm : Stable c k m m' (.of (Option.Rel R))) :
    Stable c k (Decode.ofNonNil m) (Decode.ofNonNil m') (.of R) := by
  refine hm.ofRead.bind ?_
  rintro _ _ (hab | _)
  · exact Stable.of_pure hab
  · exact Stable.of_throw _

end Documents

/-! ## Steps of the cursor -/

section Steps

variable {f : Cursor → Option (α × Cursor)} {n : Nat} {g : Cursor → α} {R : α → α → Prop}

/-- A step that takes a number of bytes, and gives the same for the same bytes. -/
theorem Stable.step?_of_size
    (hf : ∀ c : Cursor, c.WellFormed →
      f c = if n ≤ c.remaining then some (g c, c.past n) else none)
    (hg : ∀ c c' : Cursor, c.WellFormed → c'.WellFormed → n ≤ c.remaining → n ≤ c'.remaining →
      c'.ahead.take n = c.ahead.take n → R (g c) (g c')) :
    Stable c k (step? f) (step? f) (.found k R) where
  moves d := by
    refine (Recognizes.step?_of_size hf (G := fun _ b => ∃ a, R a b) ?_).mono ?_
    · intro c hc hn
      exact ⟨g c, hg c c hc hc hn hn rfl⟩
    · rintro _ (_ | b) h
      · exact ⟨none, .none⟩
      · obtain ⟨-, a, hab⟩ := h b rfl
        exact ⟨some a, .some hab⟩
  agree r r' hr := by
    have hlonger := hr.length_eq
    rw [Reader.step?, Reader.step?, hf _ hr.shorter, hf _ hr.longer]
    by_cases hn : n ≤ r.cursor.remaining
    · have hn' : n ≤ r'.cursor.remaining := by omega
      rw [if_pos hn, if_pos hn']
      exact .ok hn (.some (hg _ _ hr.shorter hr.longer hn hn' (hr.take_eq hn)))
    · rw [if_neg hn]
      by_cases hc : c = []
      · rw [if_neg (by rw [hlonger, hc]; exact hn)]
        exact Agree.at_once hr .none
      · refine .short hc rfl ?_
        intro o s hs
        split at hs
        · rename_i hfound
          split at hfound
          · rename_i hn'
            cases hfound
            cases hs
            refine ⟨n, hn', rfl, ?_⟩
            show r.cursor.remaining < n + 0
            omega
          · cases hfound
        · cases hs
          refine ⟨0, Nat.zero_le _, (past_zero hr.longer).symm, ?_⟩
          have hle := hr.remaining_le
          show r.cursor.remaining < 0 + (k + 1)
          omega

end Steps

end Reader

end MessagePack
