import Mathlib.Data.List.Forall2
import MessagePack.DocumentError
import MessagePack.Proofs.Cursor

/-!
# What computations over a reader do with the bytes ahead

A computation that reads is looked at from two sides. Forward: given the bytes ahead, what does it
give, and how far has the reader moved? Backward: given that it succeeded, which bytes did it
consume, and what have they to do with the result? And given that it failed, with which errors?

* **`Reader.past`** is a reader that has moved forward; every success ends at one.
* **`Reader.Reads`** is the forward side: out of known bytes a computation consumes a known part and
  gives a result of a kind, or it fails in a way that is allowed.
* **`Reader.Recognizes`** is the backward side: whenever a computation succeeds, it has consumed
  bytes that a grammar relates to its result.
* **`Reader.FailsOnly`** names the errors that a computation can fail with.

All are closed under everything that computations are made of: sequences, looking ahead, entering a
container and repeating. So what is shown of a whole reading function follows its text.
-/

namespace MessagePack

namespace Reader

variable {ε σ α β : Type}

/-- The reader behind the next bytes. -/
def past (r : Reader) (n : Nat) : Reader :=
  ⟨r.cursor.past n, r.depth⟩

@[simp] theorem cursor_past (r : Reader) (n : Nat) : (r.past n).cursor = r.cursor.past n := rfl

theorem past_zero {r : Reader} (h : r.cursor.WellFormed) : r.past 0 = r := by
  rw [past, h.past_zero]

/-- Past some bytes and then others is past them all. -/
theorem past_past {r : Reader} {n m : Nat} (h : r.cursor.WellFormed)
    (hn : n + m ≤ r.cursor.remaining) : (r.past n).past m = r.past (n + m) := by
  rw [past, past, past, h.past_past hn]

/-- Different numbers of bytes lead to different places. -/
theorem past_inj {r : Reader} {n m : Nat} (h : r.past n = r.past m) : n = m := by
  have hconsumed := congrArg (fun s : Reader => s.cursor.consumed) h
  simp only [cursor_past, Cursor.consumed_past] at hconsumed
  omega

/-! ## Sequencing -/

/-- What succeeds goes on with its result. -/
theorem bind_of_ok {m : EStateM ε σ α} {f : α → EStateM ε σ β} {r s : σ} {a : α}
    (h : m r = .ok a s) : (m >>= f) r = f a s := by
  show EStateM.bind m f r = f a s
  rw [EStateM.bind, h]

theorem bind_of_error {m : EStateM ε σ α} {f : α → EStateM ε σ β} {r s : σ} {e : ε}
    (h : m r = .error e s) : (m >>= f) r = .error e s := by
  show EStateM.bind m f r = .error e s
  rw [EStateM.bind, h]

/-- A sequence that succeeds has succeeded in both of its parts. -/
theorem of_bind_eq_ok {m : EStateM ε σ α} {f : α → EStateM ε σ β} {r t : σ} {b : β}
    (h : (m >>= f) r = .ok b t) : ∃ a s, m r = .ok a s ∧ f a s = .ok b t := by
  cases hm : m r with
  | ok a s =>
      rw [bind_of_ok hm] at h
      exact ⟨a, s, rfl, h⟩
  | error e s =>
      rw [bind_of_error hm] at h
      cases h

/-- What a computation leaves. -/
def after {σ : Type} : EStateM.Result ε σ α → σ
  | .ok _ s => s
  | .error _ s => s

/-! ## Forward: what is read from known bytes -/

/-- At a depth, out of the bytes `x ++ rest` a computation consumes `x` and gives a result of a
    kind, unless it fails with an allowed error. -/
def Reads (d : Nat) (m : EStateM ε Reader α) (x rest : List UInt8) (P : α → Prop) (E : ε → Prop) :
    Prop :=
  ∀ ⦃r : Reader⦄, r.cursor.WellFormed → r.depth = d → r.cursor.ahead = x ++ rest →
    (∃ a, m r = .ok a (r.past x.length) ∧ P a) ∨ ∃ e s, m r = .error e s ∧ E e

variable {d : Nat} {x y rest : List UInt8} {P : α → Prop} {Q : β → Prop} {E : ε → Prop}

/-- Behind the bytes that have been consumed come the others. -/
theorem ahead_past_append {r : Reader} (hahead : r.cursor.ahead = x ++ rest) :
    (r.past x.length).cursor.ahead = rest := by
  rw [cursor_past, Cursor.ahead_past, hahead, List.drop_left]

/-- Results and errors may be of wider kinds. -/
theorem Reads.mono {m : EStateM ε Reader α} {P' : α → Prop} {E' : ε → Prop}
    (h : Reads d m x rest P E) (hP : ∀ a, P a → P' a) (hE : ∀ e, E e → E' e) :
    Reads d m x rest P' E' := by
  intro r hr hd hahead
  rcases h hr hd hahead with ⟨a, hm, ha⟩ | ⟨e, s, hm, he⟩
  · exact Or.inl ⟨a, hm, hP a ha⟩
  · exact Or.inr ⟨e, s, hm, hE e he⟩

theorem Reads.imp {m : EStateM ε Reader α} {P' : α → Prop} (h : Reads d m x rest P E)
    (hP : ∀ a, P a → P' a) : Reads d m x rest P' E :=
  h.mono hP fun _ he => he

theorem Reads.of_pure {a : α} (ha : P a) : Reads d (pure a : EStateM ε Reader α) [] rest P E := by
  intro r hr hd hahead
  exact Or.inl ⟨a, by rw [List.length_nil, past_zero hr]; rfl, ha⟩

theorem Reads.of_throw {e : ε} (he : E e) : Reads d (throw e : EStateM ε Reader α) x rest P E :=
  fun r _ _ _ => Or.inr ⟨e, r, rfl, he⟩

/-- One part after the other. -/
theorem Reads.bind {m : EStateM ε Reader α} {f : α → EStateM ε Reader β}
    (hm : Reads d m x (y ++ rest) P E) (hf : ∀ a, P a → Reads d (f a) y rest Q E) :
    Reads d (m >>= f) (x ++ y) rest Q E := by
  intro r hr hd hahead
  rw [List.append_assoc] at hahead
  have hx := hr.length_le_remaining hahead
  rcases hm hr hd hahead with ⟨a, hok, ha⟩ | ⟨e, s, herror, he⟩
  · rw [bind_of_ok hok, List.length_append, ← past_past hr (by
      rw [← hr.length_ahead, hahead, List.length_append, List.length_append]
      omega)]
    exact hf a ha (hr.past hx) hd (ahead_past_append hahead)
  · exact Or.inr ⟨e, s, bind_of_error herror, he⟩

/-- A look at the bytes ahead comes before what consumes them. -/
theorem Reads.bind_peek {m : EStateM ε Reader α} {f : α → EStateM ε Reader β}
    (hm : Reads d m [] (x ++ rest) P E) (hf : ∀ a, P a → Reads d (f a) x rest Q E) :
    Reads d (m >>= f) x rest Q E :=
  Reads.bind (x := []) hm hf

/-- What comes last consumes nothing more. -/
theorem Reads.bind_last {m : EStateM ε Reader α} {f : α → EStateM ε Reader β}
    (hm : Reads d m x rest P E) (hf : ∀ a, P a → Reads d (f a) [] rest Q E) :
    Reads d (m >>= f) x rest Q E := by
  rw [← List.append_nil x]
  exact Reads.bind hm hf

/-- A result is made from what was read. -/
theorem Reads.map {m : EStateM ε Reader α} {f : α → β} (hm : Reads d m x rest P E)
    (hf : ∀ a, P a → Q (f a)) : Reads d (do return f (← m)) x rest Q E :=
  hm.bind_last fun a ha => Reads.of_pure (hf a ha)

/-- A part of the work is given the reader itself. -/
theorem Reads.bind_get {f : Reader → EStateM ε Reader β}
    (h : ∀ r : Reader, r.cursor.WellFormed → r.depth = d → r.cursor.ahead = x ++ rest →
      Reads d (f r) x rest Q E) : Reads d (get >>= f) x rest Q E :=
  fun r hr hd hahead => h r hr hd hahead hr hd hahead

theorem Reads.ofRead {m : Read α} {E : ReadError → Prop} {E' : DocumentError → Prop}
    (h : Reads d m x rest P E) (hE : ∀ e, E e → E' (.read e)) :
    Reads d (Decode.ofRead m) x rest P E' := by
  intro r hr hd hahead
  rcases h hr hd hahead with ⟨a, hm, ha⟩ | ⟨e, s, hm, he⟩
  · exact Or.inl ⟨a, by rw [Decode.ofRead, EStateM.adaptExcept, hm], ha⟩
  · exact Or.inr ⟨.read e, s, by rw [Decode.ofRead, EStateM.adaptExcept, hm], hE e he⟩

/-- A read that cannot fail does not fail inside a document either. -/
theorem Reads.ofRead_of_sure {m : Read α} {E : DocumentError → Prop}
    (h : Reads d m x rest P fun _ => False) : Reads d (Decode.ofRead m) x rest P E :=
  h.ofRead fun _ he => he.elim

/-- Where nil is refused, what is not nil is read. -/
theorem Reads.ofNonNil {m : Read (Option α)} {E : ReadError → Prop} {E' : DocumentError → Prop}
    (h : Reads d m x rest (fun o => ∃ a, o = some a ∧ P a) E) (hE : ∀ e, E e → E' (.read e)) :
    Reads d (Decode.ofNonNil m) x rest P E' := by
  refine (h.ofRead hE).bind_last ?_
  rintro o ⟨a, rfl, ha⟩
  exact Reads.of_pure ha

/-- What has to be there is what was found. -/
theorem Reads.require {m : Read (Option α)} {E : ReadError → Prop}
    (h : Reads d m x rest (fun o => ∃ a, o = some a ∧ P a) E) :
    Reads d (require m) x rest P E := by
  refine h.bind_last ?_
  rintro o ⟨a, rfl, ha⟩
  exact Reads.of_pure ha

/-- An attempt reads what is there. -/
theorem Reads.attempt {m : Read (Option α)} {E : ReadError → Prop}
    (h : Reads d m x rest (fun o => ∃ a, o = some a ∧ P a) E) :
    Reads d (attempt m) x rest (fun o => ∃ a, o = some a ∧ P a) E := by
  intro r hr hd hahead
  rcases h hr hd hahead with ⟨o, hm, a, rfl, ha⟩ | ⟨e, s, hm, he⟩
  · exact Or.inl ⟨some a, by rw [Reader.attempt, hm], a, rfl, ha⟩
  · exact Or.inr ⟨e, r, by rw [Reader.attempt, hm], he⟩

/-- Inside a container the depth is one more. If that is too deep, nothing is read. -/
theorem Reads.nested {inject : ReadError → ε} {policy : SecurityPolicy} {m : EStateM ε Reader α}
    (h : d < policy.maxDepth.toNat → Reads (d + 1) m x rest P E)
    (hE : policy.maxDepth.toNat ≤ d → E (inject (.depthExceeded policy.maxDepth))) :
    Reads d (nested inject policy m) x rest P E := by
  intro r hr hd hahead
  rw [Reader.nested]
  split
  · rename_i hdepth
    exact Or.inr ⟨_, _, rfl, hE (hd ▸ hdepth)⟩
  · -- the way back out puts the depth as it was
    rename_i hdepth
    rcases h (by omega) (r := ⟨r.cursor, r.depth + 1⟩) hr (congrArg (· + 1) hd) hahead with
      ⟨a, hm, ha⟩ | ⟨e, s, hm, he⟩
    · rw [hm]
      exact Or.inl ⟨a, rfl, ha⟩
    · rw [hm]
      exact Or.inr ⟨e, _, rfl, he⟩

/-! ## Backward: what a success has consumed -/

/-- Whenever a computation at a depth succeeds, it has consumed bytes that a grammar relates to its
    result, and the reader is at the same depth again. -/
def Recognizes (d : Nat) (m : EStateM ε Reader α) (G : List UInt8 → α → Prop) : Prop :=
  ∀ ⦃r s : Reader⦄ ⦃a : α⦄, r.cursor.WellFormed → r.depth = d → m r = .ok a s →
    ∃ n ≤ r.cursor.remaining, s = r.past n ∧ G (r.cursor.ahead.take n) a

variable {G H : List UInt8 → α → Prop}

/-- The grammar may be a wider one. -/
theorem Recognizes.mono {m : EStateM ε Reader α} (h : Recognizes d m G)
    (hGH : ∀ bytes a, G bytes a → H bytes a) : Recognizes d m H := by
  intro r s a hr hd hm
  obtain ⟨n, hn, hs, ha⟩ := h hr hd hm
  exact ⟨n, hn, hs, hGH _ _ ha⟩

theorem Recognizes.of_pure {a : α} (ha : G [] a) :
    Recognizes d (pure a : EStateM ε Reader α) G := by
  intro r s b hr hd hm
  cases hm
  exact ⟨0, Nat.zero_le _, (past_zero hr).symm, ha⟩

theorem Recognizes.of_throw (e : ε) : Recognizes d (throw e : EStateM ε Reader α) G :=
  fun _ _ _ _ _ hm => by cases hm

/-- One part after the other: the bytes are those of the first part and those of the second. -/
theorem Recognizes.bind {m : EStateM ε Reader α} {f : α → EStateM ε Reader β}
    {K : List UInt8 → β → Prop} (hm : Recognizes d m G)
    (hf : ∀ x a, G x a → Recognizes d (f a) fun y b => K (x ++ y) b) :
    Recognizes d (m >>= f) K := by
  intro r t b hr hd h
  obtain ⟨a, s, hok, hfok⟩ := of_bind_eq_ok h
  obtain ⟨n, hn, rfl, ha⟩ := hm hr hd hok
  obtain ⟨k, hk, rfl, hb⟩ := hf _ a ha (r := r.past n) (hr.past hn) hd hfok
  -- what the second part consumed lies behind what the first one did
  rw [cursor_past, Cursor.remaining_past] at hk
  rw [cursor_past, Cursor.ahead_past, ← List.take_add] at hb
  exact ⟨n + k, by omega, past_past hr (by omega), hb⟩

/-- What comes last consumes nothing more. -/
theorem Recognizes.bind_last {m : EStateM ε Reader α} {f : α → EStateM ε Reader β}
    {K : List UInt8 → β → Prop} (hm : Recognizes d m G)
    (hf : ∀ x a, G x a → Recognizes d (f a) fun y b => y = [] ∧ K x b) :
    Recognizes d (m >>= f) K := by
  refine hm.bind fun x a ha => (hf x a ha).mono ?_
  rintro y b ⟨rfl, hb⟩
  rwa [List.append_nil]

/-- A result is made from what was recognized. -/
theorem Recognizes.map {m : EStateM ε Reader α} {f : α → β} {K : List UInt8 → β → Prop}
    (hm : Recognizes d m G) (hf : ∀ x a, G x a → K x (f a)) :
    Recognizes d (do return f (← m)) K :=
  hm.bind_last fun x a ha => Recognizes.of_pure ⟨rfl, hf x a ha⟩

/-- A part of the work is given the reader itself. -/
theorem Recognizes.bind_get {f : Reader → EStateM ε Reader α} (h : ∀ r, Recognizes d (f r) G) :
    Recognizes d (get >>= f) G :=
  fun r _ _ hr hd hm => h r hr hd hm

/-- Where something has to be found, it is as when it may be found. -/
theorem Recognizes.require {m : Read (Option α)}
    (h : Recognizes d m fun x o => ∀ a, o = some a → G x a) : Recognizes d (require m) G := by
  intro r s a hr hd hok
  obtain ⟨o, t, hm, ho⟩ := of_bind_eq_ok hok
  obtain ⟨n, hn, rfl, ha⟩ := h hr hd hm
  cases o with
  | none => cases ho
  | some b =>
      cases ho
      exact ⟨n, hn, rfl, ha _ rfl⟩

/-- What an attempt finds is as without it. -/
theorem Recognizes.attempt {m : Read (Option α)}
    (h : Recognizes d m fun x o => ∀ a, o = some a → G x a) :
    Recognizes d (attempt m) fun x o => ∀ a, o = some a → G x a := by
  intro r s o hr hd hok
  rw [Reader.attempt] at hok
  split at hok
  · rename_i a t hm
    cases hok
    exact h hr hd hm
  · cases hok
    exact ⟨0, Nat.zero_le _, (past_zero hr).symm, fun _ ha => by cases ha⟩
  · cases hok

theorem Recognizes.ofRead {m : Read α} (h : Recognizes d m G) :
    Recognizes d (Decode.ofRead m) G := by
  intro r s a hr hd hok
  refine h hr hd ?_
  rw [Decode.ofRead, EStateM.adaptExcept] at hok
  split at hok
  · cases hok
  · rename_i hm
    cases hok
    exact hm

/-- Where nil is refused, what is not nil is recognized. -/
theorem Recognizes.ofNonNil {m : Read (Option α)}
    (h : Recognizes d m fun x o => ∀ a, o = some a → G x a) :
    Recognizes d (Decode.ofNonNil m) G := by
  intro r s a hr hd hok
  obtain ⟨o, t, hm, ho⟩ := of_bind_eq_ok hok
  obtain ⟨n, hn, rfl, ha⟩ := h.ofRead hr hd hm
  cases o with
  | none => cases ho
  | some b =>
      cases ho
      exact ⟨n, hn, rfl, ha _ rfl⟩

/-- Inside a container the depth is one more, and it has to be allowed. -/
theorem Recognizes.nested {inject : ReadError → ε} {policy : SecurityPolicy}
    {m : EStateM ε Reader α} (h : Recognizes (d + 1) m G) :
    Recognizes d (nested inject policy m) fun x a => d < policy.maxDepth.toNat ∧ G x a := by
  intro r s a hr hd hok
  rw [Reader.nested] at hok
  split at hok
  · cases hok
  · rename_i hdepth
    split at hok
    · rename_i b t hm
      cases hok
      obtain ⟨n, hn, rfl, ha⟩ := h (r := ⟨r.cursor, r.depth + 1⟩) hr (congrArg (· + 1) hd) hm
      exact ⟨n, hn, rfl, by omega, ha⟩
    · cases hok

/-! ## Repeating -/

/-- Repeating reads as many parts, one behind the other. -/
theorem Reads.replicateOnto {ι : Type} {m : EStateM ε Reader α} {bytes : ι → List UInt8}
    {P : ι → α → Prop} (items : List ι) (acc : List α)
    (h : ∀ i ∈ items, ∀ rest, Reads d m (bytes i) rest (P i) E) :
    Reads d (replicateOnto m items.length acc) (items.map bytes).flatten rest
      (fun l => ∃ l', List.Forall₂ P items l' ∧ l = l'.reverse ++ acc) E := by
  induction items generalizing acc with
  | nil => exact Reads.of_pure ⟨[], .nil, rfl⟩
  | cons i items ih =>
      obtain ⟨hi, hitems⟩ := List.forall_mem_cons.mp h
      rw [List.map_cons, List.flatten_cons]
      refine Reads.bind (hi _) fun a ha => (ih (a :: acc) hitems).imp ?_
      rintro l ⟨l', hl', rfl⟩
      exact ⟨a :: l', .cons ha hl', by rw [List.reverse_cons, List.append_assoc]; rfl⟩

/-- Repeated, it reads the encodings of as many items in order. -/
theorem Reads.replicate {ι : Type} {m : EStateM ε Reader α} {bytes : ι → List UInt8}
    {P : ι → α → Prop} (items : List ι)
    (h : ∀ i ∈ items, ∀ rest, Reads d m (bytes i) rest (P i) E) :
    Reads d (replicate items.length m) (items.map bytes).flatten rest
      (fun l => List.Forall₂ P items l) E := by
  refine (Reads.replicateOnto items [] h).map ?_
  rintro l ⟨l', hl', rfl⟩
  rwa [List.append_nil, List.reverse_reverse]

/-- Repeating recognizes as many parts, one behind the other. The parts are kept with the results
    that they belong to. -/
theorem Recognizes.replicateOnto {m : EStateM ε Reader α} (h : Recognizes d m G) (n : Nat)
    (acc : List α) :
    Recognizes d (replicateOnto m n acc) fun x l => ∃ parts : List (α × List UInt8),
      parts.length = n ∧ (∀ p ∈ parts, G p.2 p.1) ∧ x = (parts.map Prod.snd).flatten
        ∧ l = (parts.map Prod.fst).reverse ++ acc := by
  -- by induction on the number of parts; the results are collected in reverse
  induction n generalizing acc with
  | zero => exact Recognizes.of_pure ⟨[], rfl, List.forall_mem_nil _, rfl, rfl⟩
  | succ n ih =>
      refine h.bind fun y a ha => (ih (a :: acc)).mono ?_
      rintro z l ⟨parts, rfl, hparts, rfl, rfl⟩
      refine ⟨(a, y) :: parts, rfl, List.forall_mem_cons.mpr ⟨ha, hparts⟩, rfl, ?_⟩
      rw [List.map_cons, List.reverse_cons, List.append_assoc]
      rfl

/-- Repeated, it recognizes as many parts in order, each with its result. -/
theorem Recognizes.replicate {m : EStateM ε Reader α} (h : Recognizes d m G) (n : Nat) :
    Recognizes d (replicate n m) fun x l => ∃ parts : List (α × List UInt8),
      parts.length = n ∧ (∀ p ∈ parts, G p.2 p.1) ∧ x = (parts.map Prod.snd).flatten
        ∧ l = parts.map Prod.fst := by
  refine (h.replicateOnto n []).map ?_
  rintro x l ⟨parts, hlength, hparts, rfl, rfl⟩
  exact ⟨parts, hlength, hparts, rfl, by rw [List.append_nil, List.reverse_reverse]⟩

/-! ## Errors -/

/-- Whenever the computation fails, it is with an error of a kind. -/
def FailsOnly (E : ε → Prop) (m : EStateM ε Reader α) : Prop :=
  ∀ ⦃r s : Reader⦄ ⦃e : ε⦄, m r = .error e s → E e

theorem FailsOnly.of_pure (a : α) : FailsOnly E (pure a : EStateM ε Reader α) := by
  intro r s e h
  cases h

theorem FailsOnly.of_throw {e : ε} (he : E e) : FailsOnly E (throw e : EStateM ε Reader α) := by
  intro r s e' h
  cases h
  exact he

/-- A sequence fails only with errors of its parts. -/
theorem FailsOnly.bind {m : EStateM ε Reader α} {f : α → EStateM ε Reader β} (hm : FailsOnly E m)
    (hf : ∀ a, FailsOnly E (f a)) : FailsOnly E (m >>= f) := by
  intro r s e h
  cases hmr : m r with
  | ok a t =>
      rw [bind_of_ok hmr] at h
      exact hf a h
  | error e' t =>
      rw [bind_of_error hmr] at h
      cases h
      exact hm hmr

theorem FailsOnly.map {m : EStateM ε Reader α} (hm : FailsOnly E m) (f : α → β) :
    FailsOnly E (do return f (← m)) :=
  hm.bind fun a => .of_pure (f a)

/-- Entering a container adds one error, that it is too deep. -/
theorem FailsOnly.nested {inject : ReadError → ε} {policy : SecurityPolicy}
    {m : EStateM ε Reader α} (hm : FailsOnly E m)
    (hE : E (inject (.depthExceeded policy.maxDepth))) :
    FailsOnly E (nested inject policy m) := by
  intro r s e h
  rw [Reader.nested] at h
  -- either entering is refused, or what is inside fails
  split at h
  · cases h
    exact hE
  · split at h
    · cases h
    · rename_i hmr
      cases h
      exact hm hmr

/-- Repeated, it fails only with the same errors. -/
theorem FailsOnly.replicateOnto {m : EStateM ε Reader α} (hm : FailsOnly E m) (n : Nat)
    (acc : List α) : FailsOnly E (replicateOnto m n acc) := by
  induction n generalizing acc with
  | zero => exact .of_pure _
  | succ n ih => exact hm.bind fun a => ih (a :: acc)

theorem FailsOnly.replicate {m : EStateM ε Reader α} (hm : FailsOnly E m) (n : Nat) :
    FailsOnly E (replicate n m) :=
  (hm.replicateOnto n []).map _

/-! ## Steps -/

/-- A step of the cursor that takes known bytes. -/
theorem Reads.step {f : Cursor → Option (α × Cursor)} {E : ReadError → Prop}
    (h : ∀ c : Cursor, c.WellFormed → c.ahead = x ++ rest →
      ∃ a, f c = some (a, c.past x.length) ∧ P a) : Reads d (step f) x rest P E := by
  intro r hr hd hahead
  obtain ⟨a, hf, ha⟩ := h r.cursor hr hahead
  have hstep : step? f r = .ok (some a) (r.past x.length) := by
    rw [step?, hf]
    rfl
  exact Or.inl ⟨a, bind_of_ok hstep, ha⟩

/-- A step of the cursor that has found something has taken what it says. -/
theorem Recognizes.step? {f : Cursor → Option (α × Cursor)}
    (h : ∀ (c c' : Cursor) (a : α), c.WellFormed → f c = some (a, c') →
      ∃ n ≤ c.remaining, c' = c.past n ∧ G (c.ahead.take n) a) :
    Recognizes d (step? f) fun x o => ∀ a, o = some a → G x a := by
  intro r s o hr hd hok
  rw [Reader.step?] at hok
  split at hok
  · rename_i a c hf
    cases hok
    obtain ⟨n, hn, rfl, ha⟩ := h _ _ _ hr hf
    refine ⟨n, hn, rfl, ?_⟩
    rintro b hb
    cases hb
    exact ha
  · cases hok
    exact ⟨0, Nat.zero_le _, (past_zero hr).symm, fun _ ha => by cases ha⟩

/-! ## Steps that take a number of bytes

    Fields and views are taken if there are as many bytes as they need, and are a function of the
    cursor then. -/

section Sized

variable {f : Cursor → Option (α × Cursor)} {n : Nat} {g : Cursor → α}

/-- What takes the next `n` bytes is read from any `n` bytes. -/
theorem Reads.step_of_size {E : ReadError → Prop}
    (hf : ∀ c : Cursor, c.WellFormed →
      f c = if n ≤ c.remaining then some (g c, c.past n) else none)
    (hx : x.length = n) (hg : ∀ c : Cursor, c.WellFormed → c.ahead.take n = x → P (g c)) :
    Reads d (Reader.step f) x rest P E := by
  refine Reads.step ?_
  intro c hc hahead
  have hle := hc.length_le_remaining hahead
  rw [hx] at hle
  refine ⟨g c, by rw [hf c hc, if_pos hle, hx], hg c hc ?_⟩
  rw [hahead, List.take_left' hx]

/-- What takes the next `n` bytes has taken as many, if it gives anything. -/
theorem Recognizes.step?_of_size
    (hf : ∀ c : Cursor, c.WellFormed →
      f c = if n ≤ c.remaining then some (g c, c.past n) else none)
    (hg : ∀ c : Cursor, c.WellFormed → n ≤ c.remaining → G (c.ahead.take n) (g c)) :
    Recognizes d (Reader.step? f) fun x o => ∀ a, o = some a → x.length = n ∧ G x a := by
  refine Recognizes.step? ?_
  intro c c' a hc hok
  rw [hf c hc] at hok
  split at hok
  · rename_i hn
    cases hok
    exact ⟨n, hn, rfl, hc.length_take_ahead hn, hg c hc hn⟩
  · cases hok

end Sized

theorem Reads.nat {w : Width} {E : ReadError → Prop} (hx : x.length = w.bytes) :
    Reads d (Reader.step (·.nat? w)) x rest (fun n => n = BigEndian.decode x) E :=
  Reads.step_of_size (fun _ hc => hc.nat?_eq w) hx fun _ _ htake => by rw [htake]

theorem Reads.int {t : IntType} {E : ReadError → Prop} (hx : x.length = t.width.bytes) :
    Reads d (Reader.step (·.int? t)) x rest (fun n => n = t.decode x) E :=
  Reads.step_of_size (fun _ hc => hc.int?_eq t) hx fun _ _ htake => by rw [htake]

/-- Bytes that are taken are shown by the view. -/
theorem Reads.take {n : Nat} {E : ReadError → Prop} (hx : x.length = n) :
    Reads d (take n) x rest (fun v => v.Shows x) E := by
  refine Reads.step_of_size (fun c _ => Cursor.take?_eq c n) hx ?_
  intro c hc htake
  have hle : n ≤ c.remaining := by
    rw [← hx, ← htake, List.length_take, hc.length_ahead]
    exact Nat.min_le_right _ _
  rw [← htake]
  exact hc.shows_viewOf hle

theorem Recognizes.nat? (w : Width) : Recognizes d (Reader.step? (·.nat? w)) fun x o =>
    ∀ n, o = some n → x.length = w.bytes ∧ n = BigEndian.decode x :=
  Recognizes.step?_of_size (fun _ hc => hc.nat?_eq w) fun _ _ _ => rfl

theorem Recognizes.int? (t : IntType) : Recognizes d (Reader.step? (·.int? t)) fun x o =>
    ∀ n, o = some n → x.length = t.width.bytes ∧ n = t.decode x :=
  Recognizes.step?_of_size (fun _ hc => hc.int?_eq t) fun _ _ _ => rfl

/-- A view that is taken shows the bytes that were consumed. -/
theorem Recognizes.take (n : Nat) :
    Recognizes d (take n) fun x v => x.length = n ∧ v.Shows x :=
  Recognizes.require <|
    Recognizes.step?_of_size (fun c _ => Cursor.take?_eq c n) fun _ hc hn => hc.shows_viewOf hn

/-! ## Lead bytes -/

/-- The next format is that of the next byte, and it stays ahead. -/
theorem nextFormat_apply (r : Reader) : nextFormat r =
    r.cursor.peek?.elim (.error .endOfStream r) fun b => .ok (.ofByte b) r := by
  have hget : (get : Read Reader) r = .ok r r := rfl
  rw [nextFormat, bind_of_ok hget]
  cases r.cursor.peek? <;> rfl

/-- To look at the next byte consumes nothing. -/
theorem Reads.nextFormat {b : UInt8} {E : ReadError → Prop} :
    Reads d nextFormat [] (b :: rest) (fun f => f = .ofByte b) E := by
  intro r hr hd hahead
  refine Or.inl ⟨.ofByte b, ?_, rfl⟩
  rw [nextFormat_apply, hr.peek?_eq, hahead, List.length_nil, past_zero hr]
  rfl

/-- The next byte is read as its format. -/
theorem Reads.format? {b : UInt8} {E : ReadError → Prop} :
    Reads d format? [b] rest (fun o => ∃ f, o = some f ∧ f = .ofByte b) E := by
  intro r hr hd hahead
  have hread : Reader.step? Cursor.read? r = .ok (some b) (r.past 1) := by
    rw [Reader.step?, hr.read?_cons hahead]
    rfl
  exact Or.inl ⟨some (.ofByte b), bind_of_ok hread, _, rfl, rfl⟩

theorem Reads.format {b : UInt8} {E : ReadError → Prop} :
    Reads d format [b] rest (fun f => f = .ofByte b) E :=
  Reads.require Reads.format?

/-- A format that is read is that of the byte consumed. -/
theorem Recognizes.format? : Recognizes d format? fun x o =>
    ∀ f, o = some f → ∃ b, x = [b] ∧ f = .ofByte b := by
  have hread : Recognizes d (Reader.step? Cursor.read?) fun x o => ∀ b, o = some b → x = [b] := by
    refine Recognizes.step? ?_
    intro c c' b hc hf
    cases hahead : c.ahead with
    | nil =>
        rw [hc.read?_nil hahead] at hf
        cases hf
    | cons b' rest =>
        rw [hc.read?_cons hahead] at hf
        cases hf
        exact ⟨1, hc.length_le_remaining (x := [b]) hahead, rfl, rfl⟩
  refine hread.map ?_
  intro x o ho f hf
  obtain ⟨b, rfl, rfl⟩ := Option.map_eq_some_iff.mp hf
  exact ⟨b, ho b rfl, rfl⟩

theorem Recognizes.format : Recognizes d format fun x f => ∃ b, x = [b] ∧ f = .ofByte b :=
  Recognizes.require Recognizes.format?

/-- A computation that looks at the next lead byte and consumes nothing. -/
def Peeks (m : EStateM ε Reader Format) : Prop :=
  ∀ ⦃r s : Reader⦄ ⦃f : Format⦄, r.cursor.WellFormed → m r = .ok f s →
    s = r ∧ ∃ b, r.cursor.ahead.head? = some b ∧ f = .ofByte b

/-- The next format is found by looking at a byte. -/
theorem peeks_nextFormat : Peeks nextFormat := by
  intro r s f hr hok
  rw [nextFormat_apply, hr.peek?_eq] at hok
  cases hb : r.cursor.ahead.head? with
  | none =>
      rw [hb] at hok
      cases hok
  | some b =>
      rw [hb] at hok
      cases hok
      exact ⟨rfl, b, rfl, rfl⟩

theorem Peeks.ofRead {m : Read Format} (h : Peeks m) : Peeks (Decode.ofRead m) := by
  intro r s f hr hok
  refine h hr ?_
  rw [Decode.ofRead, EStateM.adaptExcept] at hok
  split at hok
  · cases hok
  · rename_i hm
    cases hok
    exact hm

/-- What comes after a look at the lead byte may count on it: if it consumes anything, it consumes
    that byte first. -/
theorem Recognizes.bind_peek {m : EStateM ε Reader Format} {f : Format → EStateM ε Reader α}
    (hm : Peeks m)
    (hf : ∀ b, Recognizes d (f (.ofByte b)) fun x a => (∀ c ∈ x.head?, c = b) → G x a) :
    Recognizes d (m >>= f) G := by
  intro r t a hr hd h
  obtain ⟨g, s, hok, hfok⟩ := of_bind_eq_ok h
  obtain ⟨rfl, b, hb, rfl⟩ := hm hr hok
  obtain ⟨n, hn, rfl, ha⟩ := hf b hr hd hfok
  refine ⟨n, hn, rfl, ha ?_⟩
  -- the first byte that was consumed, if any, is the first that was ahead
  intro c hc
  cases n with
  | zero => cases hc
  | succ n =>
      rw [List.head?_take, if_neg (Nat.succ_ne_zero n), hb] at hc
      exact (Option.some.inj hc).symm

end Reader

end MessagePack
