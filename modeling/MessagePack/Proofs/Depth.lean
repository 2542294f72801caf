import MessagePack.Proofs.DepthBlind
import MessagePack.Proofs.Value

/-!
# The containers that a read enters

To say which containers a read enters, and how deep the reader is then, the read keeps a log: beside
every read of a value there is one that does the same and lists the containers as **entries**. An
entry has the depth of the reader when the container was entered, and its level, which is the number
of containers around it. The level is not counted up and down while reading. It comes from where in
the value the container is, so it cannot go wrong on the way out of a container that has failed.

* **`Reader.Logged`** is a read that keeps a log. It is made of reads without containers, which are
  blind to the depth, and of containers.
* **`Reader.Logs`** says that a read and a logged read belong together: they have the same outcome,
  the reader is at the same depth again, and the depth of every entry is the depth at the start and
  the level. It is closed under everything that reads are made of.
* **`Reader.Foretells`** is what the log tells about the same read from a greater depth. It gives
  the same as long as the entries are still below the maximum, and is refused otherwise. If the log
  left out a level at which there is a container, this would be false, so it is part of
  `Reader.Logs`.
* **`Schema.logs_read`** is that for every type.
-/

namespace MessagePack

namespace Reader

/-! ## Logged reads -/

/-- A container that was entered: the number of containers around it within the value that is read,
    and the depth of the reader before. -/
structure Entry where
  level : Nat
  depth : Nat

/-- A reader and the containers that have been entered, latest first. -/
structure Log where
  reader : Reader
  entries : List Entry

/-- A read that logs the containers that it enters. -/
abbrev Logged (α : Type) : Type :=
  EStateM DocumentError Log α

/-- An outcome without the log. -/
def forget {α : Type} :
    EStateM.Result DocumentError Log α → EStateM.Result DocumentError Reader α
  | .ok a t => .ok a t.reader
  | .error e t => .error e t.reader

namespace Logged

variable {α : Type}

/-- A read that enters no container, which has to be blind to the depth. -/
def plain (m : Decode α) (_ : Blind m) : Logged α :=
  fun t =>
    match m t.reader with
    | .ok a r => .ok a ⟨r, t.entries⟩
    | .error e r => .error e ⟨r, t.entries⟩

/-- Enters a container at a level, as `Reader.nested` does. -/
def nested (level : Nat) (policy : SecurityPolicy) (m : Logged α) : Logged α :=
  fun t =>
    if policy.maxDepth.toNat ≤ t.reader.depth then
      .error (.read (.depthExceeded policy.maxDepth)) t
    else
      match m ⟨⟨t.reader.cursor, t.reader.depth + 1⟩, ⟨level, t.reader.depth⟩ :: t.entries⟩ with
      | .ok a t => .ok a ⟨⟨t.reader.cursor, t.reader.depth - 1⟩, t.entries⟩
      | .error e t => .error e ⟨⟨t.reader.cursor, t.reader.depth - 1⟩, t.entries⟩

/-- Runs a read `n` times and puts the results, latest first, in front of `acc`. -/
def replicateOnto (m : Logged α) : (n : Nat) → (acc : List α) → Logged (List α)
  | 0, acc => pure acc
  | n + 1, acc => do replicateOnto m n ((← m) :: acc)

/-- Runs a read `n` times and gives the results in order. -/
def replicate (n : Nat) (m : Logged α) : Logged (List α) :=
  return (← replicateOnto m n []).reverse

end Logged

/-! ## Reads and their logs -/

/-- What a logged read leaves under a maximal depth `M`, when it starts from a reader with some
    entries. -/
structure Leaves (M level : Nat) (r : Reader) (entries : List Entry) (t : Log) : Prop where
  depth_eq : t.reader.depth = r.depth
  entered : ∃ new, t.entries = new ++ entries
    ∧ ∀ e ∈ new, e.depth < M ∧ level ≤ e.level ∧ e.depth + level = r.depth + e.level

/-- What the entries `new` of a read from `r` tell about the read from the same position at a depth
    `d`: it gives the same if every entry is then below the maximum too, and it is refused if one is
    not. -/
structure Foretells {α : Type} (max : UInt64) (level : Nat) (m : Decode α) (r : Reader)
    (new : List Entry) (d : Nat) : Prop where
  same : (∀ e ∈ new, d + e.level < max.toNat + level) → m ⟨r.cursor, d⟩ = atDepth d (m r)
  refused : (∃ e ∈ new, max.toNat + level ≤ d + e.level) →
    ∃ s, m ⟨r.cursor, d⟩ = .error (.read (.depthExceeded max)) s

/-- A read and the logged read for it at a level, under a maximal depth. -/
structure Logs {α : Type} (max : UInt64) (level : Nat) (m : Decode α) (t : Logged α) : Prop where
  forget_eq : ∀ r entries, forget (t ⟨r, entries⟩) = m r
  leaves : ∀ r entries, Leaves max.toNat level r entries (after (t ⟨r, entries⟩))
  foretells : ∀ r entries d, r.depth ≤ d →
    ∃ new, (after (t ⟨r, entries⟩)).entries = new ++ entries ∧ Foretells max level m r new d

namespace Leaves

variable {M level : Nat} {r s : Reader} {entries : List Entry} {t : Log}

/-- A read that enters nothing leaves the depth as it was. -/
theorem of_same (h : s.depth = r.depth) : Leaves M level r entries ⟨s, entries⟩ where
  depth_eq := h
  entered := ⟨[], rfl, List.forall_mem_nil _⟩

/-- The entries of two reads one after the other are those of both. -/
theorem trans {u : Log} (ht : Leaves M level r entries t)
    (hu : Leaves M level t.reader t.entries u) : Leaves M level r entries u := by
  obtain ⟨first, hfirst, hfirstEntered⟩ := ht.entered
  obtain ⟨second, hsecond, hsecondEntered⟩ := hu.entered
  refine ⟨hu.depth_eq.trans ht.depth_eq, second ++ first, ?_, ?_⟩
  · rw [hsecond, hfirst, List.append_assoc]
  · intro e he
    rcases List.mem_append.mp he with he | he
    · rw [← ht.depth_eq]
      exact hsecondEntered e he
    · exact hfirstEntered e he

/-- The way into a container and back out. -/
theorem nested (hr : r.depth < M)
    (ht : Leaves M (level + 1) ⟨r.cursor, r.depth + 1⟩ (⟨level, r.depth⟩ :: entries) t) :
    Leaves M level r entries ⟨⟨t.reader.cursor, t.reader.depth - 1⟩, t.entries⟩ := by
  obtain ⟨new, hnew, hentered⟩ := ht.entered
  have hdepth := ht.depth_eq
  refine ⟨?_, new ++ [⟨level, r.depth⟩], ?_, ?_⟩
  · show t.reader.depth - 1 = r.depth
    rw [hdepth]
    rfl
  · rw [hnew, List.append_assoc]
    rfl
  · intro e he
    rcases List.mem_append.mp he with he | he
    · obtain ⟨hlt, hle, heq⟩ := hentered e he
      dsimp only at heq
      exact ⟨hlt, by omega, by omega⟩
    · rw [List.mem_singleton.mp he]
      exact ⟨hr, Nat.le_refl _, rfl⟩

end Leaves

namespace Foretells

variable {α β : Type} {max : UInt64} {level d : Nat} {m : Decode α} {r s : Reader}

/-- No entries promise that the read gives the same at every depth. -/
theorem of_same (h : m ⟨r.cursor, d⟩ = atDepth d (m r)) : Foretells max level m r [] d where
  same _ := h
  refused := by
    rintro ⟨e, he, -⟩
    cases he

/-- What follows a read that has succeeded adds its own entries. -/
theorem bind {f : α → Decode β} {a : α} {first second : List Entry}
    (hm : Foretells max level m r first d) (hmr : m r = .ok a s)
    (hf : Foretells max level (f a) s second d) :
    Foretells max level (m >>= f) r (second ++ first) d where
  same h := by
    have hsame := hm.same fun e he => h e (List.mem_append_right second he)
    rw [hmr] at hsame
    rw [bind_of_ok hmr, bind_of_ok hsame]
    exact hf.same fun e he => h e (List.mem_append_left first he)
  refused h := by
    by_cases hfirst : ∃ e ∈ first, max.toNat + level ≤ d + e.level
    · obtain ⟨t, ht⟩ := hm.refused hfirst
      exact ⟨t, bind_of_error ht⟩
    · -- the first read gives the same, so it is one behind it that is refused
      have hsame := hm.same fun e he =>
        Nat.lt_of_not_le fun hle => hfirst ⟨e, he, hle⟩
      rw [hmr] at hsame
      rw [bind_of_ok hsame]
      obtain ⟨e, he, hle⟩ := h
      rcases List.mem_append.mp he with he | he
      · exact hf.refused ⟨e, he, hle⟩
      · exact absurd ⟨e, he, hle⟩ hfirst

/-- Nothing follows a read that has failed. -/
theorem bind_error {f : α → Decode β} {e : DocumentError} {new : List Entry}
    (hm : Foretells max level m r new d) (hmr : m r = .error e s) :
    Foretells max level (m >>= f) r new d where
  same h := by
    have hsame := hm.same h
    rw [hmr] at hsame
    rw [bind_of_error hmr, bind_of_error hsame]
    rfl
  refused h := by
    obtain ⟨t, ht⟩ := hm.refused h
    exact ⟨t, bind_of_error ht⟩

/-- A container adds itself to what is inside of it. -/
theorem nested {policy : SecurityPolicy} {new : List Entry}
    (hr : r.depth < policy.maxDepth.toNat)
    (hm : Foretells policy.maxDepth (level + 1) m ⟨r.cursor, r.depth + 1⟩ new (d + 1)) :
    Foretells policy.maxDepth level (Reader.nested .read policy m) r
      (new ++ [⟨level, r.depth⟩]) d where
  same h := by
    have hd : d < policy.maxDepth.toNat := by
      have hself := h ⟨level, r.depth⟩ (List.mem_append_right new (List.mem_singleton.mpr rfl))
      exact Nat.lt_of_add_lt_add_right hself
    have hsame := hm.same fun e he => by
      have hlt := h e (List.mem_append_left _ he)
      omega
    dsimp only at hsame
    rw [Reader.nested, Reader.nested, if_neg (Nat.not_le.mpr hd), if_neg (Nat.not_le.mpr hr), hsame]
    cases m ⟨r.cursor, r.depth + 1⟩ <;> rfl
  refused h := by
    rw [Reader.nested]
    by_cases hd : policy.maxDepth.toNat ≤ d
    · exact ⟨_, if_pos hd⟩
    · obtain ⟨e, he, hle⟩ := h
      rcases List.mem_append.mp he with he | he
      · obtain ⟨s, hs⟩ := hm.refused ⟨e, he, by omega⟩
        dsimp only at hs
        rw [if_neg hd, hs]
        exact ⟨_, rfl⟩
      · rw [List.mem_singleton.mp he] at hle
        exact absurd (Nat.le_of_add_le_add_right hle) hd

end Foretells

namespace Logs

variable {α β : Type} {max : UInt64} {level : Nat}

/-- A read that is blind to the depth enters no container. -/
theorem plain {m : Decode α} (hm : Blind m) : Logs max level m (.plain m hm) where
  forget_eq r entries := by
    rw [Logged.plain]
    cases m r <;> rfl
  foretells r entries d _ := by
    refine ⟨[], ?_, .of_same (hm r d)⟩
    rw [Logged.plain]
    cases m r <;> rfl
  leaves r entries := by
    have hdepth := hm.depth_after r
    rw [Logged.plain]
    cases hmr : m r with
    | ok a s =>
        rw [hmr] at hdepth
        exact .of_same hdepth
    | error e s =>
        rw [hmr] at hdepth
        exact .of_same hdepth

/-- What is given without a read enters nothing. -/
theorem of_pure (a : α) : Logs max level (pure a) (pure a) where
  forget_eq _ _ := rfl
  leaves _ _ := .of_same rfl
  foretells _ _ _ _ := ⟨[], rfl, .of_same rfl⟩

/-- Reads one after the other keep their logs one after the other. -/
theorem bind {m : Decode α} {f : α → Decode β} {t : Logged α} {g : α → Logged β}
    (hm : Logs max level m t) (hf : ∀ a, Logs max level (f a) (g a)) :
    Logs max level (m >>= f) (t >>= g) := by
  have hrun : ∀ r entries, forget ((t >>= g) ⟨r, entries⟩) = (m >>= f) r
      ∧ Leaves max.toNat level r entries (after ((t >>= g) ⟨r, entries⟩))
      ∧ ∀ d, r.depth ≤ d → ∃ new, (after ((t >>= g) ⟨r, entries⟩)).entries = new ++ entries
        ∧ Foretells max level (m >>= f) r new d := by
    intro r entries
    have hforget := hm.forget_eq r entries
    have hleaves := hm.leaves r entries
    have hforetells := hm.foretells r entries
    -- what follows starts from where the first read ended, with the entries that it logged
    cases hresult : t ⟨r, entries⟩ with
    | ok a u =>
        rw [hresult] at hforget hleaves hforetells
        rw [bind_of_ok hresult, bind_of_ok hforget.symm]
        refine ⟨(hf a).forget_eq u.reader u.entries,
          hleaves.trans ((hf a).leaves u.reader u.entries), ?_⟩
        intro d hd
        have hdepth : u.reader.depth ≤ d := Nat.le_trans (Nat.le_of_eq hleaves.depth_eq) hd
        obtain ⟨first, hfirst, hm⟩ := hforetells d hd
        obtain ⟨second, hsecond, hf⟩ := (hf a).foretells u.reader u.entries d hdepth
        have hentries : u.entries = first ++ entries := hfirst
        exact ⟨second ++ first, by rw [hsecond, hentries, List.append_assoc],
          hm.bind hforget.symm hf⟩
    | error e u =>
        rw [hresult] at hforget hleaves hforetells
        rw [bind_of_error hresult, bind_of_error hforget.symm]
        refine ⟨rfl, hleaves, ?_⟩
        intro d hd
        obtain ⟨new, hnew, hm⟩ := hforetells d hd
        exact ⟨new, hnew, hm.bind_error hforget.symm⟩
  exact ⟨fun r entries => (hrun r entries).1, fun r entries => (hrun r entries).2.1,
    fun r entries => (hrun r entries).2.2⟩

/-- What is made of a result enters nothing more. -/
theorem map {m : Decode α} {t : Logged α} (hm : Logs max level m t) (f : α → β) :
    Logs max level (do return f (← m)) (do return f (← t)) :=
  hm.bind fun a => of_pure (f a)

/-- **A CONTAINER** is entered only below the maximal depth, and left at the depth at which it was
    entered. -/
theorem nested {policy : SecurityPolicy} {m : Decode α} {t : Logged α}
    (hm : Logs policy.maxDepth (level + 1) m t) :
    Logs policy.maxDepth level (Reader.nested .read policy m) (.nested level policy t) := by
  have hrun : ∀ r entries,
      forget (Logged.nested level policy t ⟨r, entries⟩) = Reader.nested .read policy m r
        ∧ Leaves policy.maxDepth.toNat level r entries
          (after (Logged.nested level policy t ⟨r, entries⟩))
        ∧ ∀ d, r.depth ≤ d →
          ∃ new, (after (Logged.nested level policy t ⟨r, entries⟩)).entries = new ++ entries
            ∧ Foretells policy.maxDepth level (Reader.nested .read policy m) r new d := by
    intro r entries
    by_cases hdepth : policy.maxDepth.toNat ≤ r.depth
    · -- what is refused here is refused at every greater depth
      have hrefused : ∀ d, r.depth ≤ d → Reader.nested .read policy m ⟨r.cursor, d⟩
          = .error (.read (.depthExceeded policy.maxDepth)) ⟨r.cursor, d⟩ :=
        fun d hd => if_pos (Nat.le_trans hdepth hd)
      rw [Logged.nested, if_pos hdepth]
      refine ⟨(hrefused r.depth (Nat.le_refl _)).symm, .of_same rfl, fun d hd => ⟨[], rfl, ?_⟩⟩
      refine .of_same ((hrefused d hd).trans ?_)
      rw [show Reader.nested .read policy m r = _ from hrefused r.depth (Nat.le_refl _)]
      rfl
    · have hforget := hm.forget_eq ⟨r.cursor, r.depth + 1⟩ (⟨level, r.depth⟩ :: entries)
      have hleaves := hm.leaves ⟨r.cursor, r.depth + 1⟩ (⟨level, r.depth⟩ :: entries)
      have hforetells := hm.foretells ⟨r.cursor, r.depth + 1⟩ (⟨level, r.depth⟩ :: entries)
      have hlt : r.depth < policy.maxDepth.toNat := Nat.lt_of_not_le hdepth
      rw [Logged.nested, if_neg hdepth]
      rw [show Reader.nested .read policy m r = _ from if_neg hdepth, ← hforget]
      generalize t ⟨⟨r.cursor, r.depth + 1⟩, ⟨level, r.depth⟩ :: entries⟩ = result
        at hforget hleaves hforetells ⊢
      have hnew : ∀ d, r.depth ≤ d → ∃ new, (after result).entries = new ++ entries
          ∧ Foretells policy.maxDepth level (Reader.nested .read policy m) r new d := by
        intro d hd
        obtain ⟨new, hnew, hinside⟩ := hforetells (d + 1) (Nat.succ_le_succ hd)
        exact ⟨new ++ [⟨level, r.depth⟩], by rw [hnew, List.append_assoc]; rfl, hinside.nested hlt⟩
      cases result with
      | ok a u => exact ⟨rfl, hleaves.nested hlt, hnew⟩
      | error e u => exact ⟨rfl, hleaves.nested hlt, hnew⟩
  exact ⟨fun r entries => (hrun r entries).1, fun r entries => (hrun r entries).2.1,
    fun r entries => (hrun r entries).2.2⟩

/-- A read that is repeated logs the containers of every round. -/
theorem replicateOnto {m : Decode α} {t : Logged α} (hm : Logs max level m t) (n : Nat)
    (acc : List α) : Logs max level (replicateOnto m n acc) (t.replicateOnto n acc) := by
  induction n generalizing acc with
  | zero => exact of_pure acc
  | succ n ih => exact hm.bind fun a => ih (a :: acc)

/-- A read that is repeated logs the containers of every round. -/
theorem replicate {m : Decode α} {t : Logged α} (hm : Logs max level m t) (n : Nat) :
    Logs max level (replicate n m) (.replicate n t) :=
  (hm.replicateOnto n []).map _

end Logs

end Reader

/-! ## Dynamic values -/

namespace Value

open Reader

/-- Values that are no containers are read without a look at the depth. -/
theorem blind_readAs (options : Options) (bound : Nat) {f : Format} (harray : f.kind ≠ .array)
    (hmap : f.kind ≠ .map) : Blind (readAs options bound f) := by
  rw [readAs]
  cases hkind : f.kind with
  | nil => exact Blind.nil.ofRead.bind fun _ => Blind.of_pure _
  | boolean => exact Blind.boolean.ofRead.map _
  | integer => exact Blind.readInteger f
  | float =>
      dsimp only
      split
      · exact Blind.float32.ofRead.map _
      · exact Blind.float64.ofRead.map _
  | string => exact Blind.string.ofNonNil.map _
  | binary => exact Blind.bytes.ofNonNil.map _
  | array => exact absurd hkind harray
  | map => exact absurd hkind hmap
  | extension => exact Blind.readExtension
  | unknown => exact Blind.of_throw _

/-- `Value.readWithin` at a level, logged. -/
def logWithin (options : Options) : (bound level : Nat) → Logged Value
  | 0, _ => Logged.plain (readWithin options 0) (Blind.of_throw _)
  | bound + 1, level => do
    let f ← Logged.plain (Decode.ofRead nextFormat) Blind.nextFormat.ofRead
    if harray : f.kind = .array then
      Logged.nested level options.security do
        let n ← Logged.plain (Decode.ofRead arrayHeader) Blind.arrayHeader.ofRead
        return .array (← Logged.replicate n.toNat (logWithin options bound (level + 1)))
    else if hmap : f.kind = .map then
      Logged.nested level options.security do
        let n ← Logged.plain (Decode.ofRead mapHeader) Blind.mapHeader.ofRead
        return .map (← Logged.replicate n.toNat do
          let k ← logWithin options bound (level + 1)
          return (k, ← logWithin options bound (level + 1)))
    else Logged.plain (readAs options bound f) (blind_readAs options bound harray hmap)

/-- `Value.read` at a level, logged. -/
def log (options : Options) (level : Nat) : Logged Value :=
  fun t => logWithin options t.reader.remaining level t

/-- A dynamic value of bounded depth is read as its logged read says. -/
theorem logs_readWithin (options : Options) (bound level : Nat) :
    Logs options.security.maxDepth level (readWithin options bound)
      (logWithin options bound level) := by
  -- by induction on the bound; the elements of a container are one level further in
  induction bound generalizing level with
  | zero => exact .plain (Blind.of_throw _)
  | succ bound ih =>
      rw [readWithin_succ, logWithin]
      refine (Logs.plain Blind.nextFormat.ofRead).bind fun f => ?_
      by_cases harray : f.kind = .array
      · rw [dif_pos harray, readAs, harray]
        refine Logs.nested ((Logs.plain Blind.arrayHeader.ofRead).bind fun n => ?_)
        exact ((ih (level + 1)).replicate n.toNat).map _
      · rw [dif_neg harray]
        by_cases hmap : f.kind = .map
        · rw [dif_pos hmap, readAs, hmap]
          refine Logs.nested ((Logs.plain Blind.mapHeader.ofRead).bind fun n => ?_)
          refine (Logs.replicate ?_ n.toNat).map _
          exact (ih (level + 1)).bind fun k => (ih (level + 1)).map _
        · rw [dif_neg hmap]
          exact .plain (blind_readAs options bound harray hmap)

/-- A dynamic value is read as its logged read says. -/
theorem logs_read (options : Options) (level : Nat) :
    Logs options.security.maxDepth level (read options) (log options level) where
  forget_eq r entries := (logs_readWithin options r.remaining level).forget_eq r entries
  leaves r entries := (logs_readWithin options r.remaining level).leaves r entries
  foretells r entries d hd := by
    -- the bound comes from the bytes ahead, which are the same at every depth
    obtain ⟨new, hnew, hforetells⟩ :=
      (logs_readWithin options r.remaining level).foretells r entries d hd
    exact ⟨new, hnew, hforetells.same, hforetells.refused⟩

end Value

/-! ## Typed values -/

namespace Schema

open Reader

/-- `Schema.readEntries`, logged. -/
def logEntries {κ ν : Type} (insert? : κ → ν → List (κ × ν) → Option (List (κ × ν)))
    (key : Logged κ) (value : Logged ν) :
    (n : Nat) → List (κ × ν) → Logged (List (κ × ν))
  | 0, entries => pure entries
  | n + 1, entries => do
    let k ← key
    let v ← value
    match insert? k v entries with
    | some entries => logEntries insert? key value n entries
    | none => Logged.plain (throw .duplicateKey) (Blind.of_throw _)

/-- `Schema.readMap` at a level, logged. -/
def logMap {κ ν : Type} (options : Options) (level : Nat)
    (insert? : κ → ν → List (κ × ν) → Option (List (κ × ν))) (key : Logged κ)
    (value : Logged ν) : Logged (List (κ × ν)) :=
  Logged.nested level options.security do
    let n ← Logged.plain (Decode.ofRead mapHeader) Blind.mapHeader.ofRead
    logEntries insert? key value n.toNat []

/-- `Schema.read` at a level, logged. -/
def log (options : Options) : (s : Schema) → (level : Nat) → Logged s.Carrier
  | boolean, _ => Logged.plain (boolean.read options) Blind.boolean.ofRead
  | int t, _ => Logged.plain ((int t).read options) (Blind.int t).ofRead
  | float32, _ => Logged.plain (float32.read options) Blind.float32.ofRead
  | float64, _ => Logged.plain (float64.read options) Blind.float64.ofRead
  | char, _ => Logged.plain (char.read options) Blind.char.ofRead
  | string, _ => Logged.plain (string.read options) Blind.string.ofNonNil
  | bytes, _ => Logged.plain (bytes.read options) (Blind.bytes.ofNonNil.map _)
  | timestamp, _ => Logged.plain (timestamp.read options) Blind.timestamp.ofRead
  | dateTime, _ => Logged.plain (dateTime.read options) Blind.dateTime.ofRead
  | uuid, _ => Logged.plain (uuid.read options) Blind.readUuid
  | value, level => Value.log options level
  | option item, level => do
    if ← Logged.plain (Decode.ofRead tryNil) Blind.tryNil.ofRead then return none
    else return some (← item.log options level)
  | list item, level =>
    Logged.nested level options.security do
      let n ← Logged.plain (Decode.ofRead arrayHeader) Blind.arrayHeader.ofRead
      Logged.replicate n.toNat (item.log options (level + 1))
  | sortedMap k v, level =>
    return ⟨← logMap options level (insertSorted? k.compare) (k.log options (level + 1))
      (v.log options (level + 1))⟩
  | hashMap k v, level => do
    match options.security.keyHasher k.keyType with
    | .error e => Logged.plain (throw (.typeAccess e)) (Blind.of_throw _)
    | .ok hasher =>
      let entries ← logMap options level (insertFront? k.compare) (k.log options (level + 1))
        (v.log options (level + 1))
      return ⟨hasher, entries.reverse⟩

section Maps

variable {κ ν : Type} {insert? : κ → ν → List (κ × ν) → Option (List (κ × ν))} {max : UInt64}
  {level : Nat} {key : Decode κ} {value : Decode ν} {keyLog : Logged κ} {valueLog : Logged ν}

/-- The entries of a map are read as their logged reads say, also where a key is refused. -/
theorem logs_readEntries (hkey : Logs max level key keyLog)
    (hvalue : Logs max level value valueLog) (n : Nat) (entries : List (κ × ν)) :
    Logs max level (readEntries insert? key value n entries)
      (logEntries insert? keyLog valueLog n entries) := by
  induction n generalizing entries with
  | zero => exact .of_pure entries
  | succ n ih =>
      refine hkey.bind fun k => hvalue.bind fun v => ?_
      cases insert? k v entries with
      | some entries => exact ih entries
      | none => exact .plain (Blind.of_throw _)

/-- A map is one container, with its entries one level further in. -/
theorem logs_readMap {options : Options}
    (hkey : Logs options.security.maxDepth (level + 1) key keyLog)
    (hvalue : Logs options.security.maxDepth (level + 1) value valueLog) :
    Logs options.security.maxDepth level (readMap options insert? key value)
      (logMap options level insert? keyLog valueLog) := by
  refine Logs.nested ((Logs.plain Blind.mapHeader.ofRead).bind fun n => ?_)
  exact logs_readEntries hkey hvalue n.toNat []

end Maps

/-- **EVERY TYPED READ AND ITS LOG** belong together. -/
theorem logs_read (options : Options) (s : Schema) (level : Nat) :
    Logs options.security.maxDepth level (s.read options) (s.log options level) := by
  -- by induction on the type
  induction s generalizing level with
  | boolean => exact .plain Blind.boolean.ofRead
  | int t => exact .plain (Blind.int t).ofRead
  | float32 => exact .plain Blind.float32.ofRead
  | float64 => exact .plain Blind.float64.ofRead
  | char => exact .plain Blind.char.ofRead
  | string => exact .plain Blind.string.ofNonNil
  | bytes => exact .plain (Blind.bytes.ofNonNil.map _)
  | timestamp => exact .plain Blind.timestamp.ofRead
  | dateTime => exact .plain Blind.dateTime.ofRead
  | uuid => exact .plain Blind.readUuid
  | value => exact Value.logs_read options level
  | option item ih =>
      refine (Logs.plain Blind.tryNil.ofRead).bind fun b => ?_
      cases b with
      | true => exact .of_pure none
      | false => exact (ih level).map _
  | list item ih =>
      refine Logs.nested ((Logs.plain Blind.arrayHeader.ofRead).bind fun n => ?_)
      exact (ih (level + 1)).replicate n.toNat
  | sortedMap a b iha ihb =>
      exact (logs_readMap (iha (level + 1)) (ihb (level + 1))).map _
  | hashMap a b iha ihb =>
      rw [read, log]
      cases options.security.keyHasher a.keyType with
      | error e => exact .plain (Blind.of_throw _)
      | ok hasher => exact (logs_readMap (iha (level + 1)) (ihb (level + 1))).map _

end Schema

end MessagePack
