import MessagePack.Proofs.Depth

/-!
# As many entries as containers

That the log of a read shows every level at which there is a container does not say yet that it
shows every container: of two at the same level one could be missing. So they are counted. A value
has a number of containers, which is told from the value alone, and a read that gives the value has
logged exactly so many entries.

* **`Value.containers`** and **`Schema.containers`** count the containers in a value.
* **`Reader.Tallies`** relates what a logged read gives to the number of entries that it adds. Like
  `Reader.Logs`, it is closed under everything that reads are made of.
* **`Schema.tallies_log`** is the count, for every type.
-/

namespace MessagePack

/-! ## Counting containers -/

section Tally

variable {α : Type} {count : α → Nat} {as bs : List α}

/-- The sum of a count over a list. -/
def tally (count : α → Nat) : List α → Nat
  | [] => 0
  | a :: as => count a + tally count as

/-- The order of a list does not matter to its sum. -/
theorem tally_perm (h : as.Perm bs) : tally count as = tally count bs := by
  induction h with
  | nil => rfl
  | cons a _ ih => rw [tally, tally, ih]
  | swap a b as => exact Nat.add_left_comm _ _ _
  | trans _ _ ih ih' => exact ih.trans ih'

end Tally

namespace Value

mutual

/-- The number of arrays and maps in a value, the value itself among them. -/
def containers : Value → Nat
  | array items => containersOfItems items + 1
  | map entries => containersOfEntries entries + 1
  | _ => 0

/-- The number of arrays and maps in a list of values. -/
def containersOfItems : List Value → Nat
  | [] => 0
  | v :: rest => v.containers + containersOfItems rest

/-- The number of arrays and maps in the keys and values of a list of entries. -/
def containersOfEntries : List (Value × Value) → Nat
  | [] => 0
  | (k, v) :: rest => k.containers + v.containers + containersOfEntries rest

end

/-- The containers in a list of values are those in each of them. -/
theorem containersOfItems_eq (items : List Value) :
    containersOfItems items = tally containers items := by
  induction items with
  | nil => rfl
  | cons v items ih => rw [containersOfItems, ih, tally]

/-- The containers in a list of entries are those in each key and each value. -/
theorem containersOfEntries_eq (entries : List (Value × Value)) :
    containersOfEntries entries = tally (fun e => e.1.containers + e.2.containers) entries := by
  induction entries with
  | nil => rfl
  | cons e entries ih => rw [containersOfEntries, ih, tally]

/-- An integer is no container, whichever way it is held. -/
theorem containers_ofInt (n : Int64) : (ofInt n).containers = 0 := by
  rw [ofInt]
  split <;> rfl

end Value

namespace Schema

/-- The number of lists, maps and dynamic containers in a value of a type. -/
def containers : (s : Schema) → s.Carrier → Nat
  | value, v => v.containers
  | option _, none => 0
  | option item, some x => item.containers x
  | list item, xs => tally item.containers xs + 1
  | sortedMap k v, m => tally (fun e => k.containers e.1 + v.containers e.2) m.entries + 1
  | hashMap k v, m => tally (fun e => k.containers e.1 + v.containers e.2) m.entries + 1
  | _, _ => 0

end Schema

namespace Reader

/-! ## Entries that are added -/

/-- Whenever the logged read gives `a`, it has added a number of entries that is right for `a`. -/
def Tallies {α : Type} (t : Logged α) (P : α → Nat → Prop) : Prop :=
  ∀ ⦃l l' : Log⦄ ⦃a : α⦄, t l = .ok a l' →
    ∃ n, l'.entries.length = n + l.entries.length ∧ P a n

namespace Tallies

variable {α β : Type} {t : Logged α} {P : α → Nat → Prop} {Q : β → Nat → Prop}

/-- What is right for a number of entries may be said in another way. -/
theorem mono {P' : α → Nat → Prop} (ht : Tallies t P) (h : ∀ a n, P a n → P' a n) :
    Tallies t P' := by
  intro l l' a hok
  obtain ⟨n, hn, hP⟩ := ht hok
  exact ⟨n, hn, h a n hP⟩

/-- What is read blindly adds no entry. -/
theorem plain {m : Decode α} {hm : Blind m} (h : ∀ {r s a}, m r = .ok a s → P a 0) :
    Tallies (.plain m hm) P := by
  intro l l' a hok
  rw [Logged.plain] at hok
  cases hmr : m l.reader with
  | ok b s =>
      rw [hmr] at hok
      cases hok
      exact ⟨0, (Nat.zero_add _).symm, h hmr⟩
  | error e s =>
      rw [hmr] at hok
      cases hok

/-- What is given without a read adds no entry. -/
theorem of_pure {a : α} (h : P a 0) : Tallies (pure a) P := by
  intro l l' b hok
  cases hok
  exact ⟨0, (Nat.zero_add _).symm, h⟩

/-- A read that never succeeds has nothing to add up. -/
theorem of_throw {e : DocumentError} {hm : Blind (throw e : Decode α)} :
    Tallies (.plain (throw e) hm) P :=
  plain fun hok => by cases hok

/-- The entries of reads one after the other add up. -/
theorem bind {g : α → Logged β} (ht : Tallies t P)
    (hg : ∀ a n, P a n → Tallies (g a) fun b k => Q b (k + n)) : Tallies (t >>= g) Q := by
  intro l l' b hok
  obtain ⟨a, u, ha, hb⟩ := of_bind_eq_ok hok
  obtain ⟨n, hn, hP⟩ := ht ha
  obtain ⟨k, hk, hQ⟩ := hg a n hP hb
  exact ⟨k + n, by rw [hk, hn, Nat.add_assoc], hQ⟩

/-- A blind read in front of others leaves the sum to them. -/
theorem behind {m : Decode α} {hm : Blind m} {g : α → Logged β} (hg : ∀ a, Tallies (g a) Q) :
    Tallies (.plain m hm >>= g) Q := by
  refine bind (plain (P := fun _ n => n = 0) fun _ => rfl) fun a n hn => ?_
  rw [hn]
  exact hg a

/-- What is made of a result adds nothing to its entries. -/
theorem map {f : α → β} (ht : Tallies t fun a n => Q (f a) n) :
    Tallies (do return f (← t)) Q := by
  refine ht.bind fun a n hn => of_pure ?_
  rwa [Nat.zero_add]

/-- A container is one entry more than there are inside of it. -/
theorem nested {policy : SecurityPolicy} {level : Nat} (ht : Tallies t fun a n => P a (n + 1)) :
    Tallies (.nested level policy t) P := by
  intro l l' a hok
  rw [Logged.nested] at hok
  split at hok
  · cases hok
  · split at hok
    · rename_i b u hinside
      cases hok
      obtain ⟨n, hn, hP⟩ := ht hinside
      exact ⟨n + 1, by rw [hn, List.length_cons, Nat.add_assoc, Nat.add_comm 1], hP⟩
    · cases hok

section Counts

variable {count : α → Nat}

/-- The entries of reads that are repeated are those of each of the results. -/
theorem replicateOnto (ht : Tallies t fun a n => n = count a) (n : Nat) (acc : List α) :
    Tallies (t.replicateOnto n acc) fun as k => k + tally count acc = tally count as := by
  -- by induction on the reads that are left; the results so far are counted in `acc`
  induction n generalizing acc with
  | zero => exact of_pure (Nat.zero_add _)
  | succ n ih =>
      refine ht.bind fun a k hk => (ih (a :: acc)).mono fun as j hsum => ?_
      rw [tally] at hsum
      omega

/-- The results are counted in their order, which is the other way round. -/
theorem replicate (ht : Tallies t fun a n => n = count a) (n : Nat) :
    Tallies (.replicate n t) fun as k => k = tally count as := by
  refine map ((ht.replicateOnto n []).mono fun as k hsum => ?_)
  rw [tally_perm as.reverse_perm]
  exact hsum

end Counts

end Tallies

end Reader

/-! ## Dynamic values -/

namespace Value

open Reader

/-- What is made of a result is no container, if it never is one. -/
theorem containers_of_return {α : Type} {m : Decode α} {f : α → Value} {r s : Reader} {v : Value}
    (hf : ∀ a, (f a).containers = 0) (h : (do return f (← m)) r = .ok v s) :
    v.containers = 0 := by
  obtain ⟨a, t, -, ha⟩ := of_bind_eq_ok h
  cases ha
  exact hf a

/-- What is read as no container is none. -/
theorem containers_of_readAs {options : Options} {bound : Nat} {f : Format} {r s : Reader}
    {v : Value} (harray : f.kind ≠ .array) (hmap : f.kind ≠ .map)
    (h : readAs options bound f r = .ok v s) : v.containers = 0 := by
  rw [readAs] at h
  generalize f.kind = kind at h harray hmap
  -- no other token has containers in it
  cases kind with
  | nil => exact containers_of_return (f := fun _ => .nil) (fun _ => rfl) h
  | boolean | string | binary => exact containers_of_return (fun _ => rfl) h
  | integer =>
      dsimp only at h
      rw [readInteger] at h
      split at h
      · exact containers_of_return (fun _ => containers_ofInt _) h
      · exact containers_of_return (fun _ => rfl) h
  | float =>
      dsimp only at h
      split at h <;> exact containers_of_return (fun _ => rfl) h
  | array => exact absurd rfl harray
  | map => exact absurd rfl hmap
  | extension =>
      obtain ⟨header, t, -, hread⟩ := of_bind_eq_ok h
      split at hread <;> exact containers_of_return (fun _ => rfl) hread
  | unknown => cases h

/-- Every dynamic value is read with an entry for each of its containers. -/
theorem tallies_logWithin (options : Options) (bound level : Nat) :
    Tallies (logWithin options bound level) fun v n => n = v.containers := by
  -- on the bound of the descent: a container logs itself, and its items what is in them
  induction bound generalizing level with
  | zero => exact .of_throw
  | succ bound ih =>
      rw [logWithin]
      refine .behind fun f => ?_
      by_cases harray : f.kind = .array
      · rw [dif_pos harray]
        refine .nested (.behind fun n => .map ?_)
        refine ((ih (level + 1)).replicate n.toNat).mono fun items k hsum => ?_
        rw [hsum, containers, containersOfItems_eq]
      · rw [dif_neg harray]
        by_cases hmap : f.kind = .map
        · rw [dif_pos hmap]
          refine .nested (.behind fun n => .map ?_)
          have hentry : Tallies (do
              let k ← logWithin options bound (level + 1)
              return (k, ← logWithin options bound (level + 1)))
              fun e n => n = e.1.containers + e.2.containers := by
            refine (ih (level + 1)).bind fun k i hi => .map ((ih (level + 1)).mono fun v j hj => ?_)
            rw [hi, hj]
            exact Nat.add_comm _ _
          refine (hentry.replicate n.toNat).mono fun entries k hsum => ?_
          rw [hsum, containers, containersOfEntries_eq]
        · rw [dif_neg hmap]
          exact .plain fun hok => (containers_of_readAs harray hmap hok).symm

end Value

namespace Schema

open Reader

section Maps

variable {κ ν : Type}

/-- An entry that goes to its place by the order of keys is there with the others. -/
theorem perm_of_insertSorted? {cmp : κ → κ → Ordering} {key : κ} {value : ν}
    {before after : List (κ × ν)} (h : insertSorted? cmp key value before = some after) :
    after.Perm ((key, value) :: before) := by
  induction before generalizing after with
  | nil =>
      cases h
      exact .refl _
  | cons e before ih =>
      rw [insertSorted?] at h
      split at h
      · cases h
        exact .refl _
      · cases h
      · obtain ⟨rest, hrest, rfl⟩ := Option.map_eq_some_iff.mp h
        exact ((ih hrest).cons e).trans (.swap (key, value) e before)

/-- An entry that goes to the front is there with the others. -/
theorem perm_of_insertFront? {cmp : κ → κ → Ordering} {key : κ} {value : ν}
    {before after : List (κ × ν)} (h : insertFront? cmp key value before = some after) :
    after.Perm ((key, value) :: before) := by
  rw [insertFront?] at h
  split at h <;> cases h
  exact .refl _

variable {insert? : κ → ν → List (κ × ν) → Option (List (κ × ν))} {key : Logged κ}
  {value : Logged ν} {countKey : κ → Nat} {countValue : ν → Nat}

/-- The entries of the log are those of each key and each value that is added to a map. -/
theorem tallies_logEntries
    (hinsert : ∀ {k v before after}, insert? k v before = some after →
      after.Perm ((k, v) :: before))
    (hkey : Tallies key fun k n => n = countKey k)
    (hvalue : Tallies value fun v n => n = countValue v) (n : Nat) (before : List (κ × ν)) :
    Tallies (logEntries insert? key value n before) fun after i =>
      i + tally (fun e => countKey e.1 + countValue e.2) before
        = tally (fun e => countKey e.1 + countValue e.2) after := by
  -- what the entries read so far have in them is counted already
  induction n generalizing before with
  | zero => exact .of_pure (Nat.zero_add _)
  | succ n ih =>
      refine hkey.bind fun k i hi => hvalue.bind fun v j hj => ?_
      cases hadded : insert? k v before with
      | none => exact .of_throw
      | some added =>
          have hsum : tally (fun e => countKey e.1 + countValue e.2) added
              = countKey k + countValue v
                + tally (fun e => countKey e.1 + countValue e.2) before :=
            tally_perm (hinsert hadded)
          refine (ih added).mono fun after rest hafter => ?_
          omega

/-- A map adds an entry for itself. -/
theorem tallies_logMap {options : Options} {level : Nat}
    (hinsert : ∀ {k v before after}, insert? k v before = some after →
      after.Perm ((k, v) :: before))
    (hkey : Tallies key fun k n => n = countKey k)
    (hvalue : Tallies value fun v n => n = countValue v) :
    Tallies (logMap options level insert? key value) fun entries n =>
      n = tally (fun e => countKey e.1 + countValue e.2) entries + 1 := by
  refine .nested (.behind fun n => ?_)
  exact (tallies_logEntries hinsert hkey hvalue n.toNat []).mono
    fun entries i hsum => congrArg (· + 1) hsum

end Maps

/-- Every value is read with an entry for each of its containers. -/
theorem tallies_log (options : Options) (s : Schema) (level : Nat) :
    Tallies (s.log options level) fun x n => n = s.containers x := by
  -- by induction on the type
  induction s generalizing level with
  | value =>
      intro l l' v hok
      exact Value.tallies_logWithin options l.reader.remaining level hok
  | option item ih =>
      refine .behind fun b => ?_
      cases b with
      | true => exact .of_pure rfl
      | false => exact .map (ih level)
  | list item ih =>
      refine .nested (.behind fun n => ?_)
      exact ((ih (level + 1)).replicate n.toNat).mono fun xs k hsum => congrArg (· + 1) hsum
  | sortedMap k v ihk ihv =>
      exact .map (tallies_logMap perm_of_insertSorted? (ihk (level + 1)) (ihv (level + 1)))
  | hashMap k v ihk ihv =>
      rw [log]
      cases options.security.keyHasher k.keyType with
      | error e => exact .of_throw
      | ok hasher =>
          refine .map ((tallies_logMap perm_of_insertFront? (ihk (level + 1))
            (ihv (level + 1))).mono fun entries n hsum => ?_)
          rw [hsum, containers, tally_perm entries.reverse_perm]
  | _ => exact .plain fun _ => rfl

end Schema

end MessagePack
