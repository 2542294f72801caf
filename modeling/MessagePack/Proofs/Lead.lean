import MessagePack.Proofs.Appends

/-!
# Lead bytes

The lead byte of a token says which kind of value it begins, and the bytes of a value say where its
tokens are: behind the lead byte and what fills its body come the tokens of the values that it
counts.

* **`Leads`** are the lead bytes of all the tokens of a row of values, however deep they are nested.
  Complete values have them (`exists_leads`), and only one list of them (`Leads.unique`).
* **`Value.appends_lead`**: what was written begins with a lead byte of the kind of the value. Only
  binary data may go out as a string.
-/

namespace MessagePack

/-! ## The lead bytes of all tokens -/

/-- The lead bytes of the tokens of some values in a row, in the order of the bytes. The tokens of
    the elements of a container stand between its own and those of the values behind it. -/
inductive Leads : Nat → List UInt8 → List UInt8 → Prop
  | nil : Leads 0 [] []
  | cons {b : UInt8} {head rest leads : List UInt8} {k n : Nat} (h : Opens b head k)
      (hrest : Leads (k + n) rest leads) : Leads (n + 1) (b :: (head ++ rest)) (b :: leads)

/-- What has lead bytes is a row of values. -/
theorem Leads.isRow {n : Nat} {x leads : List UInt8} (h : Leads n x leads) : IsRow n x := by
  induction h with
  | nil => exact isRow_zero
  | cons h _ ih => exact isRow_succ_iff.mpr ⟨_, _, _, _, h, ih, rfl⟩

/-- Every row of complete values has lead bytes. -/
theorem exists_leads {n : Nat} {x : List UInt8} (h : IsRow n x) : ∃ leads, Leads n x leads := by
  -- by induction on the bytes; opening the first value leaves a shorter row
  induction hlength : x.length using Nat.strongRecOn generalizing n x with
  | ind length ih =>
      subst hlength
      cases n with
      | zero =>
          rw [h.eq_nil]
          exact ⟨[], .nil⟩
      | succ n =>
          obtain ⟨b, head, k, rest, hopens, hrest, rfl⟩ := isRow_succ_iff.mp h
          have hshorter : rest.length < (b :: (head ++ rest)).length := by
            rw [List.length_cons, List.length_append]
            omega
          obtain ⟨leads, hleads⟩ := ih _ hshorter hrest rfl
          exact ⟨b :: leads, .cons hopens hleads⟩

/-- The bytes of a row decide where its tokens begin. -/
theorem Leads.unique {n : Nat} {x leads leads' : List UInt8} (h : Leads n x leads)
    (h' : Leads n x leads') : leads = leads' := by
  induction h generalizing leads' with
  | nil =>
      cases h'
      rfl
  | @cons b head rest leads k n hopens hrest ih =>
      generalize hx : b :: (head ++ rest) = x at h'
      cases h' with
      | cons hopens' hrest' =>
          obtain ⟨rfl, htail⟩ := List.cons.inj hx
          obtain ⟨rfl, rfl⟩ := hopens.unique hopens' htail
          rw [List.append_cancel_left htail] at ih
          rw [ih hrest']

/-- Two rows one behind the other. -/
theorem Leads.append {n m : Nat} {x y leads leads' : List UInt8} (h : Leads n x leads)
    (h' : Leads m y leads') : Leads (n + m) (x ++ y) (leads ++ leads') := by
  induction h with
  | nil =>
      rw [Nat.zero_add]
      exact h'
  | @cons b head rest leads k n hopens hrest ih =>
      rw [List.cons_append, List.append_assoc, List.cons_append, Nat.add_right_comm]
      exact .cons hopens (Nat.add_assoc k n m ▸ ih)

/-- A token with the values that it counts behind it. -/
theorem Leads.of_opens_row {b : UInt8} {head row leads : List UInt8} {k : Nat} (h : Opens b head k)
    (hrow : Leads k row leads) : Leads 1 (b :: (head ++ row)) (b :: leads) :=
  .cons h hrow

/-! ## The kind of a lead byte -/

/-- In either mode, a length of this table belongs to binary data or to a string. -/
theorem kind_of_blobLengthIn {oldSpec : Bool} {f : Format} {e : Extent}
    (h : f.blobLengthIn? oldSpec = some e) : f.kind = .binary ∨ f.kind = .string := by
  cases oldSpec with
  | true => exact Or.inr (kind_of_strLength (strLength_of_strLengthIn h))
  | false =>
      cases f <;> cases h
      exact Or.inl rfl

/-- Bytes that begin with a lead byte of a kind. -/
def Begins (P : Kind → Prop) (x : List UInt8) : Prop :=
  ∃ (f : Format) (tail : List UInt8), x = f.byte :: tail ∧ P f.kind

/-- What begins with one kind begins with any that it is one of. -/
theorem Begins.mono {P Q : Kind → Prop} {x : List UInt8} (h : Begins P x) (hPQ : ∀ k, P k → Q k) :
    Begins Q x := by
  obtain ⟨f, tail, rfl, hf⟩ := h
  exact ⟨f, tail, rfl, hPQ _ hf⟩

theorem Begins.append {P : Kind → Prop} {x : List UInt8} (h : Begins P x) (y : List UInt8) :
    Begins P (x ++ y) := by
  obtain ⟨f, tail, rfl, hf⟩ := h
  exact ⟨f, tail ++ y, rfl, hf⟩

/-- The lead byte is one. -/
theorem Begins.and {P Q : Kind → Prop} {x : List UInt8} (h : Begins P x) (h' : Begins Q x) :
    ∃ k, P k ∧ Q k := by
  obtain ⟨f, tail, rfl, hf⟩ := h
  obtain ⟨g, tail', heq, hg⟩ := h'
  cases Format.byte_inj (List.cons.inj heq).1
  exact ⟨f.kind, hf, hg⟩

/-- What has a header begins with a kind of its table. -/
theorem Headed.begins {select : Format → Option Extent} {P : Kind → Prop} {n : Nat}
    {x : List UInt8} (h : Headed select n x) (hP : ∀ f e, select f = some e → P f.kind)
    (tail : List UInt8) : Begins P (x ++ tail) := by
  obtain ⟨f, e, field, hf, -, rfl⟩ := h
  exact ⟨f, field ++ tail, rfl, hP f e hf⟩

theorem IsInteger.begins {n : Int} {x : List UInt8} (h : IsInteger n x) :
    Begins (· = .integer) x := by
  obtain ⟨f, field, hf, rfl⟩ := h
  exact ⟨f, field, rfl, hf.kind_eq⟩

/-- Every form of an extension begins with a format of extensions. -/
theorem Reader.Extended.begins {type : Int8} {x payload : List UInt8}
    (h : Reader.Extended x type payload) : Begins (· = .extension) x := by
  obtain ⟨header, b, hheader, -, rfl⟩ := h
  exact hheader.begins (fun _ _ => kind_of_extLength) _

theorem IsTimestamp.begins {t : Timestamp} {x : List UInt8} (h : IsTimestamp t x) :
    Begins (· = .extension) x := by
  obtain ⟨payload, hextended, -⟩ := h
  exact hextended.begins

/-! ## The lead byte of what was written -/

namespace Value

open Writer

variable {σ : Type} [Sink σ] {content : Sink.Content σ}

/-- If every encoding of a token begins so, this is how what it appends begins. -/
theorem appends_begins {P : Kind → Prop} (c : Command)
    (h : ∀ oldSpec x, c.Encodes oldSpec x → Begins P x) :
    Appends content (Encode.ofWrite c.run) fun x _ => Begins P x :=
  (appends_command c).ofWrite.mono fun _ _ ⟨_, hx⟩ => h _ _ (Command.encodes_of_output hx)

/-- **THE LEAD BYTE** of what was written is of the kind of the value, in either mode; binary data
    may begin as a string does. -/
theorem appends_lead (v : Value) : Appends content (v.write (σ := σ)) fun x _ =>
    Begins (fun k => k = v.kind ∨ v.kind = .binary ∧ k = .string) x := by
  -- each value begins with its token; for containers this is the header
  cases v with
  | nil => exact appends_begins .nil fun _ _ h => ⟨.nil, [], h, Or.inl rfl⟩
  | boolean b => exact appends_begins (.boolean b) fun _ _ h => ⟨.boolean b, [], h, Or.inl rfl⟩
  | integer n =>
      exact appends_begins (.compact (.signed .w64) ⟨n.toInt, int64_mem n⟩)
        fun _ _ h => h.1.begins.mono fun _ => Or.inl
  | unsigned n =>
      exact appends_begins (.compact (.unsigned .w64) ⟨n.toNat, uint64_mem n⟩)
        fun _ _ h => h.1.begins.mono fun _ => Or.inl
  | float32 f =>
      exact appends_begins (.float32 f) fun _ _ ⟨field, _, _, h⟩ => ⟨.float32, field, h, Or.inl rfl⟩
  | float64 f =>
      exact appends_begins (.float64 f) fun _ _ ⟨field, _, _, h⟩ => ⟨.float64, field, h, Or.inl rfl⟩
  | string text =>
      refine appends_begins (.str text) ?_
      rintro oldSpec x ⟨header, hheader, rfl⟩
      exact hheader.1.begins
        (fun _ _ h => Or.inl (kind_of_strLength (strLength_of_strLengthIn h))) _
  | binary bytes =>
      refine appends_begins (.bin bytes) ?_
      rintro oldSpec x ⟨header, hheader, rfl⟩
      exact hheader.1.begins
        (fun _ _ h => (kind_of_blobLengthIn h).imp_right fun hkind => ⟨rfl, hkind⟩) _
  | timestamp t =>
      exact appends_begins (.timestamp t) fun _ _ h => h.1.begins.mono fun _ => Or.inl
  | extension type payload =>
      refine appends_begins (.ext type payload) ?_
      rintro oldSpec x ⟨header, hheader, rfl⟩
      exact hheader.1.begins (fun _ _ h => Or.inl (kind_of_extLength h)) _
  | array items =>
      rw [write]
      refine (appends_countField items.length).bind_silent fun n _ => ?_
      refine (appends_arrayHeader n).bind fun x _ hheader => ?_
      exact (appends_writeItems items).mono fun row _ _ =>
        hheader.begins (fun _ _ h => Or.inl (kind_of_arrayCount h)) row
  | map entries =>
      rw [write]
      refine (appends_countField entries.length).bind_silent fun n _ => ?_
      refine (appends_mapHeader n).bind fun x _ hheader => ?_
      exact (appends_writeEntries entries).mono fun row _ _ =>
        hheader.begins (fun _ _ h => Or.inl (kind_of_mapCount h)) row

end Value

end MessagePack
