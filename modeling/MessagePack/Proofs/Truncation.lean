import MessagePack.Proofs.Framing

/-!
# What a failed write has left behind

Writing a value puts bytes into the sink as it goes, so a write that fails half way has put some of
them there already. They never make up a complete value. A failure comes before the bytes of the
part that it is about, so what is there can be completed: by any value in place of that part, and
any values for the rest.

* **`Leaves`** says of a computation what it has put behind the content if it fails. It follows the
  text of the computation, as `Appends` does for success.
* **`Value.leaves_write`**: a value that could not be written has left a strict start of a complete
  value.
* **`Document.no_document_of_failure`**: so has a plain document, and one that was to be compressed
  has left nothing.
-/

namespace MessagePack

/-- A strict start of something that has a form: some bytes are missing at the end. -/
def Truncated (Form : List UInt8 → Prop) (x : List UInt8) : Prop :=
  ∃ more, more ≠ [] ∧ Form (x ++ more)

section Truncated

variable {Form Form' : List UInt8 → Prop} {x y tail : List UInt8}

/-- Something complete in front. -/
theorem Truncated.append_left (h : Truncated Form y) (hForm : ∀ z, Form z → Form' (x ++ z)) :
    Truncated Form' (x ++ y) := by
  obtain ⟨more, hmore, hz⟩ := h
  exact ⟨more, hmore, by rw [List.append_assoc]; exact hForm _ hz⟩

/-- Something that is still to come behind it. -/
theorem Truncated.append_right (h : Truncated Form x) (hForm : ∀ z, Form z → Form' (z ++ tail)) :
    Truncated Form' x := by
  obtain ⟨more, hmore, hz⟩ := h
  refine ⟨more ++ tail, fun hnil => hmore (List.append_eq_nil_iff.mp hnil).1, ?_⟩
  rw [← List.append_assoc]
  exact hForm _ hz

/-- No bytes at all are a start of a value. -/
theorem truncated_nil : Truncated IsValue [] :=
  ⟨[Format.nil.byte], List.cons_ne_nil _ _, Reader.isValue_nil⟩

/-- There are rows of any number of values. -/
theorem exists_isRow (n : Nat) : ∃ row, IsRow n row := by
  induction n with
  | zero => exact ⟨[], isRow_zero⟩
  | succ n ih =>
      obtain ⟨row, hrow⟩ := ih
      exact ⟨_, hrow.cons Reader.isValue_nil⟩

/-- A start of the first value of a row is a start of the row. -/
theorem Truncated.row (h : Truncated IsValue x) (n : Nat) : Truncated (IsRow (n + 1)) x := by
  obtain ⟨row, hrow⟩ := exists_isRow n
  exact h.append_right fun _ hz => hrow.cons hz

/-- A strict start of a complete value is not complete. -/
theorem Truncated.not_isValue (h : Truncated IsValue x) : ¬ IsValue x := by
  intro hx
  obtain ⟨more, hmore, hvalue⟩ := h
  have heq : x = x ++ more := hx.eq_of_append (x := more) (y := []) hvalue (List.append_nil _).symm
  exact hmore (List.self_eq_append_right.mp heq)

/-- No frame is found in a strict start of a complete value, and no fault either. -/
theorem Truncated.size?_eq (bytes : ByteArray) (h : Truncated IsValue bytes.data.toList)
    (hlt : bytes.size < 2 ^ 64) : Frame.size? bytes = .ok none := by
  obtain ⟨more, hmore, hvalue⟩ := h
  have hahead : (Reader.ofBytes bytes).cursor.ahead = bytes.data.toList := Cursor.ahead_ofBytes _
  have hremaining : (Reader.ofBytes bytes).cursor.remaining < 2 ^ 64 := hlt
  rw [← hahead] at hvalue
  rw [Frame.size?, Reader.trySkip_of_start (Cursor.wellFormed_ofBytes _) hremaining hmore hvalue]

end Truncated

namespace Writer

variable {σ ε α β : Type} [Sink σ] {content : Sink.Content σ}

/-- Wherever a computation fails with an error of a kind, it has put bytes behind the content, and
    these have a form. -/
def Leaves (content : Sink.Content σ) (m : EStateM ε (Writer σ) α) (E : ε → Prop)
    (G : List UInt8 → Prop) : Prop :=
  ∀ ⦃w w' : Writer σ⦄ ⦃e : ε⦄, m w = .error e w' → E e →
    ∃ x, content.bytes w'.sink = content.bytes w.sink ++ x ∧ G x

variable {E : ε → Prop} {G : List UInt8 → Prop}

theorem Leaves.of_pure {a : α} : Leaves content (pure a : EStateM ε (Writer σ) α) E G := by
  intro w w' e herror
  cases herror

/-- What fails at once has put out nothing. -/
theorem Leaves.of_throw {e : ε} (h : G []) :
    Leaves content (throw e : EStateM ε (Writer σ) α) E G := by
  intro w w' e' herror _
  cases herror
  exact ⟨[], (List.append_nil _).symm, h⟩

theorem Leaves.mono {m : EStateM ε (Writer σ) α} {G' : List UInt8 → Prop}
    (h : Leaves content m E G) (hG : ∀ x, G x → G' x) : Leaves content m E G' := by
  intro w w' e herror he
  obtain ⟨x, hx, hform⟩ := h herror he
  exact ⟨x, hx, hG x hform⟩

/-- A sequence fails in its first part, or in the second one behind what the first has put out. -/
theorem Leaves.bind {m : EStateM ε (Writer σ) α} {f : α → EStateM ε (Writer σ) β}
    {K : List UInt8 → α → Prop} (hm : Leaves content m E G) (hK : Appends content m K)
    (hf : ∀ x a, K x a → Leaves content (f a) E fun y => G (x ++ y)) :
    Leaves content (m >>= f) E G := by
  intro w w' e herror he
  cases hmw : m w with
  | error e' v =>
      rw [Reader.bind_of_error hmw] at herror
      cases herror
      exact hm hmw he
  | ok a v =>
      rw [Reader.bind_of_ok hmw] at herror
      obtain ⟨x, hx, ha⟩ := hK hmw
      obtain ⟨y, hy, hform⟩ := hf x a ha herror he
      exact ⟨x ++ y, by rw [hy, hx, List.append_assoc], hform⟩

/-- What is computed first without writing. -/
theorem Leaves.bind_silent {m : EStateM ε (Writer σ) α} {f : α → EStateM ε (Writer σ) β}
    {P : α → Prop} (hm : Leaves content m E G) (hP : Appends content m fun x a => x = [] ∧ P a)
    (hf : ∀ a, P a → Leaves content (f a) E G) : Leaves content (m >>= f) E G := by
  refine hm.bind hP ?_
  rintro x a ⟨rfl, ha⟩
  exact hf a ha

/-- As part of a document, a write leaves the same. -/
theorem Leaves.ofWrite {m : Write σ α} {E : DocumentError → Prop}
    (h : Leaves content m (fun e => E (.write e)) G) : Leaves content (Encode.ofWrite m) E G := by
  intro w w' e herror he
  rw [Encode.ofWrite, EStateM.adaptExcept] at herror
  cases hm : m w with
  | ok a v =>
      rw [hm] at herror
      cases herror
  | error e' v =>
      rw [hm] at herror
      cases herror
      exact h hm he

/-! ## Operations -/

variable (content) in
/-- What is not emitted leaves the content as it was, and the region was too small. -/
theorem of_emit_eq_error {required : Nat} {block : ByteArray} {w w' : Writer σ} {e : WriteError}
    (h : emit required block w = .error e w') :
    e = .regionTooSmall required ∧ content.bytes w'.sink = content.bytes w.sink := by
  obtain ⟨sink, oldSpec⟩ := w
  rw [emit] at h
  simp only at h
  split at h
  · cases h
  · split at h
    · cases h
    · cases h
      exact ⟨rfl, by rw [content.bytes_request, content.bytes_request]⟩

variable (content) in
/-- An operation that fails was refused in its mode, or a region was too small for it; either way it
    has left the content as it was. -/
theorem of_run_eq_error {c : Command} {w w' : Writer σ} {e : WriteError}
    (h : c.run w = .error e w') :
    (c.output w.oldSpec = .error e ∨ ∃ n, e = .regionTooSmall n)
      ∧ content.bytes w'.sink = content.bytes w.sink := by
  rw [c.run_eq] at h
  cases hc : c.output w.oldSpec with
  | error e' =>
      rw [hc] at h
      cases h
      exact ⟨Or.inl rfl, rfl⟩
  | ok bytes =>
      rw [hc, put, raw] at h
      split at h
      · cases h
      · obtain ⟨he, hbytes⟩ := of_emit_eq_error content h
        exact ⟨Or.inr ⟨_, he⟩, hbytes⟩

/-- An operation that fails has put out nothing. -/
theorem leaves_command {E : WriteError → Prop} (c : Command) (h : G []) :
    Leaves content c.run E G := by
  intro w w' e herror _
  obtain ⟨-, hbytes⟩ := of_run_eq_error content herror
  exact ⟨[], by rw [hbytes, List.append_nil], h⟩

/-- An operation that no mode refuses fails only where a region is too small. -/
theorem leaves_sure {E : WriteError → Prop} {c : Command}
    (hc : ∀ oldSpec, ∃ x, c.output oldSpec = .ok x) (hE : ∀ n, E (.regionTooSmall n) → G []) :
    Leaves content c.run E G := by
  intro w w' e herror he
  obtain ⟨x, hx⟩ := hc w.oldSpec
  obtain ⟨hrefused | ⟨n, rfl⟩, hbytes⟩ := of_run_eq_error content herror
  · rw [hx] at hrefused
    cases hrefused
  · exact ⟨[], by rw [hbytes, List.append_nil], hE n he⟩

theorem leaves_length {E : WriteError → Prop} (n : Nat) (h : G []) :
    Leaves content (length n) E G := by
  rw [length]
  split
  · exact Leaves.of_pure
  · exact Leaves.of_throw h

end Writer

/-! ## Values -/

namespace Value

open Writer

variable {σ : Type} [Sink σ] {content : Sink.Content σ} {E : DocumentError → Prop}

/-- An operation that fails has not even started on its value. -/
theorem leaves_operation (c : Command) :
    Leaves content (Encode.ofWrite c.run) E (Truncated IsValue) :=
  (leaves_command c truncated_nil).ofWrite

theorem leaves_countField (n : Nat) :
    Leaves content (countField (σ := σ) n) E (Truncated IsValue) := by
  rw [countField]
  split
  · exact Leaves.of_pure
  · exact Leaves.of_throw truncated_nil

mutual

/-- **A VALUE THAT COULD NOT BE WRITTEN** has left a strict start of a complete value, in either
    mode. -/
theorem leaves_write : (v : Value) →
    Leaves content (v.write (σ := σ)) E (Truncated IsValue)
  | nil => leaves_operation .nil
  | boolean b => leaves_operation (.boolean b)
  | integer n => leaves_operation (.compact (.signed .w64) ⟨n.toInt, int64_mem n⟩)
  | unsigned n => leaves_operation (.compact (.unsigned .w64) ⟨n.toNat, uint64_mem n⟩)
  | float32 f => leaves_operation (.float32 f)
  | float64 f => leaves_operation (.float64 f)
  | string text => leaves_operation (.str text)
  | binary bytes => leaves_operation (.bin bytes)
  | timestamp t => leaves_operation (.timestamp t)
  | extension type payload => leaves_operation (.ext type payload)
  | array items => by
      rw [write]
      refine (leaves_countField _).bind_silent (appends_countField items.length) fun n hn => ?_
      refine (leaves_operation (.arrayHeader n)).bind (appends_arrayHeader n)
        fun header _ hheader => ?_
      rw [hn] at hheader
      refine (leaves_writeItems items).mono fun x hx => hx.append_left fun row hrow => ?_
      exact hheader.isValue_of_row (fun _ _ => body?_of_arrayCount) (by rwa [Nat.one_mul])
  | map entries => by
      rw [write]
      refine (leaves_countField _).bind_silent (appends_countField entries.length) fun n hn => ?_
      refine (leaves_operation (.mapHeader n)).bind (appends_mapHeader n)
        fun header _ hheader => ?_
      rw [hn] at hheader
      refine (leaves_writeEntries entries).mono fun x hx => hx.append_left fun row hrow => ?_
      exact hheader.isValue_of_row (fun _ _ => body?_of_mapCount) hrow

/-- A list of values that could not be written has left a start of a row. -/
theorem leaves_writeItems : (items : List Value) →
    Leaves content (writeItems (σ := σ) items) E (Truncated (IsRow items.length))
  | [] => Leaves.of_pure
  | v :: items => by
      rw [writeItems]
      refine ((leaves_write v).mono fun x hx => hx.row _).bind v.appends_write fun x _ hx => ?_
      exact (leaves_writeItems items).mono fun y hy => hy.append_left fun row hrow => hrow.cons hx

/-- A list of entries that could not be written has left a start of a row of keys and values. -/
theorem leaves_writeEntries : (entries : List (Value × Value)) →
    Leaves content (writeEntries (σ := σ) entries) E (Truncated (IsRow (2 * entries.length)))
  | [] => Leaves.of_pure
  | (k, v) :: entries => by
      rw [writeEntries]
      -- the key or the value may fail, and what comes before is complete
      refine ((leaves_write k).mono fun x hx => hx.row _).bind k.appends_write fun x _ hx => ?_
      refine Leaves.bind ((leaves_write v).mono fun y hy => ?_) v.appends_write fun y _ hy => ?_
      · exact (hy.row _).append_left fun row hrow => hrow.cons hx
      · refine (leaves_writeEntries entries).mono fun z hz => ?_
        rw [← List.append_assoc]
        refine hz.append_left fun row hrow => ?_
        rw [List.append_assoc]
        exact (hrow.cons hy).cons hx

end

end Value

/-! ## Documents -/

namespace CompressedBlock

open Writer

variable {σ : Type} [Sink σ] {content : Sink.Content σ} {G : List UInt8 → Prop}

/-- **A BLOCK THAT COULD NOT BE WRITTEN** has left nothing, whatever the algorithm did, unless the
    sink gave too little for it. -/
theorem leaves_write {E : DocumentError → Prop} (c : BlockCompressor) (document : ByteArray)
    (h : G []) (hE : ∀ n x, E (.write (.regionTooSmall n)) → G x) :
    Leaves content (write (σ := σ) c document) E G := by
  have hlengthField : Leaves content (lengthField (σ := σ) document.size) E G := by
    rw [lengthField]
    split
    · exact Leaves.of_pure
    · exact Leaves.of_throw h
  have hcompressed : Leaves content (compressed (σ := σ) c document) E G := by
    rw [compressed]
    split
    · exact Leaves.of_pure
    · exact Leaves.of_throw h
  rw [write]
  refine hlengthField.bind_silent (appends_lengthField _) fun length _ => ?_
  refine hcompressed.bind_silent (appends_compressed c document) fun bytes _ => ?_
  refine (leaves_length _ h).ofWrite.bind_silent (appends_length _).ofWrite fun size _ => ?_
  -- the header, the field and the bytes behind it are refused in no mode
  refine Leaves.ofWrite ?_
  refine (leaves_sure (c := .extHeader ⟨compressedBlockType, size⟩) (fun _ => ⟨_, rfl⟩)
    fun n => hE n _).bind (appends_command _) fun _ _ _ => ?_
  refine (leaves_sure (c := .explicit lengthType length) (fun _ => ⟨_, rfl⟩)
    fun n => hE n _).bind (appends_command _) fun _ _ _ => ?_
  exact leaves_sure (c := .raw bytes) (fun _ => ⟨_, rfl⟩) fun n => hE n _

end CompressedBlock

namespace Document

open Writer

variable {σ : Type} {options : Options} {v : Value} {E : DocumentError → Prop}
  {G : List UInt8 → Prop}

/-- What fails over a sink fails in a writer over it. -/
theorem of_onSink_eq_error {m : Encode σ Unit} {oldSpec : Bool} {s t : σ} {e : DocumentError}
    (h : onSink oldSpec m s = .error e t) : ∃ w, m ⟨s, oldSpec⟩ = .error e w ∧ w.sink = t := by
  rw [onSink] at h
  cases hm : m ⟨s, oldSpec⟩ with
  | ok a w =>
      rw [hm] at h
      cases h
  | error e' w =>
      rw [hm] at h
      cases h
      exact ⟨w, rfl, rfl⟩

variable [Sink σ] {content : Sink.Content σ}

/-- Compressing fails before anything is put out. -/
theorem leaves_pack (c : BlockCompressor) (document : ByteArray) (h : G [])
    (hE : ∀ n x, E (.write (.regionTooSmall n)) → G x) :
    Leaves content (pack (σ := σ) c options document) E G := by
  rw [pack]
  split
  · exact (leaves_sure (c := .raw document) (fun _ => ⟨_, rfl⟩) fun n => hE n _).ofWrite
  · exact CompressedBlock.leaves_write c document h hE

/-- **A FAILURE LEAVES NO DOCUMENT.** If a document could not be written, whatever the value, the
    options, the algorithm and what the sink held before, then what the sink held is unchanged, with
    some bytes behind it. If the document was to be compressed there are none, unless the sink gave
    less than it was asked for. In the plain form they are a strict start of a complete value: no
    frame is found in them and no fault, but that more bytes are missing. -/
theorem no_document_of_failure (content : Sink.Content σ) (c : BlockCompressor) {s t : σ}
    {e : DocumentError} (h : writeWith c options .value v s = .error e t) :
    ∃ x, content.bytes t = content.bytes s ++ x
      ∧ (options.compression = .deflate → (∀ n, e ≠ .write (.regionTooSmall n)) → x = [])
      ∧ (options.compression = .none → (∃ more, more ≠ [] ∧ IsValue (x ++ more)) ∧ ¬ IsValue x
        ∧ (x.length < 2 ^ 64 → Frame.size? ⟨x.toArray⟩ = .ok none)) := by
  rw [writeWith] at h
  cases hcompression : options.compression with
  | none =>
      rw [hcompression] at h
      obtain ⟨w, herror, rfl⟩ := of_onSink_eq_error h
      have hwrite : Leaves content (v.write (σ := σ)) (fun _ => True) (Truncated IsValue) :=
        v.leaves_write
      obtain ⟨x, hx, htruncated⟩ := hwrite herror trivial
      refine ⟨x, hx, ?_, fun _ => ⟨htruncated, htruncated.not_isValue,
        Truncated.size?_eq ⟨x.toArray⟩ htruncated⟩⟩
      rintro ⟨⟩
  | deflate =>
      rw [hcompression] at h
      cases hplain : plain options .value v with
      | error e' =>
          -- the sink is not touched before the document is encoded
          rw [hplain] at h
          cases h
          refine ⟨[], (List.append_nil _).symm, fun _ _ => rfl, ?_⟩
          rintro ⟨⟩
      | ok document =>
          rw [hplain] at h
          obtain ⟨w, herror, rfl⟩ := of_onSink_eq_error h
          -- what a sink without room has been left with is not told, but for its place
          have hpack : Leaves content (pack (σ := σ) c options document) (fun e' => e' = e)
              fun x => (∀ n, e ≠ .write (.regionTooSmall n)) → x = [] :=
            leaves_pack c document (fun _ => rfl) fun n _ hsmall hroom =>
              absurd hsmall.symm (hroom n)
          obtain ⟨x, hx, hnil⟩ := hpack herror rfl
          refine ⟨x, hx, fun _ => hnil, ?_⟩
          rintro ⟨⟩

/-- A timestamp of the old specification, as the second item of an array within a map, behind a nil:
    both headers, the key and the first item are left, and no frame is found in them. -/
theorem no_document_of_failure_timestamp :
    ∃ t : Tight,
      writeWith .standard { Options.standard with oldSpec := true } .value
          (.map [(.unsigned 7, .array [.unsigned 1, .timestamp .epoch, .nil])])
          (⟨⟨#[0xc0]⟩, 0⟩ : Tight)
        = .error (.write .oldSpecTimestamp) t
      ∧ t.content = ⟨#[0xc0, 0x81, 0x07, 0x93, 0x01]⟩
      ∧ ¬ IsValue [0x81, 0x07, 0x93, 0x01]
      ∧ Frame.size? ⟨#[0x81, 0x07, 0x93, 0x01]⟩ = .ok none := by
  have herror : writeWith .standard { Options.standard with oldSpec := true } .value
      (.map [(.unsigned 7, .array [.unsigned 1, .timestamp .epoch, .nil])])
      (⟨⟨#[0xc0]⟩, 0⟩ : Tight)
      = .error (.write .oldSpecTimestamp) ⟨⟨#[0xc0, 0x81, 0x07, 0x93, 0x01]⟩, 0⟩ := rfl
  obtain ⟨x, hx, -, hplain⟩ := no_document_of_failure (.ofLawful Tight) .standard herror
  have hbytes : [0x81, 0x07, 0x93, 0x01] = x := (List.cons_inj_right 0xc0).mp hx
  obtain ⟨-, hvalue, hsize⟩ := hplain rfl
  subst hbytes
  exact ⟨_, herror, rfl, hvalue, hsize (by decide)⟩

end Document

end MessagePack
