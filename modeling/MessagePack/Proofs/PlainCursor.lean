import Mathlib.Data.List.Forall2
import MessagePack.Proofs.Cursor

/-!
# A cursor is a list of bytes and a position

Nothing of the pieces of a sequence is to be seen through a cursor. `Plain` is the cursor one would
write first, a list of bytes with a position in it; it is asked the same requests. Whatever is done
with a cursor and its copies, in any number of steps, is answered as the plain one answers it, and a
cursor's place is a function of the number of bytes that it has consumed.

* **`Plain.run`** is the plain cursor. It gives the whole of what is unread and the bytes of a view,
  where a cursor gives the unread part of its piece and the view itself; **`Reply.Agrees`** says
  what one answer has to do with the other.
* **`Follows.run`** is the step: from a cursor that follows a plain one, every request leads to one
  that still does.
* **`refines_plain`** is the run, over any number of copies.
-/

namespace MessagePack

/-- A position in a list of bytes. -/
structure Plain where
  bytes : List UInt8
  position : Nat

namespace Plain

/-- The bytes ahead. -/
def ahead (p : Plain) : List UInt8 :=
  p.bytes.drop p.position

/-- The number of bytes ahead. -/
def remaining (p : Plain) : Nat :=
  p.bytes.length - p.position

/-- The position `n` bytes on. -/
def past (p : Plain) (n : Nat) : Plain :=
  { p with position := p.position + n }

/-- The position `n` bytes back. -/
def before (p : Plain) (n : Nat) : Plain :=
  { p with position := p.position - n }

/-- What a plain cursor answers. -/
inductive Reply where
  | byte (b : Option UInt8)
  | nat (n : Option Nat)
  | int (n : Option Int)
  | moved (fault : Option OutOfRange)
  | unread (ahead : List UInt8)
  | copied (done : Bool) (target : List UInt8)
  | view (bytes : Option (List UInt8))

/-- The next `n` bytes, if there are as many. -/
def next? (p : Plain) (n : Nat) : Option (List UInt8) :=
  if n ≤ p.remaining then some (p.ahead.take n) else none

/-- Answers from the next `n` bytes and goes past them; if there are fewer, it stays. -/
def consume (p : Plain) (n : Nat) (answer : Option (List UInt8) → Reply) : Reply × Plain :=
  if n ≤ p.remaining then (answer (some (p.ahead.take n)), p.past n) else (answer none, p)

/-- Carries out one operation. -/
def run (p : Plain) : Cursor.Request → Reply × Plain
  | .peek => (.byte p.ahead.head?, p)
  | .read => p.consume 1 fun bytes => .byte (bytes.bind List.head?)
  | .nat w => p.consume w.bytes fun bytes => .nat (bytes.map BigEndian.decode)
  | .int t => p.consume t.width.bytes fun bytes => .int (bytes.map t.decode)
  | .advance n =>
    if n ≤ p.remaining then (.moved none, p.past n) else (.moved (some ⟨n, p.remaining⟩), p)
  | .rewind n =>
    if n ≤ p.position then (.moved none, p.before n) else (.moved (some ⟨n, p.position⟩), p)
  | .unread => (.unread p.ahead, p)
  | .copyTo target =>
    match p.next? target.size with
    | some bytes => (.copied true bytes, p)
    | none => (.copied false target.data.toList, p)
  | .view n => (.view (p.next? n), p)
  | .take n => p.consume n .view

end Plain

/-- A view that gives some bytes, in each of the ways in which it gives any. -/
structure View.Gives (v : View) (bytes : List UInt8) : Prop where
  length_eq : v.length = bytes.length
  pieces_eq : (v.pieces.flatMap fun part => part.data.toList) = bytes
  content_eq : v.content.data.toList = bytes
  toBytes_eq : v.toBytes.data.toList = bytes
  contiguous_eq : ∀ block, v.contiguous? = some block → block.data.toList = bytes

/-- A view that shows some bytes gives them in every way. -/
theorem View.Shows.gives {v : View} {bytes : List UInt8} (h : v.Shows bytes) : v.Gives bytes where
  length_eq := h.length_eq
  pieces_eq := h.piecesUpTo (by show v.segments.count - v.place.index < v.segments.count + 1; omega)
  content_eq := h.toList_content
  toBytes_eq := h.toList_toBytes
  contiguous_eq _ := h.toList_contiguous

namespace Cursor

/-! ## Answers -/

/-- The answer of a cursor beside that of a plain one. Of the unread bytes a cursor gives as many as
    are in its piece, which is some of them unless there are none. -/
inductive Reply.Agrees : Reply → Plain.Reply → Prop
  | byte (b : Option UInt8) : Agrees (.byte b) (.byte b)
  | nat (n : Option Nat) : Agrees (.nat n) (.nat n)
  | int (n : Option Int) : Agrees (.int n) (.int n)
  | moved (fault : Option OutOfRange) : Agrees (.moved fault) (.moved fault)
  | unread {block : ByteArray} {ahead : List UInt8} : block.data.toList <+: ahead →
      (block.data.toList = [] → ahead = []) → Agrees (.bytes block) (.unread ahead)
  | copied {done : Bool} {block : ByteArray} {target : List UInt8} :
      block.data.toList = target → Agrees (.copied done block) (.copied done target)
  | noView : Agrees (.view none) (.view none)
  | view {v : View} {bytes : List UInt8} :
      v.Gives bytes → Agrees (.view (some v)) (.view (some bytes))

/-- The answer of an operation that could not be carried out. -/
def Reply.isFailure : Reply → Bool
  | .byte b => b.isNone
  | .nat n => n.isNone
  | .int n => n.isNone
  | .moved fault => fault.isSome
  | .bytes _ => false
  | .copied done _ => !done
  | .view v => v.isNone

/-- The answer of an operation that gives a value and a new cursor, or fails. -/
theorem reply_of_isFailure {α : Type} {c : Cursor} {wrap : Option α → Reply}
    {result : Option (α × Cursor)} (hwrap : ∀ a, (wrap (some a)).isFailure = false)
    (h : (c.reply wrap result).1.isFailure = true) : (c.reply wrap result).2 = c := by
  cases result with
  | none => rfl
  | some found =>
      rw [show (c.reply wrap (some found)).1 = wrap (some found.1) from rfl, hwrap] at h
      cases h

/-- **ATOMICITY**: an operation that fails leaves the cursor as it is. -/
theorem Request.run_of_isFailure {c : Cursor} {q : Request}
    (h : (q.run c).1.isFailure = true) : (q.run c).2 = c := by
  -- what could not be carried out gives back the cursor it was given
  cases q with
  | peek => rfl
  | read => exact reply_of_isFailure (fun _ => rfl) h
  | nat w => exact reply_of_isFailure (fun _ => rfl) h
  | int t => exact reply_of_isFailure (fun _ => rfl) h
  | advance n =>
      rw [Request.run] at h ⊢
      cases hmove : c.advance n with
      | error e => rfl
      | ok d => rw [hmove] at h; cases h
  | rewind n =>
      rw [Request.run] at h ⊢
      cases hmove : c.rewind n with
      | error e => rfl
      | ok d => rw [hmove] at h; cases h
  | unread => rfl
  | copyTo target => rfl
  | view n => rfl
  | take n => exact reply_of_isFailure (fun _ => rfl) h

/-! ## One request -/

/-- A cursor over a sequence and the plain cursor that it stands for. -/
structure Follows (s : Segments) (c : Cursor) (p : Plain) : Prop where
  wellFormed : c.WellFormed
  segments_eq : c.segments = s
  bytes_eq : p.bytes = s.toList
  position_eq : p.position = c.consumed

variable {s : Segments} {c : Cursor} {p : Plain}

/-- The cursor and the plain one have the same bytes ahead. -/
theorem Follows.ahead_eq (h : Follows s c p) : p.ahead = c.ahead := by
  rw [Plain.ahead, Cursor.ahead, h.bytes_eq, h.position_eq, h.segments_eq]

/-- The cursor and the plain one have as many bytes ahead. -/
theorem Follows.remaining_eq (h : Follows s c p) : p.remaining = c.remaining := by
  rw [Plain.remaining, remaining, h.wellFormed.length_eq, h.bytes_eq, h.position_eq, h.segments_eq,
    Segments.length_toList]

/-- Moved on by as many bytes, the cursor still follows. -/
theorem Follows.past {n : Nat} (h : Follows s c p) (hn : n ≤ c.remaining) :
    Follows s (c.past n) (p.past n) where
  wellFormed := h.wellFormed.past hn
  segments_eq := h.segments_eq
  bytes_eq := h.bytes_eq
  position_eq := congrArg (· + n) h.position_eq

/-- Moved back by as many bytes, the cursor still follows. -/
theorem Follows.before {n : Nat} (h : Follows s c p) (hn : n ≤ c.consumed) :
    Follows s (c.before n) (p.before n) where
  wellFormed := h.wellFormed.before hn
  segments_eq := h.segments_eq
  bytes_eq := h.bytes_eq
  position_eq := congrArg (· - n) h.position_eq

/-- An answer that agrees, and a cursor that still follows. -/
def Matches (s : Segments) (x : Reply × Cursor) (y : Plain.Reply × Plain) : Prop :=
  x.1.Agrees y.1 ∧ Follows s x.2 y.2

/-- An operation that takes the next `n` bytes, if there are as many, is answered from them. -/
theorem Follows.consume {α : Type} {n : Nat} {wrap : Option α → Reply}
    {answer : Option (List UInt8) → Plain.Reply} {a : α} (h : Follows s c p)
    (hnone : (wrap none).Agrees (answer none))
    (hsome : n ≤ c.remaining → (wrap (some a)).Agrees (answer (some (c.ahead.take n)))) :
    Matches s (c.reply wrap (if n ≤ c.remaining then some (a, c.past n) else none))
      (p.consume n answer) := by
  rw [Plain.consume, h.remaining_eq, h.ahead_eq]
  by_cases hn : n ≤ c.remaining
  · rw [if_pos hn, if_pos hn]
    exact ⟨hsome hn, h.past hn⟩
  · rw [if_neg hn, if_neg hn]
    exact ⟨hnone, h⟩

/-- A byte is read alike. -/
theorem Follows.read (h : Follows s c p) :
    Matches s (Request.read.run c) (p.run .read) := by
  show Matches s (c.reply .byte c.read?) (p.consume 1 _)
  cases hahead : c.ahead with
  | nil =>
      have hremaining : ¬ 1 ≤ p.remaining := by
        rw [h.remaining_eq, ← h.wellFormed.length_ahead, hahead]
        exact Nat.not_succ_le_zero 0
      rw [h.wellFormed.read?_nil hahead, Plain.consume, if_neg hremaining]
      exact ⟨.byte none, h⟩
  | cons b rest =>
      have hremaining : 1 ≤ c.remaining := by
        rw [h.wellFormed.remaining_eq_succ hahead]
        exact Nat.succ_le_succ (Nat.zero_le _)
      rw [h.wellFormed.read?_cons hahead, Plain.consume, h.remaining_eq, if_pos hremaining,
        h.ahead_eq, hahead]
      exact ⟨.byte (some b), h.past hremaining⟩

/-- The unread part of a piece is some of the bytes ahead, unless there are none. -/
theorem WellFormed.unread_agrees (h : c.WellFormed) :
    (Reply.bytes c.unread).Agrees (.unread c.ahead) := by
  have hunread : c.unread.data.toList = c.ahead.take (c.segments.available c.place) :=
    h.located.toList_bytesAt (Nat.le_refl _)
  refine .unread (hunread ▸ List.take_prefix _ _) fun hnil => ?_
  cases hahead : c.ahead with
  | nil => rfl
  | cons b rest =>
      -- a cursor with a byte ahead has it in its piece
      have hlt := h.offset_lt hahead
      have havailable : c.segments.available c.place ≠ 0 := by
        rw [Segments.available]
        omega
      obtain ⟨k, hk⟩ := Nat.exists_eq_succ_of_ne_zero havailable
      rw [hunread, hahead, hk, List.take_succ_cons] at hnil
      cases hnil

/-- A copy has the same bytes, and is refused alike. -/
theorem Follows.copyTo {target : ByteArray} (h : Follows s c p) :
    Matches s ((Request.copyTo target).run c) (p.run (.copyTo target)) := by
  refine ⟨?_, ?_⟩
  · show (Reply.copied (c.copyTo target).1 (c.copyTo target).2).Agrees _
    rw [Plain.run, Plain.next?, h.remaining_eq, h.ahead_eq]
    by_cases hn : target.size ≤ c.remaining
    · have hcopy : c.copy? target.size = some (c.segments.copy c.place target.size) := if_pos hn
      obtain ⟨-, hblock⟩ := h.wellFormed.copy?_eq_some hcopy
      rw [if_pos hn, Cursor.copyTo, hcopy]
      exact .copied hblock
    · have hcopy : c.copy? target.size = none := if_neg hn
      rw [if_neg hn, Cursor.copyTo, hcopy]
      exact .copied rfl
  · rw [Plain.run]
    split <;> exact h

/-- A view of the next bytes gives them, and is refused if there are not as many. -/
theorem Follows.view {n : Nat} (h : Follows s c p) :
    (Reply.view (c.view? n)).Agrees (.view (p.next? n)) := by
  rw [view?, Plain.next?, h.remaining_eq, h.ahead_eq]
  by_cases hn : n ≤ c.remaining
  · rw [if_pos hn, if_pos hn]
    exact .view (h.wellFormed.shows_viewOf hn).gives
  · rw [if_neg hn, if_neg hn]
    exact .noView

/-- The step: every request is answered alike, and keeps to the plain cursor. -/
theorem Follows.run (h : Follows s c p) (q : Request) : Matches s (q.run c) (p.run q) := by
  cases q with
  | peek =>
      refine ⟨?_, h⟩
      show (Reply.byte c.peek?).Agrees (.byte p.ahead.head?)
      rw [h.wellFormed.peek?_eq, h.ahead_eq]
      exact .byte _
  | read => exact h.read
  | nat w =>
      rw [Request.run, h.wellFormed.nat?_eq]
      exact h.consume (.nat none) fun _ => .nat _
  | int t =>
      rw [Request.run, h.wellFormed.int?_eq]
      exact h.consume (.int none) fun _ => .int _
  | advance n =>
      rw [Request.run, Plain.run, Cursor.advance, h.remaining_eq]
      by_cases hn : n ≤ c.remaining
      · rw [if_pos hn, if_pos hn]
        exact ⟨.moved none, h.past hn⟩
      · rw [if_neg hn, if_neg hn]
        exact ⟨.moved _, h⟩
  | rewind n =>
      rw [Request.run, Plain.run, rewind_eq, h.position_eq]
      by_cases hn : n ≤ c.consumed
      · rw [if_pos hn, if_pos hn]
        exact ⟨.moved none, h.before hn⟩
      · rw [if_neg hn, if_neg hn]
        exact ⟨.moved _, h⟩
  | unread =>
      refine ⟨?_, h⟩
      rw [Plain.run, h.ahead_eq]
      exact h.wellFormed.unread_agrees
  | copyTo target => exact h.copyTo
  | view n => exact ⟨h.view, h⟩
  | take n =>
      rw [Request.run, take?_eq]
      exact h.consume .noView fun hn => .view (h.wellFormed.shows_viewOf hn).gives

/-! ## Any number of steps -/

/-- What is done with a number of cursors: one of them is asked something, or is copied. -/
inductive Step where
  | ask (i : Nat) (q : Request)
  | copy (i : Nat)

section Machine

variable {σ ρ τ π : Type}

/-- Carries out a step on a list of cursors of any kind. A copy is added at the end of the list; for
    a cursor that is not there nothing is done. -/
def Step.run (ask : σ → Request → ρ × σ) (cursors : List σ) : Step → Option ρ × List σ
  | .ask i q =>
    match cursors[i]? with
    | some c => (some (ask c q).1, cursors.set i (ask c q).2)
    | none => (none, cursors)
  | .copy i => (none, cursors ++ cursors[i]?.toList)

/-- Carries out steps one after the other, with their answers. -/
def runSteps (ask : σ → Request → ρ × σ) (cursors : List σ) : List Step → List (Option ρ) × List σ
  | [] => ([], cursors)
  | step :: steps =>
    let (reply, cursors) := step.run ask cursors
    let (replies, cursors) := runSteps ask cursors steps
    (reply :: replies, cursors)

/-- Lists that are related have related elements at each place. -/
theorem getElem?_rel {R : σ → τ → Prop} {cs : List σ} {ds : List τ} (h : List.Forall₂ R cs ds)
    (i : Nat) : Option.Rel R cs[i]? ds[i]? := by
  induction h generalizing i with
  | nil => exact .none
  | cons hcd _ ih =>
      cases i with
      | zero => exact .some hcd
      | succ i => exact ih i

/-- Related lists stay so when an element of each is replaced by related ones. -/
theorem set_rel {R : σ → τ → Prop} {cs : List σ} {ds : List τ} {c : σ} {d : τ}
    (h : List.Forall₂ R cs ds) (hcd : R c d) (i : Nat) :
    List.Forall₂ R (cs.set i c) (ds.set i d) := by
  induction h generalizing i with
  | nil => exact .nil
  | cons hhead htail ih =>
      cases i with
      | zero => exact .cons hcd htail
      | succ i => exact .cons hhead (ih i)

variable {ask : σ → Request → ρ × σ} {ask' : τ → Request → π × τ} {R : σ → τ → Prop}
  {A : ρ → π → Prop}

/-- What every request keeps to, every step keeps to for all the cursors there are. -/
theorem Step.run_rel
    (hask : ∀ {c d}, R c d → ∀ q, A (ask c q).1 (ask' d q).1 ∧ R (ask c q).2 (ask' d q).2)
    {cs : List σ} {ds : List τ} (h : List.Forall₂ R cs ds) (step : Step) :
    Option.Rel A (step.run ask cs).1 (step.run ask' ds).1
      ∧ List.Forall₂ R (step.run ask cs).2 (step.run ask' ds).2 := by
  cases step with
  | ask i q =>
      have hi := getElem?_rel h i
      rw [Step.run, Step.run]
      generalize cs[i]? = c at hi ⊢
      generalize ds[i]? = d at hi ⊢
      cases hi with
      | none => exact ⟨.none, h⟩
      | some hcd =>
          obtain ⟨hreply, hnext⟩ := hask hcd q
          exact ⟨.some hreply, set_rel h hnext i⟩
  | copy i =>
      have hi := getElem?_rel h i
      refine ⟨.none, List.rel_append h ?_⟩
      generalize cs[i]? = c at hi ⊢
      generalize ds[i]? = d at hi ⊢
      cases hi with
      | none => exact .nil
      | some hcd => exact .cons hcd .nil

/-- The run: what every request keeps to, any number of steps keep to. -/
theorem runSteps_rel
    (hask : ∀ {c d}, R c d → ∀ q, A (ask c q).1 (ask' d q).1 ∧ R (ask c q).2 (ask' d q).2)
    {cs : List σ} {ds : List τ} (h : List.Forall₂ R cs ds) (steps : List Step) :
    List.Forall₂ (Option.Rel A) (runSteps ask cs steps).1 (runSteps ask' ds steps).1
      ∧ List.Forall₂ R (runSteps ask cs steps).2 (runSteps ask' ds steps).2 := by
  induction steps generalizing cs ds with
  | nil => exact ⟨.nil, h⟩
  | cons step steps ih =>
      obtain ⟨hreply, hcursors⟩ := Step.run_rel hask h step
      obtain ⟨hreplies, hlast⟩ := ih hcursors
      exact ⟨.cons hreply hreplies, hlast⟩

end Machine

/-- What a cursor is made over: one block, or any number of pieces. -/
inductive Backing where
  | block (bytes : ByteArray)
  | pieces (parts : Array ByteArray)

/-- A cursor at the start. -/
def Backing.cursor : Backing → Cursor
  | .block bytes => ofBytes bytes
  | .pieces parts => ofParts parts

/-- All the bytes. -/
def Backing.bytes : Backing → List UInt8
  | .block bytes => bytes.data.toList
  | .pieces parts => parts.toList.flatMap fun part => part.data.toList

/-- A fresh cursor follows the plain one at the start of its bytes. -/
theorem Backing.follows (b : Backing) : Follows b.cursor.segments b.cursor ⟨b.bytes, 0⟩ := by
  cases b with
  | block bytes =>
      exact ⟨wellFormed_ofBytes bytes, rfl, (ahead_ofBytes bytes).symm, rfl⟩
  | pieces parts =>
      exact ⟨wellFormed_ofParts parts, rfl, (ahead_ofParts parts).symm, rfl⟩

/-- Cursors that come from one fresh cursor follow plain ones. -/
theorem follows_of_mem {b : Backing} {steps : List Step} {c : Cursor}
    (hc : c ∈ (runSteps Request.run [b.cursor] steps).2) :
    ∃ p, Follows b.cursor.segments c p := by
  have hrun := (runSteps_rel Follows.run (.cons b.follows .nil) steps).2
  obtain ⟨i, hi⟩ := List.getElem?_of_mem hc
  have hrel := getElem?_rel hrun i
  rw [hi] at hrel
  generalize (runSteps Plain.run [⟨b.bytes, 0⟩] steps).2[i]? = p at hrel
  cases hrel with
  | some hfollows => exact ⟨_, hfollows⟩

/-- **REFINEMENT**: over whatever pieces, whatever is asked of a cursor and of copies of it, and of
    copies of these, is answered as a plain cursor over all the bytes answers it, and every one of
    them stands where its plain cursor does. What it has consumed and what remains make up the whole
    sequence; an operation that fails leaves it as it is; and two of them, by whatever steps either
    was reached, that have consumed as much are the same, down to the piece and the offset. -/
theorem refines_plain (b : Backing) (steps : List Step) :
    let session := runSteps Request.run [b.cursor] steps
    let plain := runSteps Plain.run [⟨b.bytes, 0⟩] steps
    List.Forall₂ (Option.Rel Reply.Agrees) session.1 plain.1
      ∧ List.Forall₂ (fun c p => p = ⟨b.bytes, c.consumed⟩) session.2 plain.2
      ∧ (∀ c ∈ session.2, c.consumed + c.remaining = c.length ∧ c.length = b.bytes.length
        ∧ ∀ q : Request, (q.run c).1.isFailure = true → (q.run c).2 = c)
      ∧ ∀ steps', ∀ c ∈ session.2,
        ∀ d ∈ (runSteps Request.run [b.cursor] steps').2,
          c.consumed = d.consumed → c = d := by
  intro session plain
  obtain ⟨hreplies, hcursors⟩ := runSteps_rel Follows.run (.cons b.follows .nil) steps
  have hbytes : b.bytes = b.cursor.segments.toList := b.follows.bytes_eq
  refine ⟨hreplies, ?_, ?_, ?_⟩
  · refine hcursors.imp ?_
    intro c p h
    obtain ⟨bytes, position⟩ := p
    rw [hbytes, ← h.bytes_eq, ← h.position_eq]
  · intro c hc
    obtain ⟨p, h⟩ := follows_of_mem hc
    have hle := h.wellFormed.located.le_length
    have hlength := h.wellFormed.length_eq
    refine ⟨?_, ?_, fun q => Request.run_of_isFailure⟩
    · rw [remaining]
      omega
    · rw [hlength, h.segments_eq, hbytes, Segments.length_toList]
  -- over the same pieces, the number of bytes consumed determines a place
  · intro steps' c hc d hd hconsumed
    obtain ⟨p, h⟩ := follows_of_mem hc
    obtain ⟨p', h'⟩ := follows_of_mem hd
    exact h.wellFormed.eq_of_consumed h'.wellFormed (h.segments_eq.trans h'.segments_eq.symm)
      hconsumed

-- a copy goes back over an empty piece, and reads what lies before it
example :
    (runSteps Request.run [Backing.cursor (.pieces #[⟨#[1, 2]⟩, ⟨#[]⟩, ⟨#[3]⟩])]
      [.ask 0 (.advance 3), .copy 0, .ask 1 (.rewind 2), .ask 1 .read, .ask 0 .read]).1
      = [some (.moved none), none, some (.moved none), some (.byte (some 2)),
        some (.byte none)] := rfl

end Cursor

end MessagePack
