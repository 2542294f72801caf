import MessagePack.Deflate.Code

/-!
# Decoding DEFLATE

`Deflate.inflate` decodes a stream until it ends or until it has produced as many bytes as were
asked for.

* Decoding goes on in *runs*. A run ends where it needs a byte that has not arrived, or where it has
  a byte to put and its window of output is full. If enough bytes have been produced by then,
  decoding is over, and what lies behind that point is never looked at; a fault before it is found
  even if enough bytes were produced already.
* Otherwise the next run begins. The input arrives in portions, and the next portion arrives at the
  beginning of a run that finds all bytes taken. If there is no other portion, then the run has to
  reach the end of the stream.
* Bytes that follow the end of the stream are ignored.
* A reference that goes back beyond the first byte finds zeros, as the window starts out with zeros.
* A code has to use up all codewords. The code of literals and the code of distances may also have
  no codeword at all, or a single one of one bit; any other bit is refused as soon as it is read.

Like all of `Deflate`, this stands for a library outside the codec, and no result about all inputs
depends on how it is done.
-/

namespace MessagePack

namespace Deflate

/-- The size of a window, and of a portion of input. -/
def windowSize : Nat :=
  32768

/-- Why decoding stops before the end of the stream. -/
inductive Stop where
  /-- Enough bytes have been produced. -/
  | enough
  /-- The stream is corrupt, or it ends early. -/
  | faulty
  deriving DecidableEq

/-- What is decoded, and the number of bytes that are wanted. -/
structure Job where
  input : ByteArray
  limit : Nat

/-- Where decoding stands. -/
structure Progress where
  /-- The number of bits that have been read. -/
  bits : Nat := 0
  /-- What has been produced. -/
  output : ByteArray := .empty
  /-- The number of bytes of input that have arrived. -/
  arrived : Nat := 0
  /-- The size of the output at which the window is full. -/
  full : Nat := 0
  /-- Whether it is known that no more input will arrive. -/
  isLastRun : Bool := false

/-- The number of bytes of input that have been taken, those in part included. -/
def Progress.taken (p : Progress) : Nat :=
  (p.bits + 7) / 8

/-- A computation that decodes a part of the stream. -/
abbrev Inflate (α : Type) : Type :=
  EStateM Stop Progress α

namespace Job

/-! ## Runs -/

/-- Ends a run and begins the next one, unless enough has been produced. -/
def nextRun (j : Job) : Inflate Unit := do
  let p ← get
  if j.limit ≤ p.output.size then throw .enough
  let full := (p.output.size / windowSize + 1) * windowSize
  if p.taken < p.arrived then set { p with full }
  else if p.arrived < j.input.size then
    set { p with full, arrived := min (p.arrived + windowSize) j.input.size }
  else set { p with full, isLastRun := true }

/-- Makes room for a byte in the window. -/
def makeRoom (j : Job) : Inflate Unit := do
  let p ← get
  if p.output.size = p.full then j.nextRun

/-- Produces a byte. -/
def put (j : Job) (b : UInt8) : Inflate Unit := do
  j.makeRoom
  modify fun p => { p with output := p.output.push b }

/-! ## Bits -/

/-- The byte that the next bit is in. -/
def currentByte (j : Job) : Inflate UInt8 := do
  let p ← get
  let index := p.bits / 8
  if index = p.arrived then
    if p.isLastRun then throw .faulty
    j.nextRun
  match j.input[index]? with
  | some b => pure b
  | none => throw .faulty

/-- The next bit. -/
def bit (j : Job) : Inflate Nat := do
  let b ← j.currentByte
  modifyGet fun p => ((b.toNat / 2 ^ (p.bits % 8)) % 2, { p with bits := p.bits + 1 })

/-- A number of `n` bits, the least significant one first. -/
def number (j : Job) : (n : Nat) → Inflate Nat
  | 0 => pure 0
  | n + 1 => do
    let low ← j.bit
    return low + 2 * (← j.number n)

/-- Leaves the rest of a byte. -/
def align : Inflate Unit :=
  modify fun p => { p with bits := (p.bits + 7) / 8 * 8 }

/-! ## Symbols -/

/-- Reads a codeword bit by bit. So far it is `word`; `first` is the first codeword of its length,
and `index` the place of that codeword's symbol. -/
def symbolFrom (j : Job) (c : Code) : (more length word first index : Nat) → Inflate Nat
  | 0, _, _, _, _ => throw .faulty
  | more + 1, length, word, first, index => do
    let word := word + (← j.bit)
    let count := c.counts[length]?.getD 0
    if word < first + count then
      match c.symbols[index + (word - first)]? with
      | some symbol => pure symbol
      | none => throw .faulty
    else
      j.symbolFrom c more (length + 1) (2 * word) (2 * (first + count)) (index + count)

/-- The next symbol of a code. -/
def symbol (j : Job) (c : Code) : Inflate Nat :=
  j.symbolFrom c c.longest 1 0 0 0

/-- The value of a symbol with its extra bits. -/
def valueOf (j : Job) (bases : Bases) (symbol : Nat) : Inflate Nat := do
  match bases[symbol]? with
  | some (least, extra) => return least + (← j.number extra)
  | none => throw .faulty

/-! ## Blocks -/

/-- Produces `n` bytes again that were produced `distance` bytes ago. -/
def repeatOutput (j : Job) (distance : Nat) : (n : Nat) → Inflate Unit
  | 0 => pure ()
  | n + 1 => do
    let output := (← get).output
    let b := if distance ≤ output.size then output[output.size - distance]?.getD 0 else 0
    j.put b
    j.repeatOutput distance n

/-- Decodes symbols up to the end of a block. Every symbol takes at least one bit, so `more` is
enough if it is no less than the number of bits. -/
def symbols (j : Job) (literals distances : Code) : (more : Nat) → Inflate Unit
  | 0 => throw .faulty
  | more + 1 => do
    let s ← j.symbol literals
    if s < endOfBlock then
      j.put (UInt8.ofNat s)
      j.symbols literals distances more
    else if s = endOfBlock then pure ()
    else
      let length ← j.valueOf lengthBases (s - firstLength)
      let distance ← j.valueOf distanceBases (← j.symbol distances)
      j.repeatOutput distance length
      j.symbols literals distances more

/-- Copies `n` bytes of a block that is stored as it is. -/
def storedBytes (j : Job) : (n : Nat) → Inflate Unit
  | 0 => pure ()
  | n + 1 => do
    j.makeRoom
    j.put (UInt8.ofNat (← j.number 8))
    j.storedBytes n

/-- Decodes a block that is stored as it is. -/
def storedBlock (j : Job) : Inflate Unit := do
  align
  let length ← j.number 16
  let complement ← j.number 16
  if length + complement ≠ 65535 then throw .faulty
  j.storedBytes length

/-- Reads `n` lengths of the code of code lengths, in the order in which they are stored. -/
def codeLengthLengths (j : Job) : (n : Nat) → List Nat → Array Nat → Inflate (Array Nat)
  | n + 1, symbol :: rest, lengths => do
    j.codeLengthLengths n rest (lengths.setIfInBounds symbol (← j.number 3))
  | _, _, lengths => pure lengths

/-- Reads codeword lengths until there are `total` of them. Three symbols repeat a length: the
previous one, or zero for a short or a long run. -/
def codeLengths (j : Job) (c : Code) (total : Nat) :
    (more : Nat) → Array Nat → Inflate (Array Nat)
  | 0, _ => throw .faulty
  | more + 1, lengths => do
    if lengths.size = total then return lengths
    if total < lengths.size then throw .faulty
    match ← j.symbol c with
    | 16 =>
      match lengths.back? with
      | some previous =>
        let n ← j.number 2
        j.codeLengths c total more (lengths ++ Array.replicate (n + 3) previous)
      | none => throw .faulty
    | 17 =>
      let n ← j.number 3
      j.codeLengths c total more (lengths ++ Array.replicate (n + 3) 0)
    | 18 =>
      let n ← j.number 7
      j.codeLengths c total more (lengths ++ Array.replicate (n + 11) 0)
    | length => j.codeLengths c total more (lengths.push length)

/-- The code with the given codeword lengths, if it decodes all bits. -/
def completeCode (lengths : Array Nat) : Inflate Code :=
  let c := Code.ofLengths lengths
  if c.isComplete then pure c else throw .faulty

/-- The code with the given codeword lengths, if it decodes all bits or has hardly any codeword. -/
def codeOf (lengths : Array Nat) : Inflate Code :=
  let c := Code.ofLengths lengths
  if c.isComplete || c.isTrivial then pure c else throw .faulty

/-- Decodes a block that brings its own codes. -/
def dynamicBlock (j : Job) (more : Nat) : Inflate Unit := do
  let literalCount := (← j.number 5) + 257
  let distanceCount := (← j.number 5) + 1
  let lengthCount := (← j.number 4) + 4
  if 286 < literalCount ∨ 30 < distanceCount then throw .faulty
  let lengthLengths ← j.codeLengthLengths lengthCount codeLengthOrder (Array.replicate 19 0)
  let lengthCode ← completeCode lengthLengths
  let total := literalCount + distanceCount
  let lengths ← j.codeLengths lengthCode total (total + 1) #[]
  let literals ← codeOf (lengths.extract 0 literalCount)
  let distances ← codeOf (lengths.extract literalCount total)
  j.symbols literals distances more

/-- Decodes blocks up to the last one. -/
def blocks (j : Job) : (more : Nat) → Inflate Unit
  | 0 => throw .faulty
  | more + 1 => do
    let isLast ← j.bit
    match ← j.number 2 with
    | 0 => j.storedBlock
    | 1 => j.symbols (.ofLengths fixedLiteralLengths) (.ofLengths fixedDistanceLengths) more
    | 2 => j.dynamicBlock more
    | _ => throw .faulty
    if isLast = 1 then pure () else j.blocks more

end Job

/-- The first `limit` bytes that a stream decodes to, or all of them if there are fewer. -/
def inflate (input : ByteArray) (limit : Nat) : Option ByteArray :=
  let job : Job := ⟨input, limit⟩
  match job.blocks (8 * input.size + 1) {} with
  | .ok _ p => some (p.output.extract 0 (min limit p.output.size))
  | .error .enough p => some (p.output.extract 0 (min limit p.output.size))
  | .error .faulty _ => none

end Deflate

end MessagePack
