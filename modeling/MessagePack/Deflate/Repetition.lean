/-!
# Finding repetitions

Data is taken apart into single bytes and references to what came before. All positions with the
same three bytes are chained, latest first, and from each position the chain is followed a bounded
number of steps for the longest repetition. A candidate is only a proposal: its length is counted
from the bytes themselves.

Like all of `Deflate`, this stands for a library outside the codec, and no result about all inputs
depends on how it is done.
-/

namespace MessagePack

namespace Deflate

/-- A part of the data: a byte, or the bytes that stand a distance before. -/
inductive Piece where
  | literal (b : UInt8)
  | reference (length distance : Nat)

/-- The least length of a reference. -/
def minReference : Nat :=
  3

/-- The greatest length of a reference. -/
def maxReference : Nat :=
  258

/-- The greatest distance of a reference. -/
def maxDistance : Nat :=
  32768

/-- The chains of the positions passed so far. Positions are stored increased by one, and 0 ends a
chain. -/
structure Chains where
  heads : Array Nat
  links : Array Nat

/-- The number of chains. -/
def chainCount : Nat :=
  8192

/-- No positions. -/
def Chains.empty : Chains :=
  ⟨Array.replicate chainCount 0, #[]⟩

/-- The chain of a position, if three bytes are left. -/
def chainOf? (data : ByteArray) (i : Nat) : Option Nat := do
  let a ← data[i]?
  let b ← data[i + 1]?
  let c ← data[i + 2]?
  return (a.toNat * 1031 + b.toNat * 61 + c.toNat * 7919) % chainCount

/-- Adds the next position to its chain. -/
def Chains.push (c : Chains) (data : ByteArray) (i : Nat) : Chains :=
  match chainOf? data i with
  | some chain =>
    let previous := c.heads[chain]?.getD 0
    ⟨c.heads.setIfInBounds chain (i + 1), c.links.push previous⟩
  | none => ⟨c.heads, c.links.push 0⟩

/-- Adds `n` positions to their chains. -/
def Chains.pushRange (c : Chains) (data : ByteArray) (i : Nat) : (n : Nat) → Chains
  | 0 => c
  | n + 1 => (c.push data i).pushRange data (i + 1) n

/-- The number of equal bytes at two positions, at most `more` beyond the `known` ones. -/
def commonLength (data : ByteArray) (i j : Nat) : (more known : Nat) → Nat
  | 0, known => known
  | more + 1, known =>
    match data[i + known]?, data[j + known]? with
    | some a, some b => if a = b then commonLength data i j more (known + 1) else known
    | _, _ => known

/-- Follows a chain for at most `steps` steps and gives the longest repetition found, as a length
and a distance. -/
def longest (data : ByteArray) (c : Chains) (i : Nat) :
    (steps candidate : Nat) → (best : Nat × Nat) → Nat × Nat
  | 0, _, best => best
  | _, 0, best => best
  | steps + 1, candidate + 1, best =>
    if maxDistance < i - candidate then best
    else
      let length := commonLength data candidate i maxReference 0
      let best := if best.1 < length then (length, i - candidate) else best
      longest data c i steps (c.links[candidate]?.getD 0) best

/-- Takes data apart from a position on. Every part covers at least one byte, so `more` is enough if
it is no less than the number of bytes. -/
def piecesFrom (data : ByteArray) (effort : Nat) :
    (more i : Nat) → Chains → (pieces : Array Piece) → Array Piece
  | 0, _, _, pieces => pieces
  | more + 1, i, chains, pieces =>
    match data[i]? with
    | none => pieces
    | some b =>
      let head := ((chainOf? data i).bind fun chain => chains.heads[chain]?).getD 0
      let (length, distance) := longest data chains i effort head (0, 0)
      if minReference ≤ length then
        piecesFrom data effort more (i + length) (chains.pushRange data i length)
          (pieces.push (.reference length distance))
      else
        piecesFrom data effort more (i + 1) (chains.push data i) (pieces.push (.literal b))

/-- Data as bytes and references; more effort finds longer repetitions. -/
def pieces (data : ByteArray) (effort : Nat) : Array Piece :=
  piecesFrom data effort data.size 0 .empty #[]

end Deflate

end MessagePack
