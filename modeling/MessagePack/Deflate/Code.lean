import MessagePack.Power

/-!
# The codes of DEFLATE

What both directions of DEFLATE share: the symbols for lengths and distances with their extra bits,
the lengths of the fixed codes, and canonical prefix codes. A canonical code is given by the length
of every symbol's codeword alone: shorter codewords come first, and codewords of one length are
consecutive numbers in the order of their symbols.

The codec leaves DEFLATE to a library, and the modules under `Deflate` stand for that. No result
about all inputs depends on them: documents are proved about for every `BlockCompressor`, and where
the algorithm matters, what it has to do is an assumption of the result. They are run only on
documents that are given byte for byte.
-/

namespace MessagePack

namespace Deflate

/-! ## Symbols with extra bits -/

/-- The least value of each of a run of symbols and its number of extra bits. -/
abbrev Bases : Type :=
  Array (Nat × Nat)

/-- The lengths of the symbols from 257 on. -/
def lengthBases : Bases :=
  #[(3, 0), (4, 0), (5, 0), (6, 0), (7, 0), (8, 0), (9, 0), (10, 0), (11, 1), (13, 1), (15, 1),
    (17, 1), (19, 2), (23, 2), (27, 2), (31, 2), (35, 3), (43, 3), (51, 3), (59, 3), (67, 4),
    (83, 4), (99, 4), (115, 4), (131, 5), (163, 5), (195, 5), (227, 5), (258, 0)]

/-- The distances of the symbols from 0 on. -/
def distanceBases : Bases :=
  #[(1, 0), (2, 0), (3, 0), (4, 0), (5, 1), (7, 1), (9, 2), (13, 2), (17, 3), (25, 3), (33, 4),
    (49, 4), (65, 5), (97, 5), (129, 6), (193, 6), (257, 7), (385, 7), (513, 8), (769, 8),
    (1025, 9), (1537, 9), (2049, 10), (3073, 10), (4097, 11), (6145, 11), (8193, 12),
    (12289, 12), (16385, 13), (24577, 13)]

/-- The number of the last symbol whose least value is not above `n`. -/
def symbolOf (bases : Bases) (n : Nat) : Nat :=
  (bases.foldl (fun count (least, _) => if least ≤ n then count + 1 else count) 0) - 1

/-- The symbol that ends a block. -/
def endOfBlock : Nat :=
  256

/-- The first of the symbols that stand for a length. -/
def firstLength : Nat :=
  257

/-! ## Fixed codes -/

/-- The codeword lengths of the fixed code of literals and lengths. -/
def fixedLiteralLengths : Array Nat :=
  Array.replicate 144 8 ++ Array.replicate 112 9 ++ Array.replicate 24 7 ++ Array.replicate 8 8

/-- The codeword lengths of the fixed code of distances. -/
def fixedDistanceLengths : Array Nat :=
  Array.replicate 32 5

/-- The order in which the lengths of the code of code lengths are stored. -/
def codeLengthOrder : List Nat :=
  [16, 17, 18, 0, 8, 7, 9, 6, 10, 5, 11, 4, 12, 3, 13, 2, 14, 1, 15]

/-! ## Canonical codes -/

/-- The greatest length of a codeword. -/
def maxCodeLength : Nat :=
  15

/-- A canonical code: the number of codewords of each length, up to the greatest that occurs or one
bit if there is none, and the symbols in the order of their codewords. -/
structure Code where
  counts : Array Nat
  symbols : Array Nat

namespace Code

/-- The symbols that have codewords of a length. -/
def symbolsOfLength (lengths : Array Nat) (length : Nat) : Array Nat :=
  (Array.range lengths.size).filter fun symbol => lengths[symbol]? = some length

/-- The canonical code with the given codeword lengths, where length 0 means that a symbol has no
codeword. -/
def ofLengths (lengths : Array Nat) : Code :=
  let groups := (Array.range (lengths.foldl max 1 + 1)).map fun length =>
    if length = 0 then #[] else symbolsOfLength lengths length
  ⟨groups.map Array.size, groups.flatten⟩

/-- The greatest number of bits that have to be read for a symbol. -/
def longest (c : Code) : Nat :=
  c.counts.size - 1

/-- Whether the codewords use up all there are, so that all bits can be decoded. -/
def isComplete (c : Code) : Bool :=
  c.counts.foldl (fun used count => 2 * used + count) 0 = 2 ^ c.longest

/-- Whether there is no codeword but one of a single bit. -/
def isTrivial (c : Code) : Bool :=
  c.longest = 1 && c.symbols.size ≤ 1

end Code

end Deflate

end MessagePack
