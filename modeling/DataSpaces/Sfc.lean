import DataSpaces.Lib.Gray

/-!
# Sfc — the Hilbert curve on machine words (`sfc.h`)

The coordinates of a cell are packed into one word and transposed, so that the bits of one level lie next to
each other.  A loop over the levels then reflects and rotates the bits, from the highest level down, and the
index is the number of which the result is the Gray code.

`bitTranspose` is there in two versions.  The one that is compiled halves the width of all fields at once.
A shift by the width of the word or more is not defined in the source; here it gives zero.  It does not occur
as long as `nDims * nBits` is at most 64, which the source asks for.
-/

namespace DataSpaces

/-- `bitmask_t`. -/
abbrev Bitmask := BitVec 64

/-- `halfmask_t`. -/
abbrev Halfmask := BitVec 32

/-! ## Bits -/

/-- `ones(T, k)`, where `T` has `w` bits. -/
def ones (w k : Nat) : BitVec w :=
  ((2#w) <<< (k - 1)) - 1#w

def rdbit (w : Bitmask) (k : Nat) : Bitmask :=
  (w >>> k) &&& 1

/-- The shifts are made in the type of `arg`. -/
def rotateRight (arg : Halfmask) (nRots nDims : Nat) : Bitmask :=
  ((arg >>> nRots) ||| (arg <<< (nDims - nRots))).setWidth 64 &&& ones 64 nDims

def rotateLeft (arg : Halfmask) (nRots nDims : Nat) : Bitmask :=
  ((arg <<< nRots) ||| (arg >>> (nDims - nRots))).setWidth 64 &&& ones 64 nDims

/-- `while(bits) bits >>= 1, ++rotation`; a 32-bit value is shifted out after 32 rounds. -/
def shiftOut : Nat → Halfmask → Nat → Nat
  | 0, _, rotation => rotation
  | fuel + 1, bits, rotation =>
      if bits = 0 then rotation else shiftOut fuel (bits >>> 1) (rotation + 1)

def adjustRotation (rotation nDims : Nat) (bits nd1Ones : Halfmask) : Nat :=
  let rotation := shiftOut 32 (bits &&& (-bits &&& nd1Ones)) rotation + 1
  if rotation ≥ nDims then rotation - nDims else rotation

/-! ## Transposition -/

/-- What a turn of the loop over the fields changes. -/
structure FieldState where
  inCoords : Bitmask
  coords : Bitmask
  utCoords : Bitmask

/-- The turn for field `d`: the lower and the upper half of its bits are moved to fields of their own, and the
highest one of an odd number of bits is moved to where it belongs. -/
def splitField (shiftAmt inB utB : Nat) (inFieldEnds inMask utMask : Bitmask) (s : FieldState)
    (d : Nat) : FieldState :=
  let field := s.inCoords &&& inMask
  if inB % 2 = 1 then
    -- an odd field keeps its highest bit out of the halves
    let inFieldStarts := inFieldEnds <<< (inB - 1)
    let rest := field &&& ~~~inFieldStarts
    { inCoords := s.inCoords >>> inB
      coords := s.coords ||| (field &&& inFieldStarts) <<< (2 * shiftAmt + d)
      utCoords := s.utCoords ||| ((rest ||| rest <<< shiftAmt) &&& utMask) <<< (d * utB) }
  else
    { inCoords := s.inCoords >>> inB
      coords := s.coords
      utCoords := s.utCoords ||| ((field ||| field <<< shiftAmt) &&& utMask) <<< (d * utB) }

/-- What a round of the loop over the widths changes. -/
structure TransposeState where
  inB : Nat
  inFieldEnds : Bitmask
  inMask : Bitmask
  inCoords : Bitmask
  coords : Bitmask

/-- The round that halves the width `inB` of the fields. -/
def halveFields (nDims : Nat) (s : TransposeState) : TransposeState :=
  let utB := s.inB / 2
  let shiftAmt := (nDims - 1) * utB
  let utFieldEnds := s.inFieldEnds ||| s.inFieldEnds <<< (shiftAmt + utB)
  let utMask := utFieldEnds <<< utB - utFieldEnds
  let r := (List.range nDims).foldl (splitField shiftAmt s.inB utB s.inFieldEnds s.inMask utMask)
    { inCoords := s.inCoords, coords := s.coords, utCoords := 0 }
  { inB := utB, inFieldEnds := utFieldEnds, inMask := utMask, inCoords := r.utCoords, coords := r.coords }

/-- The loop ends when the fields have one bit; a width is halved fewer times than it is large. -/
def transposeLoop (nDims : Nat) : Nat → TransposeState → TransposeState
  | 0, s => s
  | fuel + 1, s => if s.inB / 2 = 0 then s else transposeLoop nDims fuel (halveFields nDims s)

def transposeStart (nBits : Nat) (inCoords : Bitmask) : TransposeState where
  inB := nBits
  inFieldEnds := 1
  inMask := ones 64 nBits
  inCoords := inCoords
  coords := 0

/-- `bitTranspose`, as it is with `DLOGB_BIT_TRANSPOSE`. -/
def bitTranspose (nDims nBits : Nat) (inCoords : Bitmask) : Bitmask :=
  let s := transposeLoop nDims nBits (transposeStart nBits inCoords)
  s.coords ||| s.inCoords

/-- The bits of one field, `nDims` places apart: the loop over `b`. -/
def spreadField (nDims : Nat) (field : Bitmask) : Nat → Bitmask → Bitmask
  | 0, out => out
  | b + 1, out => spreadField nDims field b (out <<< nDims ||| rdbit field b)

/-- `bitTranspose` without `DLOGB_BIT_TRANSPOSE`. -/
def bitTransposePlain (nDims nBits : Nat) (inCoords : Bitmask) : Bitmask :=
  ((List.range nDims).foldl (fun (s : Bitmask × Bitmask) d =>
    (s.1 >>> nBits, s.2 ||| spreadField nDims (s.1 &&& ones 64 nBits) nBits 0 <<< d))
    (inCoords, 0)).2

/-! ## From the index to the coordinates and back -/

/-- The loop of `hilbert_i2c` over the levels; `b` is `nDims` times the level. -/
def i2cLoop (nDims : Nat) (index : Bitmask) : Nat → Nat → Halfmask → Bitmask → Bitmask
  | 0, _, _, coords => coords
  | k + 1, rotation, flipBit, coords =>
      let bits : Halfmask := (index >>> (nDims * k) &&& (ones 32 nDims).setWidth 64).setWidth 32
      i2cLoop nDims index k (adjustRotation rotation nDims bits (ones 32 nDims >>> 1)) ((1 : Halfmask) <<< rotation)
        (coords <<< nDims ||| (rotateLeft bits rotation nDims ^^^ flipBit.setWidth 64))

/-- `nthbits`: one bit for each level. -/
def nthbits (nDims nBits : Nat) : Bitmask :=
  ones 64 (nDims * nBits) / (ones 32 nDims).setWidth 64

/-- The coordinates are cut off the word one after the other. -/
def unpackCoords (nBits : Nat) : Nat → Bitmask → List UInt64
  | 0, _ => []
  | d + 1, coords =>
      UInt64.ofBitVec (coords &&& (ones 32 nBits).setWidth 64) :: unpackCoords nBits d (coords >>> nBits)

def hilbertI2c (nDims nBits : Nat) (index : UInt64) : List UInt64 :=
  if nDims > 1 then
    if nBits > 1 then
      let index := index.toBitVec ^^^ (index.toBitVec ^^^ nthbits nDims nBits) >>> 1
      let coords := i2cLoop nDims index nBits 0 0 0
      let coords := Gray.unshift (nDims * nBits) (nDims * nBits) nDims coords
      unpackCoords nBits nDims (bitTranspose nBits nDims coords)
    else unpackCoords nBits nDims (index.toBitVec ^^^ index.toBitVec >>> 1)
  else [index]

/-- The coordinates next to each other in one word, the first one lowest. -/
def packCoords (nDims nBits : Nat) (coord : List UInt64) : Bitmask :=
  (List.range nDims).foldr (fun d (coords : Bitmask) => coords <<< nBits ||| (coord.getD d 0).toBitVec) 0

/-- The loop of `hilbert_c2i` over the levels. -/
def c2iLoop (nDims : Nat) (coords : Bitmask) : Nat → Nat → Halfmask → Bitmask → Bitmask
  | 0, _, _, index => index
  | k + 1, rotation, flipBit, index =>
      let bits : Halfmask := (coords >>> (nDims * k) &&& (ones 32 nDims).setWidth 64).setWidth 32
      let bits : Halfmask := (rotateRight (flipBit ^^^ bits) rotation nDims).setWidth 32
      c2iLoop nDims coords k (adjustRotation rotation nDims bits (ones 32 nDims >>> 1)) ((1 : Halfmask) <<< rotation)
        (index <<< nDims ||| bits.setWidth 64)

def hilbertC2i (nDims nBits : Nat) (coord : List UInt64) : UInt64 :=
  if nDims > 1 then
    let coords := packCoords nDims nBits coord
    let index :=
      if nBits > 1 then
        let coords := bitTranspose nDims nBits coords
        c2iLoop nDims (coords ^^^ coords >>> nDims) nBits 0 0 0 ^^^ nthbits nDims nBits >>> 1
      else coords
    UInt64.ofBitVec (Gray.unshift (nDims * nBits) (nDims * nBits) 1 index)
  else coord.headD 0

end DataSpaces
