/-!
# The 64-bit digest XXH64

The digest reads a byte string in stripes of four little-endian lanes of eight
bytes.  Each lane of a stripe feeds its own accumulator; what is left behind the
last full stripe is mixed in lane by lane, then four bytes at once, then byte by
byte, and a final avalanche spreads the bits.  All arithmetic is modulo `2 ^ 64`
and the seed is zero.
-/

namespace Isel.Digest.XXH64

def prime1 : UInt64 := 0x9E3779B185EBCA87
def prime2 : UInt64 := 0xC2B2AE3D27D4EB4F
def prime3 : UInt64 := 0x165667B19E3779F9
def prime4 : UInt64 := 0x85EBCA77C2B2AE63
def prime5 : UInt64 := 0x27D4EB2F165667C5

/-- The bits of `x` rotated to the left by `k`, for `0 < k < 64`. -/
def rotateLeft (x k : UInt64) : UInt64 := (x <<< k) ||| (x >>> (64 - k))

/-- The number whose little-endian digits are the bytes. -/
def littleEndian (bytes : List UInt8) : UInt64 :=
  bytes.foldr (fun b acc => acc * 256 + b.toUInt64) 0

/-- The full lanes of a byte string and the bytes behind them. -/
def lanes : List UInt8 → List UInt64 × List UInt8
  | b0 :: b1 :: b2 :: b3 :: b4 :: b5 :: b6 :: b7 :: rest =>
    let (ls, tail) := lanes rest
    (littleEndian [b0, b1, b2, b3, b4, b5, b6, b7] :: ls, tail)
  | tail => ([], tail)

/-- One lane goes into an accumulator. -/
def round (acc lane : UInt64) : UInt64 := rotateLeft (acc + lane * prime2) 31 * prime1

structure Accumulators where
  v1 : UInt64 := prime1 + prime2
  v2 : UInt64 := prime2
  v3 : UInt64 := 0
  v4 : UInt64 := 0 - prime1

/-- Takes all full stripes in, and gives the lanes behind them. -/
def stripes (acc : Accumulators) : List UInt64 → Accumulators × List UInt64
  | l1 :: l2 :: l3 :: l4 :: rest =>
    stripes ⟨round acc.v1 l1, round acc.v2 l2, round acc.v3 l3, round acc.v4 l4⟩ rest
  | tail => (acc, tail)

/-- One accumulator goes into the digest. -/
def mergeRound (h acc : UInt64) : UInt64 := (h ^^^ round 0 acc) * prime1 + prime4

def Accumulators.merge (acc : Accumulators) : UInt64 :=
  let h := rotateLeft acc.v1 1 + rotateLeft acc.v2 7 + rotateLeft acc.v3 12 + rotateLeft acc.v4 18
  mergeRound (mergeRound (mergeRound (mergeRound h acc.v1) acc.v2) acc.v3) acc.v4

/-- A lane behind the last stripe goes into the digest. -/
def mixLane (h lane : UInt64) : UInt64 := rotateLeft (h ^^^ round 0 lane) 27 * prime1 + prime4

def mixByte (h : UInt64) (b : UInt8) : UInt64 := rotateLeft (h ^^^ b.toUInt64 * prime5) 11 * prime1

/-- The fewer than eight bytes behind the last lane go into the digest. -/
def mixTail (h : UInt64) : List UInt8 → UInt64
  | b0 :: b1 :: b2 :: b3 :: rest =>
    rest.foldl mixByte
      (rotateLeft (h ^^^ littleEndian [b0, b1, b2, b3] * prime1) 23 * prime2 + prime3)
  | rest => rest.foldl mixByte h

def avalanche (h : UInt64) : UInt64 :=
  let h := (h ^^^ (h >>> 33)) * prime2
  let h := (h ^^^ (h >>> 29)) * prime3
  h ^^^ (h >>> 32)

def digest (bytes : List UInt8) : UInt64 :=
  let (ls, tail) := lanes bytes
  let (acc, rest) := stripes {} ls
  let h := if 32 ≤ bytes.length then acc.merge else prime5
  avalanche (mixTail (rest.foldl mixLane (h + UInt64.ofNat bytes.length)) tail)

end Isel.Digest.XXH64
