/-!
The SHA-1 digest of a list of bytes, and the name-based identifiers made from
it: version 5 of a namespace and a name, in five groups of hexadecimal digits.
-/

namespace Harbormaster.Digest

def rotate (x : UInt32) (n : UInt32) : UInt32 := (x <<< n) ||| (x >>> (32 - n))

/-- A number as bytes of base 256, the highest first. -/
def bigEndian (count n : Nat) : List UInt8 :=
  (List.range count).reverse.map fun i => UInt8.ofNat (n >>> (8 * i))

/-- The message followed by a one bit, zeros, and its length in bits, which
fills whole blocks of 64 bytes. -/
def padded (message : List UInt8) : List UInt8 :=
  let zeros := (55 + 64 - message.length % 64) % 64
  message ++ 0x80 :: List.replicate zeros 0 ++ bigEndian 8 (8 * message.length)

def word : List UInt8 → UInt32
  | bytes => bytes.foldl (fun w b => w * 256 + b.toUInt32) 0

/-- The first `count` pieces of `size` elements. -/
def chunks {α : Type} (size : Nat) : Nat → List α → List (List α)
  | 0, _ => []
  | count + 1, xs => xs.take size :: chunks size count (xs.drop size)

/-- The sixteen words of a block, extended to eighty. -/
def schedule (block : List UInt8) : Array UInt32 :=
  let first := ((chunks 4 16 block).map word).toArray
  (List.range 64).foldl (fun w i =>
    w.push (rotate (w.getD (i + 13) 0 ^^^ w.getD (i + 8) 0 ^^^ w.getD (i + 2) 0 ^^^ w.getD i 0) 1))
    first

structure State where
  a : UInt32
  b : UInt32
  c : UInt32
  d : UInt32
  e : UInt32

def start : State := ⟨0x67452301, 0xEFCDAB89, 0x98BADCFE, 0x10325476, 0xC3D2E1F0⟩

/-- The mixing function and the constant of a round. -/
def mixing (round : Nat) (s : State) : UInt32 × UInt32 :=
  if round < 20 then ((s.b &&& s.c) ||| ((s.b ^^^ 0xFFFFFFFF) &&& s.d), 0x5A827999)
  else if round < 40 then (s.b ^^^ s.c ^^^ s.d, 0x6ED9EBA1)
  else if round < 60 then
    ((s.b &&& s.c) ||| (s.b &&& s.d) ||| (s.c &&& s.d), 0x8F1BBCDC)
  else (s.b ^^^ s.c ^^^ s.d, 0xCA62C1D6)

def step (words : Array UInt32) (s : State) (round : Nat) : State :=
  let (f, k) := mixing round s
  ⟨rotate s.a 5 + f + s.e + k + words.getD round 0, s.a, rotate s.b 30, s.c, s.d⟩

def absorb (s : State) (block : List UInt8) : State :=
  let t := (List.range 80).foldl (step (schedule block)) s
  ⟨s.a + t.a, s.b + t.b, s.c + t.c, s.d + t.d, s.e + t.e⟩

def wordBytes (w : UInt32) : List UInt8 := bigEndian 4 w.toNat

/-- The twenty bytes of the digest. -/
def sha1 (message : List UInt8) : List UInt8 :=
  let all := padded message
  let s := (chunks 64 (all.length / 64) all).foldl absorb start
  [s.a, s.b, s.c, s.d, s.e].flatMap wordBytes

def hex (b : UInt8) : List Char := [Nat.digitChar (b.toNat / 16), Nat.digitChar (b.toNat % 16)]

/-- Marks the version and the variant in the bytes of an identifier. -/
def marked (bytes : List UInt8) : List UInt8 :=
  bytes.mapIdx fun i b =>
    if i = 6 then (b &&& 0x0F) ||| 0x50 else if i = 8 then (b &&& 0x3F) ||| 0x80 else b

/-- The identifier of a name in a namespace. -/
def identifier (scope : List UInt8) (name : String) : String :=
  let digits := (marked ((sha1 (scope ++ name.toUTF8.toList)).take 16)).flatMap hex
  let group (first count : Nat) : String := .ofList ((digits.drop first).take count)
  "-".intercalate [group 0 8, group 8 4, group 12 4, group 16 4, group 20 12]

end Harbormaster.Digest
