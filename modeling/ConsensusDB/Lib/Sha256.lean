/-
This file is SHA-256 as FIPS 180-4 defines it, over byte lists: the padded
message is cut into 64-byte blocks, each block is expanded into a schedule of
64 words, and the words are mixed into an eight-word state. Everything is
structurally recursive, so a digest evaluates in the kernel. Nothing is proved
about the mixing: what a development may assume of a hash function -- that the
inputs it really hashes do not collide -- is stated where it is used.
-/

import ConsensusDB.Lib.Wire

namespace Sha256

open Wire

/-! ### The word functions of section 4.1.2 -/

def rotateRight (word count : UInt32) : UInt32 := (word >>> count) ||| (word <<< (32 - count))

def choose (first second third : UInt32) : UInt32 := (first &&& second) ^^^ (~~~first &&& third)

def majority (first second third : UInt32) : UInt32 :=
  (first &&& second) ^^^ (first &&& third) ^^^ (second &&& third)

def bigSigma0 (word : UInt32) : UInt32 :=
  rotateRight word 2 ^^^ rotateRight word 13 ^^^ rotateRight word 22

def bigSigma1 (word : UInt32) : UInt32 :=
  rotateRight word 6 ^^^ rotateRight word 11 ^^^ rotateRight word 25

def smallSigma0 (word : UInt32) : UInt32 :=
  rotateRight word 7 ^^^ rotateRight word 18 ^^^ (word >>> 3)

def smallSigma1 (word : UInt32) : UInt32 :=
  rotateRight word 17 ^^^ rotateRight word 19 ^^^ (word >>> 10)

/-- The round constants of section 4.2.2. -/
def roundConstants : List UInt32 :=
  [0x428a2f98, 0x71374491, 0xb5c0fbcf, 0xe9b5dba5, 0x3956c25b, 0x59f111f1, 0x923f82a4, 0xab1c5ed5,
   0xd807aa98, 0x12835b01, 0x243185be, 0x550c7dc3, 0x72be5d74, 0x80deb1fe, 0x9bdc06a7, 0xc19bf174,
   0xe49b69c1, 0xefbe4786, 0x0fc19dc6, 0x240ca1cc, 0x2de92c6f, 0x4a7484aa, 0x5cb0a9dc, 0x76f988da,
   0x983e5152, 0xa831c66d, 0xb00327c8, 0xbf597fc7, 0xc6e00bf3, 0xd5a79147, 0x06ca6351, 0x14292967,
   0x27b70a85, 0x2e1b2138, 0x4d2c6dfc, 0x53380d13, 0x650a7354, 0x766a0abb, 0x81c2c92e, 0x92722c85,
   0xa2bfe8a1, 0xa81a664b, 0xc24b8b70, 0xc76c51a3, 0xd192e819, 0xd6990624, 0xf40e3585, 0x106aa070,
   0x19a4c116, 0x1e376c08, 0x2748774c, 0x34b0bcb5, 0x391c0cb3, 0x4ed8aa4a, 0x5b9cca4f, 0x682e6ff3,
   0x748f82ee, 0x78a5636f, 0x84c87814, 0x8cc70208, 0x90befffa, 0xa4506ceb, 0xbef9a3f7, 0xc67178f2]

/-! ### Blocks, rounds and the digest -/

/-- The eight working words. -/
structure State where
  (a b c d e f g h : UInt32)

/-- The initial hash value of section 5.3.3. -/
def initial : State :=
  ⟨0x6a09e667, 0xbb67ae85, 0x3c6ef372, 0xa54ff53a, 0x510e527f, 0x9b05688c, 0x1f83d9ab, 0x5be0cd19⟩

/-- The big-endian words of a block. -/
def words : Bytes → List UInt32
  | first :: second :: third :: fourth :: rest =>
    UInt32.ofNat (ofBigEndian [first, second, third, fourth]) :: words rest
  | _ => []

/-- Extends a schedule, kept newest word first, by `count` words. -/
def extend : Nat → List UInt32 → List UInt32
  | 0, schedule => schedule
  | count + 1, schedule =>
    extend count ((smallSigma1 (schedule.getD 1 0) + schedule.getD 6 0 +
      smallSigma0 (schedule.getD 14 0) + schedule.getD 15 0) :: schedule)

/-- One round on a round constant and a schedule word. -/
def round (state : State) (input : UInt32 × UInt32) : State :=
  let first := state.h + bigSigma1 state.e + choose state.e state.f state.g + input.1 + input.2
  let second := bigSigma0 state.a + majority state.a state.b state.c
  ⟨first + second, state.a, state.b, state.c, state.d + first, state.e, state.f, state.g⟩

/-- Mixes one 64-byte block into the state. -/
def compress (state : State) (block : Bytes) : State :=
  let schedule := (extend 48 (words block).reverse).reverse
  let mixed := (roundConstants.zip schedule).foldl round state
  ⟨state.a + mixed.a, state.b + mixed.b, state.c + mixed.c, state.d + mixed.d,
    state.e + mixed.e, state.f + mixed.f, state.g + mixed.g, state.h + mixed.h⟩

/-- The message with its delimiter bit, zeros up to a block boundary and its bit length. -/
def pad (message : Bytes) : Bytes :=
  message ++ 0x80 :: List.replicate ((119 - message.length % 64) % 64) 0 ++
    bigEndian 8 (8 * message.length)

/-- Mixes `count` blocks into the state, one after another. -/
def compressAll : Nat → Bytes → State → State
  | 0, _, state => state
  | count + 1, message, state =>
    compressAll count (message.drop 64) (compress state (message.take 64))

/-- The digest of a final state. -/
def State.digest (state : State) : Bytes :=
  bigEndian 4 state.a.toNat ++ bigEndian 4 state.b.toNat ++ bigEndian 4 state.c.toNat ++
    bigEndian 4 state.d.toNat ++ bigEndian 4 state.e.toNat ++ bigEndian 4 state.f.toNat ++
    bigEndian 4 state.g.toNat ++ bigEndian 4 state.h.toNat

/-- The 32-byte SHA-256 digest of a message. -/
def sum (message : Bytes) : Bytes :=
  (compressAll ((pad message).length / 64) (pad message) initial).digest

theorem sum_length (message : Bytes) : (sum message).length = 32 := by
  simp only [sum, State.digest, List.length_append, bigEndian_length]

/-- The one-block test vector of the standard. -/
example : sum (str "abc") =
    [0xba, 0x78, 0x16, 0xbf, 0x8f, 0x01, 0xcf, 0xea, 0x41, 0x41, 0x40, 0xde, 0x5d, 0xae, 0x22,
      0x23, 0xb0, 0x03, 0x61, 0xa3, 0x96, 0x17, 0x7a, 0x9c, 0xb4, 0x10, 0xff, 0x61, 0xf2, 0x00,
      0x15, 0xad] := by
  decide +kernel

end Sha256
