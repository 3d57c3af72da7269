import Mathlib.Tactic.Common

/-!
# SipHash-1-3

The keyed hash over byte streams: little-endian words of eight bytes are absorbed with one
round each; the tail word carries the stream length modulo 256, and three rounds finish.
-/
namespace HCache.SipHash

structure State where
  v0 : UInt64
  v1 : UInt64
  v2 : UInt64
  v3 : UInt64
  deriving DecidableEq, Repr

def rotl (x b : UInt64) : UInt64 := (x <<< b) ||| (x >>> (64 - b))

def sipRound (s : State) : State :=
  let v0 := s.v0 + s.v1
  let v1 := rotl s.v1 13 ^^^ v0
  let v0 := rotl v0 32
  let v2 := s.v2 + s.v3
  let v3 := rotl s.v3 16 ^^^ v2
  let v0 := v0 + v3
  let v3 := rotl v3 21 ^^^ v0
  let v2 := v2 + v1
  let v1 := rotl v1 17 ^^^ v2
  let v2 := rotl v2 32
  ⟨v0, v1, v2, v3⟩

def initial (k0 k1 : UInt64) : State :=
  ⟨k0 ^^^ 0x736f6d6570736575, k1 ^^^ 0x646f72616e646f6d,
    k0 ^^^ 0x6c7967656e657261, k1 ^^^ 0x7465646279746573⟩

def word : List UInt8 → UInt64
  | [] => 0
  | b :: bs => b.toUInt64 ||| (word bs <<< 8)

def compress (s : State) (m : UInt64) : State :=
  let s := sipRound { s with v3 := s.v3 ^^^ m }
  { s with v0 := s.v0 ^^^ m }

/-- Absorb all full words; the bytes left over are returned. -/
def absorb (s : State) : List UInt8 → State × List UInt8
  | a :: b :: c :: d :: e :: f :: g :: h :: rest =>
    absorb (compress s (word [a, b, c, d, e, f, g, h])) rest
  | tail => (s, tail)

def finish (s : State) : UInt64 :=
  let s := sipRound (sipRound (sipRound { s with v2 := s.v2 ^^^ 0xff }))
  s.v0 ^^^ s.v1 ^^^ s.v2 ^^^ s.v3

def sipHash13 (k0 k1 : UInt64) (stream : List UInt8) : UInt64 :=
  let (s, tail) := absorb (initial k0 k1) stream
  finish (compress s (word tail ||| (UInt64.ofNat (stream.length % 256) <<< 56)))

end HCache.SipHash
