import Lockstep.Peer.Generator

/-! A generator for concrete runs. -/
namespace Lockstep.Generator

/-- The 128-bit product of two words, its halves xored into one. -/
def foldedProduct (a b : UInt64) : UInt64 :=
  let p := a.toNat * b.toNat
  p.toUInt64 ^^^ (p >>> 64).toUInt64

/-- The wyrand generator. Its state walks through all words in steps of a constant. -/
def wyrand : Generator where
  State := UInt64
  ofSeed := id
  next s :=
    let s := s + 0xA0761D6478BD642F
    (foldedProduct s (s ^^^ 0xE7037ED1A0B428DB), s)

end Lockstep.Generator
