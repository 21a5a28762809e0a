/-! Hashes of trace entries, the same on every peer. -/
namespace Lockstep

/-- A 32-bit fingerprint of one entry of a trace log. -/
abbrev TraceHash := Int32

namespace TraceHash

def mixByte (h : UInt32) (b : UInt8) : UInt32 := (h ^^^ b.toUInt32) * 0x01000193

/-- The 32-bit FNV-1a hash of a byte sequence. -/
def ofBytes (bs : List UInt8) : TraceHash := (bs.foldl mixByte 0x811c9dc5).toInt32

def ofString (s : String) : TraceHash := ofBytes s.toUTF8.data.toList

/-- Folds a value into a seed. The shift to the right keeps the sign. -/
def combine (seed value : TraceHash) : TraceHash :=
  seed ^^^ (value + (0x9e3779b9 : UInt32).toInt32 + (seed <<< 6) + (seed >>> 2))

def combineAll (seed : TraceHash) (values : List TraceHash) : TraceHash :=
  values.foldl combine seed

@[simp] theorem combineAll_nil (seed : TraceHash) : combineAll seed [] = seed := rfl

theorem combineAll_append (seed : TraceHash) (xs ys : List TraceHash) :
    combineAll seed (xs ++ ys) = combineAll (combineAll seed xs) ys :=
  List.foldl_append

end TraceHash

end Lockstep
