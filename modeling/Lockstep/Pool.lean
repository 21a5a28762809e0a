import Lockstep.Logged
import Lockstep.Opinion.Basic

/-! A bounded store of opinions kept for reuse. -/
namespace Lockstep

/-- Cleared opinions, the one released last in front. -/
structure Pool where
  capacity : Nat := 64
  free : List Opinion := []
deriving DecidableEq

namespace Pool
variable (p : Pool)

/-- An opinion ready for a new range: the one released last, or a fresh one. -/
def checkout (start : Tick) (origin : Origin) : Opinion × Pool :=
  match p.free with
  | [] => ({ origin, start }, p)
  | o :: rest => (o.reuse start origin, { p with free := rest })

/-- Takes an opinion back. A full pool drops it. -/
def release (o : Opinion) : Logged Pool :=
  if p.capacity ≤ p.free.length then do
    note (.poolFull o.start)
    return p
  else
    return { p with free := o.clear :: p.free }

/-- Takes back an opinion that waited for its counterpart in vain. -/
def evict (o : Opinion) : Logged Pool := do
  note (.evicting o.origin o.start)
  p.release o

/-- Takes back several opinions that waited in vain, in order. -/
def evictAll (os : List Opinion) : Logged Pool := os.foldlM evict p

end Pool

end Lockstep
