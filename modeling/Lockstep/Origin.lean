/-! The two sides of a session. -/
namespace Lockstep

/-- The side of the session that produced an opinion. -/
inductive Origin
  | «local»
  | remote
deriving DecidableEq

namespace Origin

/-- The other side. -/
def invert : Origin → Origin
  | .local => .remote
  | .remote => .local

def isLocal : Origin → Bool
  | .local => true
  | .remote => false

@[simp] theorem invert_invert (o : Origin) : o.invert.invert = o := by
  cases o <;> rfl

@[simp] theorem isLocal_invert (o : Origin) : o.invert.isLocal = !o.isLocal := by
  cases o <;> rfl

theorem local_remote_of_ne {x y : Origin} (h : x ≠ y) :
    (x = .local ∧ y = .remote) ∨ (x = .remote ∧ y = .local) := by
  cases x <;> cases y <;> simp_all

theorem eq_of_ne_of_ne {x y z : Origin} (hx : x ≠ z) (hy : y ≠ z) : x = y := by
  cases x <;> cases y <;> cases z <;> simp_all

instance : ToString Origin where
  toString
    | .local => "Local"
    | .remote => "Remote"

end Origin

end Lockstep
