/-! Samples of generator states, and the categories they are recorded under. -/
namespace Lockstep

/-- The part of a generator state that opinions keep. -/
abbrev Sample := UInt32

/-- A full generator state. -/
abbrev GeneratorState := UInt64

/-- The upper half of a generator state. -/
def Sample.ofState (s : GeneratorState) : Sample := (s >>> 32).toUInt32

/-- The name of a map of the simulated world. -/
abbrev MapId := Int32

/-- The stream of random draws that a sample belongs to. -/
inductive Category
  | command
  | world
  | map (id : MapId)
deriving DecidableEq

namespace Category
variable {a b c : Category}

/-- Commands come first, then the world, then the maps by ascending id. -/
def Before : Category → Category → Prop
  | .command, .command => False
  | .command, _ => True
  | .world, .map _ => True
  | .map a, .map b => a < b
  | _, _ => False

instance : LT Category := ⟨Before⟩

theorem lt_irrefl (a : Category) : ¬ a < a := by
  cases a with
  | command | world => exact id
  | map => exact Int32.lt_irrefl

theorem lt_trans (h : a < b) (k : b < c) : a < c := by
  cases a <;> cases b <;> cases c <;> simp_all [LT.lt, Before]
  exact Int32.lt_trans h k

instance (a b : Category) : Decidable (a < b) :=
  match a, b with
  | .command, .command | .world, .command | .world, .world => isFalse id
  | .map _, .command | .map _, .world => isFalse id
  | .command, .world | .command, .map _ | .world, .map _ => isTrue trivial
  | .map a, .map b => inferInstanceAs (Decidable (a < b))

/-- The categories of a list in order, repetitions kept. -/
def sorted (cs : List Category) : List Category := cs.mergeSort fun a b => ¬ b < a

instance : ToString Category where
  toString
    | .command => "command"
    | .world => "world"
    | .map id => s!"map {id}"

end Category

end Lockstep
