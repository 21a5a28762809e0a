import Lockstep.Sample

/-! Seeded generators of random words. -/
namespace Lockstep

/-- A source of random words. All that is known of it is that a seed decides the
state it starts in, and a state the word it draws and the state it goes on with. -/
structure Generator where
  State : Type
  ofSeed : GeneratorState → State
  next : State → GeneratorState × State

/-- Draws several words. -/
def Generator.draws (G : Generator) (s : G.State) : Nat → List GeneratorState × G.State
  | 0 => ([], s)
  | n + 1 =>
    let (w, s) := G.next s
    let (ws, s) := G.draws s n
    (w :: ws, s)

end Lockstep
