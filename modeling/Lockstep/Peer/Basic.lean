import Lockstep.Opinion.Wire
import Lockstep.Peer.Generator
import Lockstep.Session.Basic
import Lockstep.Text.Hex

/-! A peer that runs a toy simulation under a session. -/
namespace Lockstep

/-- Peers of one seed and one list of maps simulate the same, until one of
them is corrupted. -/
structure Peer (G : Generator) where
  session : Session
  generator : G.State
  maps : List MapId
  /-- The tick to simulate next. -/
  tick : Tick := 0
  /-- The first tick that no closed range covers. -/
  rangeStart : Tick := 0
  /-- The first tick whose world draw is spoilt. -/
  corruptFrom : Option Tick := none

namespace Peer

/-- A peer that has not simulated yet. -/
def new (G : Generator) (seed : GeneratorState) (maps : List MapId) (config : Config) : Peer G where
  session := .new config .global
  generator := G.ofSeed seed
  maps

variable {G : Generator} (p : Peer G)

/-- The world draws differ from this tick on. -/
def corrupt (start : Tick) : Peer G := { p with corruptFrom := some start }

/-- The world state of the current tick: corruption flips bit 40 of the draw. -/
def worldState (draw : GeneratorState) : GeneratorState :=
  match p.corruptFrom with
  | some start => if start ≤ p.tick then draw ^^^ 0x10000000000 else draw
  | none => draw

/-- What the trace log tells of a tick. -/
def worldInfo (s : GeneratorState) : String := Hex.text (s >>> 32).toNat

def recordTick (c : Coordinator) (tick : Tick) (command world : GeneratorState)
    (maps : List (MapId × GeneratorState)) : Coordinator :=
  let c := c.addState tick .command command
  let c := c.addState tick .world world
  let c := maps.foldl (fun c (id, s) => c.addState tick (.map id) s) c
  c.addInfo tick "world tick" (worldInfo world)

/-- Simulates one tick: a draw for commands, one for the world, and one for
each map. -/
def step : Peer G :=
  let (command, g) := G.next p.generator
  let (world, g) := G.next g
  let (states, g) := G.draws g p.maps.length
  { p with
    session.coordinator := recordTick p.session.coordinator p.tick command (p.worldState world)
      (p.maps.zip states)
    generator := g
    tick := p.tick + 1 }

def steps : Nat → Peer G → Peer G
  | 0, p => p
  | n + 1, p => steps n p.step

/-- Simulates `n` ticks and closes the range. The wire copy is for the others. -/
def runRange (n : Nat) : Logged (Option Opinion × Peer G) := do
  let p := p.steps n
  let (o, session) ← p.session.finishLocal p.tick
  return (o.map Opinion.wire, { p with session, rangeStart := p.tick })

/-- Hands over an opinion that another peer sent. What the inbox refuses is
lost. -/
def deliver (o : Opinion) : Logged (Peer G) := do
  let (_, session) ← p.session.send o
  return { p with session }

def update : Logged (Events × Peer G) := do
  let (e, session) ← p.session.update
  return (e, { p with session })

end Peer

end Lockstep
