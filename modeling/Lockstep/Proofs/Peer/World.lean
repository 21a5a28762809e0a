import Lockstep.Proofs.Coordinator.Contents
import Lockstep.Proofs.Peer.Range
import Lockstep.Proofs.Trace.Hash

/-! What peers simulate, apart from the session that they record it in. -/
namespace Lockstep

/-- What a tick of simulation gives to record. -/
structure Draws where
  command : GeneratorState
  world : GeneratorState
  maps : List (MapId × GeneratorState)

namespace Draws
variable (d : Draws)

/-- The samples of a category. A map that is listed twice has two. -/
def samples : Category → List Sample
  | .command => [.ofState d.command]
  | .world => [.ofState d.world]
  | .map id => (d.maps.filter (·.1 = id)).map fun m => .ofState m.2

/-- The hash of the tick's trace. The tick itself plays no part in it. -/
def hash : TraceHash := InfoEntry.hash ⟨0, "world tick", Peer.worldInfo d.world⟩

/-- The same draws with bit 40 of the world draw flipped. -/
def spoil : Draws := { d with world := d.world ^^^ 0x10000000000 }

/-- The recording calls for the draws. -/
def calls (tick : Tick) : List Coordinator.Call :=
  Peer.tickCalls tick d.command d.world d.maps

theorem filterMap_sample? (tick : Tick) (category : Category) :
    (d.calls tick).filterMap (Coordinator.Call.sample? category) = d.samples category := by
  obtain ⟨command, world, maps⟩ := d
  induction maps with
  | nil => cases category <;> rfl
  | cons m maps ih =>
    obtain ⟨k, s⟩ := m
    cases category with
    | command | world => exact ih
    | map id =>
      by_cases hid : k = id <;>
        simpa [calls, Peer.tickCalls, Coordinator.Call.sample?, samples, hid] using ih

theorem filterMap_hash? (tick : Tick) :
    (d.calls tick).filterMap Coordinator.Call.hash? = [d.hash] := by
  obtain ⟨command, world, maps⟩ := d
  induction maps with
  | nil => rfl
  | cons m maps ih => exact ih

@[simp] theorem samples_command_spoil : d.spoil.samples .command = d.samples .command := rfl

/-- The sample shows the flipped bit. -/
theorem sample_spoil :
    Sample.ofState d.world ^^^ Sample.ofState d.spoil.world = 0x100 := by
  rw [spoil, Sample.ofState, Sample.ofState, UInt64.shiftRight_xor, UInt64.toUInt32_xor,
    ← UInt32.xor_assoc, UInt32.xor_self, UInt32.zero_xor]
  rfl

/-- The hash shows it too, whatever the draw is. -/
theorem hash_spoil : d.spoil.hash ≠ d.hash := by
  have hbit : ((d.world ^^^ 0x10000000000) >>> 32).toNat = (d.world >>> 32).toNat ^^^ 256 := by
    rw [UInt64.shiftRight_xor, UInt64.toNat_xor]
    rfl
  intro he
  have htext := TraceHash.combine_injective _ he
  rw [spoil, Peer.worldInfo, Peer.worldInfo, hbit] at htext
  exact Hex.hash_text_ne _ htext.symm

end Draws

/-- What decides the draws of a peer. -/
structure World (G : Generator) where
  generator : G.State
  maps : List MapId
  tick : Tick := 0
  corruptFrom : Option Tick := none

namespace World
variable {G : Generator} (w : World G)

/-- The draws of the current tick, before corruption, and the state that they
leave the generator in. -/
def draw : Draws × G.State :=
  let (command, s) := G.next w.generator
  let (world, s) := G.next s
  let (states, s) := G.draws s w.maps.length
  ({ command, world, maps := w.maps.zip states }, s)

def draws : Draws := w.draw.1

/-- The draws of the current tick, as they are recorded. -/
def seen : Draws :=
  match w.corruptFrom with
  | some start => if start ≤ w.tick then w.draws.spoil else w.draws
  | none => w.draws

def step : World G :=
  { w with
    generator := w.draw.2
    tick := w.tick + 1 }

def steps : Nat → World G → World G
  | 0, w => w
  | n + 1, w => steps n w.step

/-- The draws of several ticks, as they are recorded. -/
def story (w : World G) : Nat → List Draws
  | 0 => []
  | n + 1 => w.seen :: w.step.story n

/-- The same world, corrupted from a tick on. -/
def corrupt (start : Tick) : World G := { w with corruptFrom := some start }

variable {w : World G} {start : Tick} {m n : Nat}

theorem steps_add (w : World G) (m n : Nat) : w.steps (m + n) = (w.steps m).steps n := by
  induction m generalizing w with
  | zero => rw [Nat.zero_add, steps]
  | succ m ih => rw [Nat.succ_add, steps, steps, ih]

theorem story_add (w : World G) (m n : Nat) :
    w.story (m + n) = w.story m ++ (w.steps m).story n := by
  induction m generalizing w with
  | zero => rw [Nat.zero_add, story, steps, List.nil_append]
  | succ m ih => rw [Nat.succ_add, story, story, steps, ih, List.cons_append]

theorem length_story (w : World G) (n : Nat) : (w.story n).length = n := by
  induction n generalizing w with
  | zero => rfl
  | succ n ih => rw [story, List.length_cons, ih]

theorem tick_steps (w : World G) (n : Nat) : (w.steps n).tick = w.tick + UInt32.ofNat n := by
  induction n generalizing w with
  | zero => simp [steps]
  | succ n ih =>
    rw [steps, ih, step, UInt32.add_assoc, Nat.add_comm n 1, UInt32.ofNat_add]
    rfl

theorem corruptFrom_steps (w : World G) (n : Nat) : (w.steps n).corruptFrom = w.corruptFrom := by
  induction n generalizing w with
  | zero => rfl
  | succ n ih => rw [steps, ih, step]

theorem step_corrupt (w : World G) (start : Tick) :
    (w.corrupt start).step = w.step.corrupt start := rfl

theorem steps_corrupt (w : World G) (start : Tick) (n : Nat) :
    (w.corrupt start).steps n = (w.steps n).corrupt start := by
  induction n generalizing w with
  | zero => rfl
  | succ n ih => rw [steps, steps, step_corrupt, ih]

theorem seen_of_clean (hw : w.corruptFrom = none) : w.seen = w.draws := by
  rw [seen, hw]

theorem seen_corrupt (w : World G) (start : Tick) :
    (w.corrupt start).seen = if start ≤ w.tick then w.draws.spoil else w.draws := rfl

/-- Corruption leaves the draws for commands as they are. -/
theorem command_corrupt (hw : w.corruptFrom = none) (start : Tick) (n : Nat) :
    ((w.corrupt start).story n).flatMap (·.samples .command) =
      (w.story n).flatMap (·.samples .command) := by
  induction n generalizing w with
  | zero => rfl
  | succ n ih =>
    have hseen : (w.corrupt start).seen.samples .command = w.seen.samples .command := by
      rw [seen_corrupt, seen_of_clean hw]
      split
      · exact w.draws.samples_command_spoil
      · rfl
    rw [story, story, List.flatMap_cons, List.flatMap_cons, hseen, step_corrupt,
      ih (w := w.step) hw]

/-- Before its first tick, corruption changes nothing. -/
theorem story_corrupt (hw : w.corruptFrom = none) (hn : w.tick.toNat + n ≤ start.toNat) :
    (w.corrupt start).story n = w.story n := by
  induction n generalizing w with
  | zero => rfl
  | succ n ih =>
    have hlt : w.tick.toNat + 1 < 2 ^ 32 := by
      have hstart := start.toNat_lt
      omega
    have htick : w.step.tick.toNat = w.tick.toNat + 1 := by
      rw [step, UInt32.toNat_add]
      exact Nat.mod_eq_of_lt hlt
    have hbefore : ¬ start ≤ w.tick := by
      rw [UInt32.le_iff_toNat_le]
      omega
    rw [story, story, seen_corrupt, if_neg hbefore, seen_of_clean hw,
      step_corrupt, ih (w := w.step) hw (by omega)]

/-- At its first tick, corruption spoils the world draw. -/
theorem story_corrupt_at {i : Nat} (hw : w.corruptFrom = none)
    (hi : w.tick.toNat + i = start.toNat) (hn : i < n) :
    ∃ d rest rest', w.story n = w.story i ++ d :: rest ∧
      (w.corrupt start).story n = w.story i ++ d.spoil :: rest' := by
  obtain ⟨k, rfl⟩ : ∃ k, n = i + (k + 1) := ⟨n - i - 1, by omega⟩
  have hclean : (w.steps i).corruptFrom = none := (corruptFrom_steps w i).trans hw
  have htick : (w.steps i).tick = start := by
    rw [tick_steps, ← UInt32.toNat_inj, UInt32.toNat_add]
    have hstart := start.toNat_lt
    rw [UInt32.toNat_ofNat_of_lt' (by rw [UInt32.size]; omega), Nat.mod_eq_of_lt (by omega), hi]
  refine ⟨(w.steps i).draws, (w.steps i).step.story k, ((w.steps i).corrupt start).step.story k,
    ?_, ?_⟩
  · rw [story_add, story, seen_of_clean hclean]
  · rw [story_add, story_corrupt hw (Nat.le_of_eq hi), steps_corrupt, story, seen_corrupt, htick,
      if_pos (UInt32.le_refl start)]

end World

namespace Peer

variable {G : Generator} {p : Peer G} {n : Nat}

/-- The world that a peer simulates. -/
def world (p : Peer G) : World G := ⟨p.generator, p.maps, p.tick, p.corruptFrom⟩

/-- The session and the world do not meet, except that what is seen is recorded. -/
theorem step_eq (p : Peer G) :
    p.step.world = p.world.step ∧ p.step.session =
      { p.session with
        coordinator := p.session.coordinator.after (p.world.seen.calls p.tick) } := by
  have hseen : p.world.seen = { p.world.draws with world := p.worldState p.world.draws.world } := by
    rw [World.seen, worldState, show p.world.corruptFrom = p.corruptFrom from rfl]
    cases p.corruptFrom with
    | none => rfl
    | some start =>
      dsimp only
      rw [show p.world.tick = p.tick from rfl]
      split <;> rfl
  refine ⟨rfl, ?_⟩
  rw [hseen, Draws.calls, ← recordTick_eq]
  rfl

theorem world_steps (p : Peer G) (n : Nat) : (p.steps n).world = p.world.steps n := by
  induction n generalizing p with
  | zero => rfl
  | succ n ih => rw [steps, ih, p.step_eq.1, World.steps]

/-- Several ticks add their story to the opinion in the making. -/
theorem contents_steps (p : Peer G) (n : Nat) (hcol : p.session.coordinator.collecting = true)
    (category : Category) :
    (p.steps n).session.coordinator.drawn category =
        p.session.coordinator.drawn category ++
          (p.world.story n).flatMap (·.samples category) ∧
      (p.steps n).session.coordinator.traced =
        p.session.coordinator.traced ++ (p.world.story n).map Draws.hash := by
  induction n generalizing p with
  | zero => simp [steps, World.story]
  | succ n ih =>
    obtain ⟨hworld, hsession⟩ := p.step_eq
    have hrec : ∀ k ∈ p.world.seen.calls p.tick, k.Records p.tick := records_tickCalls _ _ _ _
    have hcol' : p.step.session.coordinator.collecting = true := by
      rw [hsession]
      exact (Coordinator.collecting_records hrec).trans hcol
    obtain ⟨hdrawn, htraced⟩ := Coordinator.contents_records hrec hcol category
    obtain ⟨hdrawn', htraced'⟩ := ih p.step hcol'
    rw [steps, hdrawn', htraced', hworld, hsession, hdrawn, htraced, Draws.filterMap_sample?,
      Draws.filterMap_hash?, World.story]
    simp

end Peer

end Lockstep
