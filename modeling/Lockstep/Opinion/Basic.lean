import Lockstep.Origin
import Lockstep.SampleMap.Lemmas
import Lockstep.Tick
import Lockstep.Trace.Entry

/-! Opinions: what one side of a session saw while it executed a range of ticks. -/
namespace Lockstep

/-- The random samples and the traces of one range of ticks. The hashes are
those of the entries where the entries are known, and stand alone otherwise. -/
structure Opinion where
  origin : Origin
  start : Tick
  stop : Option Tick := none
  simulating : Bool := false
  command : List Sample := []
  world : List Sample := []
  maps : SampleMap := ∅
  entries : List TraceEntry := []
  hashes : List TraceHash := []
deriving DecidableEq

namespace Opinion
variable (o : Opinion)

def range : TickRange := ⟨o.start, o.stop⟩

/-- Fixes the end of the range. -/
def finish (stop : Tick) : Opinion := { o with stop := some stop }

/-- Notes that the simulation was catching up. -/
def markSimulating : Opinion := { o with simulating := true }

/-- Records one sample. -/
def record : Category → Sample → Opinion
  | .command, x => { o with command := o.command ++ [x] }
  | .world, x => { o with world := o.world ++ [x] }
  | .map id, x => { o with maps := o.maps.push id x }

/-- Records the part of a generator state that opinions keep. -/
def recordState (c : Category) (s : GeneratorState) : Opinion :=
  o.record c (Sample.ofState s)

/-- Records several samples of one category, in order. -/
def recordAll (c : Category) (xs : List Sample) : Opinion :=
  xs.foldl (·.record c ·) o

/-- Adds a hash whose entry is not known here. -/
def logHash (h : TraceHash) : Opinion := { o with hashes := o.hashes ++ [h] }

/-- Adds an entry and its hash. -/
def logEntry (e : TraceEntry) : Opinion :=
  { o with entries := o.entries ++ [e], hashes := o.hashes ++ [e.hash] }

/-- The samples of a category, in the order of their recording. -/
def samples : Category → List Sample
  | .command => o.command
  | .world => o.world
  | .map id => o.maps.samples id

/-- The maps with at least one sample, by ascending id. -/
def mapIds : List MapId := o.maps.ids

def isEmpty : Bool :=
  o.command.isEmpty && o.world.isEmpty && o.maps.isEmpty && o.entries.isEmpty && o.hashes.isEmpty

/-- Forgets all that was recorded. The maps stay known, with no samples. -/
def clear : Opinion :=
  { origin := o.origin, start := o.start, maps := o.maps.clear }

/-- Sets a cleared opinion to work on another range. -/
def reuse (start : Tick) (origin : Origin) : Opinion :=
  { o.clear with start, origin }

theorem samples_record (c d : Category) (x : Sample) :
    (o.record c x).samples d = if c = d then o.samples d ++ [x] else o.samples d := by
  cases c <;> cases d <;> simp [record, samples, SampleMap.samples_push]

@[simp] theorem origin_record (c : Category) (x : Sample) : (o.record c x).origin = o.origin := by
  cases c <;> rfl

@[simp] theorem range_record (c : Category) (x : Sample) : (o.record c x).range = o.range := by
  cases c <;> rfl

@[simp] theorem samples_clear (c : Category) : o.clear.samples c = [] := by
  cases c with
  | command | world => rfl
  | map => exact SampleMap.samples_clear _ _

@[simp] theorem samples_reuse (start : Tick) (origin : Origin) (c : Category) :
    (o.reuse start origin).samples c = [] := by
  cases c with
  | command | world => rfl
  | map => exact SampleMap.samples_clear _ _

theorem isEmpty_clear : o.clear.isEmpty = true := by
  simp [isEmpty, clear, SampleMap.isEmpty, SampleMap.clear]

end Opinion

end Lockstep
