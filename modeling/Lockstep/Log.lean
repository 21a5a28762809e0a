import Lockstep.Divergence
import Lockstep.Origin

/-! The log: what is worth telling, how loudly, and in which words. -/
namespace Lockstep

/-- How loud an entry of the log is. -/
inductive LogLevel
  | warn
  | info
  | debug
  | trace
deriving DecidableEq

instance : ToString LogLevel where
  toString
    | .warn => "WARN"
    | .info => "INFO"
    | .debug => "DEBUG"
    | .trace => "TRACE"

/-- What the log tells. -/
inductive LogEntry
  /-- A waiting opinion can no longer be matched, or is one too many. -/
  | evicting (origin : Origin) (tick : Tick)
  /-- An opinion arrived for a range that the waiting ones have left behind. -/
  | discardingStale (origin : Origin) (tick : Tick)
  | poolFull (tick : Tick)
  | confirmed (tick : Tick)
  | rangesDisagree (m : RangeMismatch)
  | desynced (lastValid : Option Tick) (cause : Disagreement)
  | blockExhausted (start stop : Int32)
  /-- A remote opinion came after the session that would receive it. -/
  | sessionStopped (tick : Tick)
deriving DecidableEq

namespace LogEntry

def level : LogEntry → LogLevel
  | .evicting .. | .discardingStale .. | .poolFull .. => .trace
  | .confirmed .. => .debug
  | .desynced .. => .info
  | .rangesDisagree .. | .blockExhausted .. | .sessionStopped .. => .warn

def message : LogEntry → String
  | .evicting origin tick => s!"Evicting {origin} opinion for tick {tick}"
  | .discardingStale origin tick => s!"Discarding stale {origin} opinion for tick {tick}"
  | .poolFull tick => s!"OpinionPool full, dropping opinion for tick {tick}"
  | .confirmed tick => s!"Confirmed range starting at tick {tick}"
  | .rangesDisagree m => s!"Aligned opinions disagree on their range: {m.message}"
  | .desynced lastValid cause =>
    s!"Desynced after last valid tick {Tick.optionText lastValid}: {cause.message}"
  | .blockExhausted start stop =>
    s!"IdBlock [{start}, {stop}) exhausted, a new block must be requested"
  | .sessionStopped tick =>
    s!"Dropping remote opinion for tick {tick}, the session has stopped"

/-- The entry as a line of the log. -/
def line (e : LogEntry) : String := s!"{e.level} {e.message}"

end LogEntry

end Lockstep
