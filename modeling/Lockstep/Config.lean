/-! The settings of a session. -/
namespace Lockstep

/-- How a session collects and keeps opinions. -/
structure Config where
  /-- The most opinions that may wait for their counterparts. -/
  maxBacklog : Nat := 30
  /-- The most cleared opinions that are kept for reuse. -/
  maxPooled : Nat := 64
  /-- Calls are traced. -/
  logTraces : Bool := false
  /-- A replay collects nothing. -/
  replay : Bool := false
deriving DecidableEq

end Lockstep
