import Lockstep.Opinion.Compare

/-! What is known of a desync, in full and in brief. -/
namespace Lockstep

/-- The brief form of a report, for the other side of the session. -/
structure Notice where
  startTick : Tick
  diffAt : Option Nat
deriving DecidableEq

/-- Two opinions that disagree, and what was confirmed before them. -/
structure Report where
  cause : Disagreement
  localOpinion : Opinion
  remoteOpinion : Opinion
  diffAt : Option Nat
  lastValid : Option Tick
  arbiterAtLastValid : Bool
deriving DecidableEq

namespace Report
variable (r : Report)

def notice : Notice := ⟨r.localOpinion.start, r.diffAt⟩

/-- The local trace entries next to the place where the traces part, at most
`radius` on either side of it. -/
def entriesAround (radius : Nat) : List TraceEntry :=
  match r.diffAt with
  | none => []
  | some i => (r.localOpinion.entries.take (i + radius + 1)).drop (i - radius)

/-- Those entries as lines of text. -/
def linesAround (radius : Nat) : List String :=
  (r.entriesAround radius).map TraceEntry.describe

def message : String :=
  s!"Desynced on range starting at tick {r.localOpinion.start}" ++
    (match r.lastValid with
      | none => " (no tick was ever confirmed)"
      | some t => s!" (last valid tick {t})") ++
    s!": {r.cause.message}" ++
    (match r.diffAt with
      | none => ", no trace divergence point identifiable"
      | some i => s!", traces diverge at {i}")

end Report

/-- The reports and notices of one update. Each kind is read at most once. -/
structure Events where
  reports : List Report := []
  notices : List Notice := []
deriving DecidableEq

namespace Events
variable (e : Events)

/-- Every report comes with its notice, in the same order. -/
def ofReports (rs : List Report) : Events := ⟨rs, rs.map Report.notice⟩

def isEmpty : Bool := e.reports.isEmpty && e.notices.isEmpty

def hasReports : Bool := !e.reports.isEmpty

def hasNotices : Bool := !e.notices.isEmpty

/-- The reports, and the events without them. -/
def readReports : List Report × Events := (e.reports, { e with reports := [] })

/-- The notices, and the events without them. -/
def readNotices : List Notice × Events := (e.notices, { e with notices := [] })

end Events

end Lockstep
