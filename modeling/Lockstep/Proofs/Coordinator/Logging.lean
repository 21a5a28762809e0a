import Lockstep.Proofs.Coordinator.Run
import Lockstep.Proofs.Logged

/-! What a submission writes to the log: an entry for each opinion that it evicts, and what its
answer has to tell. -/
namespace Lockstep

/-- The entry that tells of the eviction of an opinion. -/
def Opinion.evictionEntry (o : Opinion) : LogEntry := .evicting o.origin o.start

/-- The entry that tells that an opinion came too late. -/
def Opinion.discardEntry (o : Opinion) : LogEntry := .discardingStale o.origin o.start

namespace LogEntry

def tellsEviction : LogEntry → Bool
  | .evicting .. => true
  | _ => false

def tellsDiscard : LogEntry → Bool
  | .discardingStale .. => true
  | _ => false

theorem line_of_trace {e : LogEntry} (he : e.level = .trace) : e.line = "TRACE " ++ e.message := by
  have hlevel : "TRACE " = "TRACE" ++ " " := by decide
  rw [line, he, hlevel]
  rfl

end LogEntry

namespace Coordinator

variable {c c' : Coordinator} {k : Call} {o : Opinion} {met : Option Opinion} {r : Outcome}

/-- The waiting opinions that a submission evicts. -/
def lost (c : Coordinator) (o : Opinion) : List Opinion :=
  match c.backlog with
  | [] => []
  | front :: rest =>
    if c.desynced then []
    else if front.origin = o.origin then
      if c.config.maxBacklog ≤ rest.length + 1 then [front] else []
    else c.backlog.takeWhile (·.start < o.start)

theorem lost_of_ne {front : Opinion} {rest : List Opinion} (hd : c.desynced = false)
    (hb : c.backlog = front :: rest) (ho : front.origin ≠ o.origin) :
    c.lost o = c.backlog.takeWhile (·.start < o.start) := by
  simp [lost, hb, hd, ho]

theorem lost_of_split {front w : Opinion} {rest old later : List Opinion}
    (hd : c.desynced = false) (hb : c.backlog = front :: rest) (ho : front.origin ≠ o.origin)
    (hs : c.backlog = old ++ w :: later) (hlt : ∀ v ∈ old, v.start < o.start)
    (hge : ¬ w.start < o.start) : c.lost o = old := by
  rw [lost_of_ne hd hb ho, hs, List.takeWhile_append_of_pos (by simpa using hlt)]
  simp [hge]

/-- What the log tells of a comparison. -/
def verdictEntries (lastValid : Option Tick) (w o : Opinion) : List LogEntry :=
  match w.disagreement? o with
  | none => [.confirmed w.start]
  | some cause => (warnRanges cause).log ++ [.desynced lastValid cause]

/-- What the log tells of an opinion that is compared with none. -/
def staleEntries (o : Opinion) : Outcome → List LogEntry
  | .discarded => [o.discardEntry]
  | _ => []

/-- What the log tells of a submission beside evictions. -/
def told (c : Coordinator) (o : Opinion) : List LogEntry :=
  match c.counterpart? o with
  | some w => verdictEntries c.lastValid w o
  | none => staleEntries o (c.submit o).value.1

theorem visible_halt (c : Coordinator) (k : Conflict) : visible (c.halt k).log = [] := by
  cases hc : c.current <;> simp [halt, hc]

theorem visible_settle (c : Coordinator) (w o : Opinion) :
    visible (c.settle w o).log = verdictEntries c.lastValid w o := by
  rw [settle, verdictEntries]
  cases w.disagreement? o with
  | none =>
    have hentry : (LogEntry.confirmed w.start).aboutPool = false := rfl
    simp [recycle, visible_cons hentry, visible_append]
  | some cause =>
    have hwarn : visible (warnRanges cause).log = (warnRanges cause).log := by
      cases cause <;> rfl
    have hentry : (LogEntry.desynced c.lastValid cause).aboutPool = false := rfl
    simp [visible_append, visible_cons hentry, visible_halt, hwarn]

theorem submit_eq_align {front : Opinion} {rest : List Opinion} (hd : c.desynced = false)
    (hb : c.backlog = front :: rest) (ho : front.origin ≠ o.origin) :
    c.submit o = c.align o := by
  simp [submit, hd, hb, ho]

theorem visible_align {front : Opinion} {rest : List Opinion} (hd : c.desynced = false)
    (hb : c.backlog = front :: rest) (ho : front.origin ≠ o.origin) :
    visible (c.align o).log = (c.lost o).map Opinion.evictionEntry ++ c.told o := by
  have hevict : visible (c.evictBefore o.start).log = (c.lost o).map Opinion.evictionEntry := by
    rw [lost_of_ne hd hb ho]
    simp [evictBefore, Opinion.evictionEntry]
  have hmet : c.counterpart? o =
      (c.backlog.dropWhile (·.start < o.start)).head?.filter (·.start = o.start) := by
    simp [counterpart?, hd, hb, ho]
  have hleft : (c.evictBefore o.start).value.backlog =
      c.backlog.dropWhile (·.start < o.start) := rfl
  have hlast : (c.evictBefore o.start).value.lastValid = c.lastValid := rfl
  rw [told, hmet, submit_eq_align hd hb ho, align, ← hleft, ← hlast]
  simp only [Logged.log_bind, Logged.value_bind, visible_append, hevict]
  congr 1
  generalize (c.evictBefore o.start).value = d
  cases d.backlog with
  | nil => rfl
  | cons w later =>
    by_cases hw : w.start = o.start
    · simp [hw, visible_settle, Option.filter_some]
    · have hentry : (LogEntry.discardingStale o.origin o.start).aboutPool = false := rfl
      simp [hw, recycle, visible_cons hentry, staleEntries, Opinion.discardEntry,
        Option.filter_some]

/-- The log of a submission, without what it says of the pool. -/
theorem visible_submit (c : Coordinator) (o : Opinion) :
    visible (c.submit o).log = (c.lost o).map Opinion.evictionEntry ++ c.told o := by
  cases hd : c.desynced with
  | true =>
    have hlost : c.lost o = [] := by
      rw [lost]
      split <;> simp [hd]
    have hmet : c.counterpart? o = none := by
      rw [counterpart?]
      split <;> simp [hd]
    simp [told, staleEntries, hlost, hmet, submit, hd, recycle]
  | false =>
    cases hb : c.backlog with
    | nil => simp [lost, told, staleEntries, counterpart?, submit, hb, hd]
    | cons front rest =>
      by_cases ho : front.origin = o.origin
      · have hmet : c.counterpart? o = none := by simp [counterpart?, hb, ho]
        by_cases hfull : c.config.maxBacklog ≤ rest.length + 1 <;>
          simp [lost, told, staleEntries, hmet, submit, trimBacklog, hb, hd, ho, hfull,
            Opinion.evictionEntry]
      · rw [submit_eq_align hd hb ho, visible_align hd hb ho]

/-- Only submissions log anything beside what they say of the pool. -/
theorem visible_perform (ho : k.opinion? = none) : visible (c.perform k).log = [] := by
  cases k with
  | submit o => cases ho
  | takeLocal stop =>
    simp only [perform, Logged.log_bind, Logged.log_pure, List.append_nil]
    rw [takeLocal]
    cases c.current with
    | none => rfl
    | some o =>
      cases c.desynced with
      | false => rfl
      | true => simp
  | _ => rfl

theorem filter_evictions (log : List LogEntry) :
    (visible log).filter LogEntry.tellsEviction = log.filter LogEntry.tellsEviction := by
  refine filter_visible (fun e he => ?_) log
  cases e with
  | poolFull => rfl
  | _ => cases he

theorem filter_discards (log : List LogEntry) :
    (visible log).filter LogEntry.tellsDiscard = log.filter LogEntry.tellsDiscard := by
  refine filter_visible (fun e he => ?_) log
  cases e with
  | poolFull => rfl
  | _ => cases he

/-- A comparison evicts and discards nothing. -/
theorem filter_verdictEntries (lastValid : Option Tick) (w o : Opinion) :
    (verdictEntries lastValid w o).filter LogEntry.tellsEviction = [] ∧
      (verdictEntries lastValid w o).filter LogEntry.tellsDiscard = [] := by
  rw [verdictEntries]
  cases w.disagreement? o with
  | none => exact ⟨rfl, rfl⟩
  | some cause => cases cause <;> exact ⟨rfl, rfl⟩

theorem filter_staleEntries (o : Opinion) (r : Outcome) :
    (staleEntries o r).filter LogEntry.tellsEviction = [] ∧
      (staleEntries o r).filter LogEntry.tellsDiscard = staleEntries o r := by
  cases r <;> exact ⟨rfl, rfl⟩

/-- The evictions that a submission causes are logged, one by one and in order. -/
theorem evictions_submit (c : Coordinator) (o : Opinion) :
    (c.submit o).log.filter LogEntry.tellsEviction = (c.lost o).map Opinion.evictionEntry := by
  have hlost : ((c.lost o).map Opinion.evictionEntry).filter LogEntry.tellsEviction =
      (c.lost o).map Opinion.evictionEntry := by
    simp [Opinion.evictionEntry, LogEntry.tellsEviction]
  have htold : (c.told o).filter LogEntry.tellsEviction = [] := by
    rw [told]
    split
    · exact (filter_verdictEntries _ _ _).1
    · exact (filter_staleEntries _ _).1
  rw [← filter_evictions, visible_submit, List.filter_append, hlost, htold, List.append_nil]

/-- An opinion that is discarded is logged, and no other. -/
theorem discards_submit (c : Coordinator) (o : Opinion) :
    (c.submit o).log.filter LogEntry.tellsDiscard = staleEntries o (c.submit o).value.1 := by
  have hlost : ((c.lost o).map Opinion.evictionEntry).filter LogEntry.tellsDiscard = [] := by
    simp [Opinion.evictionEntry, LogEntry.tellsDiscard]
  rw [← filter_discards, visible_submit, List.filter_append, hlost, List.nil_append, told]
  have hs := c.submission o
  cases hmet : c.counterpart? o with
  | none => exact (filter_staleEntries _ _).2
  | some w =>
    rw [hmet] at hs
    obtain ⟨-, -, -, -, -, -, -, -, -, hr⟩ := met_submission hs
    have hnone : staleEntries o (c.submit o).value.1 = [] := by
      rw [hr]
      split <;> rfl
    exact (filter_verdictEntries _ _ _).2.trans hnone.symm

end Coordinator

end Lockstep
