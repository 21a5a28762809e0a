import Lockstep.Coordinator.Submit
import Mathlib.Data.List.TakeWhile

/-! The ways in which a submission can end, and the opinion it is compared with. -/
namespace Lockstep.Coordinator

variable {c c' : Coordinator} {o w : Opinion} {met : Option Opinion} {r : Outcome}

/-- The waiting opinion that a submitted one is compared with: the first that
does not start before it, if the two start together. -/
def counterpart? (c : Coordinator) (o : Opinion) : Option Opinion :=
  match c.backlog with
  | [] => none
  | front :: _ =>
    if c.desynced ∨ front.origin = o.origin then none
    else (c.backlog.dropWhile (·.start < o.start)).head?.filter (·.start = o.start)

/-- One rule for each way in which a submission ends: what it is compared
with, the answer, and the new state. What the pool keeps is left open. -/
inductive Submission (c : Coordinator) (o : Opinion) :
    Option Opinion → Outcome → Coordinator → Prop
  | ignored (pool : Pool) (hd : c.desynced = true) :
      Submission c o none .ignored { c with pool }
  | alone (hd : c.desynced = false) (hb : c.backlog = []) :
      Submission c o none .queued { c with backlog := [o] }
  | behind {front : Opinion} {rest : List Opinion} (hd : c.desynced = false)
      (hb : c.backlog = front :: rest) (ho : front.origin = o.origin)
      (hroom : rest.length + 1 < c.config.maxBacklog) :
      Submission c o none .queued { c with backlog := front :: rest ++ [o] }
  | crowding {front : Opinion} {rest : List Opinion} (pool : Pool) (hd : c.desynced = false)
      (hb : c.backlog = front :: rest) (ho : front.origin = o.origin)
      (hfull : c.config.maxBacklog ≤ rest.length + 1) :
      Submission c o none .queued { c with backlog := rest ++ [o], pool }
  | overtaking {front : Opinion} {rest : List Opinion} (pool : Pool) (hd : c.desynced = false)
      (hb : c.backlog = front :: rest) (ho : front.origin ≠ o.origin)
      (hlt : ∀ v ∈ c.backlog, v.start < o.start) :
      Submission c o none .queued { c with backlog := [o], pool }
  | stale {front w : Opinion} {rest old later : List Opinion} (pool : Pool)
      (hd : c.desynced = false) (hb : c.backlog = front :: rest) (ho : front.origin ≠ o.origin)
      (hs : c.backlog = old ++ w :: later) (hlt : ∀ v ∈ old, v.start < o.start)
      (hgt : o.start < w.start) :
      Submission c o none .discarded { c with backlog := w :: later, pool }
  | agreeing {front w : Opinion} {rest old later : List Opinion} (pool : Pool)
      (hd : c.desynced = false) (hb : c.backlog = front :: rest) (ho : front.origin ≠ o.origin)
      (hs : c.backlog = old ++ w :: later) (hlt : ∀ v ∈ old, v.start < o.start)
      (heq : w.start = o.start) (hcmp : w.disagreement? o = none) :
      Submission c o (some w) (.confirmed w.start)
        { c with
          backlog := later, pool, lastValid := some w.start
          arbiterAtLastValid := c.arbiterPlaying }
  | disagreeing {front w : Opinion} {rest old later : List Opinion} {cause : Disagreement}
      (pool : Pool) (hd : c.desynced = false) (hb : c.backlog = front :: rest)
      (ho : front.origin ≠ o.origin) (hs : c.backlog = old ++ w :: later)
      (hlt : ∀ v ∈ old, v.start < o.start) (heq : w.start = o.start)
      (hcmp : w.disagreement? o = some cause) :
      Submission c o (some w) .desynced
        { c with
          backlog := later, current := none, pool, catchUpTarget := none
          phase := .conflict ⟨w, o, cause⟩ }

/-- A comparison is with an opinion of the other side that starts with the new
one. Those that wait before it are lost. -/
theorem met_submission (hs : Submission c o (some w) r c') :
    ∃ front rest old later, c.desynced = false ∧ c.backlog = front :: rest ∧
      front.origin ≠ o.origin ∧ c.backlog = old ++ w :: later ∧ w.start = o.start ∧
      r = if w.disagreement? o = none then .confirmed w.start else .desynced := by
  cases hs with
  | agreeing pool hd hb ho hsplit hlt heq hcmp =>
    exact ⟨_, _, _, _, hd, hb, ho, hsplit, heq, by rw [if_pos hcmp]⟩
  | disagreeing pool hd hb ho hsplit hlt heq hcmp =>
    exact ⟨_, _, _, _, hd, hb, ho, hsplit, heq, by simp [hcmp]⟩

/-- What is kept of the arbiter: with a confirmed range, whether it plays now. -/
def arbiterKept (c : Coordinator) : Outcome → Bool
  | .confirmed _ => c.arbiterPlaying
  | _ => c.arbiterAtLastValid

/-- What becomes of the rest of the state depends on the answer alone. -/
theorem rest_submission (hs : Submission c o met r c') :
    c'.config = c.config ∧ c'.arbiterPlaying = c.arbiterPlaying ∧
      c'.current = (if r = .desynced then none else c.current) ∧
      c'.catchUpTarget = (if r = .desynced then none else c.catchUpTarget) ∧
      c'.arbiterAtLastValid = c.arbiterKept r := by
  cases hs <;> exact ⟨rfl, rfl, rfl, rfl, rfl⟩

theorem value_halt (c : Coordinator) (k : Conflict) :
    ∃ pool, (c.halt k).value =
      { c with current := none, pool, catchUpTarget := none, phase := .conflict k } := by
  cases hc : c.current with
  | none => exact ⟨c.pool, by simp [halt, hc]⟩
  | some o => exact ⟨(c.pool.release o).value, by simp [halt, hc]⟩

theorem submission_settle {front : Opinion} {rest old later : List Opinion} (pool : Pool)
    (hd : c.desynced = false) (hb : c.backlog = front :: rest) (ho : front.origin ≠ o.origin)
    (hs : c.backlog = old ++ w :: later) (hlt : ∀ v ∈ old, v.start < o.start)
    (heq : w.start = o.start) :
    Submission c o (some w) (settle { c with backlog := later, pool } w o).value.1
      (settle { c with backlog := later, pool } w o).value.2 := by
  cases hcmp : w.disagreement? o with
  | none =>
    simp only [settle, hcmp, recycle, Logged.value_bind, Logged.value_pure]
    exact .agreeing _ hd hb ho hs hlt heq hcmp
  | some cause =>
    obtain ⟨pool', hh⟩ := value_halt { c with backlog := later, pool } ⟨w, o, cause⟩
    simp only [settle, hcmp, Logged.value_bind, Logged.value_pure, hh]
    exact .disagreeing pool' hd hb ho hs hlt heq hcmp

theorem submission_push {front : Opinion} {rest : List Opinion} (hd : c.desynced = false)
    (hb : c.backlog = front :: rest) (ho : front.origin = o.origin) :
    Submission c o none .queued
      (trimBacklog { c with backlog := front :: rest ++ [o] }).value := by
  by_cases hfull : c.config.maxBacklog ≤ rest.length + 1
  · simp only [trimBacklog, List.cons_append, List.length_append, List.length_singleton,
      if_pos hfull, Logged.value_bind, Logged.value_pure]
    exact .crowding _ hd hb ho hfull
  · simp only [trimBacklog, List.cons_append, List.length_append, List.length_singleton,
      if_neg hfull, Logged.value_pure]
    exact .behind hd hb ho (by omega)

theorem submission_align {front : Opinion} {rest : List Opinion} (hd : c.desynced = false)
    (hb : c.backlog = front :: rest) (ho : front.origin ≠ o.origin) :
    Submission c o ((c.backlog.dropWhile (·.start < o.start)).head?.filter (·.start = o.start))
      (c.align o).value.1 (c.align o).value.2 := by
  have hsplit := List.takeWhile_append_dropWhile (p := fun v => decide (v.start < o.start))
    (l := c.backlog)
  have hlt : ∀ v ∈ c.backlog.takeWhile (fun v => decide (v.start < o.start)),
      v.start < o.start := by
    intro v hv
    simpa using List.mem_takeWhile_imp hv
  cases hl : c.backlog.dropWhile (fun v => decide (v.start < o.start)) with
  | nil =>
    rw [hl, List.append_nil] at hsplit
    simp only [align, evictBefore, Logged.value_bind, Logged.value_pure, hl]
    exact .overtaking _ hd hb ho (hsplit ▸ hlt)
  | cons w later =>
    rw [hl] at hsplit
    have hge := List.head?_dropWhile_not (fun v => decide (v.start < o.start)) c.backlog
    simp only [hl, List.head?_cons, decide_eq_false_iff_not] at hge
    by_cases heq : w.start = o.start
    · simp only [align, evictBefore, Logged.value_bind, Logged.value_pure, hl,
        List.head?_cons, Option.filter_some, heq, decide_true, if_true]
      exact submission_settle _ hd hb ho hsplit.symm hlt heq
    · have hgt : o.start < w.start :=
        UInt32.lt_of_le_of_ne (UInt32.not_lt.1 hge) (Ne.symm heq)
      simp only [align, evictBefore, recycle, Logged.value_bind, Logged.value_pure, hl,
        List.head?_cons, Option.filter_some, heq, decide_false]
      exact .stale _ hd hb ho hsplit.symm hlt hgt

/-- A submission ends in one of these ways. -/
theorem submission (c : Coordinator) (o : Opinion) :
    Submission c o (c.counterpart? o) (c.submit o).value.1 (c.submit o).value.2 := by
  cases hd : c.desynced with
  | true =>
    have hn : c.counterpart? o = none := by
      rw [counterpart?]
      split <;> simp [hd]
    simp only [hn, submit, hd, recycle, if_true, Logged.value_bind, Logged.value_pure]
    exact .ignored _ hd
  | false =>
    cases hb : c.backlog with
    | nil =>
      simp only [counterpart?, submit, hd, hb, Bool.false_eq_true, if_false, Logged.value_pure]
      exact .alone hd hb
    | cons front rest =>
      by_cases ho : front.origin = o.origin
      · simp only [counterpart?, submit, hd, hb, ho, or_true, Bool.false_eq_true, if_false,
          if_true, Logged.value_bind, Logged.value_pure]
        exact submission_push hd hb ho
      · have h := submission_align hd hb ho
        rw [hb] at h
        simpa only [counterpart?, submit, hd, hb, ho, or_false, Bool.false_eq_true, if_false]
          using h

end Lockstep.Coordinator
