import Lockstep.Proofs.Coordinator.Logging
import Lockstep.Proofs.Opinion.Likeness

/-! Two coordinators in step: what waits on the one side corresponds to what
waits on the other. Corresponding submissions are answered alike and keep them
so, whatever their pools hold. -/
namespace Lockstep

section lists
variable {α β : Type} {R : α → β → Prop} {as : List α} {bs : List β} {p : α → Bool} {q : β → Bool}

theorem forall₂_takeWhile (h : List.Forall₂ R as bs) (hpq : ∀ {a b}, R a b → p a = q b) :
    List.Forall₂ R (as.takeWhile p) (bs.takeWhile q) := by
  induction h with
  | nil => exact .nil
  | @cons a b as bs hab _ ih =>
    rw [List.takeWhile_cons, List.takeWhile_cons, hpq hab]
    cases q b with
    | true => exact .cons hab ih
    | false => exact .nil

theorem forall₂_dropWhile (h : List.Forall₂ R as bs) (hpq : ∀ {a b}, R a b → p a = q b) :
    List.Forall₂ R (as.dropWhile p) (bs.dropWhile q) := by
  induction h with
  | nil => exact .nil
  | @cons a b as bs hab hrest ih =>
    rw [List.dropWhile_cons, List.dropWhile_cons, hpq hab]
    cases q b with
    | true => exact ih
    | false => exact .cons hab hrest

theorem forall₂_last {a : α} {b : β} (h : List.Forall₂ R (as ++ [a]) (bs ++ [b])) : R a b := by
  have hreverse := List.forall₂_reverse_iff.2 h
  rw [List.reverse_concat, List.reverse_concat] at hreverse
  exact (List.forall₂_cons.1 hreverse).1

end lists

/-- Corresponding opinions are in conflict for the same cause. -/
structure Conflict.Like (R : Opinion → Opinion → Prop) (k l : Conflict) : Prop where
  first : R k.first l.first
  second : R k.second l.second
  cause : k.cause = l.cause

/-- Two sessions have come equally far. -/
inductive Phase.Like (R : Opinion → Opinion → Prop) : Phase → Phase → Prop
  | running : Like R .running .running
  | conflict {k l : Conflict} (h : k.Like R l) : Like R (.conflict k) (.conflict l)
  | reported : Like R .reported .reported

namespace Coordinator

/-- As far as submissions go, two coordinators are in the same state. -/
structure InStep (R : Opinion → Opinion → Prop) (c d : Coordinator) : Prop where
  maxBacklog : c.config.maxBacklog = d.config.maxBacklog
  backlog : List.Forall₂ R c.backlog d.backlog
  lastValid : c.lastValid = d.lastValid
  phase : c.phase.Like R d.phase

section
variable {R : Opinion → Opinion → Prop} {c d : Coordinator} {a b v w : Opinion}

theorem InStep.desynced (h : c.InStep R d) : c.desynced = d.desynced := by
  have hphase := h.phase
  rw [Coordinator.desynced, Coordinator.desynced]
  generalize c.phase = p, d.phase = q at hphase
  cases hphase <;> rfl

/-- Either nothing waits on both sides, or two corresponding opinions wait in front. -/
theorem InStep.backlogs (h : c.InStep R d) : (c.backlog = [] ∧ d.backlog = []) ∨
    ∃ v rest w rest', c.backlog = v :: rest ∧ d.backlog = w :: rest' ∧ R v w ∧
      List.Forall₂ R rest rest' := by
  have hbacklog := h.backlog
  generalize c.backlog = vs, d.backlog = ws at hbacklog
  cases hbacklog with
  | nil => exact Or.inl ⟨rfl, rfl⟩
  | cons hvw hrest => exact Or.inr ⟨_, _, _, _, rfl, rfl, hvw, hrest⟩

theorem InStep.withBacklog {vs ws : List Opinion} (h : c.InStep R d) (hb : List.Forall₂ R vs ws)
    (p q : Pool) :
    { c with backlog := vs, pool := p }.InStep R { d with backlog := ws, pool := q } :=
  ⟨h.maxBacklog, hb, h.lastValid, h.phase⟩

/-- The same answer to a submission, and states in step. -/
def SameAnswer (R : Opinion → Opinion → Prop) (x y : Outcome × Coordinator) : Prop :=
  x.1 = y.1 ∧ x.2.InStep R y.2

theorem like_recycle (h : c.InStep R d) (a b : Opinion) :
    (c.recycle a).Like (InStep R) (d.recycle b) :=
  ⟨h.withBacklog h.backlog _ _, by simp [recycle]⟩

theorem like_halt {k l : Conflict} (h : c.InStep R d) (hkl : k.Like R l) :
    (c.halt k).Like (InStep R) (d.halt l) := by
  obtain ⟨p, hp⟩ := value_halt c k
  obtain ⟨q, hq⟩ := value_halt d l
  constructor
  · rw [hp, hq]
    exact ⟨h.maxBacklog, h.backlog, h.lastValid, .conflict hkl⟩
  · rw [visible_halt, visible_halt]

variable (hR : ∀ {a b}, R a b → a.SameDraws b)
include hR

theorem like_trimBacklog (h : c.InStep R d) :
    c.trimBacklog.Like (InStep R) d.trimBacklog := by
  rw [trimBacklog, trimBacklog]
  obtain ⟨hc, hd⟩ | ⟨v, rest, w, rest', hc, hd, hvw, hrest⟩ := h.backlogs
  · simp only [hc, hd]
    exact Logged.like_pure h
  · simp only [hc, hd, h.maxBacklog, hrest.length_eq]
    split
    · exact ⟨h.withBacklog hrest _ _, by simp [(hR hvw).origin, (hR hvw).start]⟩
    · exact Logged.like_pure h

theorem like_evictBefore (h : c.InStep R d) (tick : Tick) :
    (c.evictBefore tick).Like (InStep R) (d.evictBefore tick) := by
  have hstart : ∀ {v w : Opinion}, R v w → decide (v.start < tick) = decide (w.start < tick) := by
    intro v w hvw
    rw [(hR hvw).start]
  constructor
  · exact h.withBacklog (forall₂_dropWhile h.backlog hstart) _ _
  · have hgone := forall₂_takeWhile h.backlog hstart
    simp only [evictBefore, Logged.log_bind, Logged.log_pure, List.append_nil,
      Pool.visible_evictAll]
    generalize c.backlog.takeWhile _ = vs, d.backlog.takeWhile _ = ws at hgone
    induction hgone with
    | nil => rfl
    | cons hvw _ ih => rw [List.map_cons, List.map_cons, ih, (hR hvw).origin, (hR hvw).start]

theorem like_settle (h : c.InStep R d) (hvw : R v w) (hab : R a b) :
    (c.settle v a).Like (SameAnswer R) (d.settle w b) := by
  have hstart := (hR hvw).start
  rw [settle, settle, (hR hvw).disagreement?_eq (hR hab), hstart, h.lastValid]
  cases w.disagreement? b with
  | none =>
    refine (Logged.like_note _).bind fun _ => ?_
    refine (like_recycle h v w).bind fun h => ?_
    refine (like_recycle h a b).bind fun h => ?_
    exact Logged.like_pure ⟨rfl, h.maxBacklog, h.backlog, rfl, h.phase⟩
  | some cause =>
    refine Logged.Like.bind (Q := fun _ _ => True) ⟨trivial, rfl⟩ fun _ => ?_
    refine (Logged.like_note _).bind fun _ => ?_
    have hkl : Conflict.Like R ⟨v, a, cause⟩ ⟨w, b, cause⟩ := ⟨hvw, hab, rfl⟩
    exact (like_halt h hkl).bind fun h => Logged.like_pure ⟨rfl, h⟩

theorem like_align (h : c.InStep R d) (hab : R a b) :
    (c.align a).Like (SameAnswer R) (d.align b) := by
  rw [align, align, (hR hab).start, (hR hab).origin]
  refine (like_evictBefore hR h b.start).bind fun {c d} h => ?_
  obtain ⟨hc, hd⟩ | ⟨v, rest, w, rest', hc, hd, hvw, hrest⟩ := h.backlogs
  · simp only [hc, hd]
    exact Logged.like_pure ⟨rfl, h.withBacklog (.cons hab .nil) c.pool d.pool⟩
  · simp only [hc, hd, (hR hvw).start]
    split
    · exact like_settle hR (h.withBacklog hrest c.pool d.pool) hvw hab
    · refine (Logged.like_note _).bind fun _ => ?_
      exact (like_recycle h a b).bind fun h => Logged.like_pure ⟨rfl, h⟩

/-- Corresponding submissions are answered alike and keep the sides in step. -/
theorem like_submit (h : c.InStep R d) (hab : R a b) :
    (c.submit a).Like (SameAnswer R) (d.submit b) := by
  rw [submit, submit, h.desynced]
  split
  · exact (like_recycle h a b).bind fun h => Logged.like_pure ⟨rfl, h⟩
  obtain ⟨hc, hd⟩ | ⟨v, rest, w, rest', hc, hd, hvw, hrest⟩ := h.backlogs
  · simp only [hc, hd]
    exact Logged.like_pure ⟨rfl, h.withBacklog (.cons hab .nil) c.pool d.pool⟩
  · simp only [hc, hd, (hR hvw).origin, (hR hab).origin]
    split
    · have hpush : List.Forall₂ R (v :: rest ++ [a]) (w :: rest' ++ [b]) :=
        List.rel_append (.cons hvw hrest) (.cons hab .nil)
      refine (like_trimBacklog hR (h.withBacklog hpush c.pool d.pool)).bind fun h => ?_
      exact Logged.like_pure ⟨rfl, h⟩
    · exact like_align hR h hab

end

end Coordinator

end Lockstep
