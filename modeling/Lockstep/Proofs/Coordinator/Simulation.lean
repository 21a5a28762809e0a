import Lockstep.Coordinator.Call
import Lockstep.Proofs.Coordinator.InStep
import Mathlib.Data.Option.Basic

/-! Two coordinators that get corresponding calls: when their answers count as
alike, and which calls keep them abreast whatever the opinions are like. -/
namespace Lockstep

theorem Conflict.Like.report {R : Opinion → Opinion → Prop} {k l : Conflict} (h : k.Like R l)
    (hR : ∀ {a b}, R a b → a.SameDraws b) (v w : Option Tick) (p q : Bool) :
    (k.report v p).cause = (l.report w q).cause ∧
      R (k.report v p).localOpinion (l.report w q).localOpinion ∧
      R (k.report v p).remoteOpinion (l.report w q).remoteOpinion := by
  have horigin := (hR h.first).origin
  rw [Conflict.report, Conflict.report, horigin]
  cases l.first.origin.isLocal with
  | true => exact ⟨h.cause, h.first, h.second⟩
  | false => exact ⟨h.cause, h.second, h.first⟩

/-- When opinions, reports and notices of two runs count as alike. Alike
opinions are the same to comparisons, and what follows from alike is alike. -/
structure Likeness where
  opinion : Opinion → Opinion → Prop
  report : Report → Report → Prop
  notice : Notice → Notice → Prop
  refl : ∀ o, opinion o o
  sameDraws : ∀ {a b}, opinion a b → a.SameDraws b
  reports : ∀ {k l : Conflict} (v p), k.Like opinion l → report (k.report v p) (l.report v p)
  notices : ∀ {r t}, report r t → notice r.notice t.notice

structure Report.Alike (r t : Report) : Prop where
  cause : r.cause = t.cause
  localOpinion : r.localOpinion.Alike t.localOpinion
  remoteOpinion : r.remoteOpinion.Alike t.remoteOpinion
  diffAt : r.diffAt = t.diffAt
  lastValid : r.lastValid = t.lastValid
  arbiterAtLastValid : r.arbiterAtLastValid = t.arbiterAtLastValid

/-- Opinions and reports that nobody can tell apart, and equal notices. -/
def Likeness.full : Likeness where
  opinion := Opinion.Alike
  report := Report.Alike
  notice := Eq
  refl := .refl
  sameDraws := Opinion.Alike.toSameDraws
  reports v p h := by
    obtain ⟨hcause, hlocal, hremote⟩ := h.report Opinion.Alike.toSameDraws v v p p
    exact ⟨hcause, hlocal, hremote, hlocal.traceDiff?_eq hremote, rfl, rfl⟩
  notices h := congrArg₂ Notice.mk h.localOpinion.start h.diffAt

structure Report.SameDraws (r t : Report) : Prop where
  cause : r.cause = t.cause
  localOpinion : r.localOpinion.SameDraws t.localOpinion
  remoteOpinion : r.remoteOpinion.SameDraws t.remoteOpinion
  lastValid : r.lastValid = t.lastValid
  arbiterAtLastValid : r.arbiterAtLastValid = t.arbiterAtLastValid

/-- Opinions, reports and notices that are the same but for what traces and
catching up leave in them. -/
def Likeness.draws : Likeness where
  opinion := Opinion.SameDraws
  report := Report.SameDraws
  notice m n := m.startTick = n.startTick
  refl := .refl
  sameDraws := id
  reports v p h := by
    obtain ⟨hcause, hlocal, hremote⟩ := h.report id v v p p
    exact ⟨hcause, hlocal, hremote, rfl, rfl⟩
  notices h := h.localOpinion.start

namespace Coordinator

variable {L : Likeness}

/-- The same answer, but for opinions and reports that are only alike. -/
inductive Reply.Like (L : Likeness) : Reply → Reply → Prop
  | done : Like L .done .done
  | taken {o p : Option Opinion} (h : Option.Rel L.opinion o p) : Like L (.taken o) (.taken p)
  | outcome (r : Outcome) : Like L (.outcome r) (.outcome r)
  | reports {rs ts : List Report} (h : List.Forall₂ L.report rs ts) :
      Like L (.reports rs) (.reports ts)

/-- The same call, but for a submitted opinion that is only alike. -/
inductive Call.Like (L : Likeness) : Call → Call → Prop
  | same (k : Call) : Like L k k
  | submit {a b : Opinion} (h : L.opinion a b) : Like L (.submit a) (.submit b)

def Call.Writes : Call → Prop
  | .addState .. | .addInfo .. | .addCall .. | .takeLocal _ => True
  | _ => False

def Answers (L : Likeness) (S : Coordinator → Coordinator → Prop)
    (x y : Reply × Coordinator) : Prop :=
  x.1.Like L y.1 ∧ S x.2 y.2

def HandOuts (L : Likeness) (S : Coordinator → Coordinator → Prop)
    (x y : Option Opinion × Coordinator) : Prop :=
  Option.Rel L.opinion x.1 y.1 ∧ S x.2 y.2

/-- Corresponding submissions and requests for a report keep two coordinators
related. -/
structure Simulation (L : Likeness) (S : Coordinator → Coordinator → Prop) : Prop where
  submit : ∀ {c d a b}, S c d → L.opinion a b →
    (c.submit a).Like (fun x y => x.1 = y.1 ∧ S x.2 y.2) (d.submit b)
  processPending : ∀ {c d}, S c d →
    List.Forall₂ L.report c.processPending.1 d.processPending.1 ∧
      S c.processPending.2 d.processPending.2

/-- Two coordinators in step whose settings and opinions in the making
correspond. On all else they agree but for their pools. -/
structure Abreast (G : Config → Config → Prop) (R : Opinion → Opinion → Prop)
    (C : Option Opinion → Option Opinion → Prop) (c d : Coordinator) : Prop
    extends InStep R c d where
  config : G c.config d.config
  current : C c.current d.current
  catchUpTarget : c.catchUpTarget = d.catchUpTarget
  arbiterPlaying : c.arbiterPlaying = d.arbiterPlaying
  arbiterAtLastValid : c.arbiterAtLastValid = d.arbiterAtLastValid

variable {G : Config → Config → Prop} {R : Opinion → Opinion → Prop}
  {C : Option Opinion → Option Opinion → Prop} {c d : Coordinator} {k l : Call}

theorem Abreast.catchingUp (h : c.Abreast G R C d) : c.catchingUp = d.catchingUp :=
  congrArg Option.isSome h.catchUpTarget

theorem Abreast.arbiterKept (h : c.Abreast G R C d) (r : Outcome) :
    c.arbiterKept r = d.arbiterKept r := by
  cases r with
  | confirmed => exact h.arbiterPlaying
  | _ => exact h.arbiterAtLastValid

theorem Abreast.withCurrent {o p : Option Opinion} (h : c.Abreast G R C d) (hop : C o p)
    (x y : Pool) :
    { c with current := o, pool := x }.Abreast G R C { d with current := p, pool := y } :=
  { h with current := hop }

/-- If it does not matter that both sides have no opinion in the making, being
abreast is kept by submissions and by reporting. -/
theorem simulation_abreast (hC : C none none) : Simulation L (Abreast G L.opinion C) where
  submit {c d a b} h hab := by
    obtain ⟨⟨heq, hstep⟩, hlog⟩ := like_submit L.sameDraws h.toInStep hab
    obtain ⟨hconfig, hplaying, hcurrent, hcatch, hlast⟩ := rest_submission (c.submission a)
    obtain ⟨hconfig', hplaying', hcurrent', hcatch', hlast'⟩ := rest_submission (d.submission b)
    refine ⟨⟨heq, ?_⟩, hlog⟩
    constructor
    · exact hstep
    · rw [hconfig, hconfig']
      exact h.config
    · rw [hcurrent, hcurrent', heq]
      split
      · exact hC
      · exact h.current
    · rw [hcatch, hcatch', heq, h.catchUpTarget]
    · rw [hplaying, hplaying', h.arbiterPlaying]
    · rw [hlast, hlast', heq, h.arbiterKept]
  processPending {c d} h := by
    have hphase := h.phase
    simp only [Coordinator.processPending]
    generalize hc : c.phase = p, hd : d.phase = q at hphase
    cases hphase with
    | running => exact ⟨.nil, h⟩
    | reported => exact ⟨.nil, h⟩
    | conflict hkl =>
      rw [h.lastValid, h.arbiterAtLastValid]
      refine ⟨.cons (L.reports _ _ hkl) .nil, ?_⟩
      exact { h with phase := .reported, lastValid := rfl, arbiterAtLastValid := rfl }

theorem Abreast.perform_aside (hC : C none none) (h : c.Abreast G L.opinion C d)
    (hk : k.Like L l) (haside : ¬ k.Writes) :
    (c.perform k).Like (Answers L (Abreast G L.opinion C)) (d.perform l) := by
  have hsubmit : ∀ {a b}, L.opinion a b →
      (c.perform (.submit a)).Like (Answers L (Abreast G L.opinion C)) (d.perform (.submit b)) := by
    intro a b hab
    refine ((simulation_abreast hC).submit h hab).bind fun hxy => ?_
    refine Logged.like_pure ⟨?_, hxy.2⟩
    rw [hxy.1]
    exact .outcome _
  cases hk with
  | submit hab => exact hsubmit hab
  | same k =>
    cases k with
    | submit o => exact hsubmit (L.refl o)
    | startCatchUp target =>
      refine Logged.like_pure ⟨.done, ?_⟩
      rw [startCatchUp, startCatchUp, h.desynced]
      split
      · exact h
      · exact { h with catchUpTarget := rfl }
    | finishCatchUp => exact Logged.like_pure ⟨.done, { h with catchUpTarget := rfl }⟩
    | setArbiterPlaying playing =>
      exact Logged.like_pure ⟨.done, { h with arbiterPlaying := rfl }⟩
    | processPending =>
      obtain ⟨hreports, hstate⟩ := (simulation_abreast hC).processPending h
      exact Logged.like_pure ⟨.reports hreports, hstate⟩
    | _ => exact absurd trivial haside

end Coordinator

end Lockstep
