/-! Simulation ticks and the half-open tick ranges that opinions cover. -/
namespace Lockstep

/-- The number of a step of the shared simulation. -/
abbrev Tick := UInt32

/-- The spelling of a tick that may be missing, as messages show it. -/
def Tick.optionText : Option Tick → String
  | none => "None"
  | some t => s!"Some({t})"

/-- The ticks from `start` up to but not including `stop`. A range that is
still collecting has no `stop`. -/
structure TickRange where
  start : Tick
  stop : Option Tick
deriving DecidableEq

namespace TickRange
variable {r s : TickRange}

/-- Two ranges may describe the same ticks: they start together and do not
both end, at different ticks. -/
def Compatible (r s : TickRange) : Prop :=
  r.start = s.start ∧ (r.stop = none ∨ s.stop = none ∨ r.stop = s.stop)

instance (r s : TickRange) : Decidable (r.Compatible s) :=
  inferInstanceAs (Decidable (_ ∧ (_ ∨ _ ∨ _)))

theorem Compatible.refl (r : TickRange) : r.Compatible r :=
  ⟨rfl, Or.inr (Or.inr rfl)⟩

theorem Compatible.symm (h : r.Compatible s) : s.Compatible r :=
  ⟨h.1.symm, h.2.elim (Or.inr ∘ Or.inl) (Or.elim · Or.inl (Or.inr ∘ Or.inr ∘ Eq.symm))⟩

instance : ToString TickRange where
  toString r := s!"{r.start}..{Tick.optionText r.stop}"

end TickRange

end Lockstep
