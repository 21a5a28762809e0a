import Lockstep.Proofs.Coordinator.Run
import Mathlib.Data.List.Forall2

/-! A ledger of submitted opinions: what each was answered decides what may become of it, and what
is said of the oldest that waits moves it from one fate to another. -/
namespace Lockstep

/-- What has become of a submitted opinion. -/
inductive Fate
  | waiting
  | evicted
  | confirmed
  | desynced
  | discarded
  | ignored
deriving DecidableEq

/-- What becomes of an opinion that is answered so, for the time being. -/
def Outcome.fate : Outcome → Fate
  | .ignored => .ignored
  | .queued => .waiting
  | .confirmed _ => .confirmed
  | .discarded => .discarded
  | .desynced => .desynced

/-- What an answer allows to become of an opinion: only what is queued has its
fate still to come. -/
def Fate.Follows (f : Fate) (r : Outcome) : Prop :=
  f = r.fate ∨ r = .queued ∧ (f = .evicted ∨ f = .confirmed ∨ f = .desynced)

/-- What is answered for good keeps the fate of its answer, and nothing else has it. -/
theorem Fate.Follows.eq_iff {f : Fate} {r s : Outcome} (h : f.Follows s)
    (hr : r = .discarded ∨ r = .ignored) : f = r.fate ↔ s = r := by
  rcases h with rfl | ⟨rfl, hf⟩
  · rcases hr with rfl | rfl <;> cases s <;> simp [Outcome.fate]
  · rcases hr with rfl | rfl <;> rcases hf with rfl | rfl | rfl <;> simp [Outcome.fate]

/-- A submitted opinion and its fate. -/
structure Posting where
  opinion : Opinion
  fate : Fate
deriving DecidableEq

/-- The submitted opinions in order, each with its fate. -/
abbrev Ledger := List Posting

namespace Ledger

/-- The oldest opinion that waits meets its fate. -/
def settleOldest (f : Fate) : Ledger → Ledger
  | [] => []
  | p :: ps => if p.fate = .waiting then { p with fate := f } :: ps else p :: settleOldest f ps

/-- The oldest opinions that wait are evicted, as many as that. -/
def evictOldest (l : Ledger) : Nat → Ledger
  | 0 => l
  | n + 1 => (l.settleOldest .evicted).evictOldest n

/-- Enters a submission, with its answer and the number of evictions that it
caused. A verdict is on the oldest opinion that still waits, and on the new one. -/
def enter (l : Ledger) (o : Opinion) (r : Outcome) (evictions : Nat) : Ledger :=
  let l := l.evictOldest evictions
  (if r.IsVerdict then l.settleOldest r.fate else l) ++ [⟨o, r.fate⟩]

/-- The opinions of one fate, in the order of their submission. -/
def sharing (l : Ledger) (f : Fate) : List Opinion :=
  (l.filter (·.fate = f)).map Posting.opinion

/-- What has met its fate in the one ledger stands unchanged in the other. -/
def Stands (l m : Ledger) : Prop :=
  ∀ (i : Nat) (p : Posting), l[i]? = some p → p.fate ≠ .waiting → m[i]? = some p

variable {l m : Ledger} {f g : Fate} {o : Opinion} {os : List Opinion} {rs : List Outcome}
  {r : Outcome} {n : Nat}

theorem sharing_append (l m : Ledger) (f : Fate) :
    sharing (l ++ m) f = l.sharing f ++ m.sharing f := by
  simp [sharing]

theorem sharing_cons (p : Posting) (ps : Ledger) (f : Fate) :
    sharing (p :: ps) f = (if p.fate = f then [p.opinion] else []) ++ ps.sharing f := by
  by_cases h : p.fate = f <;> simp [sharing, h]

/-- Every opinion has one fate and no other. -/
theorem length_eq (l : Ledger) : l.length =
    (l.sharing .waiting).length + (l.sharing .evicted).length + (l.sharing .confirmed).length +
      (l.sharing .desynced).length + (l.sharing .discarded).length +
      (l.sharing .ignored).length := by
  induction l with
  | nil => rfl
  | cons p ps ih =>
    obtain ⟨o, f⟩ := p
    simp only [sharing_cons, List.length_append, List.length_cons, ih]
    cases f <;> simp <;> omega

theorem opinions_settleOldest (f : Fate) (l : Ledger) :
    (l.settleOldest f).map Posting.opinion = l.map Posting.opinion := by
  induction l with
  | nil => rfl
  | cons p ps ih =>
    rw [settleOldest]
    split
    · rfl
    · exact congrArg (p.opinion :: ·) ih

theorem opinions_evictOldest (l : Ledger) (n : Nat) :
    (l.evictOldest n).map Posting.opinion = l.map Posting.opinion := by
  induction n generalizing l with
  | zero => rfl
  | succ n ih => rw [evictOldest, ih, opinions_settleOldest]

theorem opinions_enter (l : Ledger) (o : Opinion) (r : Outcome) (n : Nat) :
    (l.enter o r n).map Posting.opinion = l.map Posting.opinion ++ [o] := by
  rw [enter, List.map_append]
  congr 1
  split
  · rw [opinions_settleOldest, opinions_evictOldest]
  · rw [opinions_evictOldest]

theorem waiting_settleOldest (hf : f ≠ .waiting) (l : Ledger) :
    (l.settleOldest f).sharing .waiting = (l.sharing .waiting).tail := by
  induction l with
  | nil => rfl
  | cons p ps ih =>
    rw [settleOldest]
    by_cases hp : p.fate = .waiting
    · simp [sharing_cons, hp, hf]
    · simp [sharing_cons, hp, ih]

theorem waiting_evictOldest (l : Ledger) (n : Nat) :
    (l.evictOldest n).sharing .waiting = (l.sharing .waiting).drop n := by
  induction n generalizing l with
  | zero => rfl
  | succ n ih =>
    rw [evictOldest, ih, waiting_settleOldest (by decide), List.drop_tail]

/-- Settling moves the oldest opinion that waits to those of the given fate. -/
theorem sharing_settleOldest (f : Fate) (hg : g ≠ .waiting)
    (hl : l.sharing .waiting = o :: os) :
    ((l.settleOldest f).sharing g).Perm (l.sharing g ++ if f = g then [o] else []) := by
  induction l with
  | nil => cases hl
  | cons p ps ih =>
    rw [settleOldest, sharing_cons]
    rw [sharing_cons] at hl
    by_cases hp : p.fate = .waiting
    · obtain rfl : p.opinion = o := by simpa [hp] using congrArg List.head? hl
      rw [if_pos hp, if_neg (hp ▸ Ne.symm hg), sharing_cons, List.nil_append]
      by_cases hfg : f = g
      · simpa [hfg] using (List.perm_append_singleton p.opinion (sharing ps g)).symm
      · simp [hfg]
    · rw [if_neg hp, sharing_cons, List.append_assoc]
      exact (ih (by simpa [hp] using hl)).append_left _

/-- Evictions move the oldest opinions that wait to those that are evicted. -/
theorem sharing_evictOldest (hg : g ≠ .waiting) (hn : n ≤ (l.sharing .waiting).length) :
    ((l.evictOldest n).sharing g).Perm
      (l.sharing g ++ if .evicted = g then (l.sharing .waiting).take n else []) := by
  induction n generalizing l with
  | zero => simp [evictOldest]
  | succ n ih =>
    cases hl : l.sharing .waiting with
    | nil => simp [hl] at hn
    | cons o os =>
      have hrest : (l.settleOldest .evicted).sharing .waiting = os := by
        rw [waiting_settleOldest (by decide), hl]
        rfl
      -- the first eviction takes the front of what waits, the others take from the rest
      have hstep := sharing_settleOldest .evicted hg hl
      have hn' : n ≤ ((l.settleOldest .evicted).sharing .waiting).length := by
        rw [hrest]
        simpa [hl] using hn
      refine (ih hn').trans ?_
      rw [hrest]
      refine (hstep.append_right _).trans ?_
      by_cases hg : .evicted = g <;> simp [hg]

theorem Stands.refl (l : Ledger) : l.Stands l := fun _ _ hp _ => hp

theorem Stands.trans {k : Ledger} (h : k.Stands l) (h' : l.Stands m) : k.Stands m :=
  fun i p hp hf => h' i p (h i p hp hf) hf

theorem stands_settleOldest (f : Fate) (l : Ledger) : l.Stands (l.settleOldest f) := by
  induction l with
  | nil => exact .refl _
  | cons p ps ih =>
    intro i q hq hf
    rw [settleOldest]
    cases i with
    | zero =>
      obtain rfl : p = q := by simpa using hq
      rw [if_neg hf, List.getElem?_cons_zero]
    | succ i =>
      rw [List.getElem?_cons_succ] at hq
      split
      · rwa [List.getElem?_cons_succ]
      · rw [List.getElem?_cons_succ]
        exact ih i q hq hf

theorem stands_evictOldest (l : Ledger) (n : Nat) : l.Stands (l.evictOldest n) := by
  induction n generalizing l with
  | zero => exact .refl l
  | succ n ih => exact (stands_settleOldest .evicted l).trans (ih _)

theorem stands_append (l m : Ledger) : l.Stands (l ++ m) := by
  intro i p hp _
  exact List.getElem?_append_left (List.getElem?_eq_some_iff.1 hp).1 ▸ hp

theorem stands_enter (l : Ledger) (o : Opinion) (r : Outcome) (n : Nat) :
    l.Stands (l.enter o r n) := by
  refine (stands_evictOldest l n).trans (Stands.trans ?_ (stands_append _ _))
  split
  · exact stands_settleOldest r.fate _
  · exact .refl _

/-- Each fate is one that the answer allows. -/
def Fits (l : Ledger) (rs : List Outcome) : Prop :=
  List.Forall₂ (fun (p : Posting) r => p.fate.Follows r) l rs

theorem fits_settleOldest (hf : f = .evicted ∨ f = .confirmed ∨ f = .desynced)
    (h : l.Fits rs) : (l.settleOldest f).Fits rs := by
  induction h with
  | nil => exact .nil
  | @cons p r ps rs hp hrest ih =>
    rw [settleOldest]
    split
    next hw =>
      refine .cons (Or.inr ⟨?_, hf⟩) hrest
      rw [hw] at hp
      rcases hp with hp | ⟨hq, -⟩
      · cases r <;> cases hp
        rfl
      · exact hq
    next => exact .cons hp ih

theorem fits_evictOldest (h : l.Fits rs) (n : Nat) : (l.evictOldest n).Fits rs := by
  induction n generalizing l with
  | zero => exact h
  | succ n ih => exact ih (fits_settleOldest (Or.inl rfl) h)

theorem fits_enter (h : l.Fits rs) (o : Opinion) (r : Outcome) (n : Nat) :
    (l.enter o r n).Fits (rs ++ [r]) := by
  have hnew : Fits [⟨o, r.fate⟩] [r] := .cons (Or.inl rfl) .nil
  have hold := fits_evictOldest h n
  refine List.rel_append ?_ hnew
  split
  next hr =>
    refine fits_settleOldest (Or.inr ?_) hold
    cases r with
    | confirmed => exact Or.inl rfl
    | desynced => exact Or.inr rfl
    | _ => cases hr
  next => exact hold

theorem length_sharing (hr : r = .discarded ∨ r = .ignored) (h : l.Fits rs) :
    (l.sharing r.fate).length = rs.count r := by
  induction h with
  | nil => rfl
  | @cons p s ps rs hp hrest ih =>
    rw [sharing_cons, List.length_append, ih, List.count_cons, Nat.add_comm]
    by_cases hs : s = r <;> simp [hp.eq_iff hr, hs]

section
variable {lost kept : List Opinion} {met : Option Opinion}

theorem left_evictOldest (hw : l.sharing .waiting = lost ++ met.toList ++ kept) :
    (l.evictOldest lost.length).sharing .waiting = met.toList ++ kept := by
  rw [waiting_evictOldest, hw, List.append_assoc, List.drop_left]

theorem waiting_enter (hw : l.sharing .waiting = lost ++ met.toList ++ kept)
    (hr : r.IsVerdict ↔ met.isSome) :
    (l.enter o r lost.length).sharing .waiting = kept ++ if r = .queued then [o] else [] := by
  have hleft := left_evictOldest hw
  rw [enter, sharing_append]
  congr 1
  · cases met with
    | none => rw [if_neg (by simpa using hr), hleft, Option.toList_none, List.nil_append]
    | some w =>
      have hfate : r.fate ≠ .waiting := by
        intro he
        cases r <;> simp_all [Outcome.fate, Outcome.IsVerdict]
      rw [if_pos (by simpa using hr), waiting_settleOldest hfate, hleft]
      rfl
  · cases r <;> rfl

/-- What an entry adds to the opinions of a fate that is final. -/
theorem sharing_enter (hg : g ≠ .waiting) (hw : l.sharing .waiting = lost ++ met.toList ++ kept)
    (hr : r.IsVerdict ↔ met.isSome) :
    ((l.enter o r lost.length).sharing g).Perm
      (l.sharing g ++ (if .evicted = g then lost else []) ++
        if r.fate = g then met.toList ++ [o] else []) := by
  have hleft := left_evictOldest hw
  have hevicted : ((l.evictOldest lost.length).sharing g).Perm
      (l.sharing g ++ if .evicted = g then lost else []) := by
    have h := sharing_evictOldest (l := l) (n := lost.length) hg (by simp [hw])
    rwa [hw, List.append_assoc, List.take_left] at h
  have hnew : sharing [⟨o, r.fate⟩] g = if r.fate = g then [o] else [] := by
    rw [sharing_cons]
    exact List.append_nil _
  rw [enter, sharing_append, hnew]
  cases met with
  | none =>
    rw [if_neg (by simpa using hr)]
    exact hevicted.append_right _
  | some w =>
    rw [if_pos (by simpa using hr)]
    refine ((sharing_settleOldest r.fate hg hleft).append_right _).trans ?_
    refine ((hevicted.append_right _).append_right _).trans ?_
    by_cases hrg : r.fate = g <;> simp [hrg]

end

end Ledger

end Lockstep
