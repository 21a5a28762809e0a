import Lockstep.Pool
import Mathlib.Data.List.Forall2

/-! Logs without what they say of the pool, and two computations side by side
that differ in their logs by no more than that. -/
namespace Lockstep

/-- The entry tells that the pool was full. -/
def LogEntry.aboutPool : LogEntry → Bool
  | .poolFull _ => true
  | _ => false

/-- A log without what it says of the pool. -/
def visible (log : List LogEntry) : List LogEntry := log.filter (!·.aboutPool)

@[simp] theorem visible_nil : visible [] = [] := rfl

theorem visible_append (log log' : List LogEntry) :
    visible (log ++ log') = visible log ++ visible log' :=
  List.filter_append ..

theorem visible_cons {e : LogEntry} (he : e.aboutPool = false) (log : List LogEntry) :
    visible (e :: log) = e :: visible log := by
  simp [visible, he]

/-- What a log tells beside the pool can be picked out of what is visible of it. -/
theorem filter_visible {p : LogEntry → Bool} (hp : ∀ e, e.aboutPool = true → p e = false)
    (log : List LogEntry) : (visible log).filter p = log.filter p := by
  rw [visible, List.filter_filter]
  refine List.filter_congr fun e _ => ?_
  cases he : e.aboutPool with
  | false => simp
  | true => simp [hp e he]

namespace Pool

variable (p : Pool)

/-- All that a release logs is about the pool. -/
@[simp] theorem visible_release (o : Opinion) : visible (p.release o).log = [] := by
  rw [release]
  split <;> rfl

@[simp] theorem visible_evict (o : Opinion) :
    visible (p.evict o).log = [.evicting o.origin o.start] := by
  rw [evict, Logged.log_bind, visible_append, visible_release]
  rfl

@[simp] theorem visible_evictAll (os : List Opinion) :
    visible (p.evictAll os).log = os.map fun o => .evicting o.origin o.start := by
  induction os generalizing p with
  | nil => rfl
  | cons o os ih =>
    rw [evictAll, List.foldlM_cons, Logged.log_bind, visible_append, visible_evict]
    exact congrArg _ (ih _)

end Pool

namespace Logged

variable {α β γ δ : Type} {Q : α → β → Prop} {P : γ → δ → Prop}

/-- Related values, and the same log but for what it says of the pool. -/
def Like (Q : α → β → Prop) (m : Logged α) (n : Logged β) : Prop :=
  Q m.value n.value ∧ visible m.log = visible n.log

theorem like_pure {a : α} {b : β} (h : Q a b) : (pure a : Logged α).Like Q (pure b) := ⟨h, rfl⟩

theorem like_note (e : LogEntry) : (note e).Like (fun _ _ => True) (note e) := ⟨trivial, rfl⟩

theorem Like.bind {m : Logged α} {n : Logged β} {f : α → Logged γ} {g : β → Logged δ}
    (h : m.Like Q n) (hfg : ∀ {a b}, Q a b → (f a).Like P (g b)) :
    (m >>= f).Like P (n >>= g) := by
  obtain ⟨hvalue, hlog⟩ := hfg h.1
  refine ⟨hvalue, ?_⟩
  rw [log_bind, log_bind, visible_append, visible_append, h.2, hlog]

/-- If every step keeps two states related and answers alike, so do runs. -/
theorem like_feed {σ τ κ κ' ρ ρ' : Type} {S : σ → τ → Prop} {K : κ → κ' → Prop}
    {A : ρ → ρ' → Prop} {f : σ → κ → Logged (ρ × σ)} {g : τ → κ' → Logged (ρ' × τ)}
    (hstep : ∀ {s t k l}, S s t → K k l →
      (f s k).Like (fun x y => A x.1 y.1 ∧ S x.2 y.2) (g t l))
    {ks : List κ} {ls : List κ'} (hk : List.Forall₂ K ks ls) {s : σ} {t : τ} (hs : S s t) :
    (feed f ks s).Like (fun x y => List.Forall₂ A x.1 y.1 ∧ S x.2 y.2) (feed g ls t) := by
  induction hk generalizing s t with
  | nil => exact like_pure ⟨.nil, hs⟩
  | cons hk _ ih =>
    refine (hstep hs hk).bind fun h => ?_
    exact (ih h.2).bind fun hrest => like_pure ⟨.cons h.1 hrest.1, hrest.2⟩

end Logged

end Lockstep
