import Lockstep.Log

/-! Steps that write to the log. -/
namespace Lockstep

/-- A value together with the entries that were logged on the way to it,
oldest first. -/
structure Logged (α : Type) where
  value : α
  log : List LogEntry

/-- Logs one entry. -/
def note (e : LogEntry) : Logged Unit := ⟨(), [e]⟩

namespace Logged
variable {α β σ κ ρ : Type}

instance : Monad Logged where
  pure a := ⟨a, []⟩
  bind m f := ⟨(f m.value).value, m.log ++ (f m.value).log⟩

@[simp] theorem value_pure (a : α) : (pure a : Logged α).value = a := rfl

@[simp] theorem log_pure (a : α) : (pure a : Logged α).log = [] := rfl

@[simp] theorem value_bind (m : Logged α) (f : α → Logged β) :
    (m >>= f).value = (f m.value).value := rfl

@[simp] theorem log_bind (m : Logged α) (f : α → Logged β) :
    (m >>= f).log = m.log ++ (f m.value).log := rfl

@[simp] theorem value_map (f : α → β) (m : Logged α) : (f <$> m).value = f m.value := rfl

@[simp] theorem log_map (f : α → β) (m : Logged α) : (f <$> m).log = m.log :=
  List.append_nil _

@[simp] theorem value_note (e : LogEntry) : (note e).value = () := rfl

@[simp] theorem log_note (e : LogEntry) : (note e).log = [e] := rfl

@[ext] theorem ext {m n : Logged α} (hv : m.value = n.value) (hl : m.log = n.log) : m = n := by
  cases m
  cases n
  simp_all

instance : LawfulMonad Logged :=
  LawfulMonad.mk' Logged (fun _ => ext rfl (log_map _ _)) (fun _ _ => rfl)
    (fun _ _ _ => ext rfl (by simp))

/-- Feeds inputs to a state one after the other and lists the answers. -/
def feed (step : σ → κ → Logged (ρ × σ)) : List κ → σ → Logged (List ρ × σ)
  | [], s => return ([], s)
  | k :: ks, s => do
    let (r, s) ← step s k
    let (rs, s) ← feed step ks s
    return (r :: rs, s)

variable (step : σ → κ → Logged (ρ × σ)) (s : σ)

@[simp] theorem feed_nil : feed step [] s = pure ([], s) := rfl

/-- To feed two lists is to feed the one and then, to the state it leads to,
the other. -/
theorem feed_append (ks ls : List κ) :
    feed step (ks ++ ls) s = do
      let (rs, s) ← feed step ks s
      let (ts, s) ← feed step ls s
      return (rs ++ ts, s) := by
  induction ks generalizing s with
  | nil => exact ext rfl (by simp)
  | cons k ks ih => exact ext (by simp [feed, ih]) (by simp [feed, ih])

end Logged

end Lockstep
