import Lockstep.Proofs.Coordinator.Survival
import Lockstep.Proofs.Coordinator.Tracing
import Lockstep.Proofs.Session.Simulation

/-! When it makes no difference to a session whether calls are traced: as long as
no traced call opens an opinion on a tick of its own. -/
namespace Lockstep.Session

variable {s t : Session} {k l : Call} {ks ls : List Call} {o : Opinion} {u : Option Tick}
  {stop : Tick} {traces : Bool}

/-- The tick that the opinion in the making starts on after a call, as it was
`t` before. With `traces`, traced calls open an opinion as well. -/
def Call.opening (traces : Bool) (t : Option Tick) : Call → Option Tick
  | .coordinate k => k.opening traces t
  | .finishLocal _ => none
  | _ => t

/-- The tick of the first recording since the last hand-out, if there is one.
With `traces`, traced calls count as recordings. -/
def opening (traces : Bool) (ks : List Call) : Option Tick := ks.foldl (Call.opening traces) none

/-- The opinion that an answer hands out. -/
def Reply.opinion? : Reply → Option Opinion
  | .coordinated (.taken o) | .finished o => o
  | _ => none

/-- Every opinion that a run hands out starts where it would without the traced
calls: on the tick of the first state or text that was recorded for it. -/
def StartsUntraced (s : Session) (ks : List Call) : Prop :=
  ∀ pre k post o, ks = pre ++ k :: post → ((s.after pre).perform k).value.1.opinion? = some o →
    opening false pre = some o.start

/-- On a run, two sessions find the same outcomes, come equally far, and answer
alike but for what traces and catching up leave in opinions. -/
structure Agree (s t : Session) (ks : List Call) : Prop where
  outcomes : s.outcomes ks = t.outcomes ks
  lastValid : (s.after ks).coordinator.lastValid = (t.after ks).coordinator.lastValid
  desynced : (s.after ks).coordinator.desynced = (t.after ks).coordinator.desynced
  replies : List.Forall₂ (Reply.Like .draws) (s.replies ks) (t.replies ks)

theorem opening_concat (traces : Bool) (ks : List Call) (k : Call) :
    opening traces (ks ++ [k]) = k.opening traces (opening traces ks) :=
  List.foldl_concat ..

theorem opening_eq_none (h : opening true ks = none) : opening false ks = none := by
  induction ks using List.reverseRecOn with
  | nil => rfl
  | append_singleton ks k ih =>
    rw [opening_concat] at h ⊢
    cases k with
    | coordinate j =>
      cases j with
      | addState tick k s => simp [Call.opening, Coordinator.Call.opening] at h
      | addInfo tick subject detail => simp [Call.opening, Coordinator.Call.opening] at h
      | addCall tick e depth site => simp [Call.opening, Coordinator.Call.opening] at h
      | takeLocal stop => rfl
      | _ => exact ih h
    | finishLocal stop => rfl
    | _ => exact ih h

theorem opened_submits {c : Coordinator} (h : c.Opened u) (os : List Opinion) :
    (c.after (os.map .submit)).Opened u := by
  induction os generalizing c with
  | nil => exact h
  | cons o os ih => exact ih (Coordinator.opened_submit h o)

theorem opened_perform (h : s.coordinator.Opened u) (k : Call) :
    (s.perform k).value.2.coordinator.Opened (k.opening s.coordinator.config.logTraces u) := by
  rw [(s.perform_coordinator k).1]
  cases k with
  | coordinate j => exact Coordinator.opened_perform h j
  | receive o => exact Coordinator.opened_submit h o
  | finishLocal stop => exact opened_submits (Coordinator.opened_perform h (.takeLocal stop)) _
  | update =>
    rw [coordinatorCalls, Coordinator.after_append]
    exact Coordinator.opened_perform (opened_submits h s.inbox.queue) .processPending
  | send o => exact h
  | nextId => exact h

theorem config_run (config : Config) (ids : IdBlock) (ks : List Call) :
    ((new config ids).after ks).coordinator.config = config := by
  rw [((new config ids).run_coordinator ks).1]
  exact Coordinator.config_run config _

theorem opened_run (config : Config) (ids : IdBlock) (ks : List Call) :
    ((new config ids).after ks).coordinator.Opened (opening config.logTraces ks) := by
  induction ks using List.reverseRecOn with
  | nil => exact .none rfl
  | append_singleton ks k ih =>
    have hstep := opened_perform ih k
    rw [config_run] at hstep
    rw [opening_concat, after_append]
    exact hstep

theorem finishLocal_takes (s : Session) (stop : Tick) :
    (s.finishLocal stop).value.1 = (s.coordinator.takeLocal stop).value.1 := by
  cases hc : s.coordinator.current with
  | none => rw [(finishLocal_idle hc stop).1, Coordinator.takeLocal_none hc]
  | some o =>
    cases hd : s.coordinator.desynced with
    | false => rw [(finishLocal_closes hc hd stop).1, Coordinator.takeLocal_some hc hd]
    | true => simp [finishLocal, Coordinator.takeLocal, hc, hd]

/-- Whatever call hands out an opinion, it is the one that the coordinator hands out. -/
theorem taken_of_handedOut (ho : (s.perform k).value.1.opinion? = some o) :
    ∃ stop, (s.coordinator.takeLocal stop).value.1 = some o := by
  cases k with
  | coordinate j =>
    cases j with
    | takeLocal stop => exact ⟨stop, ho⟩
    | _ => cases ho
  | finishLocal stop => exact ⟨stop, (s.finishLocal_takes stop).symm.trans ho⟩
  | _ => cases ho

theorem start_of_handedOut (config : Config) (ids : IdBlock) (pre : List Call) (k : Call)
    (ho : (((new config ids).after pre).perform k).value.1.opinion? = some o) :
    opening config.logTraces pre = some o.start := by
  obtain ⟨stop, htaken⟩ := taken_of_handedOut ho
  exact Coordinator.start_of_takeLocal (opened_run config ids pre) htaken

theorem StartsUntraced.of_append (h : s.StartsUntraced (ks ++ ls)) : s.StartsUntraced ks := by
  rintro pre k post o rfl ho
  exact h pre k (post ++ ls) o (by simp) ho

/-- Sessions that have got the same calls, one of which traces. -/
abbrev Traced : Session → Session → Prop := Related .draws Coordinator.Traced

theorem traced_new (config : Config) (ids : IdBlock) :
    (new { config with logTraces := true } ids).Traced
      (new { config with logTraces := false } ids) where
  coordinator := ⟨⟨rfl, .nil, rfl, .running⟩, ⟨rfl, rfl⟩, fun _ => rfl, rfl, rfl, rfl⟩
  senders := rfl
  receiving := rfl
  queue := .nil
  ids := rfl

/-- One more call, if what it hands out starts where it would without traces. -/
theorem traced_perform (h : s.Traced t)
    (hs : s.coordinator.Opened (opening true ks)) (ht : t.coordinator.Opened (opening false ks))
    (hstart : ∀ o, (s.perform k).value.1.opinion? = some o → opening false ks = some o.start) :
    s.Matched .draws Coordinator.Traced t k k := by
  refine h.perform (Coordinator.simulation_abreast fun _ => rfl) (.same k) ?_ ?_
  · rintro j m rfl hm hjm
    refine h.coordinator.perform hjm ?_
    rintro stop rfl
    exact h.coordinator.takeLocal hs ht opening_eq_none hstart
  · rintro stop rfl
    refine h.coordinator.takeLocal hs ht opening_eq_none ?_
    rw [← finishLocal_takes]
    exact hstart

theorem traced_run (config : Config) (ids : IdBlock)
    (h : (new { config with logTraces := true } ids).StartsUntraced ks) :
    ((new { config with logTraces := true } ids).after ks).Traced
        ((new { config with logTraces := false } ids).after ks) ∧
      (new { config with logTraces := true } ids).outcomes ks =
        (new { config with logTraces := false } ids).outcomes ks ∧
      List.Forall₂ (Reply.Like .draws) ((new { config with logTraces := true } ids).replies ks)
        ((new { config with logTraces := false } ids).replies ks) := by
  induction ks using List.reverseRecOn with
  | nil => exact ⟨traced_new config ids, rfl, .nil⟩
  | append_singleton ks k ih =>
    obtain ⟨hstate, houtcomes, hreplies⟩ := ih h.of_append
    obtain ⟨⟨hanswers, -⟩, hmore⟩ := traced_perform hstate (opened_run _ ids ks)
      (opened_run _ ids ks) fun o ho => h ks k [] o rfl ho
    refine ⟨?_, ?_, ?_⟩
    · rw [after_append, after_append]
      exact hanswers.2
    · rw [outcomes_append, outcomes_append, houtcomes, outcomes_cons, outcomes_cons, hmore]
      rfl
    · rw [replies_append, replies_append]
      exact List.rel_append hreplies (.cons hanswers.1 .nil)

theorem agree_of_traced (config : Config) (ids : IdBlock)
    (h : (new { config with logTraces := true } ids).StartsUntraced ks) :
    (new { config with logTraces := true } ids).Agree
      (new { config with logTraces := false } ids) ks := by
  obtain ⟨hstate, houtcomes, hreplies⟩ := traced_run config ids h
  exact ⟨houtcomes, hstate.coordinator.lastValid, hstate.coordinator.desynced, hreplies⟩

theorem Reply.Like.opinion? {r r' : Reply} (h : r.Like .draws r') :
    Option.Rel Opinion.SameDraws r.opinion? r'.opinion? := by
  cases h with
  | coordinated h =>
    cases h with
    | taken hop => exact hop
    | _ => exact .none
  | finished hop => exact hop
  | _ => exact .none

/-- Whether calls are traced makes no difference to the outcomes of a session, to
what it has confirmed, to whether it has desynced, and to the ticks and samples
of what it hands out, at any step of a run, if and only if no opinion is handed
out that a traced call has opened on a tick of its own. -/
theorem tracing_aside (config : Config) (ids : IdBlock) (ks : List Call) :
    let s := new { config with logTraces := true } ids
    let t := new { config with logTraces := false } ids
    (∀ pre, pre <+: ks → s.Agree t pre) ↔ s.StartsUntraced ks := by
  intro s t
  constructor
  · rintro hagree pre k post o rfl ho
    have hreplies := (hagree (pre ++ [k]) ⟨post, by simp⟩).replies
    rw [replies_append, replies_append] at hreplies
    have hrel := (forall₂_last hreplies).opinion?
    rw [ho] at hrel
    cases hp : ((t.after pre).perform k).value.1.opinion? with
    | none =>
      rw [hp] at hrel
      cases hrel
    | some p =>
      rw [hp] at hrel
      cases hrel with
      | some hop =>
        rw [hop.start]
        exact start_of_handedOut _ ids pre k hp
  · rintro hstart pre ⟨post, rfl⟩
    exact agree_of_traced config ids hstart.of_append

/-- A call that is traced on tick 1 while the simulation catches up opens an
opinion there, and the only state is recorded on tick 2. Where calls are traced
the opinion is out of step with the remote one, and nothing is confirmed. -/
theorem tracing_shifts_start :
    let calls : List Call :=
      [.receive { origin := .remote, start := 2, stop := some 3, world := [1] },
        .coordinate (.startCatchUp 5), .coordinate (.addCall 1 { callSite := "a" } 0 1),
        .coordinate .finishCatchUp, .coordinate (.addState 2 .world 0x100000000)]
    let s := new { logTraces := true } .global
    let t := new { logTraces := false } .global
    (((s.after calls).finishLocal 3).value.1.map fun o => (o.start, o.simulating)) =
        some (1, true) ∧
      (((t.after calls).finishLocal 3).value.1.map fun o => (o.start, o.simulating)) =
        some (2, false) ∧
      s.outcomes (calls ++ [.finishLocal 3]) = [.queued, .discarded] ∧
      t.outcomes (calls ++ [.finishLocal 3]) = [.queued, .confirmed 2] ∧
      ¬ s.Agree t (calls ++ [.finishLocal 3]) := by
  intro calls s t
  have hs : s.outcomes (calls ++ [.finishLocal 3]) = [.queued, .discarded] := by decide
  have ht : t.outcomes (calls ++ [.finishLocal 3]) = [.queued, .confirmed 2] := by decide
  refine ⟨by decide, by decide, hs, ht, fun hagree => ?_⟩
  have houtcomes := hagree.outcomes
  rw [hs, ht] at houtcomes
  cases houtcomes

end Lockstep.Session
