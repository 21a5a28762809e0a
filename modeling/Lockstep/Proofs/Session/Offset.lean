import Lockstep.Proofs.Coordinator.Indexing
import Lockstep.Proofs.Coordinator.Reports
import Lockstep.Proofs.Opinion.Parting
import Lockstep.Proofs.Report
import Lockstep.Proofs.Session.Handoff
import Lockstep.Proofs.Session.Tracing

/-! What the offset of a report points at: it is found in the hashes of two opinions, and it is
good for the entries of the local one if that one comes from the recording calls. -/
namespace Lockstep

/-- The offset `i` is that of a local entry up to which the traces agree, and the lines around it
are those of the entries at most so far away, with its own among them. -/
structure Report.PointsAt (r : Report) (i : Nat) : Prop where
  lt_length : i < r.localOpinion.entries.length
  agree : ∀ j < i, ∃ h, r.localOpinion.hashes[j]? = some h ∧ r.remoteOpinion.hashes[j]? = some h
  lines : ∀ radius, r.linesAround radius =
    (r.localOpinion.entries.zipIdx.filter fun x => i ≤ x.2 + radius ∧ x.2 ≤ i + radius).map
      (·.1.describe)
  quoted : ∀ radius, (r.localOpinion.entries[i]).describe ∈ r.linesAround radius
  ne_nil : ∀ radius, r.linesAround radius ≠ []
  length_le : ∀ radius, (r.linesAround radius).length ≤ 2 * radius + 1

/-- Where traces part, there is a local entry if there is one for each local hash. -/
theorem Report.pointsAt {r : Report} {i : Nat} (hdiff : r.diffAt = some i)
    (hparts : PartsAt r.localOpinion.hashes r.remoteOpinion.hashes i)
    (hindexed : r.localOpinion.Indexed) : r.PointsAt i := by
  have hi : i < r.localOpinion.entries.length := by
    have hours := hparts.ours
    rw [hindexed, List.length_map] at hours
    exact hours
  have hquoted := r.describe_mem_linesAround hdiff hi
  refine ⟨hi, fun j hj => ?_, r.linesAround_eq_filter hdiff, hquoted, fun radius => ?_,
    r.length_linesAround_le⟩
  · have hat := List.getElem?_eq_getElem (Nat.lt_trans hj hparts.ours)
    exact ⟨_, hat, (hparts.before j hj).symm.trans hat⟩
  · exact List.ne_nil_of_mem (hquoted radius)

namespace Session

variable {s : Session} {k : Call} {ks ls : List Call} {o : Opinion} {config : Config}
  {ids : IdBlock}

/-- The opinion that a call submits by itself, past the recording calls and the inbox. -/
def Call.submits? : Call → Option Opinion
  | .coordinate k => k.opinion?
  | .receive o => some o
  | _ => none

def ownOpinions (s : Session) (ks : List Call) : List Opinion :=
  (s.replies ks).filterMap Reply.opinion?

/-- All local opinions come from the recording calls: one that a call submits by itself has been
handed out before. Remote opinions may be anything. -/
def OwnLocals (s : Session) (ks : List Call) : Prop :=
  ∀ pre k post o, ks = pre ++ k :: post → k.submits? = some o → o.origin = .local →
    o ∈ s.ownOpinions pre

theorem ownLocals_iff : s.OwnLocals ks ↔ ∀ i < ks.length, ∀ o ∈ ks[i]?.bind Call.submits?,
    o.origin = .local → o ∈ s.ownOpinions (ks.take i) := by
  constructor
  · intro h i hi o ho horigin
    rw [List.getElem?_eq_getElem hi] at ho
    exact h (ks.take i) ks[i] (ks.drop (i + 1)) o (by simp) ho horigin
  · rintro h pre k post o rfl hk horigin
    have hown := h pre.length (by simp) o (by simpa using hk) horigin
    rwa [List.take_left] at hown

instance (s : Session) (ks : List Call) : Decidable (s.OwnLocals ks) :=
  decidable_of_iff _ ownLocals_iff.symm

theorem OwnLocals.of_append (h : s.OwnLocals (ks ++ ls)) : s.OwnLocals ks := by
  rintro pre k post o rfl
  exact h pre k (post ++ ls) o (by simp)

theorem ownOpinions_concat (s : Session) (ks : List Call) (k : Call) :
    s.ownOpinions (ks ++ [k]) =
      s.ownOpinions ks ++ ((s.after ks).perform k).value.1.opinion?.toList := by
  rw [ownOpinions, replies_append, List.filterMap_append]
  rfl

theorem indexed_coordinator (config : Config) (ids : IdBlock) (ks : List Call) :
    ((new config ids).after ks).coordinator.Indexed := by
  rw [((new config ids).run_coordinator ks).1]
  exact Coordinator.indexed_run config _

theorem indexed_ownOpinions (ho : o ∈ (new config ids).ownOpinions ks) : o.Indexed := by
  induction ks using List.reverseRecOn with
  | nil => cases ho
  | append_singleton ks k ih =>
    rw [ownOpinions_concat, List.mem_append, Option.mem_toList] at ho
    rcases ho with hbefore | hlast
    · exact ih hbefore
    · obtain ⟨stop, htaken⟩ := taken_of_handedOut hlast
      exact (indexed_coordinator config ids ks).takeLocal htaken

/-- Only remote opinions wait in an inbox: local ones are refused. -/
theorem remote_inbox (config : Config) (ids : IdBlock) (ks : List Call) :
    ∀ o ∈ ((new config ids).after ks).inbox.queue, o.origin = .remote := by
  induction ks using List.reverseRecOn with
  | nil => exact List.forall_mem_nil _
  | append_singleton ks k ih =>
    rw [after_append, after_cons, after_nil, inbox_perform]
    cases k with
    | send p =>
      dsimp only
      rw [Channel.value_send]
      cases horigin : p.origin with
      | «local» => exact ih
      | remote =>
        split
        · exact ih
        · split
          · exact List.forall_mem_append.2 ⟨ih, List.forall_mem_singleton.2 horigin⟩
          · exact ih
    | update => exact List.forall_mem_nil _
    | _ => exact ih

theorem indexed_submits (h : s.coordinator.Indexed)
    (hinbox : ∀ o ∈ s.inbox.queue, o.origin = .remote)
    (hown : ∀ o, k.submits? = some o → o.origin = .local → o.Indexed)
    (ho : o ∈ Coordinator.submitted (s.coordinatorCalls k)) (horigin : o.origin = .local) :
    o.Indexed := by
  cases k with
  | coordinate j =>
    cases Coordinator.mem_submitted.1 ho with
    | head => exact hown o rfl horigin
    | tail _ hnone => cases hnone
  | receive p =>
    cases List.mem_singleton.1 ho
    exact hown o rfl horigin
  | finishLocal stop =>
    change o ∈ Coordinator.submitted ((s.coordinator.takeLocal stop).value.1.toList.map .submit)
      at ho
    rw [Coordinator.submitted_submits, Option.mem_toList] at ho
    exact h.takeLocal ho
  | update =>
    rw [submitted_update] at ho
    cases horigin.symm.trans (hinbox o ho)
  | send p => cases ho
  | nextId => cases ho

theorem indexed_submitted (hown : (new config ids).OwnLocals ks)
    (ho : o ∈ Coordinator.submitted ((new config ids).coordinatorRun ks))
    (horigin : o.origin = .local) : o.Indexed := by
  induction ks using List.reverseRecOn with
  | nil => cases ho
  | append_singleton ks k ih =>
    rw [coordinatorRun_append, Coordinator.submitted_append, List.mem_append] at ho
    rcases ho with hbefore | hlast
    · exact ih hown.of_append hbefore
    · rw [coordinatorRun, coordinatorRun, List.append_nil] at hlast
      refine indexed_submits (indexed_coordinator config ids ks) (remote_inbox config ids ks)
        (fun p hp hlocal => ?_) hlast horigin
      exact indexed_ownOpinions (hown ks k [] p rfl hp hlocal)

/-- The offset of a report points at a real local entry. If all local opinions that a run submits
are those that it has recorded, the local opinion of every report has one hash for each entry. An
offset is that of an entry: the traces agree before it, and the lines around it are those of the
entries at most so far away, with its own among them. Without an offset there are no lines. -/
theorem offset_points_at_entry (config : Config) (ids : IdBlock) (ks : List Call)
    (hown : (new config ids).OwnLocals ks) :
    ∀ r ∈ (new config ids).reports ks,
      r.localOpinion.hashes = r.localOpinion.entries.map TraceEntry.hash ∧
        (∀ i, r.diffAt = some i → r.PointsAt i) ∧
        (r.diffAt = none → ∀ radius, r.linesAround radius = []) := by
  intro r hr
  rw [((new config ids).run_coordinator ks).2] at hr
  obtain ⟨pre, a, mid, b, post, hcalls, habout, -⟩ := Coordinator.reports_inArrivalOrder config hr
  have hsubmitted :
      r.localOpinion ∈ Coordinator.submitted ((new config ids).coordinatorRun ks) := by
    rw [Coordinator.mem_submitted, hcalls]
    rcases habout.opinions with ⟨rfl, -⟩ | ⟨-, rfl⟩ <;> simp
  have hindexed := indexed_submitted hown hsubmitted habout.local_origin
  refine ⟨hindexed, fun i hi => ?_, r.linesAround_none⟩
  have hparts := Opinion.partsAt_of_traceDiff? (habout.diffAt.symm.trans hi)
  exact r.pointsAt hi hparts hindexed

/-- Two texts, the second of which the remote side has logged differently. The range before it was
taken and submitted by hand, and the object of the local opinion comes from the pool. -/
theorem offset_points_at_entry_reuse :
    let hash (subject detail : String) : TraceHash :=
      (TraceHash.ofString subject).combine (TraceHash.ofString detail)
    let ours : Opinion :=
      { origin := .local, start := 0, stop := some 1
        entries := [.info ⟨0, "x", "y"⟩], hashes := [hash "x" "y"] }
    let past : Opinion := { origin := .remote, start := 0, stop := some 1 }
    let theirs : Opinion :=
      { origin := .remote, start := 1, stop := some 2, world := [7], hashes := [hash "a" "b", 5] }
    let calls : List Call :=
      [.coordinate (.addInfo 0 "x" "y"), .coordinate (.takeLocal 1), .receive ours,
        .send past, .update, .coordinate (.addInfo 1 "a" "b"),
        .coordinate (.addInfo 1 "c" "d"), .finishLocal 2, .send theirs, .update]
    ∃ r ∈ (new {} .global).reports calls, r.diffAt = some 1 ∧ r.PointsAt 1 ∧
      r.linesAround 0 = ["[1] c | d"] := by
  intro hash ours past theirs calls
  have hpoints := offset_points_at_entry {} .global calls (by decide)
  obtain ⟨r, hr, hdiff, hlines⟩ : ∃ r ∈ (new {} .global).reports calls,
      r.diffAt = some 1 ∧ r.linesAround 0 = ["[1] c | d"] := by
    decide
  exact ⟨r, hr, hdiff, (hpoints r hr).2.1 1 hdiff, hlines⟩

end Session

end Lockstep
