import Lockstep.Proofs.Coordinator.Survival
import Lockstep.Proofs.Exchange.Basic
import Lockstep.Proofs.Peer.Range

/-! What every move of an exchange keeps: each end has gone through a run of its
coordinator that has taken in its own ranges and the first copies of the other. -/
namespace Lockstep

open Coordinator (submitted)

variable {G : Generator}

theorem ofSide_remote {os : List Opinion} (hos : ∀ o ∈ os, o.origin = .remote) :
    ofSide .local os = [] ∧ ofSide .remote os = os := by
  constructor
  · rw [ofSide, List.filter_eq_nil_iff]
    intro o ho
    simp [hos o ho]
  · rw [ofSide, List.filter_eq_self]
    intro o ho
    simp [hos o ho]

/-- The ranges `rs` are those of the lengths that have been run, or the first
of them where the run has ended. -/
def Covers (rs : List TickRange) (ran : List Nat) (ended : Bool) : Prop :=
  rs <+: spans 0 ran ∧ (ended = false → rs = spans 0 ran)

theorem covers_concat {rs : List TickRange} {ran : List Nat} {n : Nat} {ended ended' : Bool}
    {r : Option TickRange} (h : Covers rs ran ended) (hsome : r.isSome ↔ ended = false ∧ 0 < n)
    (hr : ∀ v ∈ r, v = ⟨UInt32.ofNat ran.sum, some (UInt32.ofNat (ran.sum + n))⟩)
    (hended : ended' = false → ended = false) :
    Covers (rs ++ r.toList) (ran ++ [n]) ended' := by
  have hspan : spans 0 (ran ++ [n]) = spans 0 ran ++ spans ran.sum [n] := by
    rw [spans_append, Nat.zero_add]
  rw [Covers, hspan]
  cases r with
  | none =>
    rw [Option.toList_none, List.append_nil]
    refine ⟨h.1.trans (List.prefix_append _ _), ?_⟩
    intro hd
    have hn : ¬ 0 < n := by
      intro hn
      have hnone := hsome.2 ⟨hended hd, hn⟩
      simp at hnone
    simp [h.2 (hended hd), spans, Nat.eq_zero_of_not_pos hn]
  | some v =>
    obtain ⟨hd, hn⟩ := hsome.1 rfl
    have heq : spans ran.sum [n] = [v] := by simp [spans, Nat.pos_iff_ne_zero.1 hn, hr v rfl]
    rw [h.2 hd, heq]
    exact ⟨List.prefix_refl _, fun _ => rfl⟩

namespace Node

/-- The node has come to its state by the calls `ks` on its coordinator, and
with the first of the `inbound` copies. -/
structure Tracks (v : Node G) (config : Config) (lengths : List Nat) (inbound : List Opinion)
    (ks : List Coordinator.Call) : Prop where
  coordinator : v.coordinator = (Coordinator.new config).after ks
  reports : v.reports = (Coordinator.new config).reports ks
  sent : v.sent = (ofSide .local (submitted ks)).map Opinion.wire
  received : ofSide .remote (submitted ks) ++ v.queue = inbound.take v.arrived
  arrived_le : v.arrived ≤ inbound.length
  idle : v.coordinator.current = none
  receiving : v.peer.session.inbox.receiving = true
  ranges : ∃ ran, lengths = ran ++ v.todo ∧ v.peer.tick = UInt32.ofNat ran.sum ∧
    Covers (v.sent.map Opinion.range) ran v.coordinator.desynced

variable {v : Node G} {config : Config} {lengths : List Nat} {inbound inbound' : List Opinion}
  {ks : List Coordinator.Call} {o : Opinion}

theorem Tracks.origin_of_sent (h : v.Tracks config lengths inbound ks) :
    ∀ o ∈ v.sent, o.origin = .remote := by
  rw [h.sent]
  intro o ho
  obtain ⟨w, -, rfl⟩ := List.mem_map.1 ho
  rfl

theorem Tracks.mono (h : v.Tracks config lengths inbound ks) (hp : inbound <+: inbound') :
    v.Tracks config lengths inbound' ks := by
  obtain ⟨more, rfl⟩ := hp
  refine { h with
    received := ?_
    arrived_le := ?_ }
  · rw [h.received, List.take_append_of_le_length h.arrived_le]
  · rw [List.length_append]
    exact Nat.le_add_right_of_le h.arrived_le

theorem tracks_start (u : Setup) (lengths : List Nat) (inbound : List Opinion) :
    Tracks { peer := u.peer G, todo := lengths } u.config lengths inbound [] := by
  have hs : (u.peer G).session = .new u.config .global ∧ (u.peer G).tick = 0 := by
    rw [Setup.peer]
    cases u.corruptFrom <;> exact ⟨rfl, rfl⟩
  have hc : coordinator { peer := u.peer G, todo := lengths } = .new u.config :=
    congrArg Session.coordinator hs.1
  refine ⟨hc, rfl, rfl, ?_, Nat.zero_le _, ?_, ?_, [], rfl, hs.2, List.nil_prefix, fun _ => rfl⟩
  · simp [queue, hs.1, Session.new, ofSide]
  · rw [hc]
    rfl
  · rw [hs.1]
    rfl

theorem tracks_deliver (h : v.Tracks config lengths inbound ks)
    (ho : inbound[v.arrived]? = some o) (hr : o.origin = .remote) :
    (v.deliver o).Tracks config lengths inbound ks := by
  have hp : (v.peer.deliver o).value = { v.peer with
      session.inbox.queue := v.peer.session.inbox.queue ++ [o] } := by
    simp [Peer.deliver, Session.send, Channel.send_eq, hr, Origin.isLocal, h.receiving]
  obtain ⟨hlt, -⟩ := List.getElem?_eq_some_iff.1 ho
  have hq : (v.deliver o).queue = v.queue ++ [o] := by simp [deliver, queue, hp]
  have hc : (v.deliver o).coordinator = v.coordinator := by simp [deliver, coordinator, hp]
  refine ⟨hc.trans h.coordinator, h.reports, h.sent, ?_, hlt, by rw [hc, h.idle], ?_, ?_⟩
  · rw [hq, ← List.append_assoc, h.received]
    simp [deliver, List.take_add_one, ho]
  · simp [deliver, hp, h.receiving]
  · simpa [deliver, coordinator, hp] using h.ranges

theorem tracks_update (h : v.Tracks config lengths inbound ks)
    (hin : ∀ o ∈ inbound, o.origin = .remote) :
    ∃ ks, v.update.Tracks config lengths inbound ks ∧ v.update.queue = [] ∧
      v.update.coordinator.hasPending = false := by
  have hq : ∀ o ∈ v.queue, o.origin = .remote := by
    intro o ho
    have hmem : o ∈ inbound.take v.arrived := h.received ▸ List.mem_append_right _ ho
    exact hin o (List.mem_of_mem_take hmem)
  obtain ⟨hlocal, hremote⟩ := ofSide_remote hq
  obtain ⟨hrs, hs⟩ := v.peer.session.update_eq
  have hsub : submitted (v.peer.session.coordinatorCalls .update) = v.queue :=
    v.peer.session.submitted_update
  have hafter : v.update.coordinator = v.coordinator.after _ := congrArg Session.coordinator hs
  have hcur : (v.coordinator.after (v.queue.map .submit)).current = none :=
    Coordinator.current_submits h.idle
  have hcalls : v.coordinator.after (v.peer.session.coordinatorCalls .update) =
      (v.coordinator.after (v.queue.map .submit)).processPending.2 := by
    rw [Session.coordinatorCalls, Coordinator.after_append]
    rfl
  have hrun : v.update.coordinator =
      (Coordinator.new config).after (ks ++ v.peer.session.coordinatorCalls .update) := by
    rw [hafter, Coordinator.after_append, h.coordinator]
  refine ⟨ks ++ v.peer.session.coordinatorCalls .update, ⟨hrun, ?_, ?_, ?_, h.arrived_le, ?_, ?_,
    ?_⟩, ?_, ?_⟩
  · rw [Coordinator.reports_append, ← h.reports, ← h.coordinator]
    exact congrArg (v.reports ++ ·) hrs
  · rw [Coordinator.submitted_append, hsub, ofSide_append, hlocal, List.append_nil]
    exact h.sent
  · rw [Coordinator.submitted_append, hsub, ofSide_append, hremote]
    have hempty : v.update.queue = [] := congrArg (·.inbox.queue) hs
    rw [hempty, List.append_nil]
    exact h.received
  · rw [hafter, hcalls, Coordinator.current_processPending]
    exact hcur
  · exact (congrArg (·.inbox.receiving) hs).trans h.receiving
  · obtain ⟨ran, hlen, htick, hpre, hall⟩ := h.ranges
    refine ⟨ran, hlen, htick, hpre, fun hd => hall ?_⟩
    rw [hrun] at hd
    rw [h.coordinator]
    exact Coordinator.desynced_of_append hd
  · exact congrArg (·.inbox.queue) hs
  · rw [hafter, hcalls, Coordinator.hasPending_processPending]

theorem tracks_runNext (h : v.Tracks config lengths inbound ks) (hreplay : config.replay = false) :
    v.sent <+: v.runNext.sent ∧ ∃ ks, v.runNext.Tracks config lengths inbound ks := by
  cases htodo : v.todo with
  | nil =>
    have hsame : v.runNext = v := by rw [runNext, htodo]
    rw [hsame]
    exact ⟨List.prefix_refl _, ks, h⟩
  | cons n todo =>
    have hconfig : v.coordinator.config = config := by
      rw [h.coordinator, Coordinator.config_run]
    obtain ⟨ls, o, hrange⟩ := v.peer.exists_runsRange n h.idle (hconfig ▸ hreplay)
    have hnext : v.runNext = { v with
        peer := (v.peer.runRange n).value.2
        todo, sent := v.sent ++ (o.map Opinion.wire).toList } := by
      rw [runNext, htodo, ← hrange.wire]
    have hlocal : ofSide .local o.toList = o.toList ∧ ofSide .remote o.toList = [] := by
      cases o with
      | none => exact ⟨rfl, rfl⟩
      | some w => simp [ofSide, (hrange.range w rfl).1]
    have hafter : v.runNext.coordinator = v.coordinator.after ls := by
      rw [hnext]
      exact congrArg Session.coordinator hrange.session
    have hrun : v.runNext.coordinator = (Coordinator.new config).after (ks ++ ls) := by
      rw [hafter, Coordinator.after_append, h.coordinator]
    have hqueue : v.runNext.queue = v.queue := by
      rw [hnext]
      exact congrArg (·.inbox.queue) hrange.session
    refine ⟨by simp [hnext], ks ++ ls, hrun, ?_, ?_, ?_, ?_, ?_, ?_, ?_⟩
    · have hnone : v.coordinator.reports ls = [] := hrange.reports
      rw [Coordinator.reports_append, ← h.coordinator, hnone, List.append_nil, hnext]
      exact h.reports
    · rw [Coordinator.submitted_append, hrange.submitted, ofSide_append, hlocal.1, List.map_append,
        ← h.sent, hnext]
      cases o <;> rfl
    · rw [Coordinator.submitted_append, hrange.submitted, ofSide_append, hlocal.2, List.append_nil,
        hqueue, hnext]
      exact h.received
    · rw [hnext]
      exact h.arrived_le
    · rw [hafter]
      exact hrange.idle
    · rw [hnext]
      exact (congrArg (·.inbox.receiving) hrange.session).trans h.receiving
    · obtain ⟨ran, hlen, htick, hcovers⟩ := h.ranges
      have hsent : v.runNext.sent.map Opinion.range =
          v.sent.map Opinion.range ++ (o.map Opinion.range).toList := by
        rw [hnext]
        cases o <;> simp
      refine ⟨ran ++ [n], ?_, ?_, ?_⟩
      · rw [hlen, htodo, hnext, List.append_assoc, List.singleton_append]
      · rw [hnext, List.sum_append, List.sum_singleton, UInt32.ofNat_add, ← htick]
        exact hrange.tick
      · rw [hsent]
        apply covers_concat hcovers
        · rw [Option.isSome_map]
          exact hrange.isSome
        · intro r hr
          obtain ⟨w, hw, rfl⟩ := Option.map_eq_some_iff.1 hr
          rw [(hrange.range w hw).2, htick, UInt32.ofNat_add]
        · intro hd
          rw [hrun] at hd
          rw [h.coordinator]
          exact Coordinator.desynced_of_append hd

end Node

namespace Exchange

variable {x : Exchange G} {setup : Side → Setup} {lengths : List Nat}

/-- Every node tracks what the other has sent. -/
def Tracked (setup : Side → Setup) (lengths : List Nat) (x : Exchange G) : Prop :=
  ∀ s, ∃ ks, (x s).Tracks (setup s).config lengths (x s.other).sent ks

theorem tracked_start (G : Generator) (setup : Side → Setup) (lengths : List Nat) :
    Tracked setup lengths (start G setup lengths) :=
  fun s => ⟨[], Node.tracks_start (setup s) lengths _⟩

/-- A change at one end keeps the other on track if nothing is unsent. -/
theorem tracked_update {s : Side} {v : Node G} (h : Tracked setup lengths x)
    (hp : (x s).sent <+: v.sent)
    (hv : ∃ ks, v.Tracks (setup s).config lengths (x s.other).sent ks) :
    Tracked setup lengths (Function.update x s v) := by
  intro u
  rcases s.eq_or_other u with rfl | rfl
  · rw [Function.update_self, Function.update_of_ne u.other_ne]
    exact hv
  · obtain ⟨ks, hks⟩ := h s.other
    rw [Side.other_other] at hks
    rw [Side.other_other, Function.update_self, Function.update_of_ne s.other_ne]
    exact ⟨ks, hks.mono hp⟩

theorem tracked_step (hreplay : ∀ s, (setup s).config.replay = false)
    (h : Tracked setup lengths x) (m : Move) : Tracked setup lengths (x.step m) := by
  cases m with
  | run s =>
    obtain ⟨ks, hks⟩ := h s
    obtain ⟨hp, hnext⟩ := Node.tracks_runNext hks (hreplay s)
    exact tracked_update h hp hnext
  | deliver s =>
    rw [step]
    cases ho : (x s.other).sent[(x s).arrived]? with
    | none => exact h
    | some o =>
      obtain ⟨ks, hks⟩ := h s
      obtain ⟨ls, hls⟩ := h s.other
      have hr := hls.origin_of_sent o (List.mem_of_getElem? ho)
      exact tracked_update h (List.prefix_refl _) ⟨ks, Node.tracks_deliver hks ho hr⟩
  | update s =>
    obtain ⟨ks, hks⟩ := h s
    obtain ⟨ls, hls⟩ := h s.other
    obtain ⟨ks', hks', -⟩ := Node.tracks_update hks hls.origin_of_sent
    exact tracked_update h (List.prefix_refl _) ⟨ks', hks'⟩

theorem tracked_play (hreplay : ∀ s, (setup s).config.replay = false) (moves : List Move)
    (h : Tracked setup lengths x) : Tracked setup lengths (x.play moves) := by
  induction moves generalizing x with
  | nil => exact h
  | cons m moves ih => exact ih (tracked_step hreplay h m)

end Exchange

end Lockstep
