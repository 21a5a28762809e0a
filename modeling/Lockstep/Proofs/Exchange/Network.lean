import Lockstep.Peer.Wyrand
import Lockstep.Proofs.Exchange.Invariant
import Lockstep.Proofs.Peer.Telling

/-! Two peers over a network that loses, repeats and reorders what they send.
Whatever arrives, each opinion tells what its peer has simulated. -/
namespace Lockstep

open Coordinator (submitted)

variable {G : Generator}

/-- What may happen at one end. -/
inductive Event
  | run (s : Side)
  /-- A copy that the other end has handed out arrives, perhaps not for the first time. -/
  | deliver (s : Side) (i : Nat)
  | update (s : Side)
  | setArbiterPlaying (s : Side) (playing : Bool)
  | startCatchUp (s : Side) (target : Tick)
  | finishCatchUp (s : Side)

def Node.coordinate (v : Node G) (k : Coordinator.Call) : Node G :=
  { v with peer.session.coordinator := (v.coordinator.perform k).value.2 }

namespace Exchange
variable (x : Exchange G)

/-- One event. Nothing is delivered that has not been handed out. -/
def happen : Event → Exchange G
  | .run s => Function.update x s (x s).runNext
  | .deliver s i =>
    match (x s.other).sent[i]? with
    | none => x
    | some o => Function.update x s ((x s).deliver o)
  | .update s => Function.update x s (x s).update
  | .setArbiterPlaying s playing =>
    Function.update x s ((x s).coordinate (.setArbiterPlaying playing))
  | .startCatchUp s target => Function.update x s ((x s).coordinate (.startCatchUp target))
  | .finishCatchUp s => Function.update x s ((x s).coordinate .finishCatchUp)

def after (events : List Event) : Exchange G := events.foldl happen x

/-- A move of an orderly schedule is one of the events. -/
theorem exists_event (m : Move) : ∃ e, x.step m = x.happen e := by
  cases m with
  | run s => exact ⟨.run s, rfl⟩
  | deliver s => exact ⟨.deliver s (x s).arrived, rfl⟩
  | update s => exact ⟨.update s, rfl⟩

end Exchange

/-- The opinion tells of one of the ranges that the lengths make of a world. -/
def Faithful (w : World G) (lengths : List Nat) (o : Opinion) : Prop :=
  ∃ i n, lengths[i]? = some n ∧ 0 < n ∧ o.Tells (w.steps (boundary lengths i)) n

variable {w w' ours theirs : World G} {lengths : List Nat} {n : Nat} {a b o : Opinion}

theorem faithful_wire : Faithful w lengths o.wire ↔ Faithful w lengths o := by
  simp only [Faithful, Opinion.tells_wire]

theorem Opinion.Tells.start_eq {m : Nat} (ho : o.Tells (w.steps m) n) :
    o.start = w.tick + UInt32.ofNat m :=
  (congrArg TickRange.start ho.range).trans (w.tick_steps m)

/-- Opinions that start together tell of one range. -/
theorem Faithful.meet (hfit : lengths.sum < 2 ^ 32) (htick : w.tick = w'.tick)
    (ha : Faithful w lengths a) (hb : Faithful w' lengths b) (hs : a.start = b.start) :
    ∃ i n, lengths[i]? = some n ∧ 0 < n ∧ a.Tells (w.steps (boundary lengths i)) n ∧
      b.Tells (w'.steps (boundary lengths i)) n := by
  obtain ⟨i, n, hi, hn, ha⟩ := ha
  obtain ⟨k, m, hk, hm, hb⟩ := hb
  have hlt : ∀ i, boundary lengths i < UInt32.size :=
    fun i => Nat.lt_of_le_of_lt (boundary_le_sum lengths i) hfit
  have hsum : boundary lengths i = boundary lengths k := by
    rw [ha.start_eq, hb.start_eq, htick, UInt32.add_right_inj] at hs
    have hnat := congrArg UInt32.toNat hs
    rwa [UInt32.toNat_ofNat_of_lt' (hlt i), UInt32.toNat_ofNat_of_lt' (hlt k)] at hnat
  obtain rfl : i = k := by
    rcases Nat.lt_trichotomy i k with hik | heq | hki
    · have hle := boundary_add_le hi hik
      omega
    · exact heq
    · have hle := boundary_add_le hk hki
      omega
  obtain rfl := Option.some.inj (hi.symm.trans hk)
  exact ⟨i, n, hi, hn, ha, hb⟩

theorem Faithful.agrees (hfit : lengths.sum < 2 ^ 32) (ha : Faithful w lengths a)
    (hb : Faithful w lengths b) (hs : a.start = b.start) : a.disagreement? b = none := by
  obtain ⟨_, _, -, -, ha, hb⟩ := ha.meet hfit rfl hb hs
  exact ha.agrees hb

namespace Coordinator

variable {config : Config} {ks ls : List Call}

theorem quiet_of_agreeing (hall : ∀ l ∈ submitted ks, ∀ r ∈ submitted ks, l.origin = .local →
    r.origin = .remote → l.start = r.start → l.disagreement? r = none) :
    ((new config).after ks).desynced = false ∧ (new config).reports ks = [] := by
  have hagree : ∀ m ∈ (new config).comparisons ks, m.Agrees :=
    fun m hm => agrees_of_all hall (paired_run hm)
  refine ⟨desynced_run_eq_false.2 hagree, ?_⟩
  cases judged_run config ks with
  | running hp hm hl hr => exact hr
  | @ended k ns hms hm hc hl hp =>
    have hk := hagree ⟨k.first, k.second⟩ (by simp [hms])
    simp [Comparison.Agrees, hc] at hk

end Coordinator

namespace Node

/-- All that a node has taken in, and all that waits for it or has been handed
out, tells what its own end or the other one has simulated. -/
structure Honest (v : Node G) (config : Config) (ours theirs : World G) (lengths : List Nat)
    (ks : List Coordinator.Call) : Prop where
  coordinator : v.coordinator = (Coordinator.new config).after ks
  own : ∀ o ∈ ofSide .local (submitted ks), Faithful ours lengths o
  received : ∀ o ∈ ofSide .remote (submitted ks), Faithful theirs lengths o
  waiting : ∀ o ∈ v.queue, o.origin = .remote ∧ Faithful theirs lengths o
  sent : ∀ o ∈ v.sent, o.origin = .remote ∧ Faithful ours lengths o
  idle : v.coordinator.current = none
  place : ∃ ran, lengths = ran ++ v.todo ∧ v.peer.world = ours.steps ran.sum

variable {v : Node G} {config : Config} {ks : List Coordinator.Call} {k : Coordinator.Call}

theorem honest_start (u : Setup) (theirs : World G) (lengths : List Nat) :
    Honest { peer := u.peer G, todo := lengths } u.config (u.peer G).world theirs lengths [] := by
  have hs : (u.peer G).session = .new u.config .global := by
    rw [Setup.peer]
    cases u.corruptFrom <;> rfl
  have hc : coordinator { peer := u.peer G, todo := lengths } = .new u.config :=
    congrArg Session.coordinator hs
  refine ⟨hc, by simp [ofSide], by simp [ofSide], ?_, by simp, ?_, [], rfl, rfl⟩
  · simp [queue, hs, Session.new]
  · rw [hc]
    rfl

theorem honest_runNext (h : v.Honest config ours theirs lengths ks) :
    ∃ ks, v.runNext.Honest config ours theirs lengths ks := by
  cases htodo : v.todo with
  | nil =>
    have hsame : v.runNext = v := by rw [runNext, htodo]
    rw [hsame]
    exact ⟨ks, h⟩
  | cons n todo =>
    obtain ⟨ls, o, hrange⟩ := v.peer.exists_recounts n h.idle
    obtain ⟨ran, hlen, hworld⟩ := h.place
    have hnext : v.runNext = { v with
        peer := (v.peer.runRange n).value.2
        todo, sent := v.sent ++ (o.map Opinion.wire).toList } := by
      rw [runNext, htodo, ← hrange.wire]
    have hafter : v.runNext.coordinator = v.coordinator.after ls := by
      rw [hnext]
      exact congrArg Session.coordinator hrange.session
    have hqueue : v.runNext.queue = v.queue := by
      rw [hnext]
      exact congrArg (·.inbox.queue) hrange.session
    have hfaith : ∀ w ∈ o, w.origin = .local ∧ Faithful ours lengths w := by
      intro w hw
      obtain ⟨horigin, hn, htells⟩ := hrange.told w hw
      rw [htodo] at hlen
      have hran : boundary lengths ran.length = ran.sum := by
        rw [boundary, hlen, List.take_left]
      refine ⟨horigin, ran.length, n, by simp [hlen], hn, ?_⟩
      rw [hran, ← hworld]
      exact htells
    have hside : ∀ x, ofSide x (submitted (ks ++ ls)) =
        ofSide x (submitted ks) ++ ofSide x o.toList := by
      intro x
      rw [Coordinator.submitted_append, hrange.submitted, ofSide_append]
    refine ⟨ks ++ ls, ?_, ?_, ?_, ?_, ?_, ?_, ran ++ [n], ?_, ?_⟩
    · rw [hafter, Coordinator.after_append, h.coordinator]
    · intro w hw
      rw [hside] at hw
      rcases List.mem_append.1 hw with hw | hw
      · exact h.own w hw
      · exact (hfaith w (Option.mem_toList.1 (mem_ofSide.1 hw).1)).2
    · intro w hw
      rw [hside] at hw
      rcases List.mem_append.1 hw with hw | hw
      · exact h.received w hw
      · obtain ⟨hw, horigin⟩ := mem_ofSide.1 hw
        simp [(hfaith w (Option.mem_toList.1 hw)).1] at horigin
    · rw [hqueue]
      exact h.waiting
    · intro w hw
      rw [hnext] at hw
      rcases List.mem_append.1 hw with hw | hw
      · exact h.sent w hw
      · obtain ⟨u, hu, rfl⟩ := Option.map_eq_some_iff.1 (Option.mem_toList.1 hw)
        exact ⟨rfl, faithful_wire.2 (hfaith u hu).2⟩
    · rw [hafter]
      exact hrange.idle
    · rw [hlen, htodo, hnext, List.append_assoc, List.singleton_append]
    · rw [hnext, List.sum_append, List.sum_singleton, World.steps_add, ← hworld]
      exact hrange.world

theorem honest_deliver (h : v.Honest config ours theirs lengths ks) (horigin : o.origin = .remote)
    (ho : Faithful theirs lengths o) : (v.deliver o).Honest config ours theirs lengths ks := by
  obtain ⟨inbox, hp, hsub⟩ : ∃ inbox, (v.peer.deliver o).value = { v.peer with
      session.inbox := inbox } ∧ ∀ w ∈ inbox.queue, w ∈ v.queue ∨ w = o := by
    by_cases hr : v.peer.session.inbox.receiving = true
    · refine ⟨{ v.peer.session.inbox with queue := v.queue ++ [o] }, ?_, fun w hw => ?_⟩
      · simp [Peer.deliver, Session.send, Channel.send_eq, horigin, Origin.isLocal, hr, queue]
      · exact (List.mem_append.1 hw).imp_right List.mem_singleton.1
    · refine ⟨v.peer.session.inbox, ?_, fun w hw => Or.inl hw⟩
      simp [Peer.deliver, Session.send, Channel.send_eq, horigin, Origin.isLocal, hr]
  have hnode : v.deliver o =
      { v with peer.session.inbox := inbox, arrived := v.arrived + 1 } := by
    rw [deliver, hp]
  rw [hnode]
  refine { h with waiting := fun w hw => ?_ }
  rcases hsub w hw with hw | rfl
  · exact h.waiting w hw
  · exact ⟨horigin, ho⟩

theorem honest_update (h : v.Honest config ours theirs lengths ks) :
    v.update.Honest config ours theirs lengths
      (ks ++ v.peer.session.coordinatorCalls .update) := by
  obtain ⟨hlocal, hremote⟩ := ofSide_remote fun o ho => (h.waiting o ho).1
  obtain ⟨-, hs⟩ := v.peer.session.update_eq
  have hsub : submitted (v.peer.session.coordinatorCalls .update) = v.queue :=
    v.peer.session.submitted_update
  have hside : ∀ x, ofSide x (submitted (ks ++ v.peer.session.coordinatorCalls .update)) =
      ofSide x (submitted ks) ++ ofSide x v.queue := by
    intro x
    rw [Coordinator.submitted_append, hsub, ofSide_append]
  have hafter : v.update.coordinator =
      v.coordinator.after (v.peer.session.coordinatorCalls .update) :=
    congrArg Session.coordinator hs
  refine ⟨?_, ?_, ?_, ?_, h.sent, ?_, h.place⟩
  · rw [hafter, Coordinator.after_append, h.coordinator]
  · rw [hside, hlocal, List.append_nil]
    exact h.own
  · intro o ho
    rw [hside, hremote] at ho
    rcases List.mem_append.1 ho with ho | ho
    · exact h.received o ho
    · exact (h.waiting o ho).2
  · have hempty : v.update.queue = [] := congrArg (·.inbox.queue) hs
    simp [hempty]
  · exact Session.idle_update h.idle

/-- Calls that submit nothing and leave the opinion in the making alone. -/
theorem honest_coordinate (h : v.Honest config ours theirs lengths ks) (hk : k.opinion? = none)
    (hc : ∀ c : Coordinator, (c.perform k).value.2.current = c.current) :
    (v.coordinate k).Honest config ours theirs lengths (ks ++ [k]) := by
  have hsub : submitted (ks ++ [k]) = submitted ks := by
    simp [Coordinator.submitted_append, Coordinator.submitted_cons, hk]
  refine ⟨?_, ?_, ?_, h.waiting, h.sent, ?_, h.place⟩
  · rw [Coordinator.after_append, ← h.coordinator]
    rfl
  · rw [hsub]
    exact h.own
  · rw [hsub]
    exact h.received
  · exact (hc v.coordinator).trans h.idle

theorem Honest.in_step (h : v.Honest config w w lengths ks) (hfit : lengths.sum < 2 ^ 32) :
    v.coordinator.desynced = false ∧ v.peer.update.value.1.isEmpty = true := by
  have hagree : ∀ {config ks} {u : Node G}, u.Honest config w w lengths ks →
      ((Coordinator.new config).after ks).desynced = false ∧
        (Coordinator.new config).reports ks = [] := by
    intro config ks u hu
    apply Coordinator.quiet_of_agreeing
    intro a ha b hb horigin horigin' hs
    exact (hu.own a (mem_ofSide.2 ⟨ha, horigin⟩)).agrees hfit
      (hu.received b (mem_ofSide.2 ⟨hb, horigin'⟩)) hs
  constructor
  · rw [h.coordinator]
    exact (hagree h).1
  · have hnone := (hagree (honest_update h)).2
    rw [Coordinator.reports_append, ← h.coordinator] at hnone
    have hrs : v.peer.update.value.1.reports = [] :=
      v.peer.session.update_eq.1.trans (List.append_eq_nil_iff.1 hnone).2
    have hevents : v.peer.update.value.1 = .ofReports v.peer.update.value.1.reports := rfl
    rw [hevents, hrs]
    rfl

end Node

namespace Exchange

variable {x : Exchange G} {setup : Side → Setup}

/-- Both nodes are honest about the worlds that they have been set up with. -/
def Honest (setup : Side → Setup) (lengths : List Nat) (x : Exchange G) : Prop :=
  ∀ s, ∃ ks, (x s).Honest (setup s).config ((setup s).peer G).world ((setup s.other).peer G).world
    lengths ks

theorem honest_start (G : Generator) (setup : Side → Setup) (lengths : List Nat) :
    Honest setup lengths (start G setup lengths) :=
  fun s => ⟨[], Node.honest_start (setup s) _ lengths⟩

/-- What one end claims does not depend on the other's state. -/
theorem honest_update {s : Side} {v : Node G} (h : Honest setup lengths x)
    (hv : ∃ ks, v.Honest (setup s).config ((setup s).peer G).world ((setup s.other).peer G).world
      lengths ks) : Honest setup lengths (Function.update x s v) := by
  intro u
  rcases s.eq_or_other u with rfl | rfl
  · rwa [Function.update_self]
  · rw [Function.update_of_ne s.other_ne]
    exact h s.other

theorem honest_happen (h : Honest setup lengths x) (e : Event) :
    Honest setup lengths (x.happen e) := by
  cases e with
  | run s =>
    obtain ⟨ks, hks⟩ := h s
    exact honest_update h (Node.honest_runNext hks)
  | deliver s i =>
    rw [happen]
    cases ho : (x s.other).sent[i]? with
    | none => exact h
    | some o =>
      obtain ⟨ks, hks⟩ := h s
      obtain ⟨ls, hls⟩ := h s.other
      obtain ⟨horigin, hfaith⟩ := hls.sent o (List.mem_of_getElem? ho)
      exact honest_update h ⟨ks, Node.honest_deliver hks horigin hfaith⟩
  | update s =>
    obtain ⟨ks, hks⟩ := h s
    exact honest_update h ⟨_, Node.honest_update hks⟩
  | setArbiterPlaying s playing =>
    obtain ⟨ks, hks⟩ := h s
    exact honest_update h ⟨_, Node.honest_coordinate hks rfl fun _ => rfl⟩
  | startCatchUp s target =>
    obtain ⟨ks, hks⟩ := h s
    refine honest_update h ⟨_, Node.honest_coordinate hks rfl fun c => ?_⟩
    show (c.startCatchUp target).current = c.current
    rw [Coordinator.startCatchUp]
    split <;> rfl
  | finishCatchUp s =>
    obtain ⟨ks, hks⟩ := h s
    exact honest_update h ⟨_, Node.honest_coordinate hks rfl fun _ => rfl⟩

theorem honest_after (events : List Event) (h : Honest setup lengths x) :
    Honest setup lengths (x.after events) := by
  induction events generalizing x with
  | nil => exact h
  | cons e events ih => exact ih (honest_happen h e)

theorem honest_play (moves : List Move) (h : Honest setup lengths x) :
    Honest setup lengths (x.play moves) := by
  induction moves generalizing x with
  | nil => exact h
  | cons m moves ih =>
    obtain ⟨e, he⟩ := x.exists_event m
    refine ih ?_
    rw [he]
    exact honest_happen h e

/-- Identical simulations never desync, even over a bad network. Two peers of
one seed and one list of maps that run the same ranges stay in step, whatever
their generator draws and whatever copies arrive, in whatever order and however
often, and no update has anything to tell. -/
theorem identical_never_desync (G : Generator) (seed : GeneratorState) (maps : List MapId)
    (config : Side → Config) (lengths : List Nat) (events : List Event)
    (hfit : lengths.sum < 2 ^ 32) (s : Side) :
    let x := (start G (fun s => { seed, maps, config := config s }) lengths).after events
    (x s).coordinator.desynced = false ∧ (x s).peer.update.value.1.isEmpty = true := by
  intro x
  obtain ⟨ks, hks⟩ := honest_after events (honest_start G _ lengths) s
  exact hks.in_step hfit

/-- The second copy arrives before the first, and once more behind it. -/
theorem identical_never_desync_reordered :
    let x := (start .wyrand (fun _ => { seed := 1, maps := [3, 3] }) [2, 1]).after
      [.run .left, .run .right, .run .right, .startCatchUp .left 3, .run .left,
        .deliver .left 1, .deliver .left 0, .deliver .left 1, .update .left]
    [2, 1].sum < 2 ^ 32 ∧ (x .left).coordinator.lastValid = some 2 ∧
      (x .left).coordinator.desynced = false ∧ (x .left).peer.update.value.1.isEmpty = true := by
  intro x
  have hfit : [2, 1].sum < 2 ^ 32 := by decide
  exact ⟨hfit, by decide, identical_never_desync .wyrand 1 [3, 3] (fun _ => {}) [2, 1] _ hfit .left⟩

end Exchange

end Lockstep
