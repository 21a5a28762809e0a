import Lockstep.Peer.Wyrand
import Lockstep.Proofs.Coordinator.Mirror
import Lockstep.Proofs.Exchange.Invariant

/-! Both ends of an exchange come to the same verdict, under any schedule. -/
namespace Lockstep

open Coordinator (submitted)

variable {G : Generator}

variable {l m : List Opinion} {S : List TickRange} {t : Tick} {r r' : TickRange}

/-- The opinions on the same range are equal before some place, and unequal at
it, in a range that starts on this tick. -/
def FirstUnequal (S : List TickRange) (l m : List Opinion) (t : Tick) : Prop :=
  ∃ (i : Nat) (a b : Opinion), l[i]? = some a ∧ m[i]? = some b ∧ S[i]? = some a.range ∧
    a.range = b.range ∧ a.start = t ∧ a.disagreement? b ≠ none ∧
    ∀ j < i, ∃ a' b' : Opinion, l[j]? = some a' ∧ m[j]? = some b' ∧ a'.disagreement? b' = none

theorem getElem?_of_ranges {i : Nat} {a : Opinion} (hp : l.map Opinion.range <+: S)
    (ha : l[i]? = some a) : S[i]? = some a.range := by
  obtain ⟨rest, rfl⟩ := hp
  obtain ⟨hlt, rfl⟩ := List.getElem?_eq_some_iff.1 ha
  rw [List.getElem?_append_left (by simpa using hlt)]
  simp [hlt]

theorem lt_of_getElem?_start {i j : Nat} (hS : S.Pairwise (·.start < ·.start)) (hij : i < j)
    (hr : S[i]? = some r) (hr' : S[j]? = some r') : r.start < r'.start := by
  obtain ⟨hi, rfl⟩ := List.getElem?_eq_some_iff.1 hr
  obtain ⟨hj, rfl⟩ := List.getElem?_eq_some_iff.1 hr'
  exact List.pairwise_iff_getElem.1 hS i j hi hj hij

theorem eq_of_getElem?_start {i j : Nat} (hS : S.Pairwise (·.start < ·.start))
    (hr : S[i]? = some r) (hr' : S[j]? = some r') (hs : r.start = r'.start) : i = j := by
  rcases Nat.lt_trichotomy i j with hlt | heq | hlt
  · exact absurd (hs ▸ lt_of_getElem?_start hS hlt hr hr') (UInt32.lt_irrefl _)
  · exact heq
  · exact absurd (hs ▸ lt_of_getElem?_start hS hlt hr' hr) (UInt32.lt_irrefl _)

theorem firstUnequal_of_firstClash {h : List Opinion} (hS : S.Pairwise (·.start < ·.start))
    (hl : l.map Opinion.range <+: S) (hm : m.map Opinion.range <+: S)
    (hlocal : l = (ofSide .local h).map Opinion.wire) (hremote : ofSide .remote h = m)
    (hc : FirstClash h t) : FirstUnequal S l m t := by
  obtain ⟨⟨a, ha, b, hb, rfl, hbt, hdis⟩, hmin⟩ := hc
  rw [hremote] at hb
  have hwire : a.wire ∈ l := hlocal ▸ List.mem_map_of_mem ha
  obtain ⟨i, hi⟩ := List.mem_iff_getElem?.1 hwire
  obtain ⟨j, hj⟩ := List.mem_iff_getElem?.1 hb
  have hSi := getElem?_of_ranges hl hi
  have hSj := getElem?_of_ranges hm hj
  obtain rfl : i = j := eq_of_getElem?_start hS hSi hSj hbt.symm
  refine ⟨i, a.wire, b, hi, hj, hSi, ?_, rfl, by simpa using hdis, ?_⟩
  · exact Option.some.inj (hSi.symm.trans hSj)
  · intro k hk
    obtain ⟨hil, -⟩ := List.getElem?_eq_some_iff.1 hi
    obtain ⟨him, -⟩ := List.getElem?_eq_some_iff.1 hj
    obtain ⟨a', hka⟩ : ∃ a', l[k]? = some a' :=
      ⟨_, List.getElem?_eq_getElem (Nat.lt_trans hk hil)⟩
    obtain ⟨b', hkb⟩ : ∃ b', m[k]? = some b' :=
      ⟨_, List.getElem?_eq_getElem (Nat.lt_trans hk him)⟩
    refine ⟨a', b', hka, hkb, ?_⟩
    by_contra hne
    have hSk := getElem?_of_ranges hl hka
    have hrange := Option.some.inj (hSk.symm.trans (getElem?_of_ranges hm hkb))
    have hb' : b' ∈ ofSide .remote h := hremote ▸ List.mem_of_getElem? hkb
    have hka' := List.mem_of_getElem? hka
    rw [hlocal, List.mem_map] at hka'
    obtain ⟨w, hw, rfl⟩ := hka'
    rw [Opinion.disagreement?_wire_left] at hne
    have hstart : b'.start = w.start := congrArg TickRange.start hrange.symm
    have hclash : Clash h w.start := ⟨w, hw, b', hb', rfl, hstart, hne⟩
    exact UInt32.not_lt.2 (hmin _ hclash) (lt_of_getElem?_start hS hk hSk hSi)

namespace Node

variable {v : Node G} {config : Config} {lengths : List Nat} {inbound : List Opinion}
  {ks : List Coordinator.Call}

theorem Tracks.ranges_of_ran (h : v.Tracks config lengths inbound ks) (hran : v.todo = []) :
    v.sent.map Opinion.range <+: spans 0 lengths := by
  obtain ⟨ran, hlen, -, hp, -⟩ := h.ranges
  rwa [hlen, hran, List.append_nil]

theorem Tracks.received_all (h : v.Tracks config lengths inbound ks) (hq : v.queue = [])
    (ha : v.arrived = inbound.length) : ofSide .remote (submitted ks) = inbound := by
  have hr := h.received
  rwa [hq, List.append_nil, ha, List.take_length] at hr

/-- What one end has taken in goes by increasing start and fits the window. -/
theorem Tracks.roomy (h : v.Tracks config lengths inbound ks) (hfit : lengths.sum < 2 ^ 32)
    (hcap : lengths.length ≤ config.maxBacklog) (hran : v.todo = [])
    (hall : ofSide .remote (submitted ks) = inbound)
    (hin : inbound.map Opinion.range <+: spans 0 lengths) :
    Roomy config.window (submitted ks) := by
  have hS := pairwise_spans (t := 0) (by simpa using hfit)
  have hlocal : (ofSide .local (submitted ks)).map Opinion.range <+: spans 0 lengths := by
    have hp := h.ranges_of_ran hran
    rwa [h.sent, List.map_map] at hp
  have hside : ∀ x, (ofSide x (submitted ks)).map Opinion.range <+: spans 0 lengths := by
    intro x
    cases x with
    | «local» => exact hlocal
    | remote => exact hall ▸ hin
  constructor
  · intro x
    have hp := hS.sublist (hside x).sublist
    rwa [List.pairwise_map] at hp
  · intro x
    have hlen := (hside x).length_le
    have hspans := length_spans 0 lengths
    rw [List.length_map] at hlen
    rw [Config.window]
    omega

end Node

namespace Exchange

variable {x : Exchange G} {setup : Side → Setup} {lengths : List Nat}

/-- Both ends have desynced, each has reported it once, and the two reports
tell of the same conflict. -/
structure Desynced (x : Exchange G) (lengths : List Nat) (report : Side → Report) : Prop where
  desynced : ∀ s, (x s).coordinator.desynced = true
  reports : ∀ s, (x s).reports = [report s]
  first : ∃ t, FirstUnequal (spans 0 lengths) (x .left).sent (x .right).sent t ∧
    ∀ s, (report s).localOpinion.start = t
  cause : ∃ d, (report .left).cause = .divergence d ∧
    ((report .right).cause = .divergence d ∨ (report .right).cause = .divergence d.swap)
  diffAt : (report .right).diffAt = (report .left).diffAt
  lastValid : (report .right).lastValid = (report .left).lastValid

theorem complete_of_updates (h : Tracked setup lengths x) (hran : ∀ s, (x s).todo = [])
    (hdelivered : ∀ s, (x s).arrived = (x s.other).sent.length) :
    ((x.step (.update .left)).step (.update .right)).Complete := by
  have he : ∀ s, ((x.step (.update .left)).step (.update .right)) s = (x s).update := by
    intro s
    cases s <;> rfl
  constructor
  · intro s
    rw [he]
    exact hran s
  · intro s
    rw [he, he]
    exact hdelivered s
  · intro s
    rw [he]
    obtain ⟨ks, hks⟩ := h s
    obtain ⟨ls, hls⟩ := h s.other
    obtain ⟨-, -, hq, hp⟩ := Node.tracks_update hks hls.origin_of_sent
    exact ⟨hq, hp⟩

theorem settled (h : Tracked setup lengths x) (hx : x.Complete) (hfit : lengths.sum < 2 ^ 32)
    (hcap : ∀ s, lengths.length ≤ (setup s).config.maxBacklog) (s : Side) :
    ∃ ks, (x s).Tracks (setup s).config lengths (x s.other).sent ks ∧
      ofSide .remote (submitted ks) = (x s.other).sent ∧
      Roomy (setup s).config.window (submitted ks) := by
  obtain ⟨ks, hks⟩ := h s
  obtain ⟨ls, hls⟩ := h s.other
  have hall := hks.received_all (hx.updated s).1 (hx.delivered s)
  have hin := hls.ranges_of_ran (hx.ran s.other)
  exact ⟨ks, hks, hall, hks.roomy hfit (hcap s) (hx.ran s) hall hin⟩

/-- The two opinions of a report are on the same range, so that they can only
disagree by a divergence, which the ends may see from different sides. -/
theorem divergence_of_matches {ρ ρ' : Report} (hm : ρ.Matches ρ')
    (hr : ρ.localOpinion.range = ρ'.localOpinion.range) :
    ∃ d, ρ.cause = .divergence d ∧
      (ρ'.cause = .divergence d ∨ ρ'.cause = .divergence d.swap) := by
  have hrange : ρ.localOpinion.range = ρ.remoteOpinion.range := by
    rw [hm.remote_eq, Opinion.range_wire, hr]
  obtain ⟨d, hd⟩ : ∃ d, ρ.cause = .divergence d := by
    rcases hm.conflict with hc | hc
    · exact Opinion.divergence_of_range hrange hc
    · obtain ⟨d, hd⟩ := Opinion.divergence_of_range hrange hc
      refine ⟨d.swap, ?_⟩
      rw [← Disagreement.swap_swap ρ.cause, hd]
      rfl
  refine ⟨d, hd, ?_⟩
  rcases hm.cause with hc | hc
  · exact Or.inl (hc.trans hd)
  · right
    rw [hc, hd]
    rfl

/-- What both ends find, once there is nothing left to run, deliver or update. -/
theorem verdict_of_complete (h : Tracked setup lengths x) (hx : x.Complete)
    (hfit : lengths.sum < 2 ^ 32) (hcap : ∀ s, lengths.length ≤ (setup s).config.maxBacklog) :
    (∀ s, (x s).coordinator.desynced = false ∧ (x s).reports = []) ∨
      ∃ report, x.Desynced lengths report := by
  obtain ⟨ks, hks, hall, hroom⟩ := settled h hx hfit hcap .left
  obtain ⟨ls, hls, hall', hroom'⟩ := settled h hx hfit hcap .right
  have hmirror : Mirrored (submitted ks) (submitted ls) :=
    ⟨hall'.trans hks.sent, hall.trans hls.sent⟩
  have hp : ((Coordinator.new (setup .left).config).after ks).hasPending = false := by
    rw [← hks.coordinator]
    exact (hx.updated .left).2
  have hp' : ((Coordinator.new (setup .right).config).after ls).hasPending = false := by
    rw [← hls.coordinator]
    exact (hx.updated .right).2
  rcases Coordinator.mirrored_verdicts hroom hroom' hmirror hp hp' with
    ⟨⟨hd, hrs⟩, hd', hrs'⟩ | ⟨ρ, ρ', ⟨hd, hrs⟩, ⟨hd', hrs'⟩, hmatch, hfirst, hloc, hloc'⟩
  · left
    intro s
    cases s with
    | left => exact ⟨by rw [hks.coordinator, hd], hks.reports.trans hrs⟩
    | right => exact ⟨by rw [hls.coordinator, hd'], hls.reports.trans hrs'⟩
  · right
    have hS := pairwise_spans (t := 0) (by simpa using hfit)
    have hl := hks.ranges_of_ran (hx.ran .left)
    have hm := hls.ranges_of_ran (hx.ran .right)
    have hmem : ρ.localOpinion.range ∈ spans 0 lengths := by
      refine hl.subset ?_
      rw [hks.sent, List.map_map]
      exact List.mem_map_of_mem hloc
    have hmem' : ρ'.localOpinion.range ∈ spans 0 lengths := by
      refine hm.subset ?_
      rw [hls.sent, List.map_map]
      exact List.mem_map_of_mem hloc'
    have hrange := eq_of_pairwise_start hS hmem hmem' hmatch.start_eq.symm
    refine ⟨Side.pair ρ ρ', ?_, ?_,
      ⟨_, firstUnequal_of_firstClash hS hl hm hks.sent hall hfirst, ?_⟩,
      divergence_of_matches hmatch hrange, hmatch.diffAt, hmatch.lastValid⟩
    · intro s
      cases s with
      | left => rw [hks.coordinator, hd]
      | right => rw [hls.coordinator, hd']
    · intro s
      cases s with
      | left => exact hks.reports.trans hrs
      | right => exact hls.reports.trans hrs'
    · intro s
      cases s with
      | left => rfl
      | right => exact hmatch.start_eq

/-- Two peers that run the same ranges and receive each other's copies agree in
the end, whatever they draw and whatever the order of runs, deliveries and
updates. Either both are still in step, or both have desynced and report the same
conflict, once. When all has been run and delivered, an update at either end is
all that is missing. -/
theorem verdicts_agree (G : Generator) (setup : Side → Setup) (lengths : List Nat)
    (moves : List Move) (hreplay : ∀ s, (setup s).config.replay = false)
    (hcap : ∀ s, lengths.length ≤ (setup s).config.maxBacklog)
    (hfit : lengths.sum < 2 ^ 32) :
    let x := (start G setup lengths).play moves
    (x.Complete → (∀ s, (x s).coordinator.desynced = false ∧ (x s).reports = []) ∨
        ∃ report, x.Desynced lengths report) ∧
      ((∀ s, (x s).todo = []) → (∀ s, (x s).arrived = (x s.other).sent.length) →
        ((x.step (.update .left)).step (.update .right)).Complete) := by
  intro x
  have htracked : Tracked setup lengths x :=
    tracked_play hreplay moves (tracked_start G setup lengths)
  exact ⟨fun hx => verdict_of_complete htracked hx hfit hcap, complete_of_updates htracked⟩

/-- Of two peers of one seed the right one is corrupted from the first tick on:
after one range both report it. -/
theorem verdicts_agree_corrupted :
    let setup : Side → Setup := fun s =>
      { seed := 1, corruptFrom := if s = .right then some 0 else none }
    let moves : List Move := [.run .left, .run .right, .deliver .left, .deliver .right]
    let x := (start .wyrand setup [1]).play moves
    let y := x.play [.update .left, .update .right]
    y.Complete ∧ ∃ report, y.Desynced [1] report := by
  intro setup moves x y
  have hcap : ∀ s, [1].length ≤ (setup s).config.maxBacklog := by
    intro s
    cases s <;> decide
  have hran : ∀ s, (x s).todo = [] := by
    intro s
    cases s <;> decide
  have hdelivered : ∀ s, (x s).arrived = (x s.other).sent.length := by
    intro s
    cases s <;> decide
  have hdone : y.Complete :=
    (verdicts_agree .wyrand setup [1] moves (fun _ => rfl) hcap (by decide)).2 hran hdelivered
  obtain ⟨hverdict, -⟩ :=
    verdicts_agree .wyrand setup [1] (moves ++ [.update .left, .update .right])
      (fun _ => rfl) hcap (by decide)
  rw [play_append] at hverdict
  refine ⟨hdone, ?_⟩
  rcases hverdict hdone with hstep | hdesynced
  · exact absurd (hstep .left).1 (by decide)
  · exact hdesynced

end Exchange

end Lockstep
