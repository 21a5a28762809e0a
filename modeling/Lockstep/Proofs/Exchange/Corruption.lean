import Lockstep.Proofs.Exchange.Agreement
import Lockstep.Proofs.Exchange.Network

/-! Two peers of which one is corrupted from some tick on. Both report it, with
the range in which it begins and the place in that range. -/
namespace Lockstep

open Coordinator (submitted)

variable {G : Generator}

/-- Two peers of one seed and one list of maps. The right one is corrupted from
a tick on. -/
def oneCorrupted (seed : GeneratorState) (maps : List MapId) (config : Side → Config) (c : Tick) :
    Side → Setup :=
  Side.pair { seed, maps, config := config .left }
    { seed, maps, config := config .right, corruptFrom := some c }

/-- A report of a corruption that begins at tick `c` of the `j`-th range. -/
structure Report.Localises (r : Report) (lengths : List Nat) (j : Nat) (c : Tick) : Prop where
  start : r.localOpinion.start = UInt32.ofNat (boundary lengths j)
  lastValid : r.lastValid =
    if j = 0 then none else some (UInt32.ofNat (boundary lengths (j - 1)))
  cause : ∃ x y, r.cause = .divergence ⟨.world, c.toNat - boundary lengths j, .state x y⟩ ∧
    x ^^^ y = 0x100
  diffAt : r.diffAt = some (c.toNat - boundary lengths j)

def World.fresh (G : Generator) (seed : GeneratorState) (maps : List MapId) : World G where
  generator := G.ofSeed seed
  maps

def worlds (G : Generator) (seed : GeneratorState) (maps : List MapId) (c : Tick) :
    Side → World G :=
  Side.pair (.fresh G seed maps) ((World.fresh G seed maps).corrupt c)

variable {seed : GeneratorState} {maps : List MapId} {c t : Tick} {lengths : List Nat}
  {i j k n : Nat} {a b : Opinion} {s : Side}

theorem mem_of_prefix {S rs : List TickRange} {r r' : TickRange}
    (hS : S.Pairwise (·.start < ·.start)) (hp : rs <+: S) (hr : r ∈ rs) (hr' : r' ∈ S)
    (hle : r'.start ≤ r.start) : r' ∈ rs := by
  obtain ⟨rest, rfl⟩ := hp
  rcases List.mem_append.1 hr' with hmem | hmem
  · exact hmem
  · exact absurd ((List.pairwise_append.1 hS).2.2 r hr r' hmem) (UInt32.not_lt.2 hle)

/-- Opinions of the two ends that start together agree on a range before the
corruption, and part in the range in which it begins. -/
theorem Faithful.compare (hfit : lengths.sum < 2 ^ 32)
    (ha : Faithful (.fresh G seed maps) lengths a)
    (hb : Faithful ((World.fresh G seed maps).corrupt c) lengths b) (hs : a.start = b.start) :
    ∃ i n, lengths[i]? = some n ∧ a.start = UInt32.ofNat (boundary lengths i) ∧
      (boundary lengths i + n ≤ c.toNat → a.disagreement? b = none) ∧
      (boundary lengths i ≤ c.toNat → c.toNat < boundary lengths i + n →
        a.PartAt b (c.toNat - boundary lengths i)) := by
  have hsame : (World.fresh G seed maps).tick = ((World.fresh G seed maps).corrupt c).tick := rfl
  obtain ⟨i, n, hi, -, ha, hb⟩ := ha.meet hfit hsame hb hs
  generalize hw : (World.fresh G seed maps).steps (boundary lengths i) = w at ha hb
  have hclean : w.corruptFrom = none := by
    rw [← hw, World.corruptFrom_steps]
    rfl
  have hat : w.tick = UInt32.ofNat (boundary lengths i) := by
    rw [← hw, World.tick_steps]
    exact UInt32.zero_add _
  have hnat : w.tick.toNat = boundary lengths i := by
    rw [hat]
    exact UInt32.toNat_ofNat_of_lt' (Nat.lt_of_le_of_lt (boundary_le_sum lengths i) hfit)
  rw [World.steps_corrupt, hw] at hb
  refine ⟨i, n, hi, (congrArg TickRange.start ha.range).trans hat, ?_, ?_⟩
  · intro hbefore
    exact ha.agrees ((Opinion.tells_corrupt hclean (by omega)).1 hb)
  · intro hle hlt
    exact ha.partAt hb hclean (by omega) (by omega)

/-- The same, whichever end the first of the opinions belongs to. -/
theorem Faithful.compare_sides (hfit : lengths.sum < 2 ^ 32)
    (ha : Faithful (worlds G seed maps c s) lengths a)
    (hb : Faithful (worlds G seed maps c s.other) lengths b) (hs : a.start = b.start) :
    ∃ i n, lengths[i]? = some n ∧ a.start = UInt32.ofNat (boundary lengths i) ∧
      (boundary lengths i + n ≤ c.toNat → a.disagreement? b = none) ∧
      (boundary lengths i ≤ c.toNat → c.toNat < boundary lengths i + n →
        a.PartAt b (c.toNat - boundary lengths i)) := by
  cases s with
  | left => exact Faithful.compare hfit ha hb hs
  | right =>
    obtain ⟨i, n, hi, hstart, hagree, hpart⟩ := Faithful.compare hfit hb ha hs.symm
    exact ⟨i, n, hi, hs.trans hstart,
      fun hle => Opinion.disagreement?_eq_none_comm.1 (hagree hle),
      fun hle hlt => (hpart hle hlt).symm⟩

/-- Ranges that are not empty, and the one in which a corruption begins. -/
structure Cut (lengths : List Nat) (j : Nat) (c : Tick) : Prop where
  pos : ∀ n ∈ lengths, 0 < n
  fits : lengths.sum < 2 ^ 32
  le : boundary lengths j ≤ c.toNat
  lt : c.toNat < boundary lengths (j + 1)

namespace Cut

theorem exists_length (hcut : Cut lengths j c) (hi : i ≤ j) :
    ∃ n, lengths[i]? = some n ∧ 0 < n := by
  have hj : j < lengths.length := by
    by_contra hge
    have hsame : boundary lengths (j + 1) = boundary lengths j := by
      rw [boundary, boundary, List.take_of_length_le (by omega), List.take_of_length_le (by omega)]
    have hle := hcut.le
    have hlt := hcut.lt
    omega
  have hlt : i < lengths.length := by omega
  exact ⟨lengths[i], List.getElem?_eq_getElem hlt, hcut.pos _ (List.getElem_mem hlt)⟩

theorem boundary_lt (hcut : Cut lengths j c) (hik : i < k) (hk : i ≤ j) :
    UInt32.ofNat (boundary lengths i) < UInt32.ofNat (boundary lengths k) := by
  obtain ⟨n, hn, hpos⟩ := hcut.exists_length hk
  have hle := boundary_add_le hn hik
  exact ofNat_lt_ofNat (by omega) (Nat.lt_of_le_of_lt (boundary_le_sum lengths k) hcut.fits)

theorem boundary_le (hcut : Cut lengths j c) (hik : i ≤ k) :
    UInt32.ofNat (boundary lengths i) ≤ UInt32.ofNat (boundary lengths k) := by
  have hsize : ∀ i, boundary lengths i < UInt32.size :=
    fun i => Nat.lt_of_le_of_lt (boundary_le_sum lengths i) hcut.fits
  rw [UInt32.le_iff_toNat_le, UInt32.toNat_ofNat_of_lt' (hsize i),
    UInt32.toNat_ofNat_of_lt' (hsize k)]
  exact boundary_mono lengths hik

end Cut

namespace Exchange

variable {x : Exchange G} {config config' : Config} {ks ls : List Coordinator.Call}

/-- What one end has taken in once everything has been run and delivered. -/
structure Taken (x : Exchange G) (config : Config) (lengths : List Nat) (seed : GeneratorState)
    (maps : List MapId) (c : Tick) (s : Side) (ks : List Coordinator.Call) : Prop where
  tracks : (x s).Tracks config lengths (x s.other).sent ks
  ran : (x s).todo = []
  roomy : Roomy config.window (submitted ks)
  own : ∀ a ∈ ofSide .local (submitted ks), Faithful (worlds G seed maps c s) lengths a
  received : ofSide .remote (submitted ks) = (x s.other).sent
  theirs : ∀ b ∈ (x s.other).sent, Faithful (worlds G seed maps c s.other) lengths b

theorem Taken.clash_ge (h : Taken x config lengths seed maps c s ks) (hcut : Cut lengths j c)
    (hc : Clash (submitted ks) t) : UInt32.ofNat (boundary lengths j) ≤ t := by
  obtain ⟨a, ha, b, hb, rfl, hbt, hdis⟩ := hc
  rw [h.received] at hb
  obtain ⟨i, n, hi, hstart, hagree, -⟩ :=
    Faithful.compare_sides hcut.fits (h.own a ha) (h.theirs b hb) hbt.symm
  rw [hstart]
  refine hcut.boundary_le (Nat.le_of_not_lt fun hij => hdis (hagree ?_))
  exact Nat.le_trans (boundary_add_le hi hij) hcut.le

/-- Before an end stops, it hands out all ranges up to the corrupted one. -/
theorem Taken.sent (h : Taken x config lengths seed maps c s ks) (hcut : Cut lengths j c)
    (hij : i ≤ j) : ∃ o ∈ (x s).sent, o.start = UInt32.ofNat (boundary lengths i) := by
  obtain ⟨n, hn, hpos⟩ := hcut.exists_length hij
  obtain ⟨r, hr, hstart⟩ := mem_spans_boundary hn hpos
  obtain ⟨ran, hlen, -, hprefix, hall⟩ := h.tracks.ranges
  rw [h.ran, List.append_nil] at hlen
  rw [← hlen] at hprefix hall
  have hmem : r ∈ (x s).sent.map Opinion.range := by
    by_cases hd : (x s).coordinator.desynced = false
    · rw [hall hd]
      exact hr
    · -- what has ended the run is a clash, and this range comes no later
      rw [h.tracks.coordinator, Coordinator.desynced_run_eq_false] at hd
      push Not at hd
      obtain ⟨m, hm, hdis⟩ := hd
      have hclash := (Coordinator.paired_run hm).clash hdis
      have hge := h.clash_ge hcut hclash
      obtain ⟨a, ha, -, -, hat, -⟩ := hclash
      have hsent : a.wire ∈ (x s).sent := by
        rw [h.tracks.sent]
        exact List.mem_map_of_mem ha
      have hle : r.start ≤ a.wire.range.start :=
        calc r.start = UInt32.ofNat (boundary lengths i) := hstart
          _ ≤ UInt32.ofNat (boundary lengths j) := hcut.boundary_le hij
          _ ≤ m.earlier.start := hge
          _ = a.wire.range.start := hat.symm
      have hS := pairwise_spans (t := 0) (by simpa using hcut.fits)
      exact mem_of_prefix hS hprefix (List.mem_map_of_mem hsent) hr hle
  obtain ⟨o, ho, rfl⟩ := List.mem_map.1 hmem
  exact ⟨o, ho, hstart⟩

theorem Taken.common (h : Taken x config lengths seed maps c s ks)
    (h' : Taken x config' lengths seed maps c s.other ls) (hcut : Cut lengths j c) (hij : i ≤ j) :
    Common (submitted ks) (UInt32.ofNat (boundary lengths i)) := by
  obtain ⟨o, ho, hstart⟩ := h.sent hcut hij
  obtain ⟨b, hb, hbt⟩ := h'.sent hcut hij
  rw [h.tracks.sent] at ho
  obtain ⟨a, ha, rfl⟩ := List.mem_map.1 ho
  exact ⟨a, ha, b, h.received ▸ hb, hstart, hbt⟩

theorem Taken.partAt (h : Taken x config lengths seed maps c s ks) (hcut : Cut lengths j c)
    (ha : a ∈ ofSide .local (submitted ks)) (hb : b ∈ ofSide .remote (submitted ks))
    (hat : a.start = UInt32.ofNat (boundary lengths j))
    (hbt : b.start = UInt32.ofNat (boundary lengths j)) :
    a.PartAt b (c.toNat - boundary lengths j) := by
  rw [h.received] at hb
  obtain ⟨i, n, hi, hstart, -, hpart⟩ :=
    Faithful.compare_sides hcut.fits (h.own a ha) (h.theirs b hb) (hat.trans hbt.symm)
  obtain rfl : i = j := by
    rcases Nat.lt_trichotomy i j with hij | heq | hji
    · have hlt := hcut.boundary_lt hij (Nat.le_of_lt hij)
      rw [← hstart, hat] at hlt
      exact absurd hlt (UInt32.lt_irrefl _)
    · exact heq
    · have hlt := hcut.boundary_lt hji (Nat.le_refl j)
      rw [← hstart, hat] at hlt
      exact absurd hlt (UInt32.lt_irrefl _)
  refine hpart hcut.le ?_
  rw [← boundary_succ hi]
  exact hcut.lt

theorem Taken.firstClash (h : Taken x config lengths seed maps c s ks)
    (h' : Taken x config' lengths seed maps c s.other ls) (hcut : Cut lengths j c) :
    FirstClash (submitted ks) (UInt32.ofNat (boundary lengths j)) := by
  obtain ⟨a, ha, b, hb, hat, hbt⟩ := h.common h' hcut (Nat.le_refl j)
  obtain ⟨x, y, hdis, -⟩ := (h.partAt hcut ha hb hat hbt).disagreement
  exact ⟨⟨a, ha, b, hb, hat, hbt, by simp [hdis]⟩, fun t ht => h.clash_ge hcut ht⟩

theorem Taken.starts (h : Taken x config lengths seed maps c s ks)
    (h' : Taken x config' lengths seed maps c s.other ls) (hcut : Cut lengths j c) :
    ((Coordinator.new config).comparisons ks).map (·.earlier.start) =
      (List.range (j + 1)).map fun i => UInt32.ofNat (boundary lengths i) := by
  have hfirst := h.firstClash h' hcut
  have hp := List.pairwise_map.2 (Coordinator.pairwise_comparisons config h.roomy.streams)
  have hp' : ((List.range (j + 1)).map fun i => UInt32.ofNat (boundary lengths i)).Pairwise
      (· < ·) := by
    rw [List.pairwise_map]
    refine List.pairwise_lt_range.imp_of_mem ?_
    intro i k _ hk hik
    have hkj := List.mem_range.1 hk
    exact hcut.boundary_lt hik (by omega)
  apply List.Pairwise.eq_of_mem_iff hp hp'
  intro t
  rw [Coordinator.mem_starts_iff h.roomy, List.mem_map]
  constructor
  · rintro ⟨⟨a, ha, b, hb, rfl, hbt⟩, hle⟩
    rw [h.received] at hb
    obtain ⟨i, n, hi, hstart, -, -⟩ :=
      Faithful.compare_sides hcut.fits (h.own a ha) (h.theirs b hb) hbt.symm
    refine ⟨i, List.mem_range.2 ?_, hstart.symm⟩
    by_contra hij
    have hlt := hcut.boundary_lt (i := j) (k := i) (by omega) (Nat.le_refl j)
    rw [← hstart] at hlt
    exact UInt32.not_lt.2 (hle _ hfirst) hlt
  · rintro ⟨i, hi, rfl⟩
    have hij : i ≤ j := by
      have hlt := List.mem_range.1 hi
      omega
    refine ⟨h.common h' hcut hij, ?_⟩
    intro t ht
    rw [firstClash_unique ht hfirst]
    exact hcut.boundary_le hij

/-- An end that has reported all it has to report has localised the corruption. -/
theorem Taken.localises (h : Taken x config lengths seed maps c s ks)
    (h' : Taken x config' lengths seed maps c s.other ls) (hcut : Cut lengths j c)
    (hp : (x s).coordinator.hasPending = false) :
    (x s).coordinator.desynced = true ∧
      ∃ r, (x s).reports = [r] ∧ r.Localises lengths j c := by
  have hfirst := h.firstClash h' hcut
  have hd := Coordinator.desynced_of_firstClash h.roomy hfirst
  rw [h.tracks.coordinator] at hp ⊢
  rcases Coordinator.open_or_closed hp with ⟨hopen, -⟩ | ⟨k, ns, r, hk⟩
  · simp [hd] at hopen
  · have hstart : k.first.start = UInt32.ofNat (boundary lengths j) :=
      firstClash_unique (hk.firstClash h.roomy) hfirst
    obtain ⟨ha, hb, hat, hbt⟩ := hk.opinions
    obtain ⟨⟨x, y, hdis, hbit⟩, htraces⟩ :=
      h.partAt hcut ha hb (hat.trans hstart) (hbt.trans hstart)
    refine ⟨hd, r, h.tracks.reports.trans hk.reports, hat.trans hstart, ?_, ?_, ?_⟩
    · have hstarts := h.starts h' hcut
      rw [hk.comparisons, List.map_append, List.map_singleton, List.range_succ, List.map_append,
        List.map_singleton, hstart] at hstarts
      rw [hk.lastValid, ← List.getLast?_map, List.append_cancel_right hstarts]
      cases j with
      | zero => rfl
      | succ i => simp [List.range_succ]
    · rcases hk.about.cause_or_swap with hcause | hcause
      · exact ⟨x, y, Option.some.inj (hcause.symm.trans hdis), hbit⟩
      · refine ⟨y, x, ?_, (UInt32.xor_comm y x).trans hbit⟩
        rw [← Disagreement.swap_swap r.cause, Option.some.inj (hcause.symm.trans hdis)]
        rfl
    · rw [hk.about.diffAt, htraces]

theorem taken_play (config : Side → Config) (moves : List Move)
    (hreplay : ∀ s, (config s).replay = false)
    (hcap : ∀ s, lengths.length ≤ (config s).maxBacklog) (hfit : lengths.sum < 2 ^ 32)
    (hdone : ((start G (oneCorrupted seed maps config c) lengths).play moves).Complete)
    (s : Side) :
    ∃ ks, Taken ((start G (oneCorrupted seed maps config c) lengths).play moves) (config s)
      lengths seed maps c s ks := by
  have hconfig : ∀ s, (oneCorrupted seed maps config c s).config = config s := by
    intro s
    cases s <;> rfl
  have hworld : ∀ s,
      ((oneCorrupted seed maps config c s).peer G).world = worlds G seed maps c s := by
    intro s
    cases s <;> rfl
  have htracked := tracked_play (fun s => (congrArg Config.replay (hconfig s)).trans (hreplay s))
    moves (tracked_start G (oneCorrupted seed maps config c) lengths)
  have hhonest := honest_play moves (honest_start G (oneCorrupted seed maps config c) lengths)
  obtain ⟨ks, hks, hall, hroom⟩ := settled htracked hdone hfit
    (fun s => (hcap s).trans_eq (congrArg Config.maxBacklog (hconfig s)).symm) s
  obtain ⟨ls, hls⟩ := hhonest s
  obtain ⟨ls', hls'⟩ := hhonest s.other
  rw [hconfig] at hks hroom
  refine ⟨ks, hks, hdone.ran s, hroom, ?_, hall, ?_⟩
  · intro a ha
    have hsent := hls.sent a.wire (hks.sent ▸ List.mem_map_of_mem ha)
    rw [← hworld]
    exact faithful_wire.1 hsent.2
  · intro b hb
    rw [← hworld]
    exact (hls'.sent b hb).2

/-- A corruption is localised exactly. Of two peers that run the same ranges and
receive each other's copies, one is corrupted from some tick on. Under any
schedule and with any generator both desync and report it once: with the range in
which it begins, the range confirmed before, and the tick within the range, at
which the world samples differ in one bit and the traces part. -/
theorem corruption_localised (G : Generator) (seed : GeneratorState) (maps : List MapId)
    (config : Side → Config) (c : Tick) (lengths : List Nat) (j : Nat) (moves : List Move)
    (hreplay : ∀ s, (config s).replay = false)
    (hcap : ∀ s, lengths.length ≤ (config s).maxBacklog) (hcut : Cut lengths j c)
    (hdone : ((start G (oneCorrupted seed maps config c) lengths).play moves).Complete) (s : Side) :
    let x := (start G (oneCorrupted seed maps config c) lengths).play moves
    (x s).coordinator.desynced = true ∧ ∃ r, (x s).reports = [r] ∧ r.Localises lengths j c := by
  intro x
  obtain ⟨ks, hks⟩ := taken_play config moves hreplay hcap hcut.fits hdone s
  obtain ⟨ls, hls⟩ := taken_play config moves hreplay hcap hcut.fits hdone s.other
  exact hks.localises hls hcut (hdone.updated s).2

/-- The corruption begins in the second tick of the second range. -/
theorem corruption_localised_second :
    let x := (start .wyrand (oneCorrupted 1 [3, 3] (fun _ => {}) 2) [1, 2]).play
      [.run .left, .run .left, .run .right, .deliver .left, .deliver .right, .update .left,
        .run .right, .deliver .right, .deliver .left, .update .right, .update .left]
    x.Complete ∧ ∀ s, (x s).coordinator.desynced = true ∧
      ∃ r, (x s).reports = [r] ∧ r.localOpinion.start = 1 ∧ r.lastValid = some 0 ∧
        r.diffAt = some 1 := by
  intro x
  have hcut : Cut [1, 2] 1 2 := ⟨by decide, by decide, by decide, by decide⟩
  have hdone : x.Complete := by
    constructor
    all_goals
      intro s
      cases s <;> decide
  refine ⟨hdone, fun s => ?_⟩
  obtain ⟨hd, r, hrs, hr⟩ := corruption_localised .wyrand 1 [3, 3] (fun _ => {}) 2 [1, 2] 1 _
    (fun _ => rfl) (fun _ => by decide) hcut hdone s
  exact ⟨hd, r, hrs, hr.start, hr.lastValid, hr.diffAt⟩

end Exchange

end Lockstep
