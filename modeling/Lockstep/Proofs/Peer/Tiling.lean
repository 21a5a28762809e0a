import Lockstep.Peer.Call
import Lockstep.Peer.Wyrand
import Lockstep.Proofs.Coordinator.Survival
import Lockstep.Proofs.Peer.Telling

/-! The ranges that a peer closes: one after the other they tile the ticks that it has simulated,
with as many samples and hashes in each as its ticks give. -/
namespace Lockstep

variable {G : Generator}

theorem Generator.length_draws (s : G.State) (n : Nat) : (G.draws s n).1.length = n := by
  induction n generalizing s with
  | zero => rfl
  | succ n ih => exact congrArg (· + 1) (ih (G.next s).2)

/-- How many samples of a category a tick gives to a world with these maps. A map that is listed
twice gives two. -/
def Category.perTick (maps : List MapId) : Category → Nat
  | .command | .world => 1
  | .map id => maps.count id

namespace World
variable {w : World G} {category : Category}

theorem maps_steps (w : World G) (n : Nat) : (w.steps n).maps = w.maps := by
  induction n generalizing w with
  | zero => rfl
  | succ n ih => rw [steps, ih, step]

/-- Every map of the list has its draw. -/
theorem fst_draws (w : World G) : w.draws.maps.map Prod.fst = w.maps :=
  List.map_fst_zip (Nat.le_of_eq (Generator.length_draws _ _).symm)

theorem length_samples_draws (w : World G) (category : Category) :
    (w.draws.samples category).length = category.perTick w.maps := by
  cases category with
  | command | world => rfl
  | map id =>
    rw [Draws.samples, List.length_map, ← List.countP_eq_length_filter, Category.perTick,
      List.count, ← w.fst_draws, List.countP_map]
    rfl

/-- Corruption changes what is drawn, and not how much. -/
theorem length_samples_seen (w : World G) (category : Category) :
    (w.seen.samples category).length = category.perTick w.maps := by
  have hspoil : (w.draws.spoil.samples category).length = (w.draws.samples category).length := by
    cases category <;> simp [Draws.spoil, Draws.samples]
  rw [← w.length_samples_draws, seen]
  split
  · split
    · exact hspoil
    · rfl
  · rfl

theorem length_samples_story (w : World G) (n : Nat) (category : Category) :
    ((w.story n).flatMap (·.samples category)).length = n * category.perTick w.maps := by
  induction n generalizing w with
  | zero => simp [story]
  | succ n ih =>
    rw [story, List.flatMap_cons, List.length_append, w.length_samples_seen, ih, Nat.succ_mul,
      Nat.add_comm]
    rfl

end World

/-- A remote opinion on the ticks from `t` up to `t + n`, with as many samples of each category as
`n` ticks give to a world with these maps, and one hash for each tick. -/
structure Opinion.Tile (o : Opinion) (maps : List MapId) (t n : Nat) : Prop where
  origin : o.origin = .remote
  start : o.start.toNat = t
  stop : o.stop.map UInt32.toNat = some (t + n)
  command : (o.samples .command).length = n
  world : (o.samples .world).length = n
  maps : ∀ id, (o.samples (.map id)).length = n * maps.count id
  hashes : o.hashes.length = n

theorem Opinion.Tells.tile {o : Opinion} {w : World G} {t n : Nat} (h : o.Tells w n)
    (horigin : o.origin = .remote) (ht : w.tick = UInt32.ofNat t) (hfit : t + n < 2 ^ 32) :
    o.Tile w.maps t n := by
  have hstart : o.start = UInt32.ofNat t := (congrArg TickRange.start h.range).trans ht
  have hstop : o.stop = some (UInt32.ofNat (t + n)) := by
    rw [UInt32.ofNat_add, ← ht]
    exact congrArg TickRange.stop h.range
  have hlength : ∀ category, (o.samples category).length = n * category.perTick w.maps := by
    intro category
    rw [h.samples, World.length_samples_story]
  have htoNat : ∀ m ≤ t + n, (UInt32.ofNat m).toNat = m := fun m hm =>
    UInt32.toNat_ofNat_of_lt' (Nat.lt_of_le_of_lt hm hfit)
  constructor
  · exact horigin
  · rw [hstart, htoNat t (Nat.le_add_right t n)]
  · rw [hstop, Option.map_some, htoNat _ (Nat.le_refl _)]
  · exact (hlength .command).trans (Nat.mul_one n)
  · exact (hlength .world).trans (Nat.mul_one n)
  · exact fun id => hlength (.map id)
  · rw [h.hashes, List.length_map, World.length_story]

namespace Peer

variable {p : Peer G} {k : Call} {ks : List Call} {config : Config} {maps : List MapId} {t n : Nat}
  {o : Opinion}

/-- The ticks that a call simulates and closes as a range. -/
def Call.ticks : Call → Nat
  | .runRange n => n
  | _ => 0

/-- The call neither simulates outside of a range nor reaches past the session. -/
def Call.Orderly : Call → Prop
  | .runRange _ | .deliver _ | .update | .corrupt _ => True
  | .step | .coordinate _ => False

instance (k : Call) : Decidable k.Orderly := by
  cases k <;> unfold Call.Orderly <;> infer_instance

/-- The state that a run leads to. -/
def after (p : Peer G) (ks : List Call) : Peer G := (Logged.feed perform ks p).value.2

theorem after_append (p : Peer G) (ks ls : List Call) :
    p.after (ks ++ ls) = (p.after ks).after ls := by
  simp [after, Logged.feed_append]

/-- The peer stands at the end of a range, on tick `t`: nothing is in the making, and the next range
is to start there. -/
structure Poised (p : Peer G) (config : Config) (maps : List MapId) (t : Nat) : Prop where
  coordinator : ∃ ks, p.session.coordinator = (Coordinator.new config).after ks
  idle : p.session.coordinator.current = none
  tick : p.tick = UInt32.ofNat t
  rangeStart : p.rangeStart = UInt32.ofNat t
  maps : p.maps = maps

theorem poised_new (seed : GeneratorState) (maps : List MapId) (config : Config) :
    (new G seed maps config).Poised config maps 0 :=
  ⟨⟨[], rfl⟩, rfl, rfl, rfl, rfl⟩

theorem Poised.config_eq (h : p.Poised config maps t) :
    p.session.coordinator.config = config := by
  obtain ⟨ks, hks⟩ := h.coordinator
  rw [hks, Coordinator.config_run]

theorem poised_runRange (h : p.Poised config maps t) (n : Nat) :
    (p.runRange n).value.2.Poised config maps (t + n) := by
  obtain ⟨ls, o, hrange⟩ := p.exists_recounts n h.idle
  obtain ⟨ks, hks⟩ := h.coordinator
  have hcoordinator : (p.runRange n).value.2.session.coordinator = p.session.coordinator.after ls :=
    congrArg Session.coordinator hrange.session
  have htick : (p.runRange n).value.2.tick = UInt32.ofNat (t + n) := by
    rw [UInt32.ofNat_add, ← h.tick]
    exact (congrArg World.tick hrange.world).trans (p.world.tick_steps n)
  refine ⟨⟨ks ++ ls, ?_⟩, ?_, htick, htick, ?_⟩
  · rw [hcoordinator, hks, Coordinator.after_append]
  · rw [hcoordinator]
    exact hrange.idle
  · exact (congrArg World.maps hrange.world).trans ((p.world.maps_steps n).trans h.maps)

theorem poised_update (h : p.Poised config maps t) :
    p.update.value.2.Poised config maps t := by
  obtain ⟨ks, hks⟩ := h.coordinator
  have hcoordinator : p.update.value.2.session.coordinator =
      p.session.coordinator.after (p.session.coordinatorCalls .update) :=
    congrArg Session.coordinator p.session.update_eq.2
  refine ⟨⟨ks ++ p.session.coordinatorCalls .update, ?_⟩, Session.idle_update h.idle, h.tick,
    h.rangeStart, h.maps⟩
  rw [hcoordinator, hks, Coordinator.after_append]

theorem poised_perform (h : p.Poised config maps t) (hk : k.Orderly) :
    (p.perform k).value.2.Poised config maps (t + k.ticks) := by
  cases k with
  | step => exact absurd hk id
  | runRange n => exact poised_runRange h n
  | deliver o => exact ⟨h.coordinator, h.idle, h.tick, h.rangeStart, h.maps⟩
  | update => exact poised_update h
  | corrupt start => exact ⟨h.coordinator, h.idle, h.tick, h.rangeStart, h.maps⟩
  | coordinate k => exact absurd hk id

theorem poised_run (seed : GeneratorState) (maps : List MapId) (config : Config)
    (hks : ∀ k ∈ ks, k.Orderly) :
    ((new G seed maps config).after ks).Poised config maps (ks.map Call.ticks).sum := by
  induction ks using List.reverseRecOn with
  | nil => exact poised_new seed maps config
  | append_singleton ks k ih =>
    obtain ⟨hks, hk⟩ := List.forall_mem_append.1 hks
    rw [after_append, List.map_append, List.sum_append, List.map_singleton, List.sum_singleton]
    exact poised_perform (ih hks) (hk k List.mem_cons_self)

/-- What a range hands out is a tile that begins where the peer stands. -/
theorem Poised.tile (h : p.Poised config maps t) (hfit : t + n < 2 ^ 32)
    (ho : (p.runRange n).value.1 = some o) : o.Tile maps t n := by
  obtain ⟨ls, v, hrange⟩ := p.exists_recounts n h.idle
  obtain ⟨w, hw, rfl⟩ := Option.map_eq_some_iff.1 (hrange.wire.symm.trans ho)
  obtain ⟨-, -, htells⟩ := hrange.told w hw
  rw [← h.maps]
  exact (Opinion.tells_wire.2 htells).tile rfl h.tick hfit

/-- A range hands something out just if there is something to simulate and the sides have not yet
been found to disagree. -/
theorem Poised.isSome_iff (h : p.Poised config maps t) (hreplay : config.replay = false) (n : Nat) :
    (p.runRange n).value.1.isSome ↔ p.session.coordinator.desynced = false ∧ 0 < n := by
  obtain ⟨ls, v, hrange⟩ := p.exists_runsRange n h.idle (by rw [h.config_eq, hreplay])
  rw [hrange.wire, Option.isSome_map, hrange.isSome]

/-- The opinion that closes a range starts with it. -/
theorem Poised.start_eq (h : p.Poised config maps t)
    (ho : ((p.steps n).session.finishLocal (p.steps n).tick).value.1 = some o) :
    o.start = p.rangeStart := by
  obtain ⟨ls, v, hrange⟩ := p.exists_recounts n h.idle
  have hwire : (p.runRange n).value.1 = some o.wire := congrArg (Option.map Opinion.wire) ho
  obtain ⟨w, hw, he⟩ := Option.map_eq_some_iff.1 (hrange.wire.symm.trans hwire)
  obtain ⟨-, -, htells⟩ := hrange.told w hw
  have hstart : w.wire.start = o.wire.start := congrArg Opinion.start he
  refine hstart.symm.trans ?_
  rw [h.rangeStart, ← h.tick]
  exact congrArg TickRange.start htells.range

/-- The ranges of a peer tile its timeline. Whatever is delivered to it and whenever it is updated,
as long as the sides have not been found to disagree it hands out nothing just for a range of no
ticks. What it hands out is a remote opinion on just the ticks of the range, from where the range
before it ended, with the samples and hashes of these ticks, even if a disagreement is found as the
range is closed. After that nothing is handed out. And the opinion that closes a range always
starts where the peer notes that the range does. -/
theorem ranges_tile (G : Generator) (seed : GeneratorState) (maps : List MapId) (config : Config)
    (hreplay : config.replay = false) (ks : List Call) (hks : ∀ k ∈ ks, k.Orderly) (n : Nat)
    (hfit : (ks.map Call.ticks).sum + n < 2 ^ 32) :
    let p := (new G seed maps config).after ks
    (p.session.coordinator.desynced = false → ((p.runRange n).value.1 = none ↔ n = 0)) ∧
      (∀ o, (p.runRange n).value.1 = some o → o.Tile maps (ks.map Call.ticks).sum n) ∧
      (p.session.coordinator.desynced = true → (p.runRange n).value.1 = none) ∧
      ∀ o, ((p.steps n).session.finishLocal (p.steps n).tick).value.1 = some o →
        o.start = p.rangeStart := by
  intro p
  have hpoised : p.Poised config maps (ks.map Call.ticks).sum := poised_run seed maps config hks
  have hsome := hpoised.isSome_iff hreplay n
  refine ⟨fun hd => ?_, fun o ho => hpoised.tile hfit ho, fun hd => ?_, fun o ho =>
    hpoised.start_eq ho⟩
  · rw [← Option.not_isSome_iff_eq_none, hsome, hd, Nat.pos_iff_ne_zero]
    simp
  · rw [← Option.not_isSome_iff_eq_none, hsome, hd]
    simp

/-- The third range meets an opinion of the other side that has no samples. It is still handed out,
on its one tick and with two samples of the map that is listed twice; a further one is not. -/
theorem ranges_tile_clash :
    let theirs : Opinion := { origin := .remote, start := 2, stop := some 3 }
    let ks : List Call := [.corrupt 1, .runRange 2, .runRange 0, .deliver theirs, .update]
    let p := (new .wyrand 1 [3, 3] {}).after ks
    let q := (new .wyrand 1 [3, 3] {}).after (ks ++ [.runRange 1])
    p.session.coordinator.desynced = false ∧ q.session.coordinator.desynced = true ∧
      (∃ o, (p.runRange 1).value.1 = some o ∧ o.Tile [3, 3] 2 1) ∧
      (q.runRange 1).value.1 = none := by
  intro theirs ks p q
  have hp : (new .wyrand 1 [3, 3] {}).after ks = p := rfl
  have hq : (new .wyrand 1 [3, 3] {}).after (ks ++ [.runRange 1]) = q := rfl
  have hrunning : p.session.coordinator.desynced = false := by decide
  have hended : q.session.coordinator.desynced = true := by decide
  obtain ⟨hnone, htile, -, -⟩ := ranges_tile .wyrand 1 [3, 3] {} rfl ks (by decide) 1 (by decide)
  obtain ⟨-, -, hlater, -⟩ :=
    ranges_tile .wyrand 1 [3, 3] {} rfl (ks ++ [.runRange 1]) (by decide) 1 (by decide)
  rw [hp] at hnone htile
  rw [hq] at hlater
  have hsome : (p.runRange 1).value.1 ≠ none := fun h => absurd ((hnone hrunning).1 h) (by decide)
  obtain ⟨o, ho⟩ := Option.ne_none_iff_exists'.1 hsome
  exact ⟨hrunning, hended, ⟨o, ho, htile o ho⟩, hlater hended⟩

end Peer

end Lockstep
