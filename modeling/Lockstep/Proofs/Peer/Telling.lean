import Lockstep.Proofs.Opinion.Least
import Lockstep.Proofs.Peer.World

/-! What the opinions that a peer hands out tell of its world. -/
namespace Lockstep

open Coordinator (submitted)

variable {G : Generator}

/-- The opinion tells of `n` ticks of a world, from its current one on. -/
structure Opinion.Tells (o : Opinion) (w : World G) (n : Nat) : Prop where
  range : o.range = ⟨w.tick, some (w.tick + UInt32.ofNat n)⟩
  samples : ∀ category, o.samples category = (w.story n).flatMap (·.samples category)
  hashes : o.hashes = (w.story n).map Draws.hash

namespace Opinion

variable {a b o : Opinion} {w : World G} {start : Tick} {n i : Nat}

theorem tells_wire : o.wire.Tells w n ↔ o.Tells w n := by
  constructor
  · rintro ⟨hrange, hsamples, hhashes⟩
    exact ⟨hrange, fun category => (o.samples_wire category).symm.trans (hsamples category),
      hhashes⟩
  · rintro ⟨hrange, hsamples, hhashes⟩
    exact ⟨hrange, fun category => (o.samples_wire category).trans (hsamples category), hhashes⟩

theorem Tells.agrees (ha : a.Tells w n) (hb : b.Tells w n) : a.disagreement? b = none := by
  have hrange : a.range = b.range := ha.range.trans hb.range.symm
  have hsamples : ∀ category, a.samples category = b.samples category :=
    fun category => (ha.samples category).trans (hb.samples category).symm
  have hcompatible : a.range.Compatible b.range := hrange ▸ .refl _
  exact agree_iff.2 ⟨compatible_iff.1 hcompatible, hsamples⟩

theorem tells_corrupt (hw : w.corruptFrom = none) (hn : w.tick.toNat + n ≤ start.toNat) :
    o.Tells (w.corrupt start) n ↔ o.Tells w n := by
  have hstory := World.story_corrupt hw hn
  constructor
  · rintro ⟨hrange, hsamples, hhashes⟩
    exact ⟨hrange, hstory ▸ hsamples, hstory ▸ hhashes⟩
  · rintro ⟨hrange, hsamples, hhashes⟩
    exact ⟨hrange, hstory.symm ▸ hsamples, hstory.symm ▸ hhashes⟩

/-- The opinions part at an index: the world samples in bit 8 and no other, and
the traces. -/
structure PartAt (a b : Opinion) (i : Nat) : Prop where
  disagreement : ∃ x y, a.disagreement? b = some (.divergence ⟨.world, i, .state x y⟩) ∧
    x ^^^ y = 0x100
  traces : a.traceDiff? b = some i

theorem PartAt.symm (h : a.PartAt b i) : b.PartAt a i := by
  obtain ⟨⟨x, y, hxy, hbit⟩, htraces⟩ := h
  refine ⟨⟨y, x, ?_, (UInt32.xor_comm y x).trans hbit⟩, (traceDiff?_comm a b).trans htraces⟩
  rw [disagreement?_swap a b, hxy]
  rfl

/-- If one of two worlds is corrupted, the opinions part at its first corrupted tick. -/
theorem Tells.partAt (ha : a.Tells w n) (hb : b.Tells (w.corrupt start) n)
    (hw : w.corruptFrom = none) (hi : w.tick.toNat + i = start.toNat) (hn : i < n) :
    a.PartAt b i := by
  obtain ⟨d, rest, rest', hclean, hcorrupt⟩ := World.story_corrupt_at hw hi hn
  have hlength := w.length_story i
  have hbit := d.sample_spoil
  constructor
  · refine ⟨_, _, ?_, hbit⟩
    have hne : Sample.ofState d.world ≠ Sample.ofState d.spoil.world := by
      intro he
      rw [he, UInt32.xor_self] at hbit
      exact absurd hbit (by decide)
    have hrange : a.range = b.range := ha.range.trans hb.range.symm
    have hcommand :
        Divergence.between .command (a.samples .command) (b.samples .command) = none := by
      rw [ha.samples, hb.samples, World.command_corrupt hw, Divergence.between_self]
    have hworld : Divergence.between .world (a.samples .world) (b.samples .world) =
        some ⟨.world, i, .state (.ofState d.world) (.ofState d.spoil.world)⟩ := by
      have hflat : ∀ l : List Draws, l.flatMap (·.samples .world) =
          l.map fun d => Sample.ofState d.world :=
        fun _ => (List.map_eq_flatMap ..).symm
      rw [ha.samples, hb.samples, hclean, hcorrupt, hflat, hflat, List.map_append, List.map_append,
        List.map_cons, List.map_cons, Divergence.between, firstMismatch?_append hne,
        List.length_map, hlength]
    rw [disagreement?, if_pos (hrange ▸ TickRange.Compatible.refl _), categories,
      List.findSome?_cons, hcommand]
    simp only [List.findSome?_cons, hworld, Option.map_some]
  · rw [traceDiff?, ha.hashes, hb.hashes, hclean, hcorrupt, List.map_append, List.map_append,
      List.map_cons, List.map_cons, firstMismatch?_append d.hash_spoil.symm, List.length_map,
      hlength]

end Opinion

namespace Peer

variable {p : Peer G} {n : Nat} {ks : List Coordinator.Call} {o : Opinion}

/-- The calls `ks` are those of a range of `n` ticks, with or without an opinion
on it. What is handed out is the wire copy. -/
structure Recounts (p : Peer G) (n : Nat) (ks : List Coordinator.Call) (o : Option Opinion) :
    Prop where
  wire : (p.runRange n).value.1 = o.map Opinion.wire
  session : (p.runRange n).value.2.session =
    { p.session with coordinator := p.session.coordinator.after ks }
  world : (p.runRange n).value.2.world = p.world.steps n
  submitted : submitted ks = o.toList
  idle : (p.session.coordinator.after ks).current = none
  told : ∀ v ∈ o, v.origin = .local ∧ 0 < n ∧ v.Tells p.world n

theorem Simulated.tells (hsim : Simulated p (p.steps n) n ks)
    (hc : p.session.coordinator.current = none)
    (hcol : p.session.coordinator.collecting = true)
    (ho : (p.steps n).session.coordinator.current = some o) (hstart : o.start = p.tick) :
    (o.finish (p.steps n).tick).Tells p.world n := by
  constructor
  · rw [hsim.tick]
    exact congrArg (TickRange.mk · _) hstart
  · intro category
    have hdrawn := (p.contents_steps n hcol category).1
    rw [Coordinator.drawn_of_none hc, List.nil_append, Coordinator.drawn, ho] at hdrawn
    rw [← hdrawn]
    cases category <;> rfl
  · have htraced := (p.contents_steps n hcol .world).2
    rw [Coordinator.traced_of_none hc, List.nil_append, Coordinator.traced, ho] at htraced
    exact htraced

theorem Simulated.recounts {o : Option Opinion} (hsim : Simulated p (p.steps n) n ks)
    (hval : ((p.steps n).session.finishLocal (p.steps n).tick).value.1 = o)
    (hsub : submitted
      ((p.steps n).session.coordinatorCalls (.finishLocal (p.steps n).tick)) = o.toList)
    (hidle : ((p.steps n).session.finishLocal (p.steps n).tick).value.2.coordinator.current = none)
    (htold : ∀ v ∈ o, v.origin = .local ∧ 0 < n ∧ v.Tells p.world n) :
    p.Recounts n
      (ks ++ (p.steps n).session.coordinatorCalls (.finishLocal (p.steps n).tick)) o := by
  obtain ⟨hquiet, -⟩ := Coordinator.quiet_records hsim.records p.session.coordinator
  refine ⟨congrArg (Option.map Opinion.wire) hval, hsim.session_runRange, p.world_steps n, ?_, ?_,
    htold⟩
  · rw [Coordinator.submitted_append, hquiet, hsub, List.nil_append]
  · exact (congrArg (·.coordinator.current) hsim.session_runRange).symm.trans hidle

/-- Whether a peer collects or not, its ranges tell nothing but what it has simulated. -/
theorem exists_recounts (p : Peer G) (n : Nat) (hc : p.session.coordinator.current = none) :
    ∃ ks o, p.Recounts n ks o := by
  obtain ⟨ks, hsim⟩ := p.simulated_steps n
  by_cases hopen : p.session.coordinator.collecting = true ∧ 0 < n
  · obtain ⟨hcol, hn⟩ := hopen
    obtain ⟨o, ho, horigin, hstart⟩ := hsim.opens hcol hn hc
    have hd := Coordinator.desynced_of_collecting (hsim.collecting.trans hcol)
    obtain ⟨hval, hidle, hcalls⟩ := Session.finishLocal_closes ho hd (p.steps n).tick
    refine ⟨_, _, hsim.recounts hval (by rw [hcalls]; rfl) hidle ?_⟩
    rintro v ⟨⟩
    exact ⟨horigin, hn, hsim.tells hc hcol ho hstart⟩
  · have hkeep : (p.steps n).session.coordinator = p.session.coordinator := by
      refine hsim.idle ?_
      by_cases hn : n = 0
      · exact Or.inr hn
      · exact Or.inl (Bool.not_eq_true _ ▸ fun hcol => hopen ⟨hcol, Nat.pos_of_ne_zero hn⟩)
    obtain ⟨hval, hcalls⟩ := Session.finishLocal_idle (hkeep ▸ hc) (p.steps n).tick
    exact ⟨_, none, hsim.recounts (by rw [hval]) (by rw [hcalls]; rfl) (by rw [hval, hkeep, hc])
      (by simp)⟩

end Peer

end Lockstep
