import Lockstep.Proofs.Trace.Hash
import Lockstep.Trace.Entry

/-! What a seal makes of a traced call. And the hash of an entry shows a change in what is folded
into it last: the detail of an info entry, the id of an active thing, or the lower half of a
generator state, which samples leave out. -/
namespace Lockstep

open TraceHash (ofString combine combineAll combine_injective)

theorem generator_eq_of_halves {g h : GeneratorState} (hupper : Sample.ofState g = Sample.ofState h)
    (hlower : g.toUInt32 = h.toUInt32) : g = h := by
  have hu := congrArg UInt32.toNat hupper
  have hl := congrArg UInt32.toNat hlower
  simp only [Sample.ofState, UInt64.toNat_toUInt32, UInt64.toNat_shiftRight,
    Nat.shiftRight_eq_div_pow, UInt64.reduceToNat, Nat.reduceMod, Nat.reducePow] at hu hl
  have hg := g.toNat_lt
  have hh := h.toNat_lt
  rw [← UInt64.toNat_inj]
  omega

namespace InfoEntry
variable {e e' : InfoEntry}

theorem hash_ne_of_detail (hsubject : e.subject = e'.subject)
    (hdetail : OneByteApart e.detail e'.detail) : e.hash ≠ e'.hash := by
  intro he
  rw [hash, hash, hsubject] at he
  exact TraceHash.ofString_ne_of_oneByteApart hdetail (combine_injective _ he)

end InfoEntry

namespace CallEntry

/-- A call as it is recorded on a tick: the tick, the depth and the hash are filled in, and the rest
is kept as it was handed over. -/
structure SealedAs (raw : CallEntry) (tick : Tick) (depth : UInt32) (site : TraceHash)
    (e : CallEntry) : Prop where
  tick_eq : e.tick = tick
  depth_eq : e.depth = depth
  hash_eq : e.hash = combineAll site (raw.sealedValues depth)
  kept : { e with tick := raw.tick, depth := raw.depth, hash := raw.hash } = raw

theorem sealedAs_sealed (raw : CallEntry) (tick : Tick) (depth : UInt32) (site : TraceHash) :
    raw.SealedAs tick depth site ({ raw with tick }.sealed depth site) :=
  ⟨rfl, rfl, rfl, rfl⟩

variable {e e' : CallEntry} {t t' : Thing} {site : TraceHash}

/-- The id of an active thing is sealed last. -/
theorem sealedValues_thing (depth : UInt32) (ht : e.thing = some t) : e.sealedValues depth =
    { e with thing := none }.sealedValues depth ++ [ofString t.definition] ++ [t.id] := by
  simp [sealedValues, ht]

/-- Without a faction and a thing, the lower half of the generator state is sealed last. -/
theorem sealedValues_bare (depth : UInt32) (hfaction : e.faction = "") (hthing : e.thing = none) :
    e.sealedValues depth = [depth.toInt32, (Sample.ofState e.generator).toInt32] ++
      [e.generator.toUInt32.toInt32] := by
  simp [sealedValues, hfaction, hthing, Sample.ofState]

variable {depth : UInt32}

theorem hash_sealed_ne {front : List TraceHash} {x y : TraceHash}
    (hours : e.sealedValues depth = front ++ [x]) (htheirs : e'.sealedValues depth = front ++ [y])
    (hne : x ≠ y) : (e.sealed depth site).hash ≠ (e'.sealed depth site).hash := by
  intro he
  have hvalues : combineAll site (e.sealedValues depth) = combineAll site (e'.sealedValues depth) :=
    he
  rw [hours, htheirs, TraceHash.combineAll_concat_inj] at hvalues
  exact hne hvalues

theorem hash_sealed_ne_of_thing (hgenerator : e.generator = e'.generator)
    (hfaction : e.faction = e'.faction) (ht : e.thing = some t) (ht' : e'.thing = some t')
    (hdefinition : t.definition = t'.definition) (hid : t.id ≠ t'.id) :
    (e.sealed depth site).hash ≠ (e'.sealed depth site).hash := by
  -- what is sealed before the thing depends on the generator state and the faction only
  have hfront : { e with thing := none }.sealedValues depth =
      { e' with thing := none }.sealedValues depth := by
    simp only [sealedValues, hgenerator, hfaction]
  have hours := sealedValues_thing depth ht
  have htheirs := sealedValues_thing depth ht'
  rw [← hdefinition, ← hfront] at htheirs
  exact hash_sealed_ne hours htheirs hid

theorem hash_sealed_ne_of_generator (hfaction : e.faction = "") (hfaction' : e'.faction = "")
    (hthing : e.thing = none) (hthing' : e'.thing = none)
    (hupper : Sample.ofState e.generator = Sample.ofState e'.generator)
    (hne : e.generator ≠ e'.generator) :
    (e.sealed depth site).hash ≠ (e'.sealed depth site).hash := by
  have hours := sealedValues_bare depth hfaction hthing
  have htheirs := sealedValues_bare depth hfaction' hthing'
  rw [← hupper] at htheirs
  apply hash_sealed_ne hours htheirs
  intro hlower
  exact hne (generator_eq_of_halves hupper (TraceHash.toInt32_injective hlower))

end CallEntry

/-- What hashes cannot miss. Texts one byte apart have different hashes; under each seed, values and
hashes correspond one to one, so that a fold shows its last value. It follows that the hash of an
info entry shows one byte of the detail; that of a sealed call shows the id of the active thing,
and without a faction and a thing it shows the lower half of the generator state, which no sample
does. -/
theorem last_change_shows :
    (∀ s t, OneByteApart s t → ofString s ≠ ofString t) ∧
      (∀ seed, Function.Bijective (combine seed)) ∧
      (∀ seed front x y, x ≠ y → combineAll seed (front ++ [x]) ≠ combineAll seed (front ++ [y])) ∧
      (∀ e e' : InfoEntry, e.subject = e'.subject → OneByteApart e.detail e'.detail →
        e.hash ≠ e'.hash) ∧
      (∀ (e e' : CallEntry) (t t' : Thing) depth site, e.generator = e'.generator →
        e.faction = e'.faction → e.thing = some t → e'.thing = some t' →
        t.definition = t'.definition → t.id ≠ t'.id →
        (e.sealed depth site).hash ≠ (e'.sealed depth site).hash) ∧
      ∀ (e e' : CallEntry) depth site, e.faction = "" → e'.faction = "" →
        e.thing = none → e'.thing = none →
        Sample.ofState e.generator = Sample.ofState e'.generator → e.generator ≠ e'.generator →
        (e.sealed depth site).hash ≠ (e'.sealed depth site).hash := by
  refine ⟨?_, ?_, ?_, ?_, ?_, ?_⟩
  · intro s t hapart
    exact TraceHash.ofString_ne_of_oneByteApart hapart
  · intro seed
    exact ⟨combine_injective seed, TraceHash.combine_surjective seed⟩
  · intro seed front x y hne he
    exact hne ((TraceHash.combineAll_concat_inj seed front).1 he)
  · intro e e' hsubject hdetail
    exact InfoEntry.hash_ne_of_detail hsubject hdetail
  · intro e e' t t' depth site hgenerator hfaction ht ht' hdefinition hid
    exact CallEntry.hash_sealed_ne_of_thing hgenerator hfaction ht ht' hdefinition hid
  · intro e e' depth site hfaction hfaction' hthing hthing' hupper hne
    exact CallEntry.hash_sealed_ne_of_generator hfaction hfaction' hthing hthing' hupper hne

/-- Texts that differ within a character of two bytes; details that differ in their first letter;
two colonists of one faction; and generator states that differ in the last bit. -/
theorem last_change_shows_each :
    let colonist (id : ThingId) : CallEntry :=
      { callSite := "Pawn.Tick", faction := "Outlanders", thing := some ⟨"Colonist", id⟩ }
    let idle (g : GeneratorState) : CallEntry := { callSite := "Pawn.Tick", generator := g }
    ofString "né" ≠ ofString "nè" ∧
      combineAll 7 [1, 2, 3] ≠ combineAll 7 [1, 2, 4] ∧
      InfoEntry.hash ⟨1, "spawn", "pawn"⟩ ≠ InfoEntry.hash ⟨2, "spawn", "dawn"⟩ ∧
      ((colonist 42).sealed 3 77).hash ≠ ((colonist (-42)).sealed 3 77).hash ∧
      ((idle 0x0123456789abcdef).sealed 3 77).hash ≠
        ((idle 0x0123456789abcdee).sealed 3 77).hash := by
  intro colonist idle
  obtain ⟨htexts, -, hfolds, hinfo, hthing, hgenerator⟩ := last_change_shows
  refine ⟨htexts _ _ (by decide), hfolds 7 [1, 2] 3 4 (by decide), ?_, ?_, ?_⟩
  · exact hinfo _ _ rfl (by decide)
  · exact hthing (colonist 42) (colonist (-42)) _ _ 3 77 rfl rfl rfl rfl rfl (by decide)
  · exact hgenerator (idle _) (idle _) 3 77 rfl rfl rfl rfl (by decide) (by decide)

end Lockstep
