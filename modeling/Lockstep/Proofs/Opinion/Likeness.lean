import Lockstep.Opinion.Compare
import Mathlib.Data.List.Sort

/-! Opinions that a comparison cannot tell apart, and opinions that nobody can
tell apart: one of them may keep maps with no samples from an earlier use. -/
namespace Lockstep

namespace SampleMap
variable {m n : SampleMap}

theorem isEmpty_eq (m : SampleMap) : m.isEmpty = m.ids.isEmpty := by
  rw [isEmpty, ids, Bool.eq_iff_iff]
  simp

/-- Which maps are listed depends on their samples alone. -/
theorem ids_congr (h : ∀ id, m.samples id = n.samples id) : m.ids = n.ids := by
  refine m.pairwise_ids.eq_of_mem_iff n.pairwise_ids fun id => ?_
  rw [mem_ids, mem_ids, h]

end SampleMap

namespace Opinion
variable {a b c o : Opinion}

/-- One side has drawn the same samples over the same ticks. -/
structure SameDraws (a b : Opinion) : Prop where
  origin : a.origin = b.origin
  range : a.range = b.range
  samples : ∀ k, a.samples k = b.samples k

/-- All that can be read off two opinions is the same. -/
structure Alike (a b : Opinion) : Prop extends SameDraws a b where
  simulating : a.simulating = b.simulating
  mapIds : a.mapIds = b.mapIds
  entries : a.entries = b.entries
  hashes : a.hashes = b.hashes
  isEmpty : a.isEmpty = b.isEmpty

@[simp] theorem samples_logEntry (o : Opinion) (e : TraceEntry) (k : Category) :
    (o.logEntry e).samples k = o.samples k := by
  cases k <;> rfl

@[simp] theorem samples_markSimulating (o : Opinion) (k : Category) :
    o.markSimulating.samples k = o.samples k := by
  cases k <;> rfl

@[simp] theorem samples_finish (o : Opinion) (stop : Tick) (k : Category) :
    (o.finish stop).samples k = o.samples k := by
  cases k <;> rfl

namespace SameDraws

@[refl] theorem refl (a : Opinion) : a.SameDraws a := ⟨rfl, rfl, fun _ => rfl⟩

@[symm] theorem symm (h : a.SameDraws b) : b.SameDraws a :=
  ⟨h.origin.symm, h.range.symm, fun k => (h.samples k).symm⟩

theorem trans (h : a.SameDraws b) (k : b.SameDraws c) : a.SameDraws c :=
  ⟨h.origin.trans k.origin, h.range.trans k.range, fun j => (h.samples j).trans (k.samples j)⟩

theorem start (h : a.SameDraws b) : a.start = b.start := congrArg TickRange.start h.range

theorem mapIds (h : a.SameDraws b) : a.mapIds = b.mapIds :=
  SampleMap.ids_congr fun id => h.samples (.map id)

theorem markSimulating (o : Opinion) : o.markSimulating.SameDraws o :=
  ⟨rfl, rfl, o.samples_markSimulating⟩

/-- The mark of catching up is no sample, whether it is set or not. -/
theorem marked (o : Opinion) (hurried : Bool) :
    (if hurried then o.markSimulating else o).SameDraws o := by
  cases hurried with
  | false => exact .refl o
  | true => exact .markSimulating o

theorem logEntry (o : Opinion) (e : TraceEntry) : (o.logEntry e).SameDraws o :=
  ⟨rfl, rfl, o.samples_logEntry e⟩

/-- Comparisons look at ranges and samples, and at nothing else. -/
theorem disagreement?_eq {a' b' : Opinion} (h : a.SameDraws a') (k : b.SameDraws b') :
    a.disagreement? b = a'.disagreement? b' := by
  rw [disagreement?, disagreement?, categories, categories, h.range, k.range, h.mapIds, k.mapIds]
  simp only [h.samples, k.samples]

/-- The flag, the entries and the hashes are all that is left to compare. -/
theorem alike (h : a.SameDraws b) (hsimulating : a.simulating = b.simulating)
    (hentries : a.entries = b.entries) (hhashes : a.hashes = b.hashes) : a.Alike b where
  toSameDraws := h
  simulating := hsimulating
  mapIds := h.mapIds
  entries := hentries
  hashes := hhashes
  isEmpty := by
    have hcommand : a.command = b.command := h.samples .command
    have hworld : a.world = b.world := h.samples .world
    have hmaps : a.maps.isEmpty = b.maps.isEmpty := by
      rw [SampleMap.isEmpty_eq, SampleMap.isEmpty_eq]
      exact congrArg List.isEmpty h.mapIds
    rw [Opinion.isEmpty, Opinion.isEmpty, hcommand, hworld, hmaps, hentries, hhashes]

theorem record (h : a.SameDraws b) (k : Category) (x : Sample) :
    (a.record k x).SameDraws (b.record k x) where
  origin := by rw [origin_record, origin_record, h.origin]
  range := by rw [range_record, range_record, h.range]
  samples j := by rw [samples_record, samples_record, h.samples]

theorem finish (h : a.SameDraws b) (stop : Tick) : (a.finish stop).SameDraws (b.finish stop) where
  origin := h.origin
  range := congrArg (TickRange.mk · (some stop)) h.start
  samples k := by rw [samples_finish, samples_finish, h.samples]

end SameDraws

@[simp] theorem simulating_record (o : Opinion) (k : Category) (x : Sample) :
    (o.record k x).simulating = o.simulating := by
  cases k <;> rfl

@[simp] theorem entries_record (o : Opinion) (k : Category) (x : Sample) :
    (o.record k x).entries = o.entries := by
  cases k <;> rfl

@[simp] theorem hashes_record (o : Opinion) (k : Category) (x : Sample) :
    (o.record k x).hashes = o.hashes := by
  cases k <;> rfl

namespace Alike

@[refl] theorem refl (a : Opinion) : a.Alike a := (SameDraws.refl a).alike rfl rfl rfl

@[symm] theorem symm (h : a.Alike b) : b.Alike a :=
  h.toSameDraws.symm.alike h.simulating.symm h.entries.symm h.hashes.symm

theorem trans (h : a.Alike b) (k : b.Alike c) : a.Alike c :=
  (h.toSameDraws.trans k.toSameDraws).alike (h.simulating.trans k.simulating)
    (h.entries.trans k.entries) (h.hashes.trans k.hashes)

theorem traceDiff?_eq {a' b' : Opinion} (h : a.Alike a') (k : b.Alike b') :
    a.traceDiff? b = a'.traceDiff? b' := by
  rw [traceDiff?, traceDiff?, h.hashes, k.hashes]

theorem recordState (h : a.Alike b) (k : Category) (s : GeneratorState) :
    (a.recordState k s).Alike (b.recordState k s) := by
  refine (h.toSameDraws.record k (Sample.ofState s)).alike ?_ ?_ ?_
  · simp [h.simulating]
  · simp [h.entries]
  · simp [h.hashes]

theorem logEntry (h : a.Alike b) (e : TraceEntry) : (a.logEntry e).Alike (b.logEntry e) := by
  have hdraws : (a.logEntry e).SameDraws (b.logEntry e) :=
    ⟨h.origin, h.range, fun k => by simp [h.samples]⟩
  exact hdraws.alike h.simulating (congrArg (· ++ [e]) h.entries)
    (congrArg (· ++ [e.hash]) h.hashes)

theorem markSimulating (h : a.Alike b) : a.markSimulating.Alike b.markSimulating := by
  have hdraws : a.markSimulating.SameDraws b.markSimulating :=
    ⟨h.origin, h.range, fun k => by simp [h.samples]⟩
  exact hdraws.alike rfl h.entries h.hashes

theorem finish (h : a.Alike b) (stop : Tick) : (a.finish stop).Alike (b.finish stop) :=
  (h.toSameDraws.finish stop).alike h.simulating h.entries h.hashes

end Alike

/-- An opinion that is used again cannot be told from a fresh one. -/
theorem alike_reuse (o : Opinion) (start : Tick) (origin : Origin) :
    (o.reuse start origin).Alike { origin, start } := by
  refine SameDraws.alike ⟨rfl, rfl, fun k => ?_⟩ rfl rfl rfl
  rw [samples_reuse]
  cases k <;> rfl

end Opinion

end Lockstep
