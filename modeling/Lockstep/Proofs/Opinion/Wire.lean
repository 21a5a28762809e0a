import Lockstep.Proofs.Opinion.Likeness
import Lockstep.Proofs.Opinion.Symmetry

/-! Wire copies: how a receiver rebuilds an opinion, sample by sample and hash by hash, and which
opinions have the same copy. -/
namespace Lockstep

namespace SampleMap
variable {m n : SampleMap} {id k : MapId} {x : Sample} {xs : List Sample} {ids : List MapId}
  {rows : List (MapId × List Sample)}

/-- Adds several samples to the sequence of a map, in order. -/
def pushAll (m : SampleMap) (id : MapId) (xs : List Sample) : SampleMap :=
  xs.foldl (·.push id ·) m

/-- Adds all that `m` has for the maps `ids`, map by map, to `n`. -/
def copyTo (m : SampleMap) (ids : List MapId) (n : SampleMap) : SampleMap :=
  ids.foldl (fun n id => n.pushAll id (m.samples id)) n

/-- Every map that is known has a sample. -/
def Filled (m : SampleMap) : Prop := ∀ r ∈ m.rows, r.2 ≠ []

theorem ne_nil_of_mem_pushRow (h : ∀ r ∈ rows, r.2 ≠ []) :
    ∀ r ∈ pushRow id x rows, r.2 ≠ [] := by
  induction rows with
  | nil => simp [pushRow]
  | cons head rest ih =>
    obtain ⟨hhead, hrest⟩ := List.forall_mem_cons.1 h
    rw [pushRow]
    split
    · exact List.forall_mem_cons.2 ⟨List.cons_ne_nil x [], h⟩
    split
    · exact List.forall_mem_cons.2 ⟨List.concat_ne_nil x head.2, hrest⟩
    · exact List.forall_mem_cons.2 ⟨hhead, ih hrest⟩

theorem Filled.push (h : m.Filled) (id : MapId) (x : Sample) : (m.push id x).Filled :=
  ne_nil_of_mem_pushRow h

theorem Filled.pushAll (h : m.Filled) (id : MapId) (xs : List Sample) :
    (m.pushAll id xs).Filled := by
  induction xs generalizing m with
  | nil => exact h
  | cons x xs ih => exact ih (h.push id x)

theorem Filled.copyTo (h : n.Filled) (m : SampleMap) (ids : List MapId) :
    (m.copyTo ids n).Filled := by
  induction ids generalizing n with
  | nil => exact h
  | cons id ids ih => exact ih (h.pushAll id _)

theorem Filled.compact_eq (h : m.Filled) : m.compact = m := by
  have hrows : m.rows.filter (fun r => !r.2.isEmpty) = m.rows :=
    List.filter_eq_self.2 fun r hr => by simpa using h r hr
  obtain ⟨rows, ascending⟩ := m
  simp only [compact, mk.injEq]
  exact hrows

theorem samples_pushAll (m : SampleMap) (id k : MapId) (xs : List Sample) :
    (m.pushAll id xs).samples k = if id = k then m.samples k ++ xs else m.samples k := by
  induction xs generalizing m with
  | nil => simp [pushAll]
  | cons x xs ih =>
    refine (ih (m.push id x)).trans ?_
    rw [samples_push]
    split <;> simp

/-- If no map is copied twice, each gets its samples once. -/
theorem samples_copyTo (m n : SampleMap) (hids : ids.Nodup) (k : MapId) :
    (m.copyTo ids n).samples k = n.samples k ++ if k ∈ ids then m.samples k else [] := by
  induction ids generalizing n with
  | nil => simp [copyTo]
  | cons id ids ih =>
    obtain ⟨hid, hids⟩ := List.nodup_cons.1 hids
    refine (ih (n.pushAll id (m.samples id)) hids).trans ?_
    rw [samples_pushAll]
    by_cases hk : id = k
    · subst hk
      simp [hid]
    · simp [hk, Ne.symm hk]

theorem rows_compact (m : SampleMap) :
    m.compact.rows = m.ids.map fun id => (id, m.samples id) := by
  have hrow : ∀ r ∈ m.rows.filter (fun r => !r.2.isEmpty), (r.1, m.samples r.1) = r := by
    intro r hr
    rw [samples, lookupRow_of_mem m.ascending (List.mem_filter.1 hr).1]
  rw [ids, List.map_map]
  exact ((List.map_congr_left hrow).trans (List.map_id _)).symm

/-- Once the maps with no samples are dropped, the samples are all there is to tell apart. -/
theorem compact_eq_iff : m.compact = n.compact ↔ ∀ id, m.samples id = n.samples id := by
  constructor
  · intro h id
    rw [← m.samples_compact, h, n.samples_compact]
  · intro h
    have hrows : m.compact.rows = n.compact.rows := by
      rw [rows_compact, rows_compact, ids_congr h]
      exact List.map_congr_left fun id _ => by rw [h]
    cases hm : m.compact
    cases hn : n.compact
    simpa [hm, hn] using hrows

/-- A copy made from nothing is the same collection without the maps that have no samples. -/
theorem copyTo_empty (m : SampleMap) : m.copyTo m.ids ∅ = m.compact := by
  have hfilled : (∅ : SampleMap).Filled := fun r hr => absurd hr List.not_mem_nil
  rw [← (hfilled.copyTo m m.ids).compact_eq, compact_eq_iff]
  intro id
  have hids : m.ids.Nodup := m.pairwise_ids.imp fun hlt => Int32.ne_of_lt hlt
  rw [samples_copyTo m ∅ hids, samples_empty, List.nil_append]
  split
  · rfl
  next hid => exact (not_not.1 (mem_ids.not.1 hid)).symm

end SampleMap

namespace Opinion
variable {a b : Opinion}

/-- What a receiver makes of an opinion: a fresh remote one, to which the samples of each category,
then the hashes, are added one by one. -/
def rebuilt (o : Opinion) : Opinion :=
  let fresh : Opinion := { origin := .remote, start := o.start }
  let drawn := (fresh.recordAll .command o.command).recordAll .world o.world
  let drawn := o.mapIds.foldl (fun p id => p.recordAll (.map id) (o.samples (.map id))) drawn
  let logged := o.hashes.foldl logHash drawn
  let closed := o.stop.elim logged logged.finish
  if o.simulating then closed.markSimulating else closed

theorem recordAll_command (o : Opinion) (xs : List Sample) :
    o.recordAll .command xs = { o with command := o.command ++ xs } := by
  induction xs generalizing o with
  | nil => simp [recordAll]
  | cons x xs ih =>
    refine (ih (o.record .command x)).trans ?_
    simp [record]

theorem recordAll_world (o : Opinion) (xs : List Sample) :
    o.recordAll .world xs = { o with world := o.world ++ xs } := by
  induction xs generalizing o with
  | nil => simp [recordAll]
  | cons x xs ih =>
    refine (ih (o.record .world x)).trans ?_
    simp [record]

theorem recordAll_map (o : Opinion) (id : MapId) (xs : List Sample) :
    o.recordAll (.map id) xs = { o with maps := o.maps.pushAll id xs } := by
  induction xs generalizing o with
  | nil => rfl
  | cons x xs ih => exact ih (o.record (.map id) x)

theorem foldl_recordAll (o p : Opinion) (ids : List MapId) :
    ids.foldl (fun p id => p.recordAll (.map id) (o.samples (.map id))) p =
      { p with maps := o.maps.copyTo ids p.maps } := by
  induction ids generalizing p with
  | nil => rfl
  | cons id ids ih =>
    rw [List.foldl_cons, ih, recordAll_map]
    rfl

theorem foldl_logHash (o : Opinion) (hs : List TraceHash) :
    hs.foldl logHash o = { o with hashes := o.hashes ++ hs } := by
  induction hs generalizing o with
  | nil => simp
  | cons h hs ih =>
    rw [List.foldl_cons, ih]
    simp [logHash]

/-- The wire copy is what a receiver rebuilds. -/
theorem wire_eq_rebuilt (o : Opinion) : o.wire = o.rebuilt := by
  obtain ⟨origin, start, stop, simulating, command, world, maps, entries, hashes⟩ := o
  simp only [rebuilt, recordAll_command, recordAll_world, foldl_recordAll, foldl_logHash, mapIds,
    SampleMap.copyTo_empty]
  cases stop <;> cases simulating <;> rfl

theorem wire_wire (o : Opinion) : o.wire.wire = o.wire := by
  simp [wire]

/-- Opinions have one copy if they tell the same of the same range. -/
theorem wire_eq_iff : a.wire = b.wire ↔ a.start = b.start ∧ a.stop = b.stop ∧
    a.simulating = b.simulating ∧ a.hashes = b.hashes ∧ ∀ k, a.samples k = b.samples k := by
  constructor
  · intro h
    have hstart : a.wire.start = b.wire.start := by rw [h]
    have hstop : a.wire.stop = b.wire.stop := by rw [h]
    have hsimulating : a.wire.simulating = b.wire.simulating := by rw [h]
    have hhashes : a.wire.hashes = b.wire.hashes := by rw [h]
    refine ⟨hstart, hstop, hsimulating, hhashes, fun k => ?_⟩
    rw [← a.samples_wire, h, b.samples_wire]
  · rintro ⟨hstart, hstop, hsimulating, hhashes, hsamples⟩
    have hcommand : a.command = b.command := hsamples .command
    have hworld : a.world = b.world := hsamples .world
    have hmaps : a.maps.compact = b.maps.compact :=
      SampleMap.compact_eq_iff.2 fun id => hsamples (.map id)
    rw [wire, wire, hstart, hstop, hsimulating, hhashes, hcommand, hworld, hmaps]

/-- Wire copies are faithful and canonical. A copy is what the receiver rebuilds from the samples
and the hashes. It stands in for its opinion on either side of a comparison, of samples or of
traces. A copy of a copy is the copy; and two opinions have the same copy just if they have the same
range, mark, hashes and samples of every category. -/
theorem wire_canonical (a b : Opinion) :
    a.wire = a.rebuilt ∧
      a.wire.disagreement? b = a.disagreement? b ∧ a.disagreement? b.wire = a.disagreement? b ∧
      a.wire.traceDiff? b = a.traceDiff? b ∧ a.traceDiff? b.wire = a.traceDiff? b ∧
      a.wire.wire = a.wire ∧
      (a.wire = b.wire ↔ a.start = b.start ∧ a.stop = b.stop ∧ a.simulating = b.simulating ∧
        a.hashes = b.hashes ∧ ∀ k, a.samples k = b.samples k) :=
  ⟨wire_eq_rebuilt a, disagreement?_wire_left a b, disagreement?_wire_right a b,
    traceDiff?_wire_left a b, traceDiff?_wire_right a b, wire_wire a, wire_eq_iff⟩

/-- An opinion from the pool, which still knows a map of its former use, has the copy of a fresh
one. -/
example :
    let spent : Opinion := ({ origin := .local, start := 0 } : Opinion).record (.map 5) 1
    let reused := (spent.reuse 0 .local).record .world 7
    let fresh : Opinion := { origin := .remote, start := 0, world := [7] }
    reused ≠ { fresh with origin := .local } ∧ reused.wire = fresh.wire := by
  decide

end Opinion

end Lockstep
