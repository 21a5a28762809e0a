import Lockstep.Sample

/-! The samples of each map, kept by ascending map id. -/
namespace Lockstep

/-- A sequence of samples for each of finitely many maps. A map may be kept
with no samples: clearing leaves the maps in place. -/
structure SampleMap where
  rows : List (MapId × List Sample)
  ascending : rows.Pairwise fun a b => a.1 < b.1
deriving DecidableEq

namespace SampleMap
variable {id : MapId} {x : Sample} {rows : List (MapId × List Sample)}

/-- Adds a sample to the row of a map, opening the row at its place. -/
def pushRow (id : MapId) (x : Sample) : List (MapId × List Sample) → List (MapId × List Sample)
  | [] => [(id, [x])]
  | (k, xs) :: rest =>
    if id < k then (id, [x]) :: (k, xs) :: rest
    else if id = k then (k, xs ++ [x]) :: rest
    else (k, xs) :: pushRow id x rest

/-- The samples in the row of a map, none if it has no row. -/
def lookupRow (id : MapId) : List (MapId × List Sample) → List Sample
  | [] => []
  | (k, xs) :: rest => if k = id then xs else lookupRow id rest

theorem fst_of_mem_pushRow {r : MapId × List Sample} (h : r ∈ pushRow id x rows) :
    r.1 = id ∨ r.1 ∈ rows.map Prod.fst := by
  induction rows with
  | nil => simp_all [pushRow]
  | cons head rest ih =>
    rw [pushRow] at h
    split at h
    · obtain rfl | h := List.mem_cons.1 h
      · exact Or.inl rfl
      · exact Or.inr (List.mem_map_of_mem h)
    split at h
    · obtain rfl | h := List.mem_cons.1 h
      · exact Or.inr List.mem_cons_self
      · exact Or.inr (List.mem_map_of_mem (List.mem_cons_of_mem _ h))
    · obtain rfl | h := List.mem_cons.1 h
      · exact Or.inr List.mem_cons_self
      · exact (ih h).imp_right (List.mem_cons_of_mem _)

theorem lt_of_lt_head {head : MapId × List Sample}
    (h : (head :: rows).Pairwise fun a b => a.1 < b.1) (hid : id < head.1) :
    ∀ r ∈ head :: rows, id < r.1 := by
  intro r hr
  obtain rfl | hr := List.mem_cons.1 hr
  · exact hid
  · exact Int32.lt_trans hid ((List.pairwise_cons.1 h).1 r hr)

theorem pairwise_pushRow (h : rows.Pairwise fun a b => a.1 < b.1) :
    (pushRow id x rows).Pairwise fun a b => a.1 < b.1 := by
  induction rows with
  | nil => simp [pushRow]
  | cons head rest ih =>
    obtain ⟨hhead, hrest⟩ := List.pairwise_cons.1 h
    rw [pushRow]
    split
    next hlt => exact List.pairwise_cons.2 ⟨lt_of_lt_head h hlt, h⟩
    next hge =>
      split
      · exact List.pairwise_cons.2 ⟨hhead, hrest⟩
      next hne =>
        refine List.pairwise_cons.2 ⟨fun r hr => ?_, ih hrest⟩
        have hgt : head.1 < id := Int32.lt_of_le_of_ne (Int32.not_lt.1 hge) (Ne.symm hne)
        obtain he | hmem := fst_of_mem_pushRow hr
        · exact he ▸ hgt
        · obtain ⟨s, hs, he⟩ := List.mem_map.1 hmem
          exact he ▸ hhead s hs

instance : EmptyCollection SampleMap := ⟨⟨[], List.Pairwise.nil⟩⟩

/-- Adds a sample to the sequence of a map. -/
def push (m : SampleMap) (id : MapId) (x : Sample) : SampleMap :=
  ⟨pushRow id x m.rows, pairwise_pushRow m.ascending⟩

def samples (m : SampleMap) (id : MapId) : List Sample := lookupRow id m.rows

/-- The maps that have at least one sample, by ascending id. -/
def ids (m : SampleMap) : List MapId :=
  (m.rows.filter fun r => !r.2.isEmpty).map Prod.fst

def isEmpty (m : SampleMap) : Bool := m.rows.all fun r => r.2.isEmpty

/-- Drops every sample and keeps the maps. -/
def clear (m : SampleMap) : SampleMap :=
  ⟨m.rows.map fun r => (r.1, []), by simpa only [List.pairwise_map] using m.ascending⟩

/-- Drops the maps that have no sample. -/
def compact (m : SampleMap) : SampleMap :=
  ⟨m.rows.filter fun r => !r.2.isEmpty, m.ascending.filter _⟩

end SampleMap

end Lockstep
