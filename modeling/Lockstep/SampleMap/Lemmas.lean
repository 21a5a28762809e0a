import Lockstep.SampleMap.Basic

/-! What the operations on the samples of maps do to each map's samples. -/
namespace Lockstep.SampleMap

variable {id k : MapId} {x : Sample} {rows : List (MapId × List Sample)}

theorem lookupRow_eq_nil (h : ∀ r ∈ rows, id < r.1) : lookupRow id rows = [] := by
  induction rows with
  | nil => rfl
  | cons head rest ih =>
    have hne : head.1 ≠ id := fun he => Int32.lt_irrefl (he ▸ h head List.mem_cons_self)
    rw [lookupRow, if_neg hne]
    exact ih fun r hr => h r (List.mem_cons_of_mem _ hr)

theorem lookupRow_pushRow (h : rows.Pairwise fun a b => a.1 < b.1) :
    lookupRow k (pushRow id x rows) =
      if id = k then lookupRow k rows ++ [x] else lookupRow k rows := by
  induction rows with
  | nil => simp [pushRow, lookupRow]
  | cons head rest ih =>
    obtain ⟨j, xs⟩ := head
    obtain ⟨hj, hrest⟩ := List.pairwise_cons.1 h
    by_cases hlt : id < j
    · have hnone : lookupRow id ((j, xs) :: rest) = [] :=
        lookupRow_eq_nil (lt_of_lt_head h hlt)
      by_cases hk : id = k
      · rw [← hk, hnone]
        simp [pushRow, hlt, lookupRow]
      · simp [pushRow, hlt, lookupRow, hk]
    by_cases he : id = j
    · by_cases hk : j = k <;> simp [pushRow, he, lookupRow, hk]
    · by_cases hk : j = k
      · subst hk
        simp [pushRow, hlt, he, lookupRow]
      · simp [pushRow, hlt, he, lookupRow, hk, ih hrest]

/-- A push adds to the sequence of its own map and to no other. -/
theorem samples_push (m : SampleMap) (id k : MapId) (x : Sample) :
    (m.push id x).samples k = if id = k then m.samples k ++ [x] else m.samples k :=
  lookupRow_pushRow m.ascending

@[simp] theorem samples_empty (id : MapId) : (∅ : SampleMap).samples id = [] := rfl

theorem lookupRow_map_nil (rows : List (MapId × List Sample)) :
    lookupRow id (rows.map fun r => (r.1, [])) = [] := by
  induction rows with
  | nil => rfl
  | cons head rest ih =>
    rw [List.map_cons, lookupRow, ih]
    exact ite_self []

@[simp] theorem samples_clear (m : SampleMap) (id : MapId) : m.clear.samples id = [] :=
  lookupRow_map_nil m.rows

theorem lookupRow_of_mem (h : rows.Pairwise fun a b => a.1 < b.1) {r : MapId × List Sample}
    (hr : r ∈ rows) : lookupRow r.1 rows = r.2 := by
  induction rows with
  | nil => simp at hr
  | cons head rest ih =>
    obtain ⟨hhead, hrest⟩ := List.pairwise_cons.1 h
    rw [lookupRow]
    obtain rfl | hr := List.mem_cons.1 hr
    · exact if_pos rfl
    · have hne : head.1 ≠ r.1 := fun he => Int32.lt_irrefl (he ▸ hhead r hr)
      rw [if_neg hne]
      exact ih hrest hr

theorem mem_of_lookupRow_ne_nil (h : lookupRow id rows ≠ []) :
    (id, lookupRow id rows) ∈ rows := by
  induction rows with
  | nil => exact absurd rfl h
  | cons head rest ih =>
    by_cases he : head.1 = id
    · rw [lookupRow, if_pos he, ← he]
      exact List.mem_cons_self
    · rw [lookupRow, if_neg he] at h ⊢
      exact List.mem_cons_of_mem _ (ih h)

/-- The listed maps are those with samples. -/
theorem mem_ids {m : SampleMap} : id ∈ m.ids ↔ m.samples id ≠ [] := by
  constructor
  · intro h
    obtain ⟨r, hr, rfl⟩ := List.mem_map.1 h
    obtain ⟨hmem, hne⟩ := List.mem_filter.1 hr
    rw [samples, lookupRow_of_mem m.ascending hmem]
    simpa using hne
  · intro h
    refine List.mem_map.2 ⟨(id, m.samples id), List.mem_filter.2 ⟨?_, ?_⟩, rfl⟩
    · exact mem_of_lookupRow_ne_nil h
    · simpa using h

theorem pairwise_ids (m : SampleMap) : m.ids.Pairwise (· < ·) :=
  List.pairwise_map.2 (m.ascending.filter _)

theorem lookupRow_filter (rows : List (MapId × List Sample))
    (h : rows.Pairwise fun a b => a.1 < b.1) :
    lookupRow id (rows.filter fun r => !r.2.isEmpty) = lookupRow id rows := by
  induction rows with
  | nil => rfl
  | cons head rest ih =>
    obtain ⟨hhead, hrest⟩ := List.pairwise_cons.1 h
    by_cases hempty : head.2 = []
    · rw [List.filter_cons_of_neg (by simp [hempty]), ih hrest, lookupRow]
      split
      next he =>
        rw [hempty]
        exact lookupRow_eq_nil fun r hr => he ▸ hhead r hr
      next => rfl
    · rw [List.filter_cons_of_pos (by simp [hempty]), lookupRow, lookupRow, ih hrest]

@[simp] theorem samples_compact (m : SampleMap) (id : MapId) :
    m.compact.samples id = m.samples id :=
  lookupRow_filter m.rows m.ascending

@[simp] theorem ids_compact (m : SampleMap) : m.compact.ids = m.ids := by
  simp [ids, compact]

@[simp] theorem compact_compact (m : SampleMap) : m.compact.compact = m.compact := by
  simp [compact]

end Lockstep.SampleMap
