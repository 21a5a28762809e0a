import Lockstep.Proofs.Opinion.Symmetry

/-! The disagreement that a comparison finds is the least one: no earlier sample of its category
differs, and none of an earlier category. -/
namespace Lockstep

/-- How two sample sequences differ at a place: by their samples if both have one there, and
otherwise by their lengths. -/
def Divergence.Kind.ofPlace (ours theirs : List Sample) (i : Nat) : Kind :=
  match ours[i]?, theirs[i]? with
  | some x, some y => .state x y
  | _, _ => .count ours.length theirs.length

namespace Divergence
variable {c : Category} {xs ys : List Sample} {d : Divergence}

theorem eq_of_between (h : between c xs ys = none) : xs = ys := by
  rw [between] at h
  split at h
  · cases h
  next hm =>
    split at h
    next hlen => exact eq_of_no_mismatch hm hlen
    · cases h

theorem Kind.ofPlace_shorter (xs ys : List Sample) :
    ofPlace xs ys (min xs.length ys.length) = .count xs.length ys.length := by
  rw [ofPlace]
  rcases Nat.le_total xs.length ys.length with hle | hle
  · rw [Nat.min_eq_left hle, List.getElem?_eq_none le_rfl]
  · rw [Nat.min_eq_right hle, List.getElem?_eq_none (l := ys) le_rfl]
    cases xs[ys.length]? <;> rfl

/-- Two sequences are found to differ at the first place where they do. -/
theorem first_of_between (h : between c xs ys = some d) :
    d.category = c ∧ FirstDifference xs ys d.index ∧ d.kind = .ofPlace xs ys d.index := by
  rw [between] at h
  split at h
  next hm =>
    cases h
    obtain ⟨-, hx, hy, -⟩ := mismatch_place hm
    exact ⟨rfl, firstDifference_of_mismatch hm, by rw [Kind.ofPlace, hx, hy]⟩
  next hm =>
    split at h
    · cases h
    next hlen =>
      cases h
      exact ⟨rfl, firstDifference_of_lengths hm hlen, (Kind.ofPlace_shorter xs ys).symm⟩

end Divergence

/-- A range that has ended passes compatibility on. -/
theorem TickRange.Compatible.trans {r s t : TickRange} (h : r.Compatible s) (hs : s.stop ≠ none)
    (k : s.Compatible t) : r.Compatible t := by
  refine ⟨h.1.trans k.1, ?_⟩
  rcases h.2 with hr | hn | heq
  · exact Or.inl hr
  · exact absurd hn hs
  · rcases k.2 with hn | ht | heq'
    · exact absurd hn hs
    · exact Or.inr (Or.inl ht)
    · exact Or.inr (Or.inr (heq.trans heq'))

theorem Category.lt_trichotomy (k l : Category) : k < l ∨ k = l ∨ l < k := by
  cases k with
  | command => cases l <;> simp [LT.lt, Before]
  | world => cases l <;> simp [LT.lt, Before]
  | map i =>
    cases l with
    | command | world => exact Or.inr (Or.inr trivial)
    | map j =>
      by_cases hlt : i < j
      · exact Or.inl hlt
      · by_cases heq : i = j
        · exact Or.inr (Or.inl (congrArg map heq))
        · exact Or.inr (Or.inr (Int32.lt_of_le_of_ne (Int32.not_lt.1 hlt) (Ne.symm heq)))

namespace Opinion
variable {a b c : Opinion} {d e : Divergence} {k l : Category}

theorem mem_categories_of_ne (h : a.samples k ≠ b.samples k) : k ∈ a.categories b := by
  cases k with
  | command | world => simp [categories]
  | map id =>
    have hid : id ∈ b.mapIds.foldr insertId a.mapIds := by
      rw [mem_foldr_insertId, mapIds, mapIds, SampleMap.mem_ids, SampleMap.mem_ids]
      by_contra hnone
      rw [not_or, not_not, not_not] at hnone
      exact h (hnone.2.trans hnone.1.symm)
    exact List.mem_cons_of_mem _ (List.mem_cons_of_mem _ (List.mem_map_of_mem hid))

theorem pairwise_categories (a b : Opinion) : (a.categories b).Pairwise (· < ·) := by
  have hids : (b.mapIds.foldr insertId a.mapIds).Pairwise (· < ·) :=
    pairwise_foldr_insertId (SampleMap.pairwise_ids _)
  have hmaps : ((b.mapIds.foldr insertId a.mapIds).map Category.map).Pairwise (· < ·) :=
    List.pairwise_map.2 hids
  have hmap : ∀ k ∈ (b.mapIds.foldr insertId a.mapIds).map Category.map,
      Category.world < k ∧ Category.command < k := by
    intro k hk
    obtain ⟨id, -, rfl⟩ := List.mem_map.1 hk
    exact ⟨trivial, trivial⟩
  refine List.pairwise_cons.2 ⟨?_, List.pairwise_cons.2 ⟨fun k hk => (hmap k hk).1, hmaps⟩⟩
  intro k hk
  rcases List.mem_cons.1 hk with rfl | hk
  · trivial
  · exact (hmap k hk).2

/-- The ranges rule a comparison out: they start apart, or both have ended, at different ticks. -/
def RangesClash (a b : Opinion) : Prop :=
  a.start ≠ b.start ∨ ∃ s t, a.stop = some s ∧ b.stop = some t ∧ s ≠ t

theorem compatible_iff : a.range.Compatible b.range ↔ ¬ a.RangesClash b := by
  rw [TickRange.Compatible, RangesClash, not_or, not_not]
  refine and_congr_right fun _ => ?_
  rw [range, range]
  cases ha : a.stop <;> cases hb : b.stop <;> simp

/-- The opinions differ at a place of a category, its samples read as a partial function. -/
def DiffersAt (a b : Opinion) (k : Category) (i : Nat) : Prop :=
  (a.samples k)[i]? ≠ (b.samples k)[i]?

/-- The divergence is at the least place where the opinions differ, categories first, and tells
how they differ there. -/
structure Least (a b : Opinion) (d : Divergence) : Prop where
  differs : a.DiffersAt b d.category d.index
  least : ∀ k i, a.DiffersAt b k i → d.category < k ∨ d.category = k ∧ d.index ≤ i
  kind_eq : d.kind = .ofPlace (a.samples d.category) (b.samples d.category) d.index

theorem Least.unique (hd : a.Least b d) (he : a.Least b e) : d = e := by
  have hplace : d.category = e.category ∧ d.index = e.index := by
    rcases hd.least _ _ he.differs with hlt | ⟨heq, hle⟩
    · rcases he.least _ _ hd.differs with hgt | ⟨heq, -⟩
      · exact absurd (Category.lt_trans hlt hgt) (Category.lt_irrefl _)
      · rw [heq] at hlt
        exact absurd hlt (Category.lt_irrefl _)
    · rcases he.least _ _ hd.differs with hgt | ⟨-, hge⟩
      · rw [heq] at hgt
        exact absurd hgt (Category.lt_irrefl _)
      · exact ⟨heq, Nat.le_antisymm hle hge⟩
  have hkind : d.kind = e.kind := by
    rw [hd.kind_eq, he.kind_eq, hplace.1, hplace.2]
  obtain ⟨k, i, kind⟩ := d
  obtain ⟨rfl, rfl⟩ := hplace
  cases hkind
  rfl

theorem agree_of_none (h : a.disagreement? b = none) :
    ¬ a.RangesClash b ∧ ∀ k, a.samples k = b.samples k := by
  rw [disagreement?] at h
  split at h
  next hc =>
    refine ⟨compatible_iff.1 hc, fun k => ?_⟩
    rw [Option.map_eq_none_iff, List.findSome?_eq_none_iff] at h
    by_contra hne
    exact hne (Divergence.eq_of_between (h k (mem_categories_of_ne hne)))
  · cases h

/-- What is compared before a category is all that comes before it. -/
theorem mem_of_categories {before after : List Category}
    (hsplit : a.categories b = before ++ k :: after) (hl : l ∈ a.categories b) (hlt : l < k) :
    l ∈ before := by
  have hsorted := pairwise_categories a b
  rw [hsplit, List.pairwise_append, List.pairwise_cons] at hsorted
  rw [hsplit, List.mem_append, List.mem_cons] at hl
  rcases hl with hl | rfl | hl
  · exact hl
  · exact absurd hlt (Category.lt_irrefl _)
  · exact absurd (Category.lt_trans hlt (hsorted.2.1.1 l hl)) (Category.lt_irrefl _)

theorem least_of_divergence (h : a.disagreement? b = some (.divergence d)) :
    ¬ a.RangesClash b ∧ a.Least b d := by
  rw [disagreement?] at h
  split at h
  next hc =>
    refine ⟨compatible_iff.1 hc, ?_⟩
    obtain ⟨e, he, hed⟩ := Option.map_eq_some_iff.1 h
    cases hed
    obtain ⟨before, k, after, hsplit, hk, hbefore⟩ := List.findSome?_eq_some_iff.1 he
    obtain ⟨rfl, hfirst, hkind⟩ := Divergence.first_of_between hk
    refine ⟨hfirst.differs, ?_, hkind⟩
    intro l i hl
    rcases Category.lt_trichotomy d.category l with hlt | rfl | hgt
    · exact Or.inl hlt
    · refine Or.inr ⟨rfl, ?_⟩
      by_contra hi
      exact hl (hfirst.before i (by omega))
    -- the earlier category has been compared before, and no difference was found
    · have hne : a.samples l ≠ b.samples l := fun heq => hl (by rw [heq])
      have hmem := mem_of_categories hsplit (mem_categories_of_ne hne) hgt
      exact absurd (Divergence.eq_of_between (hbefore l hmem)) hne
  · cases h

theorem rangeMismatch_iff {m : RangeMismatch} :
    a.disagreement? b = some (.rangeMismatch m) ↔ a.RangesClash b ∧ m = ⟨a.range, b.range⟩ := by
  constructor
  · intro h
    rw [disagreement?] at h
    split at h
    · obtain ⟨_, _, he⟩ := Option.map_eq_some_iff.1 h
      cases he
    next hc =>
      cases h
      exact ⟨not_not.1 (compatible_iff.not.1 hc), rfl⟩
  · rintro ⟨hclash, rfl⟩
    have hc : ¬ a.range.Compatible b.range := compatible_iff.not.2 (not_not.2 hclash)
    rw [disagreement?, if_neg hc]

theorem agree_iff : a.disagreement? b = none ↔
    ¬ a.RangesClash b ∧ ∀ k, a.samples k = b.samples k := by
  refine ⟨agree_of_none, ?_⟩
  rintro ⟨hclash, heq⟩
  cases h : a.disagreement? b with
  | none => rfl
  | some cause =>
    cases cause with
    | divergence d => exact absurd (by rw [heq]) (least_of_divergence h).2.differs
    | rangeMismatch m => exact absurd (rangeMismatch_iff.1 h).1 hclash

theorem divergence_iff : a.disagreement? b = some (.divergence d) ↔
    ¬ a.RangesClash b ∧ a.Least b d := by
  refine ⟨least_of_divergence, ?_⟩
  rintro ⟨hclash, hd⟩
  cases h : a.disagreement? b with
  | none => exact absurd (by rw [(agree_of_none h).2]) hd.differs
  | some cause =>
    cases cause with
    | divergence e => rw [hd.unique (least_of_divergence h).2]
    | rangeMismatch m => exact absurd (rangeMismatch_iff.1 h).1 hclash

/-- Agreement carries over from `a` to `c` if the opinion between them has ended: an open end goes
with any end. -/
theorem agree_trans (hb : b.stop ≠ none) (hab : a.disagreement? b = none)
    (hbc : b.disagreement? c = none) : a.disagreement? c = none := by
  obtain ⟨hclash, hsamples⟩ := agree_iff.1 hab
  obtain ⟨hclash', hsamples'⟩ := agree_iff.1 hbc
  have hrange := (compatible_iff.2 hclash).trans hb (compatible_iff.2 hclash')
  exact agree_iff.2 ⟨compatible_iff.1 hrange, fun k => (hsamples k).trans (hsamples' k)⟩

/-- A comparison finds the least disagreement. It refuses ranges that start apart or end at
different ticks. Otherwise the opinions agree if all their samples do, and if not, what is found is
the least place at which they differ, with the samples there or the lengths. The other side finds
the same, with ours and theirs exchanged; and agreement is transitive through opinions that have
ended. -/
theorem disagreement_least (a b c : Opinion) :
    (∀ m, a.disagreement? b = some (.rangeMismatch m) ↔
      a.RangesClash b ∧ m = ⟨a.range, b.range⟩) ∧
    (a.disagreement? b = none ↔ ¬ a.RangesClash b ∧ ∀ k, a.samples k = b.samples k) ∧
    (∀ d, a.disagreement? b = some (.divergence d) ↔ ¬ a.RangesClash b ∧ a.Least b d) ∧
    b.disagreement? a = (a.disagreement? b).map Disagreement.swap ∧
    (b.stop ≠ none → a.disagreement? b = none → b.disagreement? c = none →
      a.disagreement? c = none) :=
  ⟨fun _ => rangeMismatch_iff, agree_iff, fun _ => divergence_iff, disagreement?_swap a b,
    agree_trans⟩

/-- An opinion from the pool, which still knows the maps of its former use, agrees with one that
has ended, and through it with a third. -/
theorem disagreement_least_reused :
    let spent : Opinion := ({ origin := .local, start := 0 } : Opinion).record (.map 5) 1
    let reused := (spent.reuse 0 .local).record .world 7
    let ended : Opinion := { origin := .remote, start := 0, stop := some 3, world := [7] }
    let fresh : Opinion := { origin := .local, start := 0, world := [7] }
    reused.maps.rows = [(5, [])] ∧ ended.stop ≠ none ∧ reused.disagreement? ended = none ∧
      ended.disagreement? fresh = none ∧ reused.disagreement? fresh = none := by
  intro spent reused ended fresh
  obtain ⟨-, -, -, -, htrans⟩ := disagreement_least reused ended fresh
  have hended : ended.stop ≠ none := by decide
  have hfirst : reused.disagreement? ended = none := by decide
  have hsecond : ended.disagreement? fresh = none := by decide
  exact ⟨by decide, hended, hfirst, hsecond, htrans hended hfirst hsecond⟩

end Opinion

end Lockstep
