import Lockstep.Proofs.Coordinator.Halted
import Lockstep.Proofs.Coordinator.Logging
import Lockstep.Proofs.Coordinator.Order
import Lockstep.Proofs.Coordinator.Progress
import Lockstep.Proofs.Ledger

/-! The ledger of a run. It is kept from the answers and from the evictions that the log tells of,
and agrees with the backlog, the comparisons and the log in every state. -/
namespace Lockstep

/-- The two opinions that are compared. -/
def Comparison.opinions (m : Comparison) : List Opinion := [m.earlier, m.later]

namespace Coordinator

variable {c c' : Coordinator} {k : Call} {ks ls : List Call} {o : Opinion} {met : Option Opinion}
  {r : Outcome} {l : Ledger}

/-- What waits before a submission is lost, compared or kept, in this order; what waits after it
is kept or is the new opinion. -/
theorem flow_submission (hs : Submission c o met r c') :
    ∃ kept, c.backlog = c.lost o ++ met.toList ++ kept ∧
      c'.backlog = kept ++ (if r = .queued then [o] else []) ∧ (r.IsVerdict ↔ met.isSome) := by
  cases hs with
  | ignored pool hd =>
    refine ⟨c.backlog, ?_, by simp, by simp [Outcome.IsVerdict]⟩
    rw [lost]
    split <;> simp [hd]
  | alone hd hb => exact ⟨[], by simp [lost, hb], by simp, by simp [Outcome.IsVerdict]⟩
  | @behind front rest hd hb ho hroom =>
    refine ⟨front :: rest, ?_, by simp, by simp [Outcome.IsVerdict]⟩
    simp [lost, hb, hd, ho, Nat.not_le.2 hroom]
  | @crowding front rest pool hd hb ho hfull =>
    refine ⟨rest, ?_, by simp, by simp [Outcome.IsVerdict]⟩
    simp [lost, hb, hd, ho, hfull]
  | overtaking pool hd hb ho hlt =>
    refine ⟨[], ?_, by simp, by simp [Outcome.IsVerdict]⟩
    rw [lost_of_ne hd hb ho, List.takeWhile_eq_self_iff.2 (by simpa using hlt)]
    simp
  | @stale front w rest old later pool hd hb ho hsplit hlt hgt =>
    refine ⟨w :: later, ?_, by simp, by simp [Outcome.IsVerdict]⟩
    rw [lost_of_split hd hb ho hsplit hlt (UInt32.not_lt.2 (UInt32.le_of_lt hgt)), hsplit]
    simp
  | @agreeing front w rest old later pool hd hb ho hsplit hlt heq hcmp =>
    refine ⟨later, ?_, by simp, by simp [Outcome.IsVerdict]⟩
    rw [lost_of_split hd hb ho hsplit hlt (heq ▸ UInt32.lt_irrefl _), hsplit]
    simp
  | @disagreeing front w rest old later cause pool hd hb ho hsplit hlt heq hcmp =>
    refine ⟨later, ?_, by simp, by simp [Outcome.IsVerdict]⟩
    rw [lost_of_split hd hb ho hsplit hlt (heq ▸ UInt32.lt_irrefl _), hsplit]
    simp

/-- A submission has a verdict on the two opinions that it compares. -/
theorem compared_submission (hs : Submission c o met r c') :
    let m := (met.map (Comparison.mk · o)).toList
    ((m.filter (·.Agrees)).flatMap Comparison.opinions =
        if r.fate = .confirmed then met.toList ++ [o] else []) ∧
      (m.filter (¬ ·.Agrees)).flatMap Comparison.opinions =
        if r.fate = .desynced then met.toList ++ [o] else [] := by
  cases hs with
  | agreeing _ _ _ _ _ _ _ hcmp =>
    simp [Comparison.Agrees, Comparison.opinions, Outcome.fate, hcmp]
  | disagreeing _ _ _ _ _ _ _ hcmp =>
    simp [Comparison.Agrees, Comparison.opinions, Outcome.fate, hcmp]
  | _ => simp [Outcome.fate]

theorem stale_submission (hs : Submission c o met r c') :
    (if r.fate = .discarded then met.toList ++ [o] else []).map Opinion.discardEntry =
      staleEntries o r := by
  cases hs <;> simp [Outcome.fate, staleEntries]

/-- Enters a call in a ledger, if it submits an opinion: the answer is taken from the call, the
evictions are counted in its log. -/
def book (c : Coordinator) (l : Ledger) : Call → Ledger
  | .submit o => l.enter o (c.submit o).value.1 ((c.submit o).log.countP LogEntry.tellsEviction)
  | _ => l

/-- The ledger that a run continues. -/
def ledgerFrom (c : Coordinator) (l : Ledger) : List Call → Ledger
  | [] => l
  | k :: ks => ledgerFrom (c.perform k).value.2 (c.book l k) ks

/-- The ledger of a run. -/
def ledger (c : Coordinator) (ks : List Call) : Ledger := c.ledgerFrom [] ks

theorem ledgerFrom_append (c : Coordinator) (l : Ledger) (ks ls : List Call) :
    c.ledgerFrom l (ks ++ ls) = (c.after ks).ledgerFrom (c.ledgerFrom l ks) ls := by
  induction ks generalizing c l with
  | nil => rfl
  | cons k ks ih => exact ih _ _

theorem ledger_concat (c : Coordinator) (ks : List Call) (k : Call) :
    c.ledger (ks ++ [k]) = (c.after ks).book (c.ledger ks) k :=
  ledgerFrom_append c [] ks [k]

theorem stands_book (c : Coordinator) (l : Ledger) (k : Call) : l.Stands (c.book l k) := by
  cases k with
  | submit o => exact Ledger.stands_enter l o _ _
  | _ => exact .refl l

/-- What has met its fate keeps it, whatever is called later. -/
theorem stands_ledger (c : Coordinator) (ks ls : List Call) :
    (c.ledger ks).Stands (c.ledger (ks ++ ls)) := by
  induction ls using List.reverseRecOn with
  | nil =>
    rw [List.append_nil]
    exact .refl _
  | append_singleton ls k ih =>
    rw [← List.append_assoc, ledger_concat]
    exact ih.trans (stands_book _ _ k)

/-- The ledger agrees with what has been submitted and answered, with the backlog, with the
comparisons and with the log. -/
structure Balanced (h : List Opinion) (rs : List Outcome) (ms : List Comparison)
    (log : List LogEntry) (l : Ledger) (c : Coordinator) : Prop where
  opinions : l.map Posting.opinion = h
  fits : l.Fits rs
  waiting : l.sharing .waiting = c.backlog
  evicted : ((l.sharing .evicted).map Opinion.evictionEntry).Perm
    (log.filter LogEntry.tellsEviction)
  confirmed : (l.sharing .confirmed).Perm ((ms.filter (·.Agrees)).flatMap Comparison.opinions)
  desynced : (l.sharing .desynced).Perm ((ms.filter (¬ ·.Agrees)).flatMap Comparison.opinions)
  discarded : ((l.sharing .discarded).map Opinion.discardEntry).Perm
    (log.filter LogEntry.tellsDiscard)

section
variable {h : List Opinion} {rs : List Outcome} {ms : List Comparison} {log : List LogEntry}

theorem balanced_submit (hl : Balanced h rs ms log l c) (o : Opinion) :
    Balanced (h ++ [o]) (rs ++ [(c.submit o).value.1])
      (ms ++ ((c.counterpart? o).map (Comparison.mk · o)).toList) (log ++ (c.submit o).log)
      (c.book l (.submit o)) (c.submit o).value.2 := by
  have hs := c.submission o
  obtain ⟨kept, hbefore, hafter, hr⟩ := flow_submission hs
  obtain ⟨hagreed, hclashed⟩ := compared_submission hs
  have hw := hl.waiting.trans hbefore
  have hevictions : (c.submit o).log.countP LogEntry.tellsEviction = (c.lost o).length := by
    rw [List.countP_eq_length_filter, evictions_submit, List.length_map]
  have hshare : ∀ {g : Fate}, g ≠ .waiting →
      ((l.enter o (c.submit o).value.1 (c.lost o).length).sharing g).Perm
        (l.sharing g ++ (if .evicted = g then c.lost o else []) ++
          if (c.submit o).value.1.fate = g then (c.counterpart? o).toList ++ [o] else []) :=
    fun hg => Ledger.sharing_enter hg hw hr
  rw [book, hevictions]
  constructor
  · rw [Ledger.opinions_enter, hl.opinions]
  · exact Ledger.fits_enter hl.fits o _ _
  · rw [Ledger.waiting_enter hw hr, hafter]
  · rw [List.filter_append, evictions_submit]
    have hne : (c.submit o).value.1.fate ≠ .evicted := by
      cases (c.submit o).value.1 <;> simp [Outcome.fate]
    have hnew := (hshare (g := .evicted) (by decide)).map Opinion.evictionEntry
    rw [if_pos rfl, if_neg hne, List.append_nil, List.map_append] at hnew
    exact hnew.trans (hl.evicted.append_right _)
  · have hnew := hshare (g := .confirmed) (by decide)
    rw [if_neg (by decide), List.append_nil, ← hagreed] at hnew
    rw [List.filter_append, List.flatMap_append]
    exact hnew.trans (hl.confirmed.append_right _)
  · have hnew := hshare (g := .desynced) (by decide)
    rw [if_neg (by decide), List.append_nil, ← hclashed] at hnew
    rw [List.filter_append, List.flatMap_append]
    exact hnew.trans (hl.desynced.append_right _)
  · have hnew := (hshare (g := .discarded) (by decide)).map Opinion.discardEntry
    rw [if_neg (by decide), List.append_nil, List.map_append, stale_submission hs] at hnew
    rw [List.filter_append, discards_submit]
    exact hnew.trans (hl.discarded.append_right _)

theorem balanced_aside (hl : Balanced h rs ms log l c) (ho : k.opinion? = none) :
    Balanced h rs ms (log ++ (c.perform k).log) (c.book l k) (c.perform k).value.2 := by
  have hbook : c.book l k = l := by
    cases k with
    | submit o => cases ho
    | _ => rfl
  have hquiet : (c.perform k).log.filter LogEntry.tellsEviction = [] ∧
      (c.perform k).log.filter LogEntry.tellsDiscard = [] := by
    rw [← filter_evictions, ← filter_discards, visible_perform ho]
    exact ⟨rfl, rfl⟩
  rw [hbook]
  exact
    { opinions := hl.opinions
      fits := hl.fits
      waiting := by rw [backlog_perform ho, hl.waiting]
      evicted := by rw [List.filter_append, hquiet.1, List.append_nil]; exact hl.evicted
      confirmed := hl.confirmed
      desynced := hl.desynced
      discarded := by rw [List.filter_append, hquiet.2, List.append_nil]; exact hl.discarded }

theorem balanced_run (config : Config) (ks : List Call) :
    Balanced (submitted ks) ((new config).outcomes ks) ((new config).comparisons ks)
      ((new config).log ks) ((new config).ledger ks) ((new config).after ks) := by
  induction ks using List.reverseRecOn with
  | nil => exact ⟨rfl, .nil, rfl, .nil, .nil, .nil, .nil⟩
  | append_singleton ks k ih =>
    rw [submitted_append, outcomes_append, comparisons_append, log_append, ledger_concat,
      after_append]
    generalize (new config).after ks = c at ih ⊢
    simp only [submitted_cons, submitted_nil, outcomes_cons, comparisons, log_cons, log_nil,
      after_cons, after_nil, List.append_nil]
    cases ho : k.opinion? with
    | none =>
      have hnone : (c.perform k).value.1.outcome? = none ∧ c.comparison? k = none := by
        cases k with
        | submit o => cases ho
        | _ => exact ⟨rfl, rfl⟩
      rw [hnone.1, hnone.2]
      simpa [outcomes] using balanced_aside ih ho
    | some o =>
      obtain rfl := eq_submit ho
      simpa [outcomes, Reply.outcome?, comparison?, perform] using balanced_submit ih o

/-- The log tells of every eviction and of every discard, in these words. -/
theorem Balanced.told (hl : Balanced h rs ms log l c) :
    ((log.filter LogEntry.tellsEviction).map LogEntry.line).Perm ((l.sharing .evicted).map
        fun o => "TRACE " ++ s!"Evicting {o.origin} opinion for tick {o.start}") ∧
      ((log.filter LogEntry.tellsDiscard).map LogEntry.line).Perm ((l.sharing .discarded).map
        fun o => "TRACE " ++ s!"Discarding stale {o.origin} opinion for tick {o.start}") := by
  have hevicted := (hl.evicted.map LogEntry.line).symm
  have hdiscarded := (hl.discarded.map LogEntry.line).symm
  rw [List.map_map] at hevicted hdiscarded
  refine ⟨hevicted.trans (.of_eq (List.map_congr_left fun o _ => ?_)),
    hdiscarded.trans (.of_eq (List.map_congr_left fun o _ => ?_))⟩
  · exact LogEntry.line_of_trace (e := o.evictionEntry) rfl
  · exact LogEntry.line_of_trace (e := o.discardEntry) rfl

end

theorem length_opinions (ms : List Comparison) :
    (ms.flatMap Comparison.opinions).length = 2 * ms.length := by
  induction ms with
  | nil => rfl
  | cons m ms ih =>
    rw [List.flatMap_cons, List.length_append, ih, List.length_cons]
    simp only [Comparison.opinions, List.length_cons, List.length_nil]
    omega

/-- Every submitted opinion has one fate. It waits, in the backlog and in its place there; or it has
been evicted, and a line of the log names its side and its first tick; or it is one of the two
opinions of a comparison, which confirmed them or found them to disagree; or it was discarded,
which a line of the log tells, or ignored. What it has met besides waiting stays with it. -/
theorem fates_balance (config : Config) (ks : List Call) :
    let c := (new config).after ks
    let l := (new config).ledger ks
    let rs := (new config).outcomes ks
    let ms := (new config).comparisons ks
    let log := (new config).log ks
    Balanced (submitted ks) rs ms log l c ∧
      rs.filter (·.IsVerdict) = ms.map Comparison.outcome ∧
      (∀ ls, l.Stands ((new config).ledger (ks ++ ls))) ∧
      (((log.filter LogEntry.tellsEviction).map LogEntry.line).Perm ((l.sharing .evicted).map
          fun o => "TRACE " ++ s!"Evicting {o.origin} opinion for tick {o.start}") ∧
        ((log.filter LogEntry.tellsDiscard).map LogEntry.line).Perm ((l.sharing .discarded).map
          fun o => "TRACE " ++ s!"Discarding stale {o.origin} opinion for tick {o.start}")) ∧
      (submitted ks).length = c.backlog.length + log.countP LogEntry.tellsEviction +
        2 * (confirmedTicks rs).length + 2 * rs.count .desynced + rs.count .discarded +
        rs.count .ignored := by
  intro c l rs ms log
  have hl : Balanced (submitted ks) rs ms log l c := balanced_run config ks
  refine ⟨hl, verdicts_eq _ ks, stands_ledger _ ks, hl.told, ?_⟩
  have hentries : l.length = (submitted ks).length := by
    rw [← hl.opinions, List.length_map]
  have hevicted : (l.sharing .evicted).length = log.countP LogEntry.tellsEviction := by
    rw [List.countP_eq_length_filter, ← hl.evicted.length_eq, List.length_map]
  have hconfirmed : (l.sharing .confirmed).length = 2 * (confirmedTicks rs).length := by
    rw [hl.confirmed.length_eq, length_opinions, confirmedTicks_eq, List.length_map]
  have hdesynced : (l.sharing .desynced).length = 2 * rs.count .desynced := by
    rw [hl.desynced.length_eq, length_opinions, count_desynced_outcomes,
      List.countP_eq_length_filter]
  have hdiscarded : (l.sharing .discarded).length = rs.count .discarded :=
    Ledger.length_sharing (Or.inl rfl) hl.fits
  have hignored : (l.sharing .ignored).length = rs.count .ignored :=
    Ledger.length_sharing (Or.inr rfl) hl.fits
  rw [← hentries, l.length_eq, hl.waiting, hevicted, hconfirmed, hdesynced, hdiscarded, hignored]

/-- A run in which every fate occurs. Two opinions may wait: the third local one evicts the first,
and of those that the other side sends one agrees, one is too late and one does not agree. -/
theorem fates_balance_each :
    let ours (t : Tick) : Opinion := { origin := .local, start := t }
    let theirs (t : Tick) (xs : List Sample) : Opinion :=
      { origin := .remote, start := t, world := xs }
    let config : Config := { maxBacklog := 2 }
    let ks : List Call := [ours 0, ours 1, ours 2, theirs 1 [], ours 3, theirs 0 [],
      theirs 2 [7]].map .submit
    let later : List Call := [.processPending, .submit (ours 4)]
    ((new config).ledger (ks ++ later)).map Posting.fate = [.evicted, .confirmed, .desynced,
        .confirmed, .waiting, .discarded, .desynced, .ignored] ∧
      ((new config).ledger (ks ++ later))[0]? = some ⟨ours 0, .evicted⟩ ∧
      ((new config).ledger (ks ++ later)).sharing .waiting = [ours 3] ∧
      (((new config).log (ks ++ later)).filter LogEntry.tellsEviction).map LogEntry.line =
        ["TRACE Evicting Local opinion for tick 0"] := by
  intro ours theirs config ks later
  obtain ⟨-, -, hstands, -⟩ := fates_balance config ks
  obtain ⟨hbalanced, -, -, ⟨hevicted, -⟩, -⟩ := fates_balance config (ks ++ later)
  have hone : ((new config).ledger (ks ++ later)).sharing .evicted = [ours 0] := by decide
  rw [hone] at hevicted
  refine ⟨by decide, ?_, hbalanced.waiting, ?_⟩
  · exact hstands later 0 ⟨ours 0, .evicted⟩ (by decide) (by decide)
  · rw [List.perm_singleton.1 hevicted]
    decide

end Coordinator

end Lockstep
