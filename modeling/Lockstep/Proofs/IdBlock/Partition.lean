import Lockstep.Proofs.IdBlock.Range
import Mathlib.Data.List.Nodup
import Mathlib.Data.List.Range

/-! Families of blocks that do not overlap. Their ids are handed out once, whatever the order in
which the blocks are asked, and however often a block is saved and read back. -/
namespace Lockstep

/-- The entries of a list that stand under one key. -/
def under {ι α : Type} [DecidableEq ι] (i : ι) (xs : List (ι × α)) : List α :=
  xs.filterMap fun x => if x.1 = i then some x.2 else none

section
variable {ι α : Type} [DecidableEq ι] {i j : ι} {a : α} {xs : List (ι × α)}

@[simp] theorem under_nil : under i ([] : List (ι × α)) = [] := rfl

@[simp] theorem under_cons_self : under i ((i, a) :: xs) = a :: under i xs := by
  simp [under]

theorem under_cons_other (h : j ≠ i) : under i ((j, a) :: xs) = under i xs := by
  simp [under, h]

theorem under_append (xs ys : List (ι × α)) : under i (xs ++ ys) = under i xs ++ under i ys :=
  List.filterMap_append

theorem mem_under : a ∈ under i xs ↔ (i, a) ∈ xs := by
  simp [under, List.mem_filterMap]

theorem count_under [DecidableEq α] (a : α) (xs : List (ι × α)) :
    (under i xs).count a = xs.count (i, a) := by
  induction xs with
  | nil => rfl
  | cons x xs ih =>
    obtain ⟨j, b⟩ := x
    by_cases hj : j = i
    · subst j
      rw [under_cons_self, List.count_cons, List.count_cons, ih]
      simp
    · rw [under_cons_other hj, ih, List.count_cons_of_ne (by simp [hj])]

/-- If no entry stands twice under one key, and no two keys have an entry in common, no entry
stands twice. -/
theorem nodup_of_under (hone : ∀ i, (under i xs).Nodup)
    (htwo : ∀ i j a, i ≠ j → (i, a) ∈ xs → (j, a) ∉ xs) : (xs.map Prod.snd).Nodup := by
  induction xs with
  | nil => exact List.nodup_nil
  | cons x xs ih =>
    obtain ⟨i, a⟩ := x
    rw [List.map_cons, List.nodup_cons]
    constructor
    · intro ha
      obtain ⟨⟨j, _⟩, hmem, rfl⟩ := List.mem_map.1 ha
      by_cases hj : i = j
      · subst j
        have hi := hone i
        rw [under_cons_self] at hi
        exact (List.nodup_cons.1 hi).1 (mem_under.2 hmem)
      · exact htwo i j _ hj List.mem_cons_self (List.mem_cons_of_mem _ hmem)
    · refine ih (fun j => ?_) fun j k b hne hj hk => ?_
      · by_cases hj : i = j
        · subst j
          have hi := hone i
          rw [under_cons_self] at hi
          exact (List.nodup_cons.1 hi).2
        · have hj' := hone j
          rwa [under_cons_other hj] at hj'
      · exact htwo j k b hne (List.mem_cons_of_mem _ hj) (List.mem_cons_of_mem _ hk)

end

namespace IdBlock

/-- What is asked of a block: its next id, or to be saved and read back. -/
inductive Request
  | draw
  | restore
deriving DecidableEq

inductive Answer
  | drawn (r : Except Exhausted EntityId)
  | restored (e : Option RangeError)

/-- The id that an answer hands out. -/
def Answer.id? : Answer → Option EntityId
  | .drawn (.ok id) => some id
  | _ => none

/-- Answers a request. What is read back is made anew from its parts. -/
def answer (b : IdBlock) : Request → Logged (Answer × IdBlock)
  | .draw => do
    let (r, b) ← b.draw
    return (.drawn r, b)
  | .restore =>
    match ofParts b.start b.size b.cursor with
    | .ok b => pure (.restored none, b)
    | .error e => pure (.restored (some e), b)

/-- The block that a run of requests leads to. -/
def after (b : IdBlock) (rs : List Request) : IdBlock := (Logged.feed answer rs b).value.2

/-- The ids that a run of requests hands out. -/
def minted (b : IdBlock) (rs : List Request) : List EntityId :=
  (Logged.feed answer rs b).value.1.filterMap Answer.id?

/-- How many ids are left, as a count. -/
def room (b : IdBlock) : Nat := (b.size.toInt - b.cursor.toInt).toNat

section
variable (b : IdBlock) (r : Request) (rs : List Request)

@[simp] theorem after_nil : b.after [] = b := rfl

@[simp] theorem after_cons : b.after (r :: rs) = (b.answer r).value.2.after rs := rfl

@[simp] theorem minted_nil : b.minted [] = [] := rfl

theorem minted_cons : b.minted (r :: rs) =
    (b.answer r).value.1.id?.toList ++ (b.answer r).value.2.minted rs := by
  cases h : (b.answer r).value.1.id? <;> simp [minted, Logged.feed, h]

@[simp] theorem answer_restore : b.answer .restore = pure (.restored none, b) := by
  rw [answer, ofParts_self]

variable {b}

theorem room_eq_zero : b.room = 0 ↔ b.cursor = b.size := by
  have hle := b.toInt_bounds.2.2.1
  rw [room, ← Int32.toInt_inj]
  omega

theorem room_advance (h : b.cursor ≠ b.size) : b.room = (b.advance h).room + 1 := by
  have hlt := b.toInt_cursor_lt h
  have hsucc : (b.advance h).cursor.toInt = b.cursor.toInt + 1 := b.toInt_cursor_succ h
  have hsize : (b.advance h).size = b.size := rfl
  rw [room, room, hsucc, hsize]
  omega

/-- A block with no id left refuses, and stays as it is. -/
theorem draw_exhausted (h : b.cursor = b.size) : b.draw.value = (.error ⟨b.start, b.size⟩, b) := by
  rw [draw, dif_pos h]
  rfl

theorem answer_exhausted (h : b.cursor = b.size) :
    (b.answer .draw).value = (.drawn (.error ⟨b.start, b.size⟩), b) := by
  rw [answer, Logged.value_bind, draw_exhausted h]
  rfl

theorem answer_next (h : b.cursor ≠ b.size) :
    (b.answer .draw).value = (.drawn (.ok (b.start + b.cursor)), b.advance h) := by
  rw [answer, draw, dif_neg h]
  rfl

/-- The ids from the cursor on, as many as a run asks for or as are left. -/
theorem range_next (h : b.cursor ≠ b.size) (n : Nat) :
    (List.range (min (n + 1) b.room)).map (fun k : ℕ => b.start.toInt + b.cursor.toInt + k) =
      (b.start + b.cursor).toInt :: (List.range (min n (b.advance h).room)).map
        fun k : ℕ => (b.advance h).start.toInt + (b.advance h).cursor.toInt + k := by
  have hstart : (b.advance h).start = b.start := rfl
  have hsucc : (b.advance h).cursor.toInt = b.cursor.toInt + 1 := b.toInt_cursor_succ h
  rw [room_advance h, Nat.succ_min_succ, List.range_succ_eq_map, List.map_cons, List.map_map,
    toInt_next, hstart, hsucc]
  congr 1
  · simp
  · refine List.map_congr_left fun k _ => ?_
    simp only [Function.comp_apply, Nat.succ_eq_add_one]
    omega

/-- A run hands out the next ids in order, as many as it asks for or as are left. -/
theorem minted_run (b : IdBlock) (rs : List Request) :
    (b.minted rs).map Int32.toInt =
      (List.range (min (rs.count .draw) b.room)).map
        fun k : ℕ => b.start.toInt + b.cursor.toInt + k := by
  induction rs generalizing b with
  | nil => simp
  | cons r rs ih =>
    rw [minted_cons]
    cases r with
    | restore =>
      rw [answer_restore, List.count_cons_of_ne (by simp)]
      exact ih b
    | draw =>
      rw [List.count_cons_self]
      by_cases h : b.cursor = b.size
      -- from here on the block refuses and stays as it is
      · have hrest := ih b
        rw [answer_exhausted h]
        rw [room_eq_zero.2 h, Nat.min_zero] at hrest ⊢
        exact hrest
      · rw [answer_next h, range_next h, ← ih (b.advance h)]
        rfl

/-- A run moves the cursor past the ids that it hands out, and keeps the range. -/
theorem after_run (b : IdBlock) (rs : List Request) :
    (b.after rs).start = b.start ∧ (b.after rs).size = b.size ∧
      (b.after rs).cursor.toInt = b.cursor.toInt + min (rs.count .draw) b.room := by
  induction rs generalizing b with
  | nil => simp
  | cons r rs ih =>
    rw [after_cons]
    cases r with
    | restore =>
      rw [answer_restore, List.count_cons_of_ne (by simp)]
      exact ih b
    | draw =>
      rw [List.count_cons_self]
      by_cases h : b.cursor = b.size
      · have hrest := ih b
        rw [answer_exhausted h]
        rw [room_eq_zero.2 h, Nat.min_zero] at hrest ⊢
        exact hrest
      · rw [answer_next h]
        obtain ⟨hstart, hsize, hcursor⟩ := ih (b.advance h)
        have hsucc : (b.advance h).cursor.toInt = b.cursor.toInt + 1 := b.toInt_cursor_succ h
        refine ⟨hstart, hsize, ?_⟩
        rw [hcursor, hsucc, room_advance h, Nat.succ_min_succ]
        omega

end

/-- A family of blocks, each under a key of its own. -/
abbrev Family (ι : Type) := ι → IdBlock

namespace Family
variable {ι : Type} [DecidableEq ι] (f : Family ι) (ks : List (ι × Request)) (i : ι)

/-- Answers a request to one block of a family. -/
def answer (k : ι × Request) : Logged ((ι × Answer) × Family ι) := do
  let (a, b) ← (f k.1).answer k.2
  return ((k.1, a), Function.update f k.1 b)

/-- The family that a run of requests leads to. -/
def after : Family ι := (Logged.feed answer ks f).value.2

/-- The ids that a run hands out, each under the key of its block. -/
def minted : List (ι × EntityId) :=
  (Logged.feed answer ks f).value.1.filterMap fun x => x.2.id?.map (x.1, ·)

theorem after_cons (k : ι × Request) : f.after (k :: ks) =
    Family.after (Function.update f k.1 ((f k.1).answer k.2).value.2) ks := rfl

theorem minted_cons (k : ι × Request) : f.minted (k :: ks) =
    (((f k.1).answer k.2).value.1.id?.map (k.1, ·)).toList ++
      Family.minted (Function.update f k.1 ((f k.1).answer k.2).value.2) ks := by
  cases h : ((f k.1).answer k.2).value.1.id? <;> simp [minted, Logged.feed, answer, h]

/-- A block goes through the requests that are made to it, and no others. -/
theorem after_at : f.after ks i = (f i).after (under i ks) := by
  induction ks generalizing f with
  | nil => rfl
  | cons k ks ih =>
    obtain ⟨j, r⟩ := k
    rw [after_cons, ih]
    by_cases hj : j = i
    · subst j
      rw [under_cons_self, IdBlock.after_cons, Function.update_self]
    · rw [under_cons_other hj, Function.update_of_ne (Ne.symm hj)]

theorem minted_at : under i (f.minted ks) = (f i).minted (under i ks) := by
  induction ks generalizing f with
  | nil => rfl
  | cons k ks ih =>
    obtain ⟨j, r⟩ := k
    rw [minted_cons, under_append, ih]
    by_cases hj : j = i
    · subst j
      rw [under_cons_self, IdBlock.minted_cons, Function.update_self]
      cases ((f i).answer r).value.1.id? <;> simp
    · rw [under_cons_other hj, Function.update_of_ne (Ne.symm hj)]
      cases ((f j).answer r).value.1.id? <;> simp [under_cons_other hj]

end Family

/-- What has become of a block, made with `cursor` of its ids handed out, that has been asked for
`n` ids and has handed out `ids`. -/
structure Spent (start size cursor : EntityId) (n : Nat) (ids : List EntityId) (b : IdBlock) :
    Prop where
  /-- The ids are the next ones in order, as many as were asked for or as there were. -/
  ids_eq : ids.map Int32.toInt =
    (List.range (min n (size.toInt - cursor.toInt).toNat)).map
      fun k : ℕ => start.toInt + cursor.toInt + k
  /-- If all have been handed out, the block refuses and stays as it is. -/
  refuses : size.toInt - cursor.toInt ≤ n → b.draw.value = (.error ⟨start, size⟩, b)
  /-- It can be saved and read back. -/
  restores : ofParts b.start b.size b.cursor = .ok b
  start_eq : b.start = start
  size_eq : b.size = size
  cursor_eq : b.cursor.toInt = cursor.toInt + ids.length
  cursor_nonneg : 0 ≤ b.cursor
  cursor_le_size : b.cursor ≤ b.size
  next_exact : (b.start + b.cursor).toInt = b.start.toInt + b.cursor.toInt
  stop_exact : b.stop.toInt = b.start.toInt + b.size.toInt
  remaining_exact : b.remaining.toInt = b.size.toInt - b.cursor.toInt

theorem spent_run (b : IdBlock) (rs : List Request) :
    Spent b.start b.size b.cursor (rs.count .draw) (b.minted rs) (b.after rs) := by
  obtain ⟨hstart, hsize, hcursor⟩ := b.after_run rs
  have hids := b.minted_run rs
  have hlength : (b.minted rs).length = min (rs.count .draw) b.room := by
    simpa using congrArg List.length hids
  have hle := b.toInt_bounds.2.2.1
  exact {
    ids_eq := hids
    refuses := by
      intro hn
      have hspent : (b.after rs).cursor = (b.after rs).size := by
        rw [← Int32.toInt_inj, hcursor, hsize, room]
        omega
      rw [draw_exhausted hspent, hstart, hsize]
    restores := ofParts_self _
    start_eq := hstart
    size_eq := hsize
    cursor_eq := by rw [hcursor, hlength]
    cursor_nonneg := (b.after rs).cursor_nonneg
    cursor_le_size := (b.after rs).cursor_le_size
    next_exact := toInt_next _
    stop_exact := toInt_stop _
    remaining_exact := toInt_remaining _ }

theorem contains_of_minted {b : IdBlock} {rs : List Request} {id : EntityId}
    (hid : id ∈ b.minted rs) : b.contains id = true := by
  have hmem : id.toInt ∈ (b.minted rs).map Int32.toInt := List.mem_map_of_mem hid
  rw [minted_run, List.mem_map] at hmem
  obtain ⟨k, hk, heq⟩ := hmem
  have hlt := Nat.lt_of_lt_of_le (List.mem_range.1 hk) (Nat.min_le_right _ _)
  obtain ⟨-, hcursor, hle, -⟩ := b.toInt_bounds
  rw [room] at hlt
  rw [contains_iff]
  omega

theorem nodup_minted (b : IdBlock) (rs : List Request) : (b.minted rs).Nodup := by
  refine List.Nodup.of_map Int32.toInt ?_
  rw [minted_run]
  refine List.Nodup.map (fun k l h => ?_) List.nodup_range
  exact Int.ofNat_inj.1 (Int.add_left_cancel h)

/-- Disjoint blocks never hand out an id twice. However requests for ids are interleaved with
saving blocks and reading them back, a block hands out its ids in order, from its first cursor on,
until there are no more; each lies in this block and in no other; and no sum ever leaves the
numbers that an id can hold. A block made anew is one whose first cursor is 0. -/
theorem ids_partitioned {ι : Type} [DecidableEq ι] {start size cursor : ι → EntityId}
    {f : Family ι} (hmade : ∀ i, ofParts (start i) (size i) (cursor i) = .ok (f i))
    (hapart : ∀ i j, i ≠ j → (f i).overlaps (f j) = false) (ks : List (ι × Request)) :
    ((f.minted ks).map Prod.snd).Nodup ∧
      (∀ i, Spent (start i) (size i) (cursor i) (ks.count (i, .draw)) (under i (f.minted ks))
        (f.after ks i)) ∧
      ∀ i id, (i, id) ∈ f.minted ks →
        (f i).contains id = true ∧ ∀ j, j ≠ i → (f j).contains id = false := by
  have hcontains : ∀ i id, (i, id) ∈ f.minted ks → (f i).contains id = true := by
    intro i id hid
    rw [← mem_under, Family.minted_at] at hid
    exact contains_of_minted hid
  have hothers : ∀ i id, (i, id) ∈ f.minted ks → ∀ j, j ≠ i → (f j).contains id = false :=
    fun i id hid j hj => not_contains_of_apart (hapart i j (Ne.symm hj)) (hcontains i id hid)
  refine ⟨?_, ?_, fun i id hid => ⟨hcontains i id hid, hothers i id hid⟩⟩
  · refine nodup_of_under (fun i => ?_) fun i j id hne hi hj => ?_
    · rw [Family.minted_at]
      exact nodup_minted _ _
    -- an id under two keys would lie in both blocks
    · have hin := hcontains j id hj
      rw [hothers i id hi j (Ne.symm hne)] at hin
      cases hin
  · intro i
    obtain ⟨hstart, hsize, hcursor⟩ := parts_of_ok (hmade i)
    rw [← hstart, ← hsize, ← hcursor, ← count_under, Family.minted_at, Family.after_at]
    exact (f i).spent_run _

/-- A block of which one id is handed out, and a new one that ends where the ids end. Each is read
back half way. -/
theorem ids_partitioned_restored :
    let small : IdBlock := ⟨3, 3, 1, by decide, by decide, by decide, by decide⟩
    let large : IdBlock := ⟨2147483645, 2, 0, by decide, by decide, by decide, by decide⟩
    let f : Family Bool := fun i => if i then large else small
    let ks : List (Bool × Request) := [(false, .draw), (true, .draw), (false, .restore),
      (false, .draw), (true, .restore), (false, .draw), (true, .draw)]
    ofParts 3 3 1 = .ok small ∧ ofRange 2147483645 2 = .ok large ∧
      f.minted ks = [(false, 4), (true, 2147483645), (false, 5), (true, 2147483646)] ∧
      ((f.minted ks).map Prod.snd).Nodup ∧
      (f.after ks false).draw.value = (.error ⟨3, 3⟩, f.after ks false) := by
  intro small large f ks
  have hmade : ∀ i : Bool, ofParts (if i then 2147483645 else 3) (if i then 2 else 3)
      (if i then 0 else 1) = .ok (f i) := by
    intro i
    cases i with
    | false => exact ofParts_self small
    | true => exact ofParts_self large
  obtain ⟨hnodup, hspent, -⟩ := ids_partitioned hmade (by decide) ks
  exact ⟨hmade false, hmade true, by decide, hnodup, (hspent false).refuses (by decide)⟩

end IdBlock

end Lockstep
