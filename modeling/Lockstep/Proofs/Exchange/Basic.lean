import Lockstep.Peer.Basic
import Mathlib.Algebra.Ring.Nat
import Mathlib.Logic.Function.Basic

/-! Two peers that run the same ranges and send each other their opinions, under
any schedule. -/
namespace Lockstep

/-- The two ends of an exchange. -/
inductive Side
  | left
  | right
deriving DecidableEq

namespace Side

def other : Side → Side
  | left => right
  | right => left

/-- What belongs to either end. -/
def pair {α : Type} (a b : α) : Side → α
  | left => a
  | right => b

@[simp] theorem other_other (s : Side) : s.other.other = s := by
  cases s <;> rfl

@[simp] theorem other_ne (s : Side) : s.other ≠ s := by
  cases s <;> simp [other]

theorem eq_or_other (s u : Side) : u = s ∨ u = s.other := by
  cases s <;> cases u <;> simp [other]

end Side

/-- A peer, and how far it has come. -/
structure Node (G : Generator) where
  peer : Peer G
  /-- The lengths of the ranges that it has yet to run. -/
  todo : List Nat
  /-- The wire copies that it has handed out, in order. -/
  sent : List Opinion := []
  /-- How many of the other end's copies have been delivered to it. -/
  arrived : Nat := 0
  /-- What its updates have reported. -/
  reports : List Report := []

namespace Node
variable {G : Generator} (v : Node G)

def coordinator : Coordinator := v.peer.session.coordinator

/-- The copies that wait for an update. -/
def queue : List Opinion := v.peer.session.inbox.queue

/-- Runs the next range, if there is one left. -/
def runNext : Node G :=
  match v.todo with
  | [] => v
  | n :: todo =>
    let (wire, peer) := (v.peer.runRange n).value
    { v with peer, todo, sent := v.sent ++ wire.toList }

def deliver (o : Opinion) : Node G :=
  { v with peer := (v.peer.deliver o).value, arrived := v.arrived + 1 }

def update : Node G :=
  let (e, peer) := v.peer.update.value
  { v with peer, reports := v.reports ++ e.reports }

end Node

/-- Both ends. -/
abbrev Exchange (G : Generator) := Side → Node G

/-- What a schedule may do at one end. -/
inductive Move
  | run (s : Side)
  | deliver (s : Side)
  | update (s : Side)

/-- The seed, the maps, the settings and the corruption that a peer starts with. -/
structure Setup where
  seed : GeneratorState
  maps : List MapId := []
  config : Config := {}
  corruptFrom : Option Tick := none

def Setup.peer (G : Generator) (u : Setup) : Peer G :=
  match u.corruptFrom with
  | none => .new G u.seed u.maps u.config
  | some start => (Peer.new G u.seed u.maps u.config).corrupt start

namespace Exchange

/-- Both ends have the same ranges before them. -/
def start (G : Generator) (setup : Side → Setup) (lengths : List Nat) : Exchange G :=
  fun s => { peer := (setup s).peer G, todo := lengths }

variable {G : Generator} (x : Exchange G)

/-- One move. What is delivered is the first copy that has not arrived yet. -/
def step : Move → Exchange G
  | .run s => Function.update x s (x s).runNext
  | .deliver s =>
    match (x s.other).sent[(x s).arrived]? with
    | none => x
    | some o => Function.update x s ((x s).deliver o)
  | .update s => Function.update x s (x s).update

def play (moves : List Move) : Exchange G := moves.foldl step x

theorem play_append (ms ns : List Move) : x.play (ms ++ ns) = (x.play ms).play ns :=
  List.foldl_append

/-- Both ends have run all their ranges, have received all that the other has
sent, and have been updated since. -/
structure Complete : Prop where
  ran : ∀ s, (x s).todo = []
  delivered : ∀ s, (x s).arrived = (x s.other).sent.length
  updated : ∀ s, (x s).queue = [] ∧ (x s).coordinator.hasPending = false

end Exchange

/-- The ranges that successive lengths cover from a tick on. There is none for
a length of zero. -/
def spans (t : Nat) : List Nat → List TickRange
  | [] => []
  | n :: ns =>
    (if n = 0 then [] else [⟨UInt32.ofNat t, some (UInt32.ofNat (t + n))⟩]) ++ spans (t + n) ns

variable {t n : Nat} {ns : List Nat} {r : TickRange}

theorem spans_append (t : Nat) (ms ns : List Nat) :
    spans t (ms ++ ns) = spans t ms ++ spans (t + ms.sum) ns := by
  induction ms generalizing t with
  | nil => rfl
  | cons m ms ih => simp [spans, ih, Nat.add_assoc]

theorem length_spans (t : Nat) (ns : List Nat) : (spans t ns).length ≤ ns.length := by
  induction ns generalizing t with
  | nil => exact Nat.le_refl 0
  | cons n ns ih =>
    have hrest := ih (t + n)
    by_cases hn : n = 0
    · simp only [spans, if_pos hn, List.nil_append, List.length_cons]
      omega
    · simp only [spans, if_neg hn, List.cons_append, List.nil_append, List.length_cons]
      omega

theorem exists_of_mem_spans (hr : r ∈ spans t ns) :
    ∃ u, t ≤ u ∧ u < t + ns.sum ∧ r.start = UInt32.ofNat u := by
  induction ns generalizing t with
  | nil => simp [spans] at hr
  | cons n ns ih =>
    rw [List.sum_cons]
    rcases List.mem_append.1 hr with hr | hr
    · by_cases hn : n = 0
      · simp [hn] at hr
      · rw [if_neg hn, List.mem_singleton] at hr
        exact ⟨t, Nat.le_refl t, by omega, by rw [hr]⟩
    · obtain ⟨u, hle, hlt, hu⟩ := ih hr
      exact ⟨u, by omega, by omega, hu⟩

theorem ofNat_lt_ofNat {a b : Nat} (hab : a < b) (hb : b < 2 ^ 32) :
    UInt32.ofNat a < UInt32.ofNat b := by
  have ha : a < UInt32.size := Nat.lt_trans hab hb
  rw [UInt32.lt_iff_toNat_lt, UInt32.toNat_ofNat_of_lt' ha, UInt32.toNat_ofNat_of_lt' hb]
  exact hab

/-- As long as ticks do not wrap around, later ranges have later starts. -/
theorem pairwise_spans (hfit : t + ns.sum < 2 ^ 32) :
    (spans t ns).Pairwise (·.start < ·.start) := by
  induction ns generalizing t with
  | nil => exact List.Pairwise.nil
  | cons n ns ih =>
    rw [List.sum_cons] at hfit
    have hrest := ih (t := t + n) (by omega)
    by_cases hn : n = 0
    · simpa only [spans, if_pos hn, List.nil_append] using hrest
    · simp only [spans, if_neg hn, List.cons_append, List.nil_append]
      refine List.pairwise_cons.2 ⟨?_, hrest⟩
      intro r hr
      obtain ⟨u, hle, hlt, hu⟩ := exists_of_mem_spans hr
      rw [hu]
      exact ofNat_lt_ofNat (by omega) (by omega)

/-- The tick with which the `i`-th of the ranges begins. -/
def boundary (lengths : List Nat) (i : Nat) : Nat := (lengths.take i).sum

variable {lengths : List Nat} {i k : Nat}

theorem boundary_le_sum (lengths : List Nat) (i : Nat) : boundary lengths i ≤ lengths.sum := by
  rw [← List.take_append_drop i lengths, List.sum_append, List.take_append_drop]
  exact Nat.le_add_right _ _

theorem boundary_mono (lengths : List Nat) (hik : i ≤ k) :
    boundary lengths i ≤ boundary lengths k := by
  have htake : (lengths.take k).take i = lengths.take i := by
    rw [List.take_take, Nat.min_eq_left hik]
  rw [boundary, boundary, ← htake, ← List.take_append_drop i (lengths.take k), List.sum_append,
    List.take_append_drop]
  exact Nat.le_add_right _ _

theorem boundary_succ (hn : lengths[i]? = some n) :
    boundary lengths (i + 1) = boundary lengths i + n := by
  simp [boundary, List.take_add_one, hn]

/-- A range ends before the next ones begin. -/
theorem boundary_add_le (hn : lengths[i]? = some n) (hik : i < k) :
    boundary lengths i + n ≤ boundary lengths k := by
  rw [← boundary_succ hn]
  exact boundary_mono lengths hik

theorem mem_spans_boundary (hi : lengths[i]? = some n) (hn : 0 < n) :
    ∃ r ∈ spans 0 lengths, r.start = UInt32.ofNat (boundary lengths i) := by
  obtain ⟨hlt, rfl⟩ := List.getElem?_eq_some_iff.1 hi
  have hsplit : lengths = lengths.take i ++ lengths[i] :: lengths.drop (i + 1) := by
    rw [← List.drop_eq_getElem_cons hlt, List.take_append_drop]
  refine ⟨⟨UInt32.ofNat (boundary lengths i),
    some (UInt32.ofNat (boundary lengths i + lengths[i]))⟩, ?_, rfl⟩
  have hspans : spans 0 lengths = spans 0 (lengths.take i) ++
      spans (boundary lengths i) (lengths[i] :: lengths.drop (i + 1)) := by
    rw [boundary, ← Nat.zero_add (lengths.take i).sum, ← spans_append, ← hsplit]
  rw [hspans]
  exact List.mem_append_right _ (by simp [spans, Nat.pos_iff_ne_zero.1 hn])

end Lockstep
