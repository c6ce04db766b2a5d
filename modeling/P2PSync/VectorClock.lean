import P2PSync.Lib.OrdMap
import P2PSync.Bytes

namespace P2PSync

inductive ClockOrder where
  | equal
  | before
  | after
  | concurrent
  deriving DecidableEq,Repr

structure VectorClock where
  counters : OrdMap Bytes UInt64
  deriving DecidableEq

namespace VectorClock

def empty : VectorClock := ⟨.empty⟩

def get (c : VectorClock) (node : Bytes) : UInt64 := (c.counters.find node).getD 0

def set (c : VectorClock) (node : Bytes) (value : UInt64) : VectorClock := ⟨c.counters.insert node value⟩

-- A 64-bit counter: the increment wraps at 2^64.
def increment (c : VectorClock) (node : Bytes) : VectorClock := c.set node (c.get node + 1)

def absorb (c : VectorClock) (pair : Bytes × UInt64) : VectorClock :=
  match c.counters.find pair.1 with
  | none => c.set pair.1 pair.2
  | some mine => if mine < pair.2 then c.set pair.1 pair.2 else c

def merge (c other : VectorClock) : VectorClock := other.counters.pairs.foldl absorb c

def seen (a b : VectorClock) : OrdMap Bytes Bool :=
  b.counters.keys.foldl (fun m n => m.insert n true)
    (a.counters.keys.foldl (fun m n => m.insert n true) .empty)

-- (a has some component strictly less than b, b has some strictly less than a)
def flags (a b : VectorClock) : Bool × Bool :=
  (seen a b).keys.foldl (fun flag n =>
    (flag.1 || decide (a.get n < b.get n),flag.2 || decide (b.get n < a.get n))) (false,false)

def compare (a b : VectorClock) : ClockOrder :=
  let (aLess,bLess) := flags a b
  if !aLess && !bLess then .equal
  else if aLess && !bLess then .before
  else if bLess && !aLess then .after
  else .concurrent

-- What a clock says: how many edits of each node it has seen. Missing and zero
-- components say the same, so this and not the map is what compare orders.
def counts (c : VectorClock) : Bytes → ℕ := fun node => (c.get node).toNat

theorem get_lt {a b : VectorClock} {node : Bytes} : a.get node < b.get node ↔ a.counts node < b.counts node :=
  UInt64.lt_iff_toNat_lt

@[simp] theorem counts_empty : empty.counts = 0 := rfl

@[simp] theorem get_set (c : VectorClock) (node other : Bytes) (value : UInt64) :
    (c.set node value).get other = if node = other then value else c.get other := by
  unfold get set
  rw [OrdMap.find_insert]
  split <;> rfl

theorem get_increment (c : VectorClock) (node other : Bytes) :
    (c.increment node).get other = if node = other then c.get node + 1 else c.get other := by
  rw [increment,get_set]

theorem counts_increment (c : VectorClock) (node : Bytes) (room : c.counts node + 1 < 2^64) :
    (c.increment node).counts = Function.update c.counts node (c.counts node + 1) := by
  funext other
  unfold counts at *
  rw [get_increment]
  by_cases same : node = other
  · subst same
    simp only [if_true,Function.update_self,UInt64.toNat_add]
    exact Nat.mod_eq_of_lt room
  · rw [if_neg same,Function.update_of_ne (Ne.symm same)]

theorem mem_keys_absorb {c : VectorClock} {pair : Bytes × UInt64} (member : node ∈ (absorb c pair).counters.keys) :
    node = pair.1 ∨ node ∈ c.counters.keys := by
  unfold absorb at member
  split at member
  · exact OrdMap.mem_keys_insert.mp member
  · split at member
    · exact OrdMap.mem_keys_insert.mp member
    · exact .inr member

theorem mem_keys_merge {c other : VectorClock} (member : node ∈ (c.merge other).counters.keys) :
    node ∈ c.counters.keys ∨ node ∈ other.counters.keys := by
  have absorbed : ∀ pairs : List (Bytes × UInt64), ∀ c : VectorClock, node ∈ (pairs.foldl absorb c).counters.keys →
      node ∈ c.counters.keys ∨ node ∈ pairs.map Prod.fst := by
    intro pairs
    induction pairs with
    | nil => exact fun c member => .inl member
    | cons pair rest ih =>
      intro c member
      rcases ih (absorb c pair) member with here | later
      · rcases mem_keys_absorb here with rfl | before
        · exact .inr List.mem_cons_self
        · exact .inl before
      · exact .inr (List.mem_cons_of_mem _ later)
  exact absorbed other.counters.pairs c member

theorem counts_absorb (c : VectorClock) (pair : Bytes × UInt64) :
    (absorb c pair).counts = Function.update c.counts pair.1 (max (c.counts pair.1) pair.2.toNat) := by
  funext other
  by_cases same : pair.1 = other
  · subst same
    rw [Function.update_self]
    unfold absorb
    cases found : c.counters.find pair.1 with
    | none => simp [counts,get,set,found]
    | some mine =>
      have mineIs : c.get pair.1 = mine := by simp [get,found]
      simp only
      split
      · rename_i less
        rw [UInt64.lt_iff_toNat_lt] at less
        simp only [counts,get_set,if_true,mineIs]
        omega
      · rename_i notLess
        rw [UInt64.lt_iff_toNat_lt] at notLess
        simp only [counts,mineIs]
        omega
  · rw [Function.update_of_ne (Ne.symm same)]
    unfold absorb
    split
    · simp [counts,same]
    · split
      · simp [counts,same]
      · rfl

theorem counts_foldl_absorb (pairs : List (Bytes × UInt64)) (c : VectorClock)
    (nodup : (pairs.map Prod.fst).Nodup) (node : Bytes) :
    (pairs.foldl absorb c).counts node =
      max (c.counts node) ((OrdMap.findIn node pairs).getD 0).toNat := by
  induction pairs generalizing c with
  | nil => simp [OrdMap.findIn]
  | cons head rest ih =>
    simp only [List.map_cons,List.nodup_cons] at nodup
    rw [List.foldl_cons,ih _ nodup.2,counts_absorb]
    by_cases same : head.1 = node
    · subst same
      simp [OrdMap.findIn,OrdMap.findIn_absent nodup.1]
    · simp [OrdMap.findIn,same,Function.update_of_ne (Ne.symm same)]

-- Merging is the join of what both clocks say.
@[simp] theorem counts_merge (a b : VectorClock) : (a.merge b).counts = a.counts ⊔ b.counts := by
  funext node
  rw [merge,counts_foldl_absorb _ _ b.counters.keys_nodup]
  rfl

theorem find_marked (nodes : List Bytes) (m : OrdMap Bytes Bool) (node : Bytes) :
    node ∈ (nodes.foldl (fun m n => m.insert n true) m).keys ↔ node ∈ nodes ∨ node ∈ m.keys := by
  induction nodes generalizing m with
  | nil => simp
  | cons head rest ih =>
    rw [List.foldl_cons,ih,OrdMap.mem_keys,OrdMap.mem_keys]
    by_cases same : head = node
    · simp [same]
    · simp [same,Ne.symm same]

theorem mem_seen {a b : VectorClock} : node ∈ (seen a b).keys ↔ node ∈ a.counters.keys ∨ node ∈ b.counters.keys := by
  rw [seen,find_marked,find_marked]
  simp [OrdMap.mem_keys,or_comm]

theorem key_of_counts {c : VectorClock} (positive : 0 < c.counts node) : node ∈ c.counters.keys := by
  cases found : c.counters.find node with
  | none => simp [counts,get,found] at positive
  | some value => exact OrdMap.mem_keys.mpr ⟨value,found⟩

theorem foldl_flags (nodes : List Bytes) (p q : Bytes → Bool) (flag : Bool × Bool) :
    nodes.foldl (fun flag n => (flag.1 || p n,flag.2 || q n)) flag =
      (flag.1 || nodes.any p,flag.2 || nodes.any q) := by
  induction nodes generalizing flag with
  | nil => simp
  | cons head rest ih => simp [ih,Bool.or_assoc]

theorem flags_exact (a b : VectorClock) :
    ((flags a b).1 = true ↔ ¬ b.counts ≤ a.counts) ∧ ((flags a b).2 = true ↔ ¬ a.counts ≤ b.counts) := by
  have one : ∀ x y : VectorClock, (∀ n, n ∈ y.counters.keys → n ∈ (seen a b).keys) →
      ((seen a b).keys.any (fun n => decide (x.get n < y.get n)) = true ↔ ¬ y.counts ≤ x.counts) := by
    intro x y inside
    simp only [List.any_eq_true,decide_eq_true_eq,get_lt,Pi.le_def,not_forall,not_le]
    constructor
    · rintro ⟨n,_,less⟩
      exact ⟨n,less⟩
    · rintro ⟨n,less⟩
      exact ⟨n,inside n (key_of_counts (Nat.zero_lt_of_lt less)),less⟩
  rw [flags,foldl_flags]
  exact ⟨by simpa using one a b (fun n k => mem_seen.mpr (.inr k)),
    by simpa using one b a (fun n k => mem_seen.mpr (.inl k))⟩

open Classical in
theorem compare_flags (a b : VectorClock) : compare a b =
    if b.counts ≤ a.counts then (if a.counts ≤ b.counts then ClockOrder.equal else .after)
    else (if a.counts ≤ b.counts then .before else .concurrent) := by
  obtain ⟨left,right⟩ := flags_exact a b
  unfold compare
  rcases pair : flags a b with ⟨aLess,bLess⟩
  rw [pair] at left right
  by_cases le : b.counts ≤ a.counts <;> by_cases ge : a.counts ≤ b.counts <;>
    cases aLess <;> cases bLess <;> simp_all

theorem compare_equal {a b : VectorClock} : compare a b = .equal ↔ a.counts = b.counts := by
  have antisymm : a.counts = b.counts ↔ a.counts ≤ b.counts ∧ b.counts ≤ a.counts := le_antisymm_iff
  rw [compare_flags,antisymm]
  split <;> split <;> simp_all

theorem compare_before {a b : VectorClock} : compare a b = .before ↔ a.counts < b.counts := by
  rw [compare_flags,lt_iff_le_not_ge]
  split <;> split <;> simp_all

theorem compare_after {a b : VectorClock} : compare a b = .after ↔ b.counts < a.counts := by
  rw [compare_flags,lt_iff_le_not_ge]
  split <;> split <;> simp_all

theorem compare_concurrent {a b : VectorClock} :
    compare a b = .concurrent ↔ ¬ a.counts ≤ b.counts ∧ ¬ b.counts ≤ a.counts := by
  rw [compare_flags]
  split <;> split <;> simp_all

-- The order of the components, with missing ones as zero.
def Below (a b : VectorClock) : Prop := ∀ node, a.get node ≤ b.get node

theorem below_iff {a b : VectorClock} : Below a b ↔ a.counts ≤ b.counts := by
  rw [Below,Pi.le_def]
  exact forall_congr' (fun node => UInt64.le_iff_toNat_le)

theorem get_eq_iff {a b : VectorClock} : (∀ node, a.get node = b.get node) ↔ a.counts = b.counts := by
  rw [funext_iff]
  exact forall_congr' (fun node => UInt64.toNat_inj.symm)

-- a is compared as EQUAL or BEFORE.
def AtMost (a b : VectorClock) : Prop := compare a b ≠ .after ∧ compare a b ≠ .concurrent

instance (a b : VectorClock) : Decidable (AtMost a b) :=
  inferInstanceAs (Decidable (compare a b ≠ .after ∧ compare a b ≠ .concurrent))

theorem atMost_iff {a b : VectorClock} : AtMost a b ↔ a.counts ≤ b.counts := by
  rw [AtMost,ne_eq,ne_eq,compare_after,compare_concurrent,lt_iff_le_not_ge]
  tauto

end VectorClock

def ClockOrder.mirror : ClockOrder → ClockOrder
  | equal => equal
  | before => after
  | after => before
  | concurrent => concurrent

namespace VectorClock

theorem compare_mirror (a b : VectorClock) : compare b a = (compare a b).mirror := by
  cases order : compare a b with
  | equal => exact compare_equal.mpr (compare_equal.mp order).symm
  | before => exact compare_after.mpr (compare_before.mp order)
  | after => exact compare_before.mpr (compare_after.mp order)
  | concurrent => exact compare_concurrent.mpr (compare_concurrent.mp order).symm

structure JoinLaws (a b c : VectorClock) : Prop where
  equal : compare a b = .equal ↔ ∀ node, a.get node = b.get node
  before : compare a b = .before ↔ Below a b ∧ ¬ Below b a
  after : compare a b = .after ↔ Below b a ∧ ¬ Below a b
  concurrent : compare a b = .concurrent ↔ ¬ Below a b ∧ ¬ Below b a
  transitive : compare a b = .before → compare b c = .before → compare a c = .before
  mirrored : compare b a = (compare a b).mirror
  above_left : AtMost a (a.merge b)
  above_right : AtMost b (a.merge b)
  least : AtMost a c → AtMost b c → AtMost (a.merge b) c
  commutes : compare (a.merge b) (b.merge a) = .equal
  associates : compare ((a.merge b).merge c) (a.merge (b.merge c)) = .equal
  idempotent : compare (a.merge a) a = .equal

theorem join_laws (a b c : VectorClock) : JoinLaws a b c where
  equal := by rw [compare_equal,get_eq_iff]
  before := by rw [compare_before,below_iff,below_iff,lt_iff_le_not_ge]
  after := by rw [compare_after,below_iff,below_iff,lt_iff_le_not_ge]
  concurrent := by rw [compare_concurrent,below_iff,below_iff]
  transitive := by
    rw [compare_before,compare_before,compare_before]
    exact lt_trans
  mirrored := compare_mirror a b
  above_left := by
    rw [atMost_iff,counts_merge]
    exact le_sup_left
  above_right := by
    rw [atMost_iff,counts_merge]
    exact le_sup_right
  least := by
    rw [atMost_iff,atMost_iff,atMost_iff,counts_merge]
    exact sup_le
  commutes := by
    rw [compare_equal,counts_merge,counts_merge]
    exact sup_comm _ _
  associates := by
    rw [compare_equal,counts_merge,counts_merge,counts_merge,counts_merge]
    exact sup_assoc _ _ _
  idempotent := by
    rw [compare_equal,counts_merge]
    exact sup_idem _

end VectorClock
end P2PSync
