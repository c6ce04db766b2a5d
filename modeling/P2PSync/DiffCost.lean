import P2PSync.MerkleDiff

-- How many pairs of nodes the walk over two trees looks at.
namespace P2PSync.Merkle
open MerkleTree

-- collect_diffs with its calls counted, those on null pointers too.
def collectCounted (a b : MerkleNode) (out : List ℤ) (calls : ℕ) : List ℤ × ℕ :=
  if a.hash = b.hash then (out,calls + 1)
  else if a.isLeaf && b.isLeaf then (out ++ [a.leafIndex],calls + 1)
  else if a.isLeaf || b.isLeaf then (out ++ [if a.isLeaf then a.leafIndex else b.leafIndex],calls + 1)
  else match a,b with
    | .node _ l r,.node _ l' r' =>
      let (out,calls) := collectCounted l l' out (calls + 1)
      collectCounted r r' out calls
    | _,_ => (out,calls + 3)

def diffCounted (a b : MerkleTree) : List ℤ × ℕ :=
  match a.root?,b.root? with
  | some x,some y => if a.leafCount ≠ b.leafCount then ([],0) else collectCounted x y [] 0
  | _,_ => ([],0)

theorem counted_found (a b : MerkleNode) (out : List ℤ) (calls : ℕ) : (collectCounted a b out calls).1 = collectDiffs a b out := by
  fun_induction collectDiffs a b out generalizing calls with
  | case1 a b out same => rw [collectCounted.eq_def,if_pos same]
  | case2 a b out differs leaves => rw [collectCounted.eq_def,if_neg differs,if_pos leaves]
  | case3 a b out differs leaves mixed => rw [collectCounted.eq_def,if_neg differs,if_neg leaves,if_pos mixed]
  | case4 out h l r h' l' r' differs leaves mixed ihl ihr =>
    rw [collectCounted.eq_def,if_neg differs,if_neg leaves,if_neg mixed]
    dsimp only
    rw [ihl,ihr]
  | case5 a b out differs leaves mixed other =>
    rw [collectCounted.eq_def,if_neg differs,if_neg leaves,if_neg mixed]
    cases a with
    | leaf h i => rfl
    | node h l r =>
      cases b with
      | leaf h' i => rfl
      | node h' l' r' => exact (other h l r h' l' r' rfl rfl).elim

theorem diff_counted (a b : MerkleTree) : (diffCounted a b).1 = diffLeafIndices a b := by
  unfold diffCounted diffLeafIndices
  cases a.root? with
  | none => rfl
  | some x =>
    cases b.root? with
    | none => rfl
    | some y =>
      dsimp only
      split
      · rfl
      · exact counted_found ..

section
variable {a b : List Chunk} {lo hi : ℕ} (filled : lo < hi) (withinA : hi ≤ a.length) (withinB : hi ≤ b.length)

-- Ranges with the same digests have the same tree over them, whatever combine does.
theorem hash_same (same : differingIn a b lo (hi - lo) = []) :
    (buildRecursive a lo hi filled withinA).hash = (buildRecursive b lo hi filled withinB).hash := by
  fun_induction buildRecursive a lo hi filled withinA with
  | case1 lo hi filled withinA single =>
    rw [buildRecursive_leaf filled withinB single]
    rw [single,differingIn_one,hash_at (by omega),hash_at (by omega)] at same
    split at same
    · rename_i equal
      exact Option.some.inj equal
    · cases same
  | case2 lo hi filled withinA more mid left right ihl ihr =>
    rw [differingIn_halves] at same
    obtain ⟨sameLeft,sameRight⟩ := List.append_eq_nil_iff.mp same
    have here := ihl (by omega) sameLeft
    have there := ihr withinB sameRight
    rw [buildRecursive.eq_def b,dif_neg more]
    change Sha256.combine left.hash right.hash = Sha256.combine _ _
    rw [here,there]

-- What the walk over a range costs, wherever it starts counting.
def Costs (a b : List Chunk) (lo n : ℕ) (x y : MerkleNode) : Prop :=
  ∃ cost, (∀ out calls, (collectCounted x y out calls).2 = calls + cost) ∧
    cost ≤ 1 + 2 * (differingIn a b lo n).length * Nat.clog 2 n ∧ cost + 1 ≤ 2 * n

theorem costs_one (filled : lo < hi) {x y : MerkleNode} (once : ∀ out calls, (collectCounted x y out calls).2 = calls + 1) :
    Costs a b lo (hi - lo) x y := by
  refine ⟨1,once,Nat.le_add_right _ _,?_⟩
  omega

end

-- A pair is looked into only if the digests differ, and then a leaf below it differs. So
-- each difference pays for the two children at each level above it.
theorem costs_build {a b : List Chunk} {lo hi : ℕ} (filled : lo < hi) (withinA : hi ≤ a.length) (withinB : hi ≤ b.length)
    (few : hi ≤ 2^31) : Costs a b lo (hi - lo) (buildRecursive a lo hi filled withinA) (buildRecursive b lo hi filled withinB) := by
  by_cases same : (buildRecursive a lo hi filled withinA).hash = (buildRecursive b lo hi filled withinB).hash
  · apply costs_one filled
    intro out calls
    rw [collectCounted.eq_def,if_pos same]
  by_cases single : hi - lo = 1
  · apply costs_one filled
    intro out calls
    rw [buildRecursive_leaf filled withinA single,buildRecursive_leaf filled withinB single,leafIndex_small (by omega)] at same ⊢
    rw [collectCounted.eq_def,if_neg same,if_pos (by simp [MerkleNode.isLeaf,MerkleNode.leafIndex])]
  have some : differingIn a b lo (hi - lo) ≠ [] := fun none => same (hash_same filled withinA withinB none)
  have positive := List.length_pos_of_ne_nil some
  have mid : lo < lo + (hi - lo) / 2 ∧ lo + (hi - lo) / 2 < hi := by omega
  obtain ⟨first,walked,below,most⟩ := costs_build mid.1 (show _ ≤ a.length by omega) (show _ ≤ b.length by omega) (by omega)
  obtain ⟨second,walked',below',most'⟩ := costs_build mid.2 withinA withinB few
  rw [buildRecursive,dif_neg single,buildRecursive,dif_neg single] at same ⊢
  refine ⟨1 + first + second,?_,?_,by omega⟩
  · intro out calls
    rw [collectCounted.eq_def,if_neg same]
    change (collectCounted _ _ (collectCounted _ _ out (calls + 1)).1 (collectCounted _ _ out (calls + 1)).2).2 = _
    rw [walked',walked]
    omega
  · rw [differingIn_halves,List.length_append] at positive ⊢
    have level : Nat.clog 2 (hi - lo) = Nat.clog 2 ((hi - lo + 1) / 2) + 1 := Nat.clog_of_two_le (by decide) (by omega)
    have left : Nat.clog 2 (lo + (hi - lo) / 2 - lo) ≤ Nat.clog 2 ((hi - lo + 1) / 2) := Nat.clog_mono_right 2 (by omega)
    have right : Nat.clog 2 (hi - (lo + (hi - lo) / 2)) ≤ Nat.clog 2 ((hi - lo + 1) / 2) := Nat.clog_mono_right 2 (by omega)
    rw [level]
    generalize (differingIn a b lo (lo + (hi - lo) / 2 - lo)).length = m at *
    generalize (differingIn a b (lo + (hi - lo) / 2) (hi - (lo + (hi - lo) / 2))).length = n at *
    generalize Nat.clog 2 ((hi - lo + 1) / 2) = c at *
    have here := below.trans (Nat.add_le_add_left (Nat.mul_le_mul_left (2 * m) left) 1)
    have there := below'.trans (Nat.add_le_add_left (Nat.mul_le_mul_left (2 * n) right) 1)
    calc 1 + first + second ≤ 1 + (1 + 2 * m * c) + (1 + 2 * n * c) := by omega
      _ = 1 + 2 + 2 * (m + n) * c := by ring
      _ ≤ 1 + 2 * (m + n) + 2 * (m + n) * c := by omega
      _ = 1 + 2 * (m + n) * (c + 1) := by ring
termination_by hi - lo

-- The pairs looked at grow with the changed chunks and with the logarithm of their
-- number, and are never more than the nodes of one tree.
theorem diff_cost (a b : List Chunk) (same : a.length = b.length) (few : a.length < 2^31) :
    (diffCounted (build a) (build b)).1 = diffLeafIndices (build a) (build b) ∧
    (diffCounted (build a) (build b)).2 ≤ 1 + 2 * (differing a b).length * Nat.clog 2 a.length ∧
    (diffCounted (build a) (build b)).2 ≤ 2 * a.length - 1 := by
  refine ⟨diff_counted _ _,?_⟩
  by_cases filled : 0 < a.length
  · obtain ⟨cost,walked,below,most⟩ := costs_build filled (le_refl _) (show a.length ≤ b.length by omega) few.le
    have total : (diffCounted (build a) (build b)).2 = cost := by
      rw [build_filled filled,build_filled (by omega)]
      simp only [diffCounted,same,ne_eq,not_true_eq_false,if_false]
      have counted := walked [] 0
      simp only [same,Nat.zero_add] at counted
      exact counted
    rw [total]
    exact ⟨below,by omega⟩
  · have nothing : a = [] := List.length_eq_zero_iff.mp (by omega)
    have nothing' : b = [] := List.length_eq_zero_iff.mp (by omega)
    subst nothing nothing'
    exact ⟨Nat.zero_le _,le_refl _⟩

theorem diff_cost_last_changed : (diffCounted (build (uniform [1,2,3,4])) (build (uniform [1,2,3,9]))).2 ≤ 5 := by
  have one : (differing (uniform [1,2,3,4]) (uniform [1,2,3,9])).length = 1 := by decide +kernel
  have levels : Nat.clog 2 (uniform [1,2,3,4]).length = 2 := by decide
  have cost := (diff_cost (uniform [1,2,3,4]) (uniform [1,2,3,9]) rfl (by decide)).2.1
  rw [one,levels] at cost
  exact cost

end P2PSync.Merkle
