import P2PSync.MerkleTree

namespace P2PSync

namespace MerkleNode

-- Interior nodes keep the -1 they are made with.
def leafIndex : MerkleNode → ℤ
  | leaf _ i => i
  | node _ _ _ => -1

def isLeaf (n : MerkleNode) : Bool := 0 ≤ n.leafIndex

-- The digest pairs that combine is called on in building the node.
def pairs : MerkleNode → List (Digest × Digest)
  | leaf _ _ => []
  | node _ l r => (l.hash,r.hash) :: (l.pairs ++ r.pairs)

end MerkleNode

namespace MerkleTree

-- A leaf has no children: there the recursion meets null pointers and returns.
def collectDiffs (a b : MerkleNode) (out : List ℤ) : List ℤ :=
  if a.hash = b.hash then out
  else if a.isLeaf && b.isLeaf then out ++ [a.leafIndex]
  else if a.isLeaf || b.isLeaf then out ++ [if a.isLeaf then a.leafIndex else b.leafIndex]
  else match a,b with
    | .node _ l r,.node _ l' r' => collectDiffs r r' (collectDiffs l l' out)
    | _,_ => out

def diffLeafIndices (a b : MerkleTree) : List ℤ :=
  match a.root?,b.root? with
  | some x,some y => if a.leafCount ≠ b.leafCount then [] else collectDiffs x y []
  | _,_ => []

def pairs (tree : MerkleTree) : List (Digest × Digest) := (tree.root?.map MerkleNode.pairs).getD []

end MerkleTree

-- The loop of ingest_file over the digests of the previous version, run where there
-- are as many of them as chunks.
def changed (previous : List Digest) (chunks : List Chunk) : ℕ :=
  (List.range chunks.length).foldl
    (fun count i => if previous[i]? = (chunks[i]?).map Chunk.hash then count else count + 1) 0

namespace Merkle
open MerkleTree

-- The indices from lo on, n of them, whose digests differ.
def differingIn (a b : List Chunk) (lo n : ℕ) : List ℕ :=
  (List.range' lo n).filter (fun i => (a[i]?).map Chunk.hash ≠ (b[i]?).map Chunk.hash)

def differing (a b : List Chunk) : List ℕ := differingIn a b 0 a.length

-- combine keeps the pairs apart that it is given for the two trees.
def CombineFree (a b : List (Digest × Digest)) : Prop :=
  ∀ p ∈ a, ∀ q ∈ b, Sha256.combine p.1 p.2 = Sha256.combine q.1 q.2 → p = q

theorem collectDiffs_node {h h' : Digest} (differs : h ≠ h') (l r l' r' : MerkleNode) (out : List ℤ) :
    collectDiffs (.node h l r) (.node h' l' r') out = collectDiffs r r' (collectDiffs l l' out) := by
  have inner : ∀ h l r, (MerkleNode.node h l r).isLeaf = false := fun _ _ _ => rfl
  have apart : (MerkleNode.node h l r).hash ≠ (MerkleNode.node h' l' r').hash := differs
  rw [collectDiffs.eq_def,if_neg apart,inner,inner,if_neg (by decide),if_neg (by decide)]

theorem leafIndex_small (few : lo < 2^31) : (BitVec.ofNat 32 lo).toInt = lo := by
  rw [BitVec.toInt_eq_toNat_of_lt,BitVec.toNat_ofNat,Nat.mod_eq_of_lt (by omega)]
  rw [BitVec.toNat_ofNat,Nat.mod_eq_of_lt (by omega)]
  omega

theorem hash_at {chunks : List Chunk} (inside : lo < chunks.length) :
    (chunks[lo]?).map Chunk.hash = some (chunks.get ⟨lo,inside⟩).hash := by
  rw [List.getElem?_eq_getElem inside]
  rfl

theorem differingIn_one (a b : List Chunk) (lo : ℕ) : differingIn a b lo 1 =
    if (a[lo]?).map Chunk.hash = (b[lo]?).map Chunk.hash then [] else [lo] := by
  by_cases same : (a[lo]?).map Chunk.hash = (b[lo]?).map Chunk.hash
  · simp [differingIn,same]
  · simp [differingIn,same]

theorem differingIn_append (a b : List Chunk) (lo m n : ℕ) :
    differingIn a b lo (m + n) = differingIn a b lo m ++ differingIn a b (lo + m) n := by
  rw [differingIn,← List.range'_append_1,List.filter_append]
  rfl

theorem CombineFree.left {p q : Digest × Digest} (free : CombineFree (p :: (x ++ x')) (q :: (y ++ y'))) : CombineFree x y :=
  fun p hp q hq => free p (by simp [hp]) q (by simp [hq])

theorem CombineFree.right {p q : Digest × Digest} (free : CombineFree (p :: (x ++ x')) (q :: (y ++ y'))) : CombineFree x' y' :=
  fun p hp q hq => free p (by simp [hp]) q (by simp [hq])

theorem buildRecursive_leaf {chunks : List Chunk} (filled : lo < hi) (within : hi ≤ chunks.length) (single : hi - lo = 1) :
    buildRecursive chunks lo hi filled within = .leaf (chunks.get ⟨lo,by omega⟩).hash (BitVec.ofNat 32 lo).toInt := by
  rw [buildRecursive,dif_pos single]

theorem differingIn_halves (a b : List Chunk) (lo hi : ℕ) : differingIn a b lo (hi - lo) =
    differingIn a b lo (lo + (hi - lo) / 2 - lo) ++ differingIn a b (lo + (hi - lo) / 2) (hi - (lo + (hi - lo) / 2)) := by
  have first : lo + (hi - lo) / 2 - lo = (hi - lo) / 2 := by omega
  have split : hi - lo = (hi - lo) / 2 + (hi - (lo + (hi - lo) / 2)) := by omega
  rw [first]
  conv_lhs => rw [split]
  exact differingIn_append ..

section
variable {a b : List Chunk} {lo hi : ℕ} (filled : lo < hi) (withinA : hi ≤ a.length) (withinB : hi ≤ b.length)

-- Where combine is free of collisions, equal digests at the top mean equal leaves.
theorem same_hash (free : CombineFree (buildRecursive a lo hi filled withinA).pairs (buildRecursive b lo hi filled withinB).pairs)
    (same : (buildRecursive a lo hi filled withinA).hash = (buildRecursive b lo hi filled withinB).hash) :
    differingIn a b lo (hi - lo) = [] := by
  fun_induction buildRecursive a lo hi filled withinA with
  | case1 lo hi filled withinA single =>
    rw [buildRecursive_leaf filled withinB single] at same
    rw [single,differingIn_one,hash_at (by omega),hash_at (by omega)]
    exact if_pos (congrArg some same)
  | case2 lo hi filled withinA more mid left right ihl ihr =>
    rw [buildRecursive,dif_neg more] at same free
    obtain ⟨sameLeft,sameRight⟩ := Prod.mk.inj (free (left.hash,right.hash) List.mem_cons_self _ List.mem_cons_self same)
    have here := ihl (by omega) free.left sameLeft
    have there := ihr withinB free.right sameRight
    rw [differingIn_halves,here,there]
    rfl

-- What the walk appends to out: true differences in order, and all of them where
-- combine is free of collisions.
def Finds (a b : List Chunk) (lo n : ℕ) (x y : MerkleNode) (out : List ℤ) : Prop :=
  ∃ found : List ℕ, collectDiffs x y out = out ++ found.map Int.ofNat ∧ found.Sublist (differingIn a b lo n) ∧
    (CombineFree x.pairs y.pairs → found = differingIn a b lo n)

theorem finds_same (out : List ℤ)
    (same : (buildRecursive a lo hi filled withinA).hash = (buildRecursive b lo hi filled withinB).hash) :
    Finds a b lo (hi - lo) (buildRecursive a lo hi filled withinA) (buildRecursive b lo hi filled withinB) out := by
  refine ⟨[],?_,List.nil_sublist _,fun free => (same_hash filled withinA withinB free same).symm⟩
  rw [collectDiffs.eq_def,if_pos same]
  simp

theorem finds_leaf (single : hi - lo = 1) (few : hi ≤ 2^31) (out : List ℤ)
    (differs : (buildRecursive a lo hi filled withinA).hash ≠ (buildRecursive b lo hi filled withinB).hash) :
    Finds a b lo (hi - lo) (buildRecursive a lo hi filled withinA) (buildRecursive b lo hi filled withinB) out := by
  rw [buildRecursive_leaf filled withinA single,buildRecursive_leaf filled withinB single,leafIndex_small (by omega)] at differs ⊢
  have here : differingIn a b lo (hi - lo) = [lo] := by
    rw [single,differingIn_one,hash_at (by omega),hash_at (by omega)]
    exact if_neg (fun same => differs (Option.some.inj same))
  refine ⟨[lo],?_,?_,fun _ => here.symm⟩
  · rw [collectDiffs.eq_def,if_neg differs]
    simp [MerkleNode.isLeaf,MerkleNode.leafIndex]
  · rw [here]

end

-- By recursion on the range, as the trees are built.
theorem finds_build {a b : List Chunk} {lo hi : ℕ} (filled : lo < hi) (withinA : hi ≤ a.length) (withinB : hi ≤ b.length)
    (few : hi ≤ 2^31) (out : List ℤ) : Finds a b lo (hi - lo) (buildRecursive a lo hi filled withinA) (buildRecursive b lo hi filled withinB) out := by
  by_cases same : (buildRecursive a lo hi filled withinA).hash = (buildRecursive b lo hi filled withinB).hash
  · exact finds_same filled withinA withinB out same
  by_cases single : hi - lo = 1
  · exact finds_leaf filled withinA withinB single few out same
  have mid : lo < lo + (hi - lo) / 2 ∧ lo + (hi - lo) / 2 < hi := by omega
  obtain ⟨first,walked,realLeft,allLeft⟩ := finds_build mid.1 (show _ ≤ a.length by omega) (show _ ≤ b.length by omega)
    (by omega) out
  obtain ⟨second,walked',realRight,allRight⟩ := finds_build mid.2 withinA withinB few (out ++ first.map Int.ofNat)
  rw [buildRecursive,dif_neg single,buildRecursive,dif_neg single] at same ⊢
  refine ⟨first ++ second,?_,?_,?_⟩
  · rw [List.map_append,← List.append_assoc,← walked',← walked]
    exact collectDiffs_node same ..
  · rw [differingIn_halves]
    exact realLeft.append realRight
  · intro free
    rw [differingIn_halves,allLeft free.left,allRight free.right]
termination_by hi - lo

theorem build_filled {chunks : List Chunk} (filled : 0 < chunks.length) :
    build chunks = ⟨some (buildRecursive chunks 0 chunks.length filled (le_refl _)),chunks.length⟩ := by
  rw [build,dif_pos filled]

theorem changed_length {a b : List Chunk} (same : a.length = b.length) :
    changed (a.map Chunk.hash) b = (differing a b).length := by
  have count : ∀ indices : List ℕ, ∀ from_ : ℕ, indices.foldl
      (fun count i => if (a.map Chunk.hash)[i]? = (b[i]?).map Chunk.hash then count else count + 1) from_ =
      from_ + (indices.filter (fun i => (a[i]?).map Chunk.hash ≠ (b[i]?).map Chunk.hash)).length := by
    intro indices
    induction indices with
    | nil => exact fun _ => rfl
    | cons i rest ih =>
      intro from_
      rw [List.foldl_cons,ih,List.getElem?_map]
      by_cases equal : (a[i]?).map Chunk.hash = (b[i]?).map Chunk.hash
      · simp [equal]
      · simp [equal]
        omega
  rw [changed,count,Nat.zero_add,differing,differingIn,same,List.range_eq_range']

-- The walk over the trees finds what the plain loop counts.
theorem diff_exact (a b : List Chunk) (same : a.length = b.length) (few : a.length < 2^31) :
    (CombineFree ((build a).pairs ++ (build b).pairs) ((build a).pairs ++ (build b).pairs) →
      diffLeafIndices (build a) (build b) = (differing a b).map Int.ofNat) ∧
    (diffLeafIndices (build a) (build b)).Sublist ((differing a b).map Int.ofNat) ∧
    changed (a.map Chunk.hash) b = (differing a b).length := by
  by_cases filled : 0 < a.length
  · obtain ⟨found,walked,real,all⟩ := finds_build filled (le_refl _) (show a.length ≤ b.length by omega) few.le []
    have trees : diffLeafIndices (build a) (build b) = found.map Int.ofNat := by
      rw [build_filled filled,build_filled (by omega)]
      simp only [diffLeafIndices,same,ne_eq,not_true_eq_false,if_false]
      simp only [same] at walked
      exact walked
    refine ⟨?_,?_,changed_length same⟩
    · intro free
      rw [trees,all]
      · rfl
      · rw [build_filled filled,build_filled (by omega)] at free
        simp only [← same] at free
        exact fun p hp q hq => free p (List.mem_append_left _ hp) q (List.mem_append_right _ hq)
    · rw [trees]
      exact real.map _
  · have nothing : a = [] := List.length_eq_zero_iff.mp (by omega)
    have nothing' : b = [] := List.length_eq_zero_iff.mp (by omega)
    subst nothing nothing'
    exact ⟨fun _ => rfl,List.Sublist.refl _,rfl⟩

-- Two chunks against two, the second changed.
def uniform (bytes : List UInt8) : List Chunk := bytes.map (fun byte => ⟨0,[],⟨List.replicate 32 byte,by simp⟩⟩)

theorem diff_exact_second_changed : diffLeafIndices (build (uniform [1,2])) (build (uniform [1,7])) = [1] ∧
    changed ((uniform [1,2]).map Chunk.hash) (uniform [1,7]) = 1 := by
  have differs : differing (uniform [1,2]) (uniform [1,7]) = [1] := by decide +kernel
  have free : CombineFree ((build (uniform [1,2])).pairs ++ (build (uniform [1,7])).pairs)
      ((build (uniform [1,2])).pairs ++ (build (uniform [1,7])).pairs) := by
    unfold CombineFree
    decide +kernel
  obtain ⟨all,_,counted⟩ := diff_exact (uniform [1,2]) (uniform [1,7]) rfl (by decide)
  have found := all free
  rw [differs] at found counted
  exact ⟨found,counted⟩

end Merkle
end P2PSync
