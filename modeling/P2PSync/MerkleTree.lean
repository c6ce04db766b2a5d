import P2PSync.Lib.HashTree
import P2PSync.Chunker

namespace P2PSync

-- leaf_index is an int: an index from 2^31 on comes out negative.
inductive MerkleNode where
  | leaf (hash : Digest) (leafIndex : ℤ)
  | node (hash : Digest) (left right : MerkleNode)

namespace MerkleNode

def hash : MerkleNode → Digest
  | leaf h _ => h
  | node h _ _ => h

end MerkleNode

structure MerkleTree where
  root? : Option MerkleNode
  leafCount : ℕ

namespace MerkleTree

-- The source recurses without end on an empty range; build never asks for one.
def buildRecursive (chunks : List Chunk) (lo hi : ℕ) (some : lo < hi) (within : hi ≤ chunks.length) : MerkleNode :=
  if single : hi - lo = 1 then .leaf (chunks.get ⟨lo,by omega⟩).hash (BitVec.ofNat 32 lo).toInt
  else
    let mid := lo + (hi - lo) / 2
    let left := buildRecursive chunks lo mid (by omega) (by omega)
    let right := buildRecursive chunks mid hi (by omega) within
    .node (Sha256.combine left.hash right.hash) left right
termination_by hi - lo

def build (chunks : List Chunk) : MerkleTree :=
  if some : 0 < chunks.length then ⟨.some (buildRecursive chunks 0 chunks.length some (le_refl _)),chunks.length⟩
  else ⟨none,0⟩

def empty (tree : MerkleTree) : Bool := tree.root?.isNone

-- Only asked of a tree that is not empty.
def root (tree : MerkleTree) : Option Digest := tree.root?.map MerkleNode.hash

end MerkleTree

namespace Merkle
open HashTree MerkleTree

def spell (left right : Digest) : Bytes := left.bytes ++ right.bytes

theorem spell_injective (a b c d : Digest) (same : spell a b = spell c d) : a = c ∧ b = d := by
  obtain ⟨left,right⟩ := List.append_inj same (a.size.trans c.size.symm)
  obtain ⟨_,_⟩ := a
  obtain ⟨_,_⟩ := b
  obtain ⟨_,_⟩ := c
  obtain ⟨_,_⟩ := d
  simp_all

-- The strings behind the digests of build: the bytes of the chunks at the leaves.
def byteTree (chunks : List Chunk) (lo hi : ℕ) (some : lo < hi) (within : hi ≤ chunks.length) : HashTree.Tree Bytes :=
  if single : hi - lo = 1 then .leaf (chunks.get ⟨lo,by omega⟩).data
  else
    let mid := lo + (hi - lo) / 2
    .node (byteTree chunks lo mid (by omega) (by omega)) (byteTree chunks mid hi (by omega) within)
termination_by hi - lo

theorem byteTree_leaves (chunks : List Chunk) (lo hi : ℕ) (some : lo < hi) (within : hi ≤ chunks.length) :
    leaves (byteTree chunks lo hi some within) = ((chunks.drop lo).take (hi - lo)).map Chunk.data := by
  fun_induction byteTree chunks lo hi some within with
  | case1 lo hi some within single =>
    rw [single,List.drop_eq_getElem_cons (by omega)]
    rfl
  | case2 lo hi some within more mid ihl ihr =>
    have first : mid - lo = (hi - lo) / 2 := by omega
    have second : hi - mid = (hi - lo) - (hi - lo) / 2 := by omega
    have halves : (chunks.drop lo).take (hi - lo) =
        (chunks.drop lo).take (mid - lo) ++ (chunks.drop mid).take (hi - mid) := by
      have split : hi - lo = (mid - lo) + (hi - mid) := by omega
      rw [split,List.take_add,List.drop_drop]
      congr 3
      omega
    rw [leaves,ihl,ihr,halves,List.map_append]

theorem buildRecursive_hash (chunks : List Chunk) (genuine : ∀ piece ∈ chunks, piece.hash = Sha256.hash piece.data)
    (lo hi : ℕ) (some : lo < hi) (within : hi ≤ chunks.length) :
    (buildRecursive chunks lo hi some within).hash =
      HashTree.root Sha256.hash spell (byteTree chunks lo hi some within) := by
  fun_induction byteTree chunks lo hi some within with
  | case1 lo hi some within single =>
    rw [buildRecursive,dif_pos single]
    exact genuine _ (List.get_mem _ _)
  | case2 lo hi some within more mid ihl ihr =>
    rw [buildRecursive,dif_neg more]
    change Sha256.combine (buildRecursive chunks lo mid _ _).hash (buildRecursive chunks mid hi _ within).hash = _
    rw [ihl,ihr]
    rfl

section
variable (c : Chunker)

def fileTree (data : Bytes) (some : data ≠ []) : HashTree.Tree Bytes :=
  byteTree (c.chunk data) 0 (c.chunk data).length (List.length_pos_of_ne_nil (c.chunk_ne_nil some)) (le_refl _)

-- Every byte string whose digest is taken for the chunks and the tree of a file.
def hashedStrings (data : Bytes) (some : data ≠ []) : List Bytes :=
  hashed Sha256.hash spell (fileTree c data some)

theorem fileTree_leaves (data : Bytes) (some : data ≠ []) :
    (leaves (fileTree c data some)).flatten = data := by
  rw [fileTree,byteTree_leaves,List.drop_zero,Nat.sub_zero,List.take_length]
  exact c.chunk_data data

theorem fileTree_injective {data data' : Bytes} (some : data ≠ []) (some' : data' ≠ []) :
    fileTree c data some = fileTree c data' some' ↔ data = data' := by
  constructor
  · intro same
    rw [← fileTree_leaves c data some,same,fileTree_leaves]
  · intro same
    subst same
    rfl

theorem build_root (data : Bytes) (some : data ≠ []) :
    (build (c.chunk data)).root = .some (HashTree.root Sha256.hash spell (fileTree c data some)) := by
  have positive : 0 < (c.chunk data).length := List.length_pos_of_ne_nil (c.chunk_ne_nil some)
  rw [build,dif_pos positive,MerkleTree.root,Option.map_some,fileTree,
    buildRecursive_hash _ (c.chunk_hash data)]

end

-- Leaves and interior nodes are digests of the same function with nothing to
-- tell them apart. So equal roots mean equal files exactly when no chunk of one
-- file spells the two child digests of the node in its place in the other tree.
theorem root_identifies_file_iff (c : Chunker) (d d' : Bytes) (some : d ≠ []) (some' : d' ≠ [])
    (collisionFree : ∀ x ∈ hashedStrings c d some ++ hashedStrings c d' some',
      ∀ y ∈ hashedStrings c d some ++ hashedStrings c d' some', Sha256.hash x = Sha256.hash y → x = y) :
    ((build (c.chunk d)).root = (build (c.chunk d')).root ↔ d = d') ↔
      ¬ Spells Sha256.hash spell (fileTree c d some) (fileTree c d' some') := by
  rw [build_root c d some,build_root c d' some',Option.some_inj,← fileTree_injective c some some']
  apply root_identifies_iff spell_injective
  intro x hx y hy
  exact collisionFree x (List.mem_append_left _ hx) y (List.mem_append_right _ hy)

-- A file of one chunk that forges the root of a file of two: its bytes are the
-- two leaf digests of the other.
def zeroBlock : Bytes := List.replicate 64 0
def original : Bytes := zeroBlock ++ zeroBlock
def forged : Bytes := spell (Sha256.hash zeroBlock) (Sha256.hash zeroBlock)
def blockwise : Chunker := Chunker.new 64 64 64

theorem scan_blockwise (hash : UInt64) (window : ℕ) (rest : Bytes) (before : window < 64)
    (enough : 64 ≤ window + rest.length) : blockwise.scan hash window rest = some 64 := by
  induction rest generalizing hash window with
  | nil =>
    simp only [List.length_nil] at enough
    omega
  | cons byte rest ih =>
    have low : blockwise.minSize.toNat = 64 := rfl
    have high : blockwise.maxSize.toNat = 64 := rfl
    simp only [Chunker.scan,low,high]
    simp only [List.length_cons] at enough
    by_cases last : window + 1 = 64
    · rw [if_pos (.inr (by omega)),last]
    · rw [if_neg (by omega)]
      exact ih _ _ (by omega) (by omega)

theorem chunk_block {block : Bytes} (full : block.length = 64) :
    blockwise.chunk block = [⟨0,block,Sha256.hash block⟩] := by
  have some : block ≠ [] := by
    rintro rfl
    cases full
  have found : blockwise.scan 0 0 (block.drop 0) = Option.some 64 :=
    scan_blockwise 0 0 _ (by decide) (by simp [full])
  have all : block.take 64 = block := List.take_of_length_le (by omega)
  have done := Chunker.chunkLoop_done blockwise block
  rw [full] at done
  rw [Chunker.chunk,if_neg some,Chunker.chunkLoop_cut found,Nat.zero_add,done]
  simp [Chunker.makeChunk,all]

theorem chunk_original : blockwise.chunk original =
    [⟨0,zeroBlock,Sha256.hash zeroBlock⟩,⟨64,zeroBlock,Sha256.hash zeroBlock⟩] := by
  have length : original.length = 128 := by simp [original,zeroBlock]
  have first : blockwise.scan 0 0 (original.drop 0) = some 64 :=
    scan_blockwise 0 0 _ (by decide) (by simp [length])
  have second : blockwise.scan 0 0 (original.drop 64) = some 64 :=
    scan_blockwise 0 0 _ (by decide) (by simp [length])
  have done := Chunker.chunkLoop_done blockwise original
  rw [length] at done
  rw [Chunker.chunk,if_neg (by decide),Chunker.chunkLoop_cut first,Nat.zero_add,
    Chunker.chunkLoop_cut second,done]
  rfl

theorem hash_block {block : Bytes} (full : block.length = 64) : Sha256.hash block =
    (Sha256.processBlock (Sha256.processBlock Sha256.initialHash block)
      (0x80 :: List.replicate 55 0 ++ Sha256.lenBytes 960)).digest := by
  have zeros : Sha256.zeroCount block.length = 55 := by rw [full]; rfl
  have length : (Sha256.padded block).length = 120 := by
    rw [Sha256.padded,zeros,List.length_append,full]
    rfl
  have body : Sha256.body block = (Sha256.processBlock Sha256.initialHash block,0x80 :: List.replicate 55 0) := by
    rw [Sha256.body,Sha256.padded,zeros,Blocks.fold_block _ _ full,Blocks.fold_short _ _ (by decide)]
  rw [Sha256.hash_eq,body,length]
  rfl

theorem forged_length : forged.length = 64 := by simp [forged,spell,Digest.size]

theorem hash_forged : Sha256.hash forged ≠ Sha256.hash zeroBlock := by
  have zeros : zeroBlock.length = 64 := by decide
  rw [hash_block forged_length,forged,hash_block zeros]
  decide +kernel

theorem forged_ne_nil : forged ≠ [] := by
  intro nothing
  have length := forged_length
  rw [nothing] at length
  cases length

theorem tree_block {block : Bytes} (full : block.length = 64) (some : block ≠ []) :
    fileTree blockwise block some = .leaf block := by
  unfold fileTree
  simp only [chunk_block full]
  rw [byteTree,dif_pos (by simp)]
  rfl

theorem root_identifies_zero_block :
    (build (blockwise.chunk zeroBlock)).root = (build (blockwise.chunk forged)).root ↔ zeroBlock = forged := by
  refine (root_identifies_file_iff blockwise zeroBlock forged (by decide) forged_ne_nil ?_).mpr ?_
  · rw [hashedStrings,hashedStrings,tree_block (by decide),tree_block forged_length]
    intro x hx y hy same
    rcases List.mem_pair.mp hx with rfl | rfl <;> rcases List.mem_pair.mp hy with rfl | rfl
    · rfl
    · exact absurd same.symm hash_forged
    · exact absurd same hash_forged
    · rfl
  · rw [tree_block (by decide),tree_block forged_length]
    exact id

theorem tree_original : fileTree blockwise original (by decide) = .node (.leaf zeroBlock) (.leaf zeroBlock) := by
  unfold fileTree
  simp only [chunk_original]
  rw [byteTree,dif_neg (by decide)]
  simp [byteTree]

-- Different files, no collision among the strings hashed, one root.
theorem forged_root : original ≠ forged ∧
    (∀ x ∈ hashedStrings blockwise original (by decide) ++ hashedStrings blockwise forged forged_ne_nil,
      ∀ y ∈ hashedStrings blockwise original (by decide) ++ hashedStrings blockwise forged forged_ne_nil,
        Sha256.hash x = Sha256.hash y → x = y) ∧
    (build (blockwise.chunk original)).root = (build (blockwise.chunk forged)).root := by
  refine ⟨?_,?_,?_⟩
  · intro same
    have lengths := congrArg List.length same
    rw [forged_length] at lengths
    simp [original,zeroBlock] at lengths
  · have strings : ∀ x ∈ hashedStrings blockwise original (by decide) ++ hashedStrings blockwise forged forged_ne_nil,
        x = forged ∨ x = zeroBlock := by
      intro x member
      rw [hashedStrings,hashedStrings,tree_original,tree_block forged_length] at member
      change x ∈ [forged,zeroBlock,zeroBlock,forged] at member
      simp only [List.mem_cons,List.not_mem_nil,or_false] at member
      rcases member with same | same | same | same
      · exact .inl same
      · exact .inr same
      · exact .inr same
      · exact .inl same
    intro x hx y hy same
    rcases strings x hx with rfl | rfl <;> rcases strings y hy with rfl | rfl
    · rfl
    · exact absurd same hash_forged
    · exact absurd same.symm hash_forged
    · rfl
  · rw [build_root blockwise original (by decide),build_root blockwise forged forged_ne_nil,
      tree_original,tree_block forged_length]
    rfl

end Merkle
end P2PSync
