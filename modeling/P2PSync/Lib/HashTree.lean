import Mathlib

-- Binary hash trees without domain separation: a leaf is the digest of its
-- string, an interior node the digest of the string its two child digests spell.
namespace HashTree
variable {S D : Type}

inductive Tree (S : Type) where
  | leaf (string : S)
  | node (left right : Tree S)
  deriving DecidableEq

def leaves : Tree S → List S
  | .leaf s => [s]
  | .node l r => leaves l ++ leaves r

section
variable (H : S → D) (pair : D → D → S)

def root : Tree S → D
  | .leaf s => H s
  | .node l r => H (pair (root l) (root r))

-- Every string whose digest is taken in building the tree.
def hashed : Tree S → List S
  | .leaf s => [s]
  | .node l r => pair (root H pair l) (root H pair r) :: (hashed l ++ hashed r)

-- The trees agree except that, in at least one place, a leaf of one is the
-- string which the child digests of an interior node of the other spell.
def Spells : Tree S → Tree S → Prop
  | .leaf _,.leaf _ => False
  | .leaf s,.node l r => s = pair (root H pair l) (root H pair r)
  | .node l r,.leaf s => s = pair (root H pair l) (root H pair r)
  | .node l r,.node l' r' =>
    (Spells l l' ∧ (Spells r r' ∨ r = r')) ∨ (l = l' ∧ Spells r r')

theorem spells_irrefl (t : Tree S) : ¬ Spells H pair t t := by
  induction t with
  | leaf s => exact id
  | node l r ihl ihr =>
    rintro (⟨left,_⟩ | ⟨_,right⟩)
    · exact ihl left
    · exact ihr right

theorem spells_root {t t' : Tree S} (spells : Spells H pair t t') : root H pair t = root H pair t' := by
  induction t generalizing t' with
  | leaf s =>
    cases t' with
    | leaf s' => exact spells.elim
    | node l r =>
      simp only [Spells] at spells
      simp only [root,spells]
  | node l r ihl ihr =>
    cases t' with
    | leaf s =>
      simp only [Spells] at spells
      simp only [root,spells]
    | node l' r' =>
      rcases spells with ⟨left,right | rfl⟩ | ⟨rfl,right⟩
      · simp only [root,ihl left,ihr right]
      · simp only [root,ihl left]
      · simp only [root,ihr right]

variable {H pair}

-- Without a collision among the strings hashed, equal roots mean equal trees or
-- a leaf that stands for an interior node.
theorem eq_or_spells (spelled : ∀ a b c d, pair a b = pair c d → a = c ∧ b = d) {t t' : Tree S}
    (collisionFree : ∀ x ∈ hashed H pair t, ∀ y ∈ hashed H pair t', H x = H y → x = y)
    (same : root H pair t = root H pair t') : t = t' ∨ Spells H pair t t' := by
  induction t generalizing t' with
  | leaf s =>
    cases t' with
    | leaf s' => exact .inl (congrArg Tree.leaf (collisionFree s (by simp [hashed]) s' (by simp [hashed]) same))
    | node l r => exact .inr (collisionFree s (by simp [hashed]) _ (by simp [hashed]) same)
  | node l r ihl ihr =>
    cases t' with
    | leaf s => exact .inr (collisionFree _ (by simp [hashed]) s (by simp [hashed]) same).symm
    | node l' r' =>
      have strings := collisionFree (pair (root H pair l) (root H pair r)) (by simp [hashed])
        (pair (root H pair l') (root H pair r')) (by simp [hashed]) same
      obtain ⟨left,right⟩ := spelled _ _ _ _ strings
      have inLeft := @ihl l' (fun x hx y hy => collisionFree x (by simp [hashed,hx]) y (by simp [hashed,hy])) left
      have inRight := @ihr r' (fun x hx y hy => collisionFree x (by simp [hashed,hx]) y (by simp [hashed,hy])) right
      rcases inLeft with rfl | inLeft
      · rcases inRight with rfl | inRight
        · exact .inl rfl
        · exact .inr (.inr ⟨rfl,inRight⟩)
      · exact .inr (.inl ⟨inLeft,inRight.symm⟩)

theorem root_identifies_iff (spelled : ∀ a b c d, pair a b = pair c d → a = c ∧ b = d) {t t' : Tree S}
    (collisionFree : ∀ x ∈ hashed H pair t, ∀ y ∈ hashed H pair t', H x = H y → x = y) :
    (root H pair t = root H pair t' ↔ t = t') ↔ ¬ Spells H pair t t' := by
  constructor
  · intro identifies spells
    have same := identifies.mp (spells_root H pair spells)
    subst same
    exact spells_irrefl H pair t spells
  · intro apart
    constructor
    · intro same
      exact (eq_or_spells spelled collisionFree same).resolve_right apart
    · exact congrArg _

end
end HashTree
