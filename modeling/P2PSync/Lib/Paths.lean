import Mathlib

-- Paths taken by their text alone, without looking at any directory.
namespace Paths
variable {ν : Type}

inductive Move (ν : Type) where
  | stay
  | up
  | down (name : ν)

-- The normal form of a path: from the root or from wherever one stands, so many
-- levels up, then down by names. Nothing is above the root.
structure Place (ν : Type) where
  rooted : Bool
  ups : ℕ
  names : List ν
  grounded : rooted = true → ups = 0

namespace Place

def root : Place ν := ⟨true,0,[],fun _ => rfl⟩

def here : Place ν := ⟨false,0,[],nofun⟩

def enter (p : Place ν) (names : List ν) : Place ν := ⟨p.rooted,p.ups,p.names ++ names,p.grounded⟩

def rise (p : Place ν) : Place ν :=
  match p with
  | ⟨true,ups,names,grounded⟩ => ⟨true,ups,names.dropLast,grounded⟩
  | ⟨false,ups,[],_⟩ => ⟨false,ups+1,[],nofun⟩
  | ⟨false,ups,name :: names,grounded⟩ => ⟨false,ups,(name :: names).dropLast,grounded⟩

def go (p : Place ν) : Move ν → Place ν
  | .stay => p
  | .up => p.rise
  | .down name => p.enter [name]

def walk (p : Place ν) (moves : List (Move ν)) : Place ν := moves.foldl go p

def climb (p : Place ν) : ℕ → Place ν
  | 0 => p
  | n+1 => (p.climb n).rise

def Under (dir p : Place ν) : Prop := p.rooted = dir.rooted ∧ p.ups = dir.ups ∧ dir.names <+: p.names

theorem enter_nil (p : Place ν) : p.enter [] = p := by simp [enter]

theorem enter_append (p : Place ν) (front back : List ν) : p.enter (front ++ back) = (p.enter front).enter back := by
  simp [enter]

theorem rise_rooted (p : Place ν) : p.rise.rooted = p.rooted := by
  unfold rise
  split <;> rfl

theorem rise_names (p : Place ν) : p.rise.names = p.names.dropLast := by
  unfold rise
  split <;> rfl

theorem rise_ups (p : Place ν) : p.rise.ups = if p.rooted = false ∧ p.names = [] then p.ups + 1 else p.ups := by
  unfold rise
  split <;> simp

theorem ext {p q : Place ν} (rooted : p.rooted = q.rooted) (ups : p.ups = q.ups) (names : p.names = q.names) : p = q := by
  obtain ⟨_,_,_,_⟩ := p
  obtain ⟨_,_,_,_⟩ := q
  simp_all

instance [DecidableEq ν] : DecidableEq (Place ν) := fun p q =>
  decidable_of_iff (p.rooted = q.rooted ∧ p.ups = q.ups ∧ p.names = q.names)
    ⟨fun same => ext same.1 same.2.1 same.2.2,fun same => same ▸ ⟨rfl,rfl,rfl⟩⟩

-- Going up undoes the last step down.
theorem rise_enter (p : Place ν) {names : List ν} (some : names ≠ []) : (p.enter names).rise = p.enter names.dropLast := by
  apply ext
  · rw [rise_rooted]
    rfl
  · rw [rise_ups,if_neg]
    · rfl
    · rintro ⟨_,nothing⟩
      exact some (List.append_eq_nil_iff.mp nothing).2
  · rw [rise_names]
    exact List.dropLast_append_of_ne_nil some

theorem walk_rooted (p : Place ν) (moves : List (Move ν)) : (p.walk moves).rooted = p.rooted := by
  induction moves using List.reverseRecOn with
  | nil => rfl
  | append_singleton moves move ih =>
    rw [walk,List.foldl_append]
    cases move with
    | stay => exact ih
    | up => exact (rise_rooted _).trans ih
    | down name => exact ih

-- A path leads from any place to where its normal form leads.
theorem walk_normal (p : Place ν) (moves : List (Move ν)) :
    p.walk moves = (p.climb (here.walk moves).ups).enter (here.walk moves).names := by
  induction moves using List.reverseRecOn with
  | nil => exact (enter_nil p).symm
  | append_singleton moves move ih =>
    have both : ∀ q : Place ν, q.walk (moves ++ [move]) = (q.walk moves).go move := by
      intro q
      rw [walk,List.foldl_append]
      rfl
    have free : (here.walk moves).rooted = false := walk_rooted here moves
    rw [both p,both here,ih]
    generalize here.walk moves = q at free ⊢
    cases move with
    | stay => rfl
    | down name => exact (enter_append _ q.names [name]).symm
    | up =>
      change ((p.climb q.ups).enter q.names).rise = (p.climb q.rise.ups).enter q.rise.names
      rw [rise_ups,rise_names]
      by_cases bottom : q.names = []
      · rw [if_pos ⟨free,bottom⟩,bottom,enter_nil]
        exact (enter_nil _).symm
      · rw [if_neg (fun both => bottom both.2),rise_enter _ bottom]

theorem climb_rooted (p : Place ν) (k : ℕ) : (p.climb k).rooted = p.rooted := by
  induction k with
  | zero => rfl
  | succ k ih => exact (rise_rooted _).trans ih

theorem climb_names (p : Place ν) (k : ℕ) : (p.climb k).names = p.names.take (p.names.length - k) := by
  induction k with
  | zero => exact (List.take_length).symm
  | succ k ih =>
    rw [climb,rise_names,ih,List.dropLast_eq_take,List.take_take,List.length_take]
    congr 1
    omega

theorem climb_ups (p : Place ν) (k : ℕ) : (p.climb k).ups = if p.rooted then p.ups else p.ups + (k - p.names.length) := by
  induction k with
  | zero => simp [climb]
  | succ k ih =>
    rw [climb,rise_ups,climb_rooted,climb_names,ih]
    cases free : p.rooted with
    | true => simp
    | false =>
      by_cases above : p.names.length ≤ k
      · have none : p.names.length - k = 0 := by omega
        rw [none,List.take_zero,if_pos ⟨rfl,rfl⟩]
        simp only [Bool.false_eq_true,if_false]
        omega
      · rw [if_neg]
        · simp only [Bool.false_eq_true,if_false]
          omega
        · rintro ⟨_,nothing⟩
          have length := congrArg List.length nothing
          rw [List.length_take,List.length_nil] at length
          omega

-- A path from a directory stays under it exactly where it comes down again by the
-- names it went up, if it went up at all.
theorem under_walk (p : Place ν) (moves : List (Move ν)) : Under p (p.walk moves) ↔
    ((here.walk moves).ups ≤ p.names.length ∨ p.rooted = true) ∧
      p.names.drop (p.names.length - (here.walk moves).ups) <+: (here.walk moves).names := by
  rw [walk_normal]
  generalize here.walk moves = q
  have names : p.names <+: (p.climb q.ups).names ++ q.names ↔ p.names.drop (p.names.length - q.ups) <+: q.names := by
    rw [climb_names]
    conv_lhs =>
      lhs
      rw [← List.take_append_drop (p.names.length - q.ups) p.names]
    exact List.prefix_append_right_inj _
  have ups : (p.climb q.ups).ups = p.ups ↔ q.ups ≤ p.names.length ∨ p.rooted = true := by
    rw [climb_ups]
    cases p.rooted with
    | true => simp
    | false =>
      simp only [Bool.false_eq_true,if_false,or_false]
      omega
  have same : (p.climb q.ups).rooted = p.rooted := climb_rooted p q.ups
  rw [← ups,← names]
  exact and_iff_right same

-- An absolute path is under an absolute directory only.
theorem under_root (p : Place ν) (moves : List (Move ν)) : Under p (root.walk moves) ↔
    p.rooted = true ∧ p.names <+: (root.walk moves).names := by
  have rooted : (root.walk moves).rooted = true := walk_rooted root moves
  have ground := (root.walk moves).grounded rooted
  rw [Under,rooted,ground]
  constructor
  · rintro ⟨same,_,names⟩
    exact ⟨same.symm,names⟩
  · rintro ⟨same,names⟩
    exact ⟨same.symm,(p.grounded same).symm,names⟩

end Place
end Paths
