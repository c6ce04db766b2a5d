import Mathlib

-- Folding a step over the consecutive full blocks of a list. What is left over
-- is shorter than a block and is handed back, so a stream can be continued.
namespace Blocks
variable {α σ : Type} {n : ℕ} [NeZero n]

def fold (n : ℕ) [NeZero n] (f : σ → List α → σ) (s : σ) (xs : List α) : σ × List α :=
  if n ≤ xs.length then fold n f (f s (xs.take n)) (xs.drop n) else (s,xs)
termination_by xs.length
decreasing_by
  have positive := Nat.pos_of_ne_zero (NeZero.ne n)
  simp only [List.length_drop]
  omega

theorem fold_short (f : σ → List α → σ) (s : σ) {xs : List α} (short : xs.length < n) :
    fold n f s xs = (s,xs) := by
  rw [fold,if_neg (by omega)]

theorem fold_block (f : σ → List α → σ) (s : σ) {block : List α} (full : block.length = n) (xs : List α) :
    fold n f s (block ++ xs) = fold n f (f s block) xs := by
  rw [fold,if_pos (by simp [full]),List.take_left' full,List.drop_left' full]

theorem fold_one (f : σ → List α → σ) (s : σ) {block : List α} (full : block.length = n) :
    fold n f s block = (f s block,[]) := by
  have whole := fold_block f s full []
  rw [List.append_nil] at whole
  rw [whole,fold_short f _ (by simpa using Nat.pos_of_ne_zero (NeZero.ne n))]

theorem fold_rest_length (f : σ → List α → σ) (s : σ) (xs : List α) :
    (fold n f s xs).2.length = xs.length % n := by
  fun_induction fold n f s xs with
  | case1 s xs enough ih =>
    rw [ih,List.length_drop]
    exact (Nat.mod_eq_sub_mod enough).symm
  | case2 s xs short => exact (Nat.mod_eq_of_lt (Nat.lt_of_not_le short)).symm

-- Cutting the input anywhere does not matter: the left-over of the first part
-- is the start of the second.
theorem fold_append (f : σ → List α → σ) (s : σ) (xs ys : List α) :
    fold n f s (xs ++ ys) = fold n f (fold n f s xs).1 ((fold n f s xs).2 ++ ys) := by
  fun_induction fold n f s xs with
  | case1 s xs enough ih =>
    have cut : xs ++ ys = xs.take n ++ (xs.drop n ++ ys) := by
      rw [← List.append_assoc,List.take_append_drop]
    rw [cut,fold_block f s (by simpa using enough),ih]
  | case2 s xs short => rfl

-- The states and blocks that the step is called on.
def calls (n : ℕ) [NeZero n] (f : σ → List α → σ) (s : σ) (xs : List α) : List (σ × List α) :=
  if n ≤ xs.length then (s,xs.take n) :: calls n f (f s (xs.take n)) (xs.drop n) else []
termination_by xs.length
decreasing_by
  have positive := Nat.pos_of_ne_zero (NeZero.ne n)
  simp only [List.length_drop]
  omega

theorem calls_short (f : σ → List α → σ) (s : σ) {xs : List α} (short : xs.length < n) : calls n f s xs = [] := by
  rw [calls,if_neg (by omega)]

theorem calls_block (f : σ → List α → σ) (s : σ) {block : List α} (full : block.length = n) (xs : List α) :
    calls n f s (block ++ xs) = (s,block) :: calls n f (f s block) xs := by
  rw [calls,if_pos (by simp [full]),List.take_left' full,List.drop_left' full]

theorem calls_one (f : σ → List α → σ) (s : σ) {block : List α} (full : block.length = n) : calls n f s block = [(s,block)] := by
  have whole := calls_block f s full []
  rw [List.append_nil] at whole
  rw [whole,calls_short f _ (by simpa using Nat.pos_of_ne_zero (NeZero.ne n))]

theorem calls_append (f : σ → List α → σ) (s : σ) (xs ys : List α) :
    calls n f s (xs ++ ys) = calls n f s xs ++ calls n f (fold n f s xs).1 ((fold n f s xs).2 ++ ys) := by
  fun_induction fold n f s xs with
  | case1 s xs enough ih =>
    have full : (xs.take n).length = n := by simpa using enough
    have cut : xs ++ ys = xs.take n ++ (xs.drop n ++ ys) := by
      rw [← List.append_assoc,List.take_append_drop]
    have here := calls_block f s full (xs.drop n)
    rw [List.take_append_drop] at here
    rw [cut,calls_block f s full,ih,here]
    rfl
  | case2 s xs short =>
    rw [calls_short f s (Nat.lt_of_not_le short)]
    rfl

-- The blocks of a list by their positions.
def full (n : ℕ) (xs : List α) : List (List α) := (List.range (xs.length / n)).map (fun i => (xs.drop (n * i)).take n)

omit [NeZero n] in
theorem full_short {xs : List α} (short : xs.length < n) : full n xs = [] := by
  rw [full,Nat.div_eq_of_lt short]
  rfl

theorem full_block {block : List α} (whole : block.length = n) (xs : List α) : full n (block ++ xs) = block :: full n xs := by
  have positive := Nat.pos_of_ne_zero (NeZero.ne n)
  have count : (block ++ xs).length / n = xs.length / n + 1 := by
    rw [List.length_append,whole,Nat.add_div_left _ positive]
  have later : ∀ i, (block ++ xs).drop (n * (i + 1)) = xs.drop (n * i) := by
    intro i
    rw [Nat.mul_succ,Nat.add_comm,← List.drop_drop,List.drop_left' whole]
  rw [full,count,List.range_succ_eq_map,List.map_cons,List.map_map,Nat.mul_zero,List.drop_zero,List.take_left' whole]
  congr 1
  apply List.map_congr_left
  intro i _
  exact congrArg (List.take n) (later i)

theorem full_cons {xs : List α} (enough : n ≤ xs.length) : full n xs = xs.take n :: full n (xs.drop n) := by
  have here := full_block (by simpa using enough : (xs.take n).length = n) (xs.drop n)
  rwa [List.take_append_drop] at here

theorem calls_full (f : σ → List α → σ) (s : σ) (xs : List α) : (calls n f s xs).map Prod.snd = full n xs := by
  fun_induction calls n f s xs with
  | case1 s xs enough ih => rw [List.map_cons,ih,full_cons enough]
  | case2 s xs short => exact (full_short (Nat.lt_of_not_le short)).symm

theorem fold_full (f : σ → List α → σ) (s : σ) (xs : List α) : (fold n f s xs).1 = (full n xs).foldl f s := by
  fun_induction fold n f s xs with
  | case1 s xs enough ih => rw [ih,full_cons enough,List.foldl_cons]
  | case2 s xs short =>
    rw [full_short (Nat.lt_of_not_le short)]
    rfl

theorem fold_rest (f : σ → List α → σ) (s : σ) (xs : List α) : (fold n f s xs).2 = xs.drop (n * (xs.length / n)) := by
  fun_induction fold n f s xs with
  | case1 s xs enough ih =>
    have positive := Nat.pos_of_ne_zero (NeZero.ne n)
    have count : xs.length / n = (xs.length - n) / n + 1 := Nat.div_eq_sub_div positive enough
    rw [ih,List.drop_drop,List.length_drop,count,Nat.mul_succ,Nat.add_comm]
  | case2 s xs short => rw [Nat.div_eq_of_lt (Nat.lt_of_not_le short),Nat.mul_zero,List.drop_zero]

theorem calls_length (f : σ → List α → σ) (s : σ) (xs : List α) : ∀ call ∈ calls n f s xs, call.2.length = n := by
  fun_induction calls n f s xs with
  | case1 s xs enough ih =>
    rw [List.forall_mem_cons]
    exact ⟨by simpa using enough,ih⟩
  | case2 s xs short => exact fun call member => absurd member List.not_mem_nil

-- Two lists of one length that fold to the same, from the same or other states, are
-- the same, or the step takes two different pairs of a state and a block to one state.
theorem fold_collision {f : σ → List α → σ} (same : fold n f s xs = fold n f t ys) (even : xs.length = ys.length) :
    (s = t ∧ xs = ys) ∨ ∃ p ∈ calls n f s xs, ∃ q ∈ calls n f t ys, p ≠ q ∧ f p.1 p.2 = f q.1 q.2 := by
  fun_induction fold n f s xs generalizing t ys with
  | case1 s xs enough ih =>
    have other : n ≤ ys.length := by omega
    rw [fold.eq_def n f t ys,if_pos other] at same
    rw [calls.eq_def n f s xs,if_pos enough,calls.eq_def n f t ys,if_pos other]
    rcases ih same (by rw [List.length_drop,List.length_drop,even]) with ⟨state,rest⟩ | ⟨p,inP,q,inQ,found⟩
    · by_cases pair : (s,xs.take n) = (t,ys.take n)
      · obtain ⟨rfl,front⟩ := Prod.mk.inj pair
        left
        rw [← List.take_append_drop n xs,← List.take_append_drop n ys,front,rest]
        exact ⟨rfl,rfl⟩
      · exact .inr ⟨_,List.mem_cons_self,_,List.mem_cons_self,pair,state⟩
    · exact .inr ⟨p,List.mem_cons_of_mem _ inP,q,List.mem_cons_of_mem _ inQ,found⟩
  | case2 s xs short =>
    rw [fold.eq_def n f t ys,if_neg (by omega)] at same
    obtain ⟨rfl,rfl⟩ := Prod.mk.inj same
    exact .inl ⟨rfl,rfl⟩

end Blocks
