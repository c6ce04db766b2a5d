import Mathlib

-- News that travels in calls between two parties: after a call both know what
-- either of them knew.
namespace Gossip
variable {ι α β : Type} [DecidableEq ι]

def call [Max α] (known : ι → α) (pair : ι × ι) : ι → α :=
  fun k => if k = pair.1 ∨ k = pair.2 then known pair.1 ⊔ known pair.2 else known k

def calls [Max α] (known : ι → α) (pairs : List (ι × ι)) : ι → α := pairs.foldl call known

-- The parties whose news has come to k.
def heard (pairs : List (ι × ι)) : ι → Finset ι := calls (fun k => {k}) pairs

@[simp] theorem calls_nil [Max α] (known : ι → α) : calls known [] = known := rfl

theorem calls_append [Max α] (known : ι → α) (first second : List (ι × ι)) :
    calls known (first ++ second) = calls (calls known first) second := List.foldl_append

theorem call_map [Max α] [Max β] {f : α → β} (joins : ∀ a b, f (a ⊔ b) = f a ⊔ f b) (known : ι → α) (pair : ι × ι) :
    call (fun k => f (known k)) pair = fun k => f (call known pair k) := by
  funext k
  unfold call
  split
  · exact (joins _ _).symm
  · rfl

theorem calls_map [Max α] [Max β] {f : α → β} (joins : ∀ a b, f (a ⊔ b) = f a ⊔ f b) (known : ι → α)
    (pairs : List (ι × ι)) : calls (fun k => f (known k)) pairs = fun k => f (calls known pairs k) := by
  induction pairs generalizing known with
  | nil => rfl
  | cons pair rest ih =>
    change calls (call (fun k => f (known k)) pair) rest = _
    rw [call_map joins,ih]
    rfl

-- What k knows is the join of what the parties knew from which it has heard.
theorem calls_heard [SemilatticeSup α] [OrderBot α] (known : ι → α) (pairs : List (ι × ι)) (k : ι) :
    calls known pairs k = (heard pairs k).sup known := by
  have joins : ∀ s t : Finset ι, (s ⊔ t).sup known = s.sup known ⊔ t.sup known := fun s t => Finset.sup_union
  have single : (fun k => Finset.sup {k} known) = known := funext (fun k => Finset.sup_singleton)
  have mapped := congrFun (calls_map (f := fun s : Finset ι => s.sup known) joins (fun k => {k}) pairs) k
  rw [single] at mapped
  exact mapped

-- The news of one that knows at least as much as everyone else.
theorem calls_top [SemilatticeSup α] [OrderBot α] {known : ι → α} {pairs : List (ι × ι)} (top : ∀ j, known j ≤ known i)
    (reached : i ∈ heard pairs k) : calls known pairs k = known i := by
  rw [calls_heard]
  exact le_antisymm (Finset.sup_le (fun j _ => top j)) (Finset.le_sup reached)

end Gossip
