import Mathlib

-- Handles that are open, and who owns them.
namespace Handles
variable {ι η : Type} [DecidableEq ι] [DecidableEq η] {opened : Finset η} {owner : ι → Option η}

structure Owned (opened : Finset η) (owner : ι → Option η) : Prop where
  live : ∀ x h, owner x = some h → h ∈ opened
  alone : ∀ x y h, owner x = some h → owner y = some h → x = y
  kept : ∀ h ∈ opened, ∃ x, owner x = some h

omit [DecidableEq ι] [DecidableEq η] in
theorem owned_nothing : Owned (∅ : Finset η) (fun _ : ι => none) := ⟨nofun,nofun,nofun⟩

theorem Owned.acquire (owned : Owned opened owner) (idle : owner x = none) (fresh : h ∉ opened) :
    Owned (insert h opened) (Function.update owner x (some h)) := by
  refine ⟨?_,?_,?_⟩
  · intro y g held
    by_cases same : y = x
    · subst same
      rw [Function.update_self] at held
      exact Option.some.inj held ▸ Finset.mem_insert_self h opened
    · rw [Function.update_of_ne same] at held
      exact Finset.mem_insert_of_mem (owned.live y g held)
  · have apart : ∀ y, y ≠ x → owner y ≠ some h := fun y _ held => fresh (owned.live y h held)
    intro y z g first second
    by_cases left : y = x <;> by_cases right : z = x
    · exact left.trans right.symm
    · subst left
      rw [Function.update_self] at first
      rw [Function.update_of_ne right,← first] at second
      exact absurd second (apart z right)
    · subst right
      rw [Function.update_self] at second
      rw [Function.update_of_ne left,← second] at first
      exact absurd first (apart y left)
    · rw [Function.update_of_ne left] at first
      rw [Function.update_of_ne right] at second
      exact owned.alone y z g first second
  · intro g member
    rcases Finset.mem_insert.mp member with rfl | before
    · exact ⟨x,Function.update_self ..⟩
    · obtain ⟨y,held⟩ := owned.kept g before
      refine ⟨y,?_⟩
      rw [Function.update_of_ne]
      · exact held
      · rintro rfl
        rw [idle] at held
        cases held

theorem Owned.release (owned : Owned opened owner) (held : owner x = some h) :
    Owned (opened.erase h) (Function.update owner x none) := by
  have others : ∀ y g, Function.update owner x none y = some g → y ≠ x ∧ owner y = some g := by
    intro y g found
    by_cases same : y = x
    · rw [same,Function.update_self] at found
      cases found
    · rw [Function.update_of_ne same] at found
      exact ⟨same,found⟩
  refine ⟨?_,?_,?_⟩
  · intro y g found
    obtain ⟨other,still⟩ := others y g found
    refine Finset.mem_erase.mpr ⟨?_,owned.live y g still⟩
    rintro rfl
    exact other (owned.alone y x g still held)
  · intro y z g first second
    exact owned.alone y z g (others y g first).2 (others z g second).2
  · intro g member
    obtain ⟨differs,before⟩ := Finset.mem_erase.mp member
    obtain ⟨y,found⟩ := owned.kept g before
    refine ⟨y,?_⟩
    rw [Function.update_of_ne]
    · exact found
    · rintro rfl
      rw [held] at found
      exact differs (Option.some.inj found).symm

omit [DecidableEq η] in
theorem Owned.transfer (owned : Owned opened owner) (idle : owner x = none) (apart : x ≠ y) :
    Owned opened (Function.update (Function.update owner x (owner y)) y none) := by
  -- z has what y had if it is x, and else what it had itself.
  have origin : ∀ z g, Function.update (Function.update owner x (owner y)) y none z = some g →
      z ≠ y ∧ owner (if z = x then y else z) = some g := by
    intro z g found
    by_cases emptied : z = y
    · rw [emptied,Function.update_self] at found
      cases found
    · rw [Function.update_of_ne emptied] at found
      by_cases filled : z = x
      · rw [filled,Function.update_self] at found
        exact ⟨emptied,by rw [if_pos filled]; exact found⟩
      · rw [Function.update_of_ne filled] at found
        exact ⟨emptied,by rw [if_neg filled]; exact found⟩
  refine ⟨?_,?_,?_⟩
  · intro z g found
    exact owned.live _ g (origin z g found).2
  · intro z w g first second
    obtain ⟨leftApart,left⟩ := origin z g first
    obtain ⟨rightApart,right⟩ := origin w g second
    have same := owned.alone _ _ g left right
    split at same <;> split at same
    · rename_i one two
      exact one.trans two.symm
    · exact absurd same.symm rightApart
    · exact absurd same leftApart
    · exact same
  · intro g member
    obtain ⟨z,found⟩ := owned.kept g member
    by_cases moved : z = y
    · refine ⟨x,?_⟩
      rw [Function.update_of_ne apart,Function.update_self,← moved]
      exact found
    · refine ⟨z,?_⟩
      rw [Function.update_of_ne moved,Function.update_of_ne]
      · exact found
      · rintro rfl
        rw [idle] at found
        cases found

end Handles
