import Mathlib

-- Finite maps with a total key order, kept as the list of their pairs in key
-- order. The representation is canonical, so maps with equal lookups are equal
-- and walking a map is walking one list.
structure OrdMap (κ ν : Type) [LinearOrder κ] where
  pairs : List (κ × ν)
  sorted : pairs.Pairwise (fun a b => a.1 < b.1)

namespace OrdMap
variable {κ ν : Type} [LinearOrder κ]

instance [DecidableEq ν] : DecidableEq (OrdMap κ ν) := fun a b =>
  match a,b with
  | ⟨xs,_⟩,⟨ys,_⟩ => decidable_of_iff (xs = ys) (by simp)

def empty : OrdMap κ ν := ⟨[],.nil⟩

def findIn (k : κ) : List (κ × ν) → Option ν
  | [] => none
  | (key,v) :: rest => if key = k then some v else findIn k rest

def insertIn (k : κ) (v : ν) : List (κ × ν) → List (κ × ν)
  | [] => [(k,v)]
  | (key,old) :: rest =>
    if k < key then (k,v) :: (key,old) :: rest
    else if key = k then (k,v) :: rest
    else (key,old) :: insertIn k v rest

theorem mem_insertIn {k : κ} {pairs : List (κ × ν)} (member : x ∈ insertIn k v pairs) :
    x = (k,v) ∨ x ∈ pairs := by
  induction pairs with
  | nil => simpa [insertIn] using member
  | cons head rest ih =>
    obtain ⟨key,old⟩ := head
    unfold insertIn at member
    split at member
    · simpa using member
    · split at member
      · rcases List.mem_cons.mp member with rfl | later
        · exact .inl rfl
        · exact .inr (List.mem_cons_of_mem _ later)
      · rcases List.mem_cons.mp member with rfl | later
        · exact .inr List.mem_cons_self
        · exact (ih later).imp id (List.mem_cons_of_mem _)

theorem insertIn_sorted (k : κ) (v : ν) {pairs : List (κ × ν)}
    (sorted : pairs.Pairwise (fun a b => a.1 < b.1)) :
    (insertIn k v pairs).Pairwise (fun a b => a.1 < b.1) := by
  induction pairs with
  | nil => simp [insertIn]
  | cons head rest ih =>
    obtain ⟨key,old⟩ := head
    obtain ⟨first,tail⟩ := List.pairwise_cons.mp sorted
    unfold insertIn
    split
    · rename_i less
      refine List.pairwise_cons.mpr ⟨?_,sorted⟩
      intro x member
      rcases List.mem_cons.mp member with rfl | later
      · exact less
      · exact less.trans (first x later)
    · split
      · rename_i same
        subst same
        exact List.pairwise_cons.mpr ⟨first,tail⟩
      · rename_i notLess differs
        refine List.pairwise_cons.mpr ⟨?_,ih tail⟩
        intro x member
        rcases mem_insertIn member with rfl | later
        · exact lt_of_le_of_ne (not_lt.mp notLess) differs
        · exact first x later

def find (m : OrdMap κ ν) (k : κ) : Option ν := findIn k m.pairs

def insert (m : OrdMap κ ν) (k : κ) (v : ν) : OrdMap κ ν :=
  ⟨insertIn k v m.pairs,insertIn_sorted k v m.sorted⟩

def contains (m : OrdMap κ ν) (k : κ) : Bool := (m.find k).isSome

def keys (m : OrdMap κ ν) : List κ := m.pairs.map Prod.fst

def values (m : OrdMap κ ν) : List ν := m.pairs.map Prod.snd

theorem findIn_insertIn (k key : κ) (v : ν) (pairs : List (κ × ν)) :
    findIn key (insertIn k v pairs) = if k = key then some v else findIn key pairs := by
  induction pairs with
  | nil => simp [insertIn,findIn]
  | cons head rest ih =>
    obtain ⟨other,old⟩ := head
    unfold insertIn
    split
    · rfl
    · split
      · rename_i same
        subst same
        by_cases equal : other = key <;> simp [findIn,equal]
      · rename_i differs
        by_cases equal : other = key
        · subst equal
          simp [findIn,Ne.symm differs]
        · simp [findIn,equal,ih]

@[simp] theorem find_empty (k : κ) : (empty : OrdMap κ ν).find k = none := rfl

@[simp] theorem find_insert (m : OrdMap κ ν) (k key : κ) (v : ν) [Decidable (k = key)] :
    (m.insert k v).find key = if k = key then some v else m.find key := by
  rw [insert,find,findIn_insertIn]
  by_cases same : k = key <;> simp [same,find]

theorem findIn_of_mem {pairs : List (κ × ν)} (sorted : pairs.Pairwise (fun a b => a.1 < b.1))
    (member : (k,v) ∈ pairs) : findIn k pairs = some v := by
  induction pairs with
  | nil => cases member
  | cons head rest ih =>
    obtain ⟨key,old⟩ := head
    obtain ⟨first,tail⟩ := List.pairwise_cons.mp sorted
    rcases List.mem_cons.mp member with same | later
    · cases same
      simp [findIn]
    · have less : key < k := first _ later
      simp [findIn,less.ne,ih tail later]

theorem mem_of_findIn {pairs : List (κ × ν)} (found : findIn k pairs = some v) : (k,v) ∈ pairs := by
  induction pairs with
  | nil => cases found
  | cons head rest ih =>
    obtain ⟨key,old⟩ := head
    unfold findIn at found
    split at found
    · rename_i same
      cases found
      subst same
      exact List.mem_cons_self
    · exact List.mem_cons_of_mem _ (ih found)

theorem mem_pairs {m : OrdMap κ ν} : (k,v) ∈ m.pairs ↔ m.find k = some v :=
  ⟨findIn_of_mem m.sorted,mem_of_findIn⟩

theorem mem_values {m : OrdMap κ ν} : v ∈ m.values ↔ ∃ k, m.find k = some v := by
  constructor
  · intro member
    obtain ⟨⟨k,w⟩,inside,rfl⟩ := List.mem_map.mp member
    exact ⟨k,mem_pairs.mp inside⟩
  · rintro ⟨k,found⟩
    exact List.mem_map.mpr ⟨(k,v),mem_pairs.mpr found,rfl⟩

theorem mem_keys {m : OrdMap κ ν} : k ∈ m.keys ↔ ∃ v, m.find k = some v := by
  constructor
  · intro member
    obtain ⟨⟨key,v⟩,inside,rfl⟩ := List.mem_map.mp member
    exact ⟨v,mem_pairs.mp inside⟩
  · rintro ⟨v,found⟩
    exact List.mem_map.mpr ⟨(k,v),mem_pairs.mpr found,rfl⟩

theorem mem_keys_insert {m : OrdMap κ ν} : key ∈ (m.insert k v).keys ↔ key = k ∨ key ∈ m.keys := by
  rw [mem_keys,mem_keys,find_insert]
  by_cases same : k = key
  · simp [same]
  · simp [same,Ne.symm same]

theorem findIn_absent {pairs : List (κ × ν)} (absent : k ∉ pairs.map Prod.fst) : findIn k pairs = none := by
  cases found : findIn k pairs with
  | none => rfl
  | some v => exact absurd (List.mem_map.mpr ⟨_,mem_of_findIn found,rfl⟩) absent

theorem findIn_below {pairs : List (κ × ν)} (below : ∀ a ∈ pairs, k < a.1) : findIn k pairs = none := by
  apply findIn_absent
  intro member
  obtain ⟨pair,inside,rfl⟩ := List.mem_map.mp member
  exact lt_irrefl _ (below pair inside)

theorem below_cons {k : κ} {head : κ × ν} {rest : List (κ × ν)} (less : k < head.1)
    (first : ∀ a ∈ rest, head.1 < a.1) : ∀ a ∈ head :: rest, k < a.1 := by
  intro a member
  rcases List.mem_cons.mp member with rfl | later
  · exact less
  · exact less.trans (first a later)

-- Two sorted lists with related lookups are related position by position: the
-- heads are the least keys of either side, so neither can be the smaller one.
theorem forall₂_of_find {R : ν → μ → Prop} {m : OrdMap κ ν} {w : OrdMap κ μ}
    (related : ∀ k, Option.Rel R (m.find k) (w.find k)) :
    List.Forall₂ (fun a b => a.1 = b.1 ∧ R a.2 b.2) m.pairs w.pairs := by
  obtain ⟨xs,sortedXs⟩ := m
  obtain ⟨ys,sortedYs⟩ := w
  change ∀ k, Option.Rel R (findIn k xs) (findIn k ys) at related
  change List.Forall₂ _ xs ys
  induction xs generalizing ys with
  | nil =>
    cases ys with
    | nil => exact .nil
    | cons head rest =>
      have wrong := related head.1
      simp [findIn] at wrong
  | cons x xs ih =>
    cases ys with
    | nil =>
      have wrong := related x.1
      simp [findIn] at wrong
    | cons y ys =>
      obtain ⟨firstX,tailX⟩ := List.pairwise_cons.mp sortedXs
      obtain ⟨firstY,tailY⟩ := List.pairwise_cons.mp sortedYs
      have same : x.1 = y.1 := by
        rcases lt_trichotomy x.1 y.1 with less | same | more
        · have wrong := related x.1
          rw [findIn_below (below_cons less firstY)] at wrong
          simp [findIn] at wrong
        · exact same
        · have wrong := related y.1
          rw [findIn_below (below_cons more firstX)] at wrong
          simp [findIn] at wrong
      refine .cons ⟨same,?_⟩ (ih tailX ys tailY ?_)
      · have heads := related x.1
        simpa [findIn,same] using heads
      · intro k
        have pointwise := related k
        by_cases equal : x.1 = k
        · subst equal
          rw [findIn_below firstX,findIn_below (by rw [same]; exact firstY)]
          exact .none
        · have equal' : y.1 ≠ k := by rwa [← same]
          simpa [findIn,equal,equal'] using pointwise

theorem ext {m w : OrdMap κ ν} (same : ∀ k, m.find k = w.find k) : m = w := by
  have related : ∀ k, Option.Rel (· = ·) (m.find k) (w.find k) := by
    intro k
    rw [same k]
    cases w.find k with
    | none => exact .none
    | some v => exact .some rfl
  have pairs := forall₂_of_find related
  obtain ⟨xs,_⟩ := m
  obtain ⟨ys,_⟩ := w
  simp only [mk.injEq]
  change List.Forall₂ _ xs ys at pairs
  rw [← List.forall₂_eq_eq_eq]
  exact pairs.imp (fun a b equal => Prod.ext equal.1 equal.2)

theorem find_of_forall₂ {R : ν → μ → Prop} {m : OrdMap κ ν} {w : OrdMap κ μ}
    (related : List.Forall₂ (fun a b => a.1 = b.1 ∧ R a.2 b.2) m.pairs w.pairs) (k : κ) :
    Option.Rel R (m.find k) (w.find k) := by
  obtain ⟨xs,sortedXs⟩ := m
  obtain ⟨ys,sortedYs⟩ := w
  change List.Forall₂ _ xs ys at related
  change Option.Rel R (findIn k xs) (findIn k ys)
  clear sortedXs sortedYs
  induction related with
  | nil => exact .none
  | @cons a b _ _ heads _ ih =>
    by_cases equal : a.1 = k
    · simpa [findIn,equal,← heads.1] using Option.Rel.some heads.2
    · simpa [findIn,equal,← heads.1] using ih

-- Reading the pairs of a map back in their order rebuilds the map.
theorem foldl_insert_find (pairs : List (κ × ν)) (m : OrdMap κ ν) (k : κ)
    (nodup : (pairs.map Prod.fst).Nodup) :
    (pairs.foldl (fun acc pair => acc.insert pair.1 pair.2) m).find k =
      ((findIn k pairs).orElse fun _ => m.find k) := by
  induction pairs generalizing m with
  | nil => simp [findIn]
  | cons head rest ih =>
    obtain ⟨key,v⟩ := head
    simp only [List.map_cons,List.nodup_cons] at nodup
    rw [List.foldl_cons,ih _ nodup.2,find_insert]
    by_cases equal : key = k
    · subst equal
      simp [findIn,findIn_absent nodup.1]
    · simp [findIn,equal]

theorem keys_nodup (m : OrdMap κ ν) : m.keys.Nodup := by
  have apart : m.pairs.Pairwise (fun a b => a.1 ≠ b.1) := m.sorted.imp (fun less => less.ne)
  simpa [keys,List.Nodup,List.pairwise_map] using apart

theorem foldl_insert_pairs (m : OrdMap κ ν) :
    m.pairs.foldl (fun acc pair => acc.insert pair.1 pair.2) empty = m := by
  apply ext
  intro k
  rw [foldl_insert_find _ _ _ m.keys_nodup]
  simp [find,empty,findIn]

end OrdMap
