import Mathlib

-- Two parties that talk in turns over two pipes that lose and reorder nothing.
namespace Dialogue

-- What a party does next. Once the peer is gone a message may be refused, and
-- who listens hears none.
inductive Turn (σ φ : Type) where
  | say (message : φ) (next refused : σ)
  | hear (next : Option φ → σ)
  | gone

structure Machine (σ φ β : Type) where
  turn : σ → Turn σ φ
  encode : φ → List β
  decode : List β → Option (φ × List β)

structure Talk (σ β : Type) where
  one : σ
  two : σ
  toOne : List β
  toTwo : List β

def Talk.swap (t : Talk σ β) : Talk σ β := ⟨t.two,t.one,t.toTwo,t.toOne⟩

def Talk.opening (one two : σ) : Talk σ β := ⟨one,two,[],[]⟩

namespace Machine
variable {σ φ β : Type} (m : Machine σ φ β)

inductive Acts : Talk σ β → Talk σ β → Prop where
  | say (speaks : m.turn one = .say message next refused) :
      Acts ⟨one,two,toOne,toTwo⟩ ⟨next,two,toOne,toTwo ++ m.encode message⟩
  | refused (speaks : m.turn one = .say message next refused) (gone : m.turn two = .gone) :
      Acts ⟨one,two,toOne,toTwo⟩ ⟨refused,two,toOne,toTwo⟩
  | hear (listens : m.turn one = .hear next) (arrived : m.decode toOne = some (message,rest)) :
      Acts ⟨one,two,toOne,toTwo⟩ ⟨next (some message),two,rest,toTwo⟩
  | hangUp (listens : m.turn one = .hear next) (nothing : m.decode toOne = none) (gone : m.turn two = .gone) :
      Acts ⟨one,two,toOne,toTwo⟩ ⟨next none,two,[],toTwo⟩

-- Any of the two moves next: a run is an interleaving.
inductive Moves (t u : Talk σ β) : Prop where
  | one (acts : m.Acts t u)
  | two (acts : m.Acts t.swap u.swap)

def Reaches (start : Talk σ β) : Talk σ β → Prop := Relation.ReflTransGen m.Moves start

def Clear (message : φ) : Prop := ∀ rest, m.decode (m.encode message ++ rest) = some (message,rest)

-- A party that in every round tells the first message, then hears the second, and
-- so comes to its end.
inductive Follows (final : σ) : σ → List (φ × φ) → Prop where
  | done (rests : m.turn final = .gone) : Follows final final []
  | round (speaks : m.turn s = .say told waiting refused) (listens : m.turn waiting = .hear next) (clear : m.Clear hears)
      (later : Follows final (next (some hears)) rounds) : Follows final s ((told,hears) :: rounds)

-- The same party in the middle of a round.
def Waits (final s : σ) (hears : φ) (rounds : List (φ × φ)) : Prop :=
  ∃ next, m.turn s = .hear next ∧ m.Clear hears ∧ m.Follows final (next (some hears)) rounds

variable {m}

theorem Follows.tells (follows : m.Follows final s rounds) (speaks : m.turn s = .say message next refused) :
    ∃ hears rest, rounds = (message,hears) :: rest ∧ m.Waits final next hears rest := by
  cases follows with
  | done rests =>
    rw [rests] at speaks
    cases speaks
  | round told listens clear later =>
    rw [told] at speaks
    cases speaks
    exact ⟨_,_,rfl,_,listens,clear,later⟩

theorem Follows.speaks (follows : m.Follows final s rounds) : m.turn s ≠ .hear next := by
  intro listens
  cases follows with
  | done rests =>
    rw [rests] at listens
    cases listens
  | round told _ _ _ =>
    rw [told] at listens
    cases listens

theorem Follows.finished (follows : m.Follows final s rounds) (rests : m.turn s = .gone) : rounds = [] ∧ s = final := by
  cases follows with
  | done _ => exact ⟨rfl,rfl⟩
  | round told _ _ _ =>
    rw [told] at rests
    cases rests

theorem Waits.quiet (waits : m.Waits final s hears rounds) : m.turn s ≠ .say message next refused := by
  obtain ⟨_,listens,_⟩ := waits
  rw [listens]
  exact nofun

theorem Waits.present (waits : m.Waits final s hears rounds) : m.turn s ≠ .gone := by
  obtain ⟨_,listens,_⟩ := waits
  rw [listens]
  exact nofun

-- A party that waits goes on with the message that comes first.
theorem Waits.goes_on (waits : m.Waits final s hears rounds) (listens : m.turn s = .hear next)
    (arrived : m.decode (m.encode hears ++ behind) = some (message,rest)) :
    rest = behind ∧ m.Follows final (next (some message)) rounds := by
  obtain ⟨_,waiting,clear,later⟩ := waits
  rw [waiting] at listens
  rw [clear behind] at arrived
  cases listens
  cases arrived
  exact ⟨rfl,later⟩

theorem Waits.arrives (waits : m.Waits final s hears rounds) : m.decode (m.encode hears ++ behind) ≠ none := by
  obtain ⟨_,_,clear,_⟩ := waits
  rw [clear behind]
  exact nofun

-- Where two parties that follow the same rounds can be while the second is not
-- ahead of the first, with the number of moves that are left.
inductive Trails (m : Machine σ φ β) (endOne endTwo : σ) : ℕ → Talk σ β → Prop where
  | level (first : m.Follows endOne one rounds) (second : m.Follows endTwo two (rounds.map Prod.swap)) :
      Trails m endOne endTwo (4*rounds.length) ⟨one,two,[],[]⟩
  | spoke (first : m.Waits endOne one hears rounds) (second : m.Follows endTwo two ((hears,told) :: rounds.map Prod.swap)) :
      Trails m endOne endTwo (4*rounds.length+3) ⟨one,two,[],m.encode told⟩
  | crossed (first : m.Waits endOne one hears rounds) (second : m.Waits endTwo two told (rounds.map Prod.swap)) :
      Trails m endOne endTwo (4*rounds.length+2) ⟨one,two,m.encode hears,m.encode told⟩
  | heard (first : m.Follows endOne one rounds) (second : m.Waits endTwo two told (rounds.map Prod.swap)) :
      Trails m endOne endTwo (4*rounds.length+1) ⟨one,two,[],m.encode told⟩
  | ahead (first : m.Waits endOne one hears rounds)
      (second : m.Waits endTwo two before ((hears,told) :: rounds.map Prod.swap)) :
      Trails m endOne endTwo (4*rounds.length+4) ⟨one,two,[],m.encode before ++ m.encode told⟩

def Meets (m : Machine σ φ β) (endOne endTwo : σ) (left : ℕ) (t : Talk σ β) : Prop :=
  m.Trails endOne endTwo left t ∨ m.Trails endTwo endOne left t.swap

theorem Meets.symm (meets : m.Meets endOne endTwo left t) : m.Meets endTwo endOne left t.swap := Or.symm meets

-- The first party, which is not behind, moves.
theorem Trails.leads (silent : m.decode [] = none) (trails : m.Trails endOne endTwo left t) (acts : m.Acts t u) :
    ∃ fewer, left = fewer+1 ∧ m.Meets endOne endTwo fewer u := by
  cases trails with
  | @level one rounds two first second =>
    cases acts with
    | say speaks =>
      obtain ⟨hears,rest,rfl,waits⟩ := first.tells speaks
      exact ⟨_,rfl,.inl (.spoke waits second)⟩
    | refused speaks gone =>
      obtain ⟨hears,rest,rfl,_⟩ := first.tells speaks
      cases (second.finished gone).1
    | hear listens _ => exact absurd listens first.speaks
    | hangUp listens _ _ => exact absurd listens first.speaks
  | spoke first second =>
    cases acts with
    | say speaks => exact absurd speaks first.quiet
    | refused speaks _ => exact absurd speaks first.quiet
    | hear _ arrived =>
      rw [silent] at arrived
      cases arrived
    | hangUp _ _ gone => cases (second.finished gone).1
  | crossed first second =>
    cases acts with
    | say speaks => exact absurd speaks first.quiet
    | refused speaks _ => exact absurd speaks first.quiet
    | hear listens arrived =>
      rw [← List.append_nil (m.encode _)] at arrived
      obtain ⟨rfl,later⟩ := first.goes_on listens arrived
      exact ⟨_,rfl,.inl (.heard later second)⟩
    | hangUp _ nothing _ =>
      rw [← List.append_nil (m.encode _)] at nothing
      exact absurd nothing first.arrives
  | heard first second =>
    cases acts with
    | say speaks =>
      obtain ⟨hears,rest,rfl,waits⟩ := first.tells speaks
      exact ⟨_,rfl,.inl (.ahead waits second)⟩
    | refused _ gone => exact absurd gone second.present
    | hear listens _ => exact absurd listens first.speaks
    | hangUp listens _ _ => exact absurd listens first.speaks
  | ahead first second =>
    cases acts with
    | say speaks => exact absurd speaks first.quiet
    | refused speaks _ => exact absurd speaks first.quiet
    | hear _ arrived =>
      rw [silent] at arrived
      cases arrived
    | hangUp _ _ gone => exact absurd gone second.present

theorem swap_twice (rounds : List (φ × φ)) : (rounds.map Prod.swap).map Prod.swap = rounds := by simp

-- The second party, which is not ahead, moves.
theorem Trails.follows (silent : m.decode [] = none) (trails : m.Trails endOne endTwo left t) (acts : m.Acts t.swap u.swap) :
    ∃ fewer, left = fewer+1 ∧ m.Meets endOne endTwo fewer u := by
  generalize next : u.swap = v at acts
  have back : u = v.swap := by rw [← next]; rfl
  subst back
  cases trails with
  | @level one rounds two first second =>
    have mirrored := Trails.level second ((swap_twice rounds).symm ▸ first)
    rw [List.length_map] at mirrored
    obtain ⟨fewer,less,meets⟩ := mirrored.leads silent acts
    exact ⟨fewer,less,meets.symm⟩
  | @crossed one hears rounds two told first second =>
    have mirrored := Trails.crossed second ((swap_twice rounds).symm ▸ first)
    rw [List.length_map] at mirrored
    obtain ⟨fewer,less,meets⟩ := mirrored.leads silent acts
    exact ⟨fewer,less,meets.symm⟩
  | spoke first second =>
    cases acts with
    | say speaks =>
      obtain ⟨_,_,same,waits⟩ := second.tells speaks
      cases same
      exact ⟨_,rfl,.inl (.crossed first waits)⟩
    | refused _ gone => exact absurd gone first.present
    | hear listens _ => exact absurd listens second.speaks
    | hangUp listens _ _ => exact absurd listens second.speaks
  | heard first second =>
    cases acts with
    | say speaks => exact absurd speaks second.quiet
    | refused speaks _ => exact absurd speaks second.quiet
    | hear listens arrived =>
      rw [← List.append_nil (m.encode _)] at arrived
      obtain ⟨rfl,later⟩ := second.goes_on listens arrived
      exact ⟨_,rfl,.inl (.level first later)⟩
    | hangUp _ nothing _ =>
      rw [← List.append_nil (m.encode _)] at nothing
      exact absurd nothing second.arrives
  | ahead first second =>
    cases acts with
    | say speaks => exact absurd speaks second.quiet
    | refused speaks _ => exact absurd speaks second.quiet
    | hear listens arrived =>
      obtain ⟨rfl,later⟩ := second.goes_on listens arrived
      exact ⟨_,rfl,.inl (.spoke first later)⟩
    | hangUp _ _ gone => exact absurd gone first.present

theorem Meets.step (silent : m.decode [] = none) (meets : m.Meets endOne endTwo left t) (moves : m.Moves t u) :
    ∃ fewer, left = fewer+1 ∧ m.Meets endOne endTwo fewer u := by
  rcases meets with first | second
  · cases moves with
    | one acts => exact first.leads silent acts
    | two acts => exact first.follows silent acts
  · have moved : ∃ fewer, left = fewer+1 ∧ m.Meets endTwo endOne fewer u.swap := by
      cases moves with
      | one acts => exact second.follows silent acts
      | two acts => exact second.leads silent acts
    obtain ⟨fewer,less,meets⟩ := moved
    exact ⟨fewer,less,meets.symm⟩

theorem meets_opening (first : m.Follows endOne one rounds) (second : m.Follows endTwo two (rounds.map Prod.swap)) :
    m.Meets endOne endTwo (4*rounds.length) (.opening one two) := .inl (.level first second)

theorem Meets.reach (silent : m.decode [] = none) (meets : m.Meets endOne endTwo left start) (reaches : m.Reaches start t) :
    ∃ fewer, m.Meets endOne endTwo fewer t := by
  induction reaches with
  | refl => exact ⟨left,meets⟩
  | tail _ moves ih =>
    obtain ⟨_,before⟩ := ih
    obtain ⟨fewer,_,after⟩ := before.step silent moves
    exact ⟨fewer,after⟩

theorem Meets.terminates (silent : m.decode [] = none) (meets : m.Meets endOne endTwo left t) :
    Acc (fun u t => m.Moves t u) t := by
  induction left generalizing t with
  | zero =>
    constructor
    intro u moves
    obtain ⟨_,less,_⟩ := meets.step silent moves
    cases less
  | succ fewer ih =>
    constructor
    intro u moves
    obtain ⟨_,less,after⟩ := meets.step silent moves
    cases less
    exact ih after

-- A party that is over has come to its end.
theorem Meets.ended (meets : m.Meets endOne endTwo left t) (rests : m.turn t.one = .gone) : t.one = endOne := by
  rcases meets with trails | trails
  · cases trails with
    | level first _ => exact (first.finished rests).2
    | spoke first _ => exact absurd rests first.present
    | crossed first _ => exact absurd rests first.present
    | heard first _ => exact (first.finished rests).2
    | ahead first _ => exact absurd rests first.present
  · generalize back : t.swap = v at trails
    have same : t = v.swap := by rw [← back]; rfl
    subst same
    cases trails with
    | level _ second => exact (second.finished rests).2
    | spoke _ second => exact (second.finished rests).2
    | crossed _ second => exact absurd rests second.present
    | heard _ second => exact absurd rests second.present
    | ahead _ second => exact absurd rests second.present

theorem Follows.speaker (follows : m.Follows final s ((told,hears) :: rounds)) :
    ∃ next refused, m.turn s = .say told next refused := by
  cases follows with
  | round speaks _ _ _ => exact ⟨_,_,speaks⟩

theorem Waits.moves (waits : m.Waits final one hears rounds) (two : σ) (behind toTwo : List β) :
    ∃ u, m.Acts ⟨one,two,m.encode hears ++ behind,toTwo⟩ u := by
  obtain ⟨_,listens,clear,_⟩ := waits
  exact ⟨_,.hear listens (clear behind)⟩

-- While one of them is not over, one of them can move.
theorem Trails.progress (trails : m.Trails endOne endTwo left t) :
    (∃ u, m.Moves t u) ∨ (m.turn t.one = .gone ∧ m.turn t.two = .gone) := by
  cases trails with
  | @level one rounds two first second =>
    cases rounds with
    | nil =>
      cases first with
      | done rests =>
        cases second with
        | done gone => exact .inr ⟨rests,gone⟩
    | cons round rest =>
      obtain ⟨_,_,speaks⟩ := first.speaker
      exact .inl ⟨_,.one (.say speaks)⟩
  | spoke first second =>
    obtain ⟨_,_,speaks⟩ := second.speaker
    exact .inl ⟨⟨_,_,_,_⟩,.two (.say speaks)⟩
  | @crossed one hears rounds two told first second =>
    obtain ⟨u,acts⟩ := first.moves two [] (m.encode told)
    rw [List.append_nil] at acts
    exact .inl ⟨u,.one acts⟩
  | @heard one rounds two told first second =>
    obtain ⟨u,acts⟩ := second.moves one [] []
    rw [List.append_nil] at acts
    exact .inl ⟨u.swap,.two acts⟩
  | ahead first second =>
    obtain ⟨u,acts⟩ := second.moves _ _ _
    exact .inl ⟨u.swap,.two acts⟩

theorem Meets.progress (meets : m.Meets endOne endTwo left t) :
    (∃ u, m.Moves t u) ∨ (m.turn t.one = .gone ∧ m.turn t.two = .gone) := by
  rcases meets with trails | trails
  · exact trails.progress
  · rcases trails.progress with ⟨u,moves⟩ | ⟨gone,rests⟩
    · cases moves with
      | one acts => exact .inl ⟨u.swap,.two acts⟩
      | two acts => exact .inl ⟨u.swap,.one acts⟩
    · exact .inr ⟨rests,gone⟩

-- Where every run ends and none is stuck, some run is complete.
theorem exists_complete {complete : Talk σ β → Prop} (ends : Acc (fun u t => m.Moves t u) start)
    (progress : ∀ t, m.Reaches start t → (∃ u, m.Moves t u) ∨ complete t) : ∃ t, m.Reaches start t ∧ complete t := by
  induction ends with
  | intro t _ ih =>
    rcases progress t .refl with ⟨u,moves⟩ | done
    · obtain ⟨v,reaches,done⟩ := ih u moves (fun v reaches => progress v (.head moves reaches))
      exact ⟨v,.head moves reaches,done⟩
    · exact ⟨t,.refl,done⟩

end Machine
end Dialogue
