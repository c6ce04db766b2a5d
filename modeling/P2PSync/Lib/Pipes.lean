import P2PSync.Lib.Dialogue

-- The same two parties over pipes that hold so many bytes and no more: a message
-- goes in and comes out byte by byte, and who finds no room or no byte waits.
namespace Pipes
open Dialogue

-- A party with what it has put of the message it says and taken of the one it hears.
structure Side (σ β : Type) where
  state : σ
  out : List β
  got : List β

structure Flow (σ β : Type) where
  one : Side σ β
  two : Side σ β
  toOne : List β
  toTwo : List β

def Flow.swap (t : Flow σ β) : Flow σ β := ⟨t.two,t.one,t.toTwo,t.toOne⟩

def Flow.opening (one two : σ) : Flow σ β := ⟨⟨one,[],[]⟩,⟨two,[],[]⟩,[],[]⟩

section
variable {σ φ β : Type} (m : Machine σ φ β) (room : ℕ)

-- A step of the first party. Moving several bytes at once is several of these.
inductive Acts : Flow σ β → Flow σ β → Prop where
  | put (speaks : m.turn s = .say message next refused) (more : m.encode message = out ++ x :: y :: left)
      (free : toTwo.length < room) : Acts ⟨⟨s,out,got⟩,two,toOne,toTwo⟩ ⟨⟨s,out ++ [x],got⟩,two,toOne,toTwo ++ [x]⟩
  | finish (speaks : m.turn s = .say message next refused) (last : m.encode message = out ++ [x])
      (free : toTwo.length < room) : Acts ⟨⟨s,out,got⟩,two,toOne,toTwo⟩ ⟨⟨next,[],got⟩,two,toOne,toTwo ++ [x]⟩
  | refused (speaks : m.turn s = .say message next refused) (gone : m.turn two.state = .gone) :
      Acts ⟨⟨s,out,got⟩,two,toOne,toTwo⟩ ⟨⟨refused,[],got⟩,two,toOne,toTwo⟩
  | take (listens : m.turn s = .hear next) (short : m.decode (got ++ [x]) = none) :
      Acts ⟨⟨s,out,got⟩,two,x :: toOne,toTwo⟩ ⟨⟨s,out,got ++ [x]⟩,two,toOne,toTwo⟩
  | hear (listens : m.turn s = .hear next) (arrived : m.decode (got ++ [x]) = some (message,[])) :
      Acts ⟨⟨s,out,got⟩,two,x :: toOne,toTwo⟩ ⟨⟨next (some message),out,[]⟩,two,toOne,toTwo⟩
  | hangUp (listens : m.turn s = .hear next) (gone : m.turn two.state = .gone) :
      Acts ⟨⟨s,out,got⟩,two,[],toTwo⟩ ⟨⟨next none,out,[]⟩,two,[],toTwo⟩

inductive Moves (t u : Flow σ β) : Prop where
  | one (acts : Acts m room t u)
  | two (acts : Acts m room t.swap u.swap)

def Reaches (start : Flow σ β) : Flow σ β → Prop := Relation.ReflTransGen (Moves m room) start

-- The first party waits for the second: for room to say more, or for a byte to hear.
inductive Blocked (t : Flow σ β) : Prop where
  | full (speaks : m.turn t.one.state = .say message next refused) (full : room ≤ t.toTwo.length)
      (there : m.turn t.two.state ≠ .gone)
  | empty (listens : m.turn t.one.state = .hear next) (empty : t.toOne = []) (there : m.turn t.two.state ≠ .gone)

def Deadlocked (t : Flow σ β) : Prop := Blocked m room t ∧ Blocked m room t.swap

-- A message that has arrived is the same whatever comes behind it.
def Grows : Prop := ∀ bytes message rest behind, m.decode bytes = some (message,rest) →
  m.decode (bytes ++ behind) = some (message,rest ++ behind)

-- A party that tells and hears in turns, one message each in every round.
inductive Goes (final : σ) : σ → List φ → List φ → Prop where
  | done : Goes final final [] []
  | tell (speaks : m.turn s = .say told next refused) (later : Goes final next tells hears)
      (owed : hears.length = tells.length + 1) : Goes final s (told :: tells) hears
  | hear (listens : m.turn s = .hear next) (clear : m.Clear first) (later : Goes final (next (some first)) tells hears)
      (even : tells.length = hears.length) : Goes final s tells (first :: hears)

-- The same party on the way through a message.
inductive Stands (final : σ) : Side σ β → List φ → List φ → Prop where
  | done : Stands final ⟨final,[],[]⟩ [] []
  | telling (speaks : m.turn s = .say told next refused) (more : m.encode told = out ++ x :: left)
      (later : Goes m final next tells hears) (owed : hears.length = tells.length + 1) :
      Stands final ⟨s,out,[]⟩ (told :: tells) hears
  | hearing (listens : m.turn s = .hear next) (clear : m.Clear first) (short : m.decode got = none)
      (later : Goes m final (next (some first)) tells hears) (even : tells.length = hears.length) :
      Stands final ⟨s,[],got⟩ tells (first :: hears)

-- The bytes of a pipe: messages that are said and not heard, then a part of the next.
def Carries (speaker hearer : Side σ β) (pipe : List β) (tells hears : List φ) : Prop :=
  ∃ way, hears = way ++ tells ∧ hearer.got ++ pipe = way.flatMap m.encode ++ speaker.out

inductive Linked (endOne endTwo : σ) (rounds : List (φ × φ)) : Flow σ β → Prop where
  | mk (first : Stands m endOne one tellsOne hearsOne) (second : Stands m endTwo two tellsTwo hearsTwo)
      (ahead : Carries m one two toTwo tellsOne hearsTwo) (back : Carries m two one toOne tellsTwo hearsOne)
      (ours : tellsOne <:+ rounds.map Prod.fst) (theirs : tellsTwo <:+ rounds.map Prod.snd) :
      Linked endOne endTwo rounds ⟨one,two,toOne,toTwo⟩

-- The second party has its last message on the way, and will be gone with it.
def Leaving (t : Flow σ β) : Prop := ∃ next last behind, m.turn t.two.state = .hear next ∧ m.Clear last ∧
  m.turn (next (some last)) = .gone ∧ m.decode t.two.got = none ∧ t.two.got ++ t.toTwo = m.encode last ++ behind

def Parted (t : Flow σ β) : Prop :=
  m.turn t.one.state = .gone ∨ m.turn t.two.state = .gone ∨ Leaving m t ∨ Leaving m t.swap

variable {m room}

-- A round: from one message to say to the next.
theorem Goes.round (goes : Goes m final s (told :: tells) (first :: hears)) (even : hears.length = tells.length) :
    ∃ waiting refused next, m.turn s = .say told waiting refused ∧ m.turn waiting = .hear next ∧ m.Clear first ∧
      Goes m final (next (some first)) tells hears := by
  cases goes with
  | hear _ _ _ other =>
    rw [List.length_cons] at other
    omega
  | tell speaks later _ =>
    cases later with
    | tell _ _ owed =>
      rw [List.length_cons] at owed even
      omega
    | hear listens clear rest _ => exact ⟨_,_,_,speaks,listens,clear,rest⟩

theorem Goes.stands (filled : ∀ message, m.encode message ≠ []) (silent : m.decode [] = none)
    (goes : Goes m final s tells hears) : Stands m final ⟨s,[],[]⟩ tells hears := by
  cases goes with
  | done => exact .done
  | hear listens clear later even => exact .hearing listens clear silent later even
  | @tell _ told _ _ _ _ speaks later owed =>
    obtain ⟨x,left,whole⟩ := List.exists_cons_of_ne_nil (filled told)
    exact .telling speaks whole later owed

-- The first party moves: the second stays where it is, and nothing leaves its pipe.
theorem Acts.frame (acts : Acts m room t u) : u.two = t.two ∧ ∃ more, u.toTwo = t.toTwo ++ more := by
  cases acts with
  | put => exact ⟨rfl,_,rfl⟩
  | finish => exact ⟨rfl,_,rfl⟩
  | refused => exact ⟨rfl,[],(List.append_nil _).symm⟩
  | take => exact ⟨rfl,[],(List.append_nil _).symm⟩
  | hear => exact ⟨rfl,[],(List.append_nil _).symm⟩
  | hangUp => exact ⟨rfl,[],(List.append_nil _).symm⟩

theorem Acts.present (acts : Acts m room t u) : m.turn t.one.state ≠ .gone := by
  intro gone
  cases acts with
  | put speaks => cases speaks.symm.trans gone
  | finish speaks => cases speaks.symm.trans gone
  | refused speaks => cases speaks.symm.trans gone
  | take listens => cases listens.symm.trans gone
  | hear listens => cases listens.symm.trans gone
  | hangUp listens => cases listens.symm.trans gone

section
variable (grows : Grows m)
include grows

theorem decode_exact (clear : m.Clear first) (arrived : m.decode got = some (message,[]))
    (flow : got ++ pipe = m.encode first ++ behind) : message = first ∧ pipe = behind := by
  have whole := grows got message [] pipe arrived
  rw [flow,clear behind] at whole
  cases whole
  exact ⟨rfl,rfl⟩

theorem decode_short (clear : m.Clear first) (more : m.encode first = front ++ x :: left) : m.decode front = none := by
  cases arrived : m.decode front with
  | none => rfl
  | some pair =>
    have whole := grows front pair.1 pair.2 (x :: left) arrived
    have exactly := clear []
    rw [← more] at whole
    rw [List.append_nil,whole] at exactly
    have nothing : pair.2 ++ x :: left = [] := congrArg Prod.snd (Option.some.inj exactly)
    exact absurd (List.append_eq_nil_iff.mp nothing).2 (List.cons_ne_nil x left)

omit grows in
theorem pipe_filled (clear : m.Clear first) (short : m.decode got = none) (flow : got ++ pipe = m.encode first ++ behind) :
    pipe ≠ [] := by
  rintro rfl
  rw [List.append_nil] at flow
  rw [flow,clear behind] at short
  cases short

theorem Leaving.acts (leaving : Leaving m t.swap) (acts : Acts m room t u) :
    m.turn u.one.state = .gone ∨ Leaving m u.swap := by
  obtain ⟨next,last,behind,listens,clear,goes,short,flow⟩ := leaving
  cases acts with
  | put speaks => cases speaks.symm.trans listens
  | finish speaks => cases speaks.symm.trans listens
  | refused speaks => cases speaks.symm.trans listens
  | hangUp => exact absurd rfl (pipe_filled clear short flow)
  | take _ still => exact .inr ⟨next,last,behind,listens,clear,goes,still,(List.append_cons _ _ _).symm.trans flow⟩
  | hear hears arrived =>
    cases hears.symm.trans listens
    obtain ⟨rfl,_⟩ := decode_exact grows clear arrived ((List.append_cons _ _ _).symm.trans flow)
    exact .inl goes

theorem Parted.acts (parted : Parted m t) (acts : Acts m room t u) : Parted m u := by
  obtain ⟨two,more,toTwo⟩ := acts.frame
  rcases parted with gone | gone | ⟨next,last,behind,listens,clear,goes,short,flow⟩ | leaving
  · exact absurd gone acts.present
  · rw [← two] at gone
    exact .inr (.inl gone)
  · refine .inr (.inr (.inl ⟨next,last,behind ++ more,?_,clear,goes,?_,?_⟩))
    · rw [two]
      exact listens
    · rw [two]
      exact short
    · rw [two,toTwo,← List.append_assoc,flow,List.append_assoc]
  · rcases leaving.acts grows acts with gone | still
    · exact .inl gone
    · exact .inr (.inr (.inr still))

omit grows in
-- Where the first party has nothing more to tell or hear, one of them is gone or going.
theorem Stands.parted (apart : m.turn endOne = .gone ∨ m.turn endTwo = .gone) (second : Stands m endTwo two tellsTwo hearsTwo)
    (ahead : Carries m ⟨endOne,[],[]⟩ two toTwo [] hearsTwo) (back : Carries m two ⟨endOne,[],[]⟩ toOne tellsTwo []) :
    Parted m ⟨⟨endOne,[],[]⟩,two,toOne,toTwo⟩ := by
  rcases apart with gone | gone
  · exact .inl gone
  · obtain ⟨_,nothing,_⟩ := back
    obtain ⟨_,rfl⟩ := List.append_eq_nil_iff.mp nothing.symm
    cases second with
    | done => exact .inr (.inl gone)
    | @hearing _ next first got _ hears listens clear short later even =>
      obtain rfl := List.length_eq_zero_iff.mp even.symm
      obtain ⟨way,single,flow⟩ := ahead
      rw [List.append_nil] at single
      subst single
      cases later with
      | done => exact .inr (.inr (.inl ⟨next,first,[],listens,clear,gone,short,by simpa using flow⟩))

-- What a party hears is the message that is first on its way.
theorem Carries.hear (second : Stands m endTwo two tellsTwo hearsTwo) (clear : m.Clear first)
    (back : Carries m two ⟨s,out,got⟩ (x :: toOne) tellsTwo (first :: hears))
    (arrived : m.decode (got ++ [x]) = some (message,[])) :
    message = first ∧ ∀ next, Carries m two ⟨next,out,[]⟩ toOne tellsTwo hears := by
  obtain ⟨way,held,flow⟩ := back
  have split : (got ++ [x]) ++ toOne = way.flatMap m.encode ++ two.out := (List.append_cons _ _ _).symm.trans flow
  cases way with
  | cons sent way =>
    cases held
    have behind : m.encode first ++ way.flatMap m.encode ++ two.out = m.encode first ++ (way.flatMap m.encode ++ two.out) :=
      List.append_assoc _ _ _
    obtain ⟨same,rest⟩ := decode_exact grows clear arrived (split.trans behind)
    exact ⟨same,fun next => ⟨way,rfl,rest⟩⟩
  | nil =>
    -- The message is not even said to its end.
    cases second with
    | done => cases held
    | hearing _ _ _ _ _ => exact absurd split (by simp)
    | @telling _ told _ _ sent y left _ _ speaks more _ _ =>
      cases held
      have whole : (got ++ [x]) ++ (toOne ++ y :: left) = m.encode first ++ [] := by
        rw [more,List.append_nil,← List.append_assoc,split]
        rfl
      have nothing := (decode_exact grows clear arrived whole).2
      exact absurd (List.append_eq_nil_iff.mp nothing).2 (List.cons_ne_nil y left)

theorem Linked.acts (filled : ∀ message, m.encode message ≠ []) (silent : m.decode [] = none)
    (apart : m.turn endOne = .gone ∨ m.turn endTwo = .gone) (linked : Linked m endOne endTwo rounds t) (acts : Acts m room t u) :
    Parted m u ∨ Linked m endOne endTwo rounds u := by
  obtain @⟨one,tellsOne,hearsOne,two,tellsTwo,hearsTwo,toTwo,toOne,first,second,ahead,back,ours,theirs⟩ := linked
  cases first with
  | done => exact .inl ((Stands.parted apart second ahead back).acts grows acts)
  | @telling _ told _ _ out _ _ _ _ speaks more later owed =>
    cases acts with
    | put also next free =>
      cases also.symm.trans speaks
      obtain ⟨way,held,flow⟩ := ahead
      refine .inr (.mk (.telling speaks (next.trans (List.append_cons _ _ _)) later owed) second ⟨way,held,?_⟩ back ours theirs)
      rw [← List.append_assoc,flow,List.append_assoc]
    | finish also last free =>
      cases also.symm.trans speaks
      obtain ⟨way,held,flow⟩ := ahead
      refine .inr (.mk (later.stands filled silent) second ⟨way ++ [told],?_,?_⟩ back ((List.suffix_cons _ _).trans ours) theirs)
      · rw [held]
        exact List.append_cons _ _ _
      · rw [← List.append_assoc,flow,List.append_assoc,List.flatMap_append,← last]
        simp
    | refused also gone => exact .inl (.inr (.inl gone))
    | take listens => cases listens.symm.trans speaks
    | hear listens => cases listens.symm.trans speaks
    | hangUp listens => cases listens.symm.trans speaks
  | hearing listens clear short later even =>
    cases acts with
    | put speaks => cases speaks.symm.trans listens
    | finish speaks => cases speaks.symm.trans listens
    | refused speaks => cases speaks.symm.trans listens
    | hangUp _ gone => exact .inl (.inr (.inl gone))
    | take _ still =>
      obtain ⟨way,held,flow⟩ := back
      exact .inr (.mk (.hearing listens clear still later even) second ahead
        ⟨way,held,(List.append_cons _ _ _).symm.trans flow⟩ ours theirs)
    | hear also arrived =>
      cases also.symm.trans listens
      obtain ⟨rfl,later_back⟩ := Carries.hear grows second clear back arrived
      exact .inr (.mk (later.stands filled silent) second ahead (later_back _) ours theirs)

end

theorem Parted.symm (parted : Parted m t) : Parted m t.swap := by
  rcases parted with one | two | leaving | other
  · exact .inr (.inl one)
  · exact .inl two
  · exact .inr (.inr (.inr leaving))
  · exact .inr (.inr (.inl other))

theorem Linked.symm (linked : Linked m endOne endTwo rounds t) : Linked m endTwo endOne (rounds.map Prod.swap) t.swap := by
  obtain ⟨first,second,ahead,back,ours,theirs⟩ := linked
  refine .mk second first back ahead ?_ ?_
  · rw [List.map_map]
    exact theirs
  · rw [List.map_map]
    exact ours

theorem Blocked.no_room (blocked : Blocked m room t) (speaks : m.turn t.one.state = .say message next refused) :
    room ≤ t.toTwo.length := by
  cases blocked with
  | full _ full _ => exact full
  | empty listens _ _ => cases listens.symm.trans speaks

theorem Blocked.no_byte (blocked : Blocked m room t) (listens : m.turn t.one.state = .hear next) : t.toOne = [] := by
  cases blocked with
  | full speaks _ _ => cases speaks.symm.trans listens
  | empty _ empty _ => exact empty

theorem Blocked.there (blocked : Blocked m room t) : m.turn t.two.state ≠ .gone := by
  cases blocked with
  | full _ _ there => exact there
  | empty _ _ there => exact there

-- Who has its last message on the way finds a byte of it.
theorem Leaving.free (leaving : Leaving m t) : ¬ Blocked m room t.swap := by
  obtain ⟨next,last,behind,listens,clear,_,short,flow⟩ := leaving
  exact fun blocked => pipe_filled clear short flow (blocked.no_byte listens)

theorem Parted.free (parted : Parted m t) : ¬ Deadlocked m room t := by
  rintro ⟨blocked,other⟩
  rcases parted with one | two | leaving | going
  · exact other.there one
  · exact blocked.there two
  · exact leaving.free other
  · exact going.free blocked

theorem mem_rounds {rounds : List (φ × φ)} (ours : told :: tellsOne <:+ rounds.map Prod.fst)
    (theirs : heard :: tellsTwo <:+ rounds.map Prod.snd) (even : tellsOne.length = tellsTwo.length) : (told,heard) ∈ rounds := by
  obtain ⟨before,whole⟩ := ours
  obtain ⟨also,other⟩ := theirs
  have lengths := congrArg List.length whole
  have same := congrArg List.length other
  simp only [List.length_append,List.length_cons,List.length_map] at lengths same
  have level : also.length = before.length := by omega
  have first : (rounds.map Prod.fst)[before.length]? = some told := by
    rw [← whole]
    simp
  have second : (rounds.map Prod.snd)[before.length]? = some heard := by
    rw [← other,← level]
    simp
  rw [List.getElem?_map,Option.map_eq_some_iff] at first second
  obtain ⟨pair,found,rfl⟩ := first
  obtain ⟨_,again,rfl⟩ := second
  cases found.symm.trans again
  exact List.mem_of_getElem? found

-- A party that has heard fewer messages than are said has one of them on its way.
theorem Carries.filled (clear : m.Clear first) (short : m.decode hearer.got = none)
    (carries : Carries m speaker hearer pipe tells (first :: hears)) (fewer : tells.length ≤ hears.length) : pipe ≠ [] := by
  obtain ⟨way,held,flow⟩ := carries
  cases way with
  | nil =>
    have lengths := congrArg List.length held
    simp only [List.nil_append,List.length_cons] at lengths
    omega
  | cons sent way =>
    cases held
    rw [List.flatMap_cons,List.append_assoc] at flow
    exact pipe_filled clear short flow

-- Two parties in the middle of a message each are in one round, and have only that
-- message in the pipe.
theorem Carries.level (ahead : Carries m ⟨s,out,[]⟩ ⟨r,part,[]⟩ toTwo (told :: tells) hearsTwo)
    (back : Carries m ⟨r,part,[]⟩ ⟨s,out,[]⟩ toOne (heard :: tellsTwo) hears)
    (owed : hears.length = tells.length + 1) (owing : hearsTwo.length = tellsTwo.length + 1) :
    tells.length = tellsTwo.length ∧ toTwo = out ∧ toOne = part := by
  obtain ⟨way,held,flow⟩ := ahead
  obtain ⟨other,kept,counter⟩ := back
  have lengths := congrArg List.length held
  have widths := congrArg List.length kept
  simp only [List.length_append,List.length_cons] at lengths widths
  obtain rfl : way = [] := List.length_eq_zero_iff.mp (by omega)
  obtain rfl : other = [] := List.length_eq_zero_iff.mp (by omega)
  exact ⟨by omega,flow,counter⟩

-- Both wait for each other only in a round whose messages both have no room.
theorem Linked.jammed (positive : 1 ≤ room) (apart : m.turn endOne = .gone ∨ m.turn endTwo = .gone)
    (linked : Linked m endOne endTwo rounds t) (dead : Deadlocked m room t) :
    ∃ pair ∈ rounds, room < (m.encode pair.1).length ∧ room < (m.encode pair.2).length := by
  obtain @⟨one,tellsOne,hearsOne,two,tellsTwo,hearsTwo,toTwo,toOne,first,second,ahead,back,ours,theirs⟩ := linked
  have held : ∀ pipe : List β, room ≤ pipe.length → pipe ≠ [] :=
    fun pipe full => List.ne_nil_of_length_pos (positive.trans full)
  cases first with
  | done => exact absurd dead (Stands.parted apart second ahead back).free
  | @telling _ told _ _ _ _ _ _ _ speaks more later owed =>
    cases second with
    | done => exact absurd dead (Stands.parted apart.symm (.telling speaks more later owed) back ahead).symm.free
    | hearing listens _ _ _ _ => exact absurd (dead.2.no_byte listens) (held _ (dead.1.no_room speaks))
    | @telling _ heard _ _ _ _ _ _ _ answers rest _ owing =>
      obtain ⟨even,mine,yours⟩ := ahead.level back owed owing
      have fullTwo : room ≤ toTwo.length := dead.1.no_room speaks
      have fullOne : room ≤ toOne.length := dead.2.no_room answers
      rw [mine] at fullTwo
      rw [yours] at fullOne
      refine ⟨(told,heard),mem_rounds ours theirs even,?_,?_⟩
      · rw [more,List.length_append,List.length_cons]
        omega
      · rw [rest,List.length_append,List.length_cons]
        omega
  | hearing listens clear short later even =>
    cases second with
    | done => exact absurd dead (Stands.parted apart.symm (.hearing listens clear short later even) back ahead).symm.free
    | telling speaks _ _ _ => exact absurd (dead.1.no_byte listens) (held _ (dead.2.no_room speaks))
    | @hearing _ _ _ _ tellsTwo hearsTwo waits clearTwo shortTwo _ evenTwo =>
      rcases le_total tellsOne.length tellsTwo.length with fewer | fewer
      · exact absurd (dead.2.no_byte waits) (ahead.filled clearTwo shortTwo (fewer.trans evenTwo.le))
      · exact absurd (dead.1.no_byte listens) (back.filled clear short (fewer.trans even.le))

section
variable (grows : Grows m) (filled : ∀ message, m.encode message ≠ []) (silent : m.decode [] = none)
include grows filled silent

-- In every state of a run the parties are in step, or one of them is gone or going.
theorem stays_linked (apart : m.turn endOne = .gone ∨ m.turn endTwo = .gone) (moves : Moves m room t u)
    (safe : Parted m t ∨ Linked m endOne endTwo rounds t) : Parted m u ∨ Linked m endOne endTwo rounds u := by
  cases moves with
  | one acts =>
    rcases safe with parted | linked
    · exact .inl (parted.acts grows acts)
    · exact linked.acts grows filled silent apart acts
  | two acts =>
    rcases safe with parted | linked
    · exact .inl (parted.symm.acts grows acts).symm
    · rcases linked.symm.acts grows filled silent apart.symm acts with parted | linked
      · exact .inl parted.symm
      · have back := linked.symm
        rw [Machine.swap_twice] at back
        exact .inr back

theorem no_deadlock {rounds : List (φ × φ)} (positive : 1 ≤ room) (apart : m.turn endOne = .gone ∨ m.turn endTwo = .gone)
    (first : Goes m endOne one (rounds.map Prod.fst) (rounds.map Prod.snd))
    (second : Goes m endTwo two (rounds.map Prod.snd) (rounds.map Prod.fst))
    (fits : ∀ pair ∈ rounds, (m.encode pair.1).length ≤ room ∨ (m.encode pair.2).length ≤ room)
    (reaches : Reaches m room (.opening one two) t) : ¬ Deadlocked m room t := by
  have safe : Parted m t ∨ Linked m endOne endTwo rounds t := by
    induction reaches with
    | refl => exact .inr (.mk (first.stands filled silent) (second.stands filled silent) ⟨[],rfl,rfl⟩ ⟨[],rfl,rfl⟩
        (List.suffix_refl _) (List.suffix_refl _))
    | tail _ moves ih => exact stays_linked grows filled silent apart moves ih
  intro dead
  rcases safe with parted | linked
  · exact parted.free dead
  · obtain ⟨pair,member,big,also⟩ := linked.jammed positive apart dead
    rcases fits pair member with small | small
    · omega
    · omega

end

theorem Reaches.symm (reaches : Reaches m room t u) : Reaches m room t.swap u.swap := by
  induction reaches with
  | refl => exact .refl
  | tail _ moves ih =>
    refine ih.tail ?_
    cases moves with
    | one acts => exact .two acts
    | two acts => exact .one acts

-- So much of a message goes into the pipe as there is room.
theorem reaches_part (speaks : m.turn s = .say message next refused) (more : m.encode message = out ++ part ++ x :: left)
    (free : toTwo.length + part.length ≤ room) (got : List β) (two : Side σ β) (toOne : List β) :
    Reaches m room ⟨⟨s,out,got⟩,two,toOne,toTwo⟩ ⟨⟨s,out ++ part,got⟩,two,toOne,toTwo ++ part⟩ := by
  induction part generalizing out toTwo with
  | nil =>
    rw [List.append_nil,List.append_nil]
    exact .refl
  | cons y part ih =>
    rw [List.length_cons] at free
    have behind : ∃ z later, part ++ x :: left = z :: later := by
      cases part with
      | nil => exact ⟨x,left,rfl⟩
      | cons z part => exact ⟨z,part ++ x :: left,rfl⟩
    obtain ⟨z,later,follow⟩ := behind
    have whole : m.encode message = out ++ y :: z :: later := by
      rw [more,← follow,List.append_assoc]
      rfl
    have step : Moves m room ⟨⟨s,out,got⟩,two,toOne,toTwo⟩ ⟨⟨s,out ++ [y],got⟩,two,toOne,toTwo ++ [y]⟩ :=
      .one (.put speaks whole (by omega))
    have also : m.encode message = (out ++ [y]) ++ part ++ x :: left := by
      rw [more]
      simp
    have wide : (toTwo ++ [y]).length + part.length ≤ room := by
      rw [List.length_append,List.length_singleton]
      omega
    have rest := ih also wide
    rw [← List.append_cons,← List.append_cons] at rest
    exact .head step rest

theorem reaches_said (speaks : m.turn s = .say message next refused) (filled : m.encode message ≠ [])
    (free : toTwo.length + (m.encode message).length ≤ room) (got : List β) (two : Side σ β) (toOne : List β) :
    Reaches m room ⟨⟨s,[],got⟩,two,toOne,toTwo⟩ ⟨⟨next,[],got⟩,two,toOne,toTwo ++ m.encode message⟩ := by
  obtain nothing | ⟨front,x,whole⟩ := (m.encode message).eq_nil_or_concat
  · exact absurd nothing filled
  · rw [List.concat_eq_append] at whole
    have length := congrArg List.length whole
    rw [List.length_append,List.length_singleton] at length
    have most : Reaches m room ⟨⟨s,[],got⟩,two,toOne,toTwo⟩ ⟨⟨s,front,got⟩,two,toOne,toTwo ++ front⟩ :=
      reaches_part speaks whole (by omega) got two toOne
    rw [whole,← List.append_assoc]
    exact most.tail (.one (.finish speaks whole (by rw [List.length_append]; omega)))

section
variable (grows : Grows m)
include grows

theorem reaches_heard (listens : m.turn s = .hear next) (clear : m.Clear first) (whole : m.encode first = got ++ x :: left)
    (out : List β) (two : Side σ β) (toTwo : List β) :
    Reaches m room ⟨⟨s,out,got⟩,two,x :: left,toTwo⟩ ⟨⟨next (some first),out,[]⟩,two,[],toTwo⟩ := by
  have split : m.encode first = (got ++ [x]) ++ left := whole.trans (List.append_cons _ _ _)
  induction left generalizing got x with
  | nil =>
    have arrived := clear []
    rw [whole,List.append_nil] at arrived
    exact .single (.one (.hear listens arrived))
  | cons y left ih => exact .head (.one (.take listens (decode_short grows clear split))) (ih split (split.trans (List.append_cons _ _ _)))

-- A message passes through a pipe with room for a byte, if the other party takes it.
theorem reaches_passed (positive : 1 ≤ room) (listens : m.turn s = .hear next) (clear : m.Clear message)
    (speaks : m.turn r = .say message later refused) (whole : m.encode message = got ++ x :: left)
    (out back toTwo : List β) :
    Reaches m room ⟨⟨s,out,got⟩,⟨r,got,back⟩,[],toTwo⟩ ⟨⟨next (some message),out,[]⟩,⟨later,[],back⟩,[],toTwo⟩ := by
  have split : m.encode message = (got ++ [x]) ++ left := whole.trans (List.append_cons _ _ _)
  induction left generalizing got x with
  | nil =>
    have arrived := clear []
    rw [whole,List.append_nil] at arrived
    have puts : Moves m room ⟨⟨s,out,got⟩,⟨r,got,back⟩,[],toTwo⟩ ⟨⟨s,out,got⟩,⟨later,[],back⟩,[x],toTwo⟩ :=
      .two (.finish speaks whole positive)
    exact .head puts (.single (.one (.hear listens arrived)))
  | cons y left ih =>
    have puts : Moves m room ⟨⟨s,out,got⟩,⟨r,got,back⟩,[],toTwo⟩ ⟨⟨s,out,got⟩,⟨r,got ++ [x],back⟩,[x],toTwo⟩ :=
      .two (.put speaks whole positive)
    have takes : Moves m room ⟨⟨s,out,got⟩,⟨r,got ++ [x],back⟩,[x],toTwo⟩ ⟨⟨s,out,got ++ [x]⟩,⟨r,got ++ [x],back⟩,[],toTwo⟩ :=
      .one (.take listens (decode_short grows clear split))
    exact .head puts (.head takes (ih split (split.trans (List.append_cons _ _ _))))

-- A round in which the first message has room goes through.
theorem reaches_round (filled : ∀ message, m.encode message ≠ []) (positive : 1 ≤ room)
    (speaks : m.turn one = .say told waiting refused) (listens : m.turn waiting = .hear next) (clear : m.Clear heard)
    (answers : m.turn two = .say heard pausing denied) (waits : m.turn pausing = .hear after) (also : m.Clear told)
    (fits : (m.encode told).length ≤ room) :
    Reaches m room (.opening one two) (.opening (next (some heard)) (after (some told))) := by
  have start : ∀ message, ∃ x left, m.encode message = [] ++ x :: left :=
    fun message => List.exists_cons_of_ne_nil (filled message)
  obtain ⟨x,left,whole⟩ := start told
  obtain ⟨y,rest,other⟩ := start heard
  have said : Reaches m room (.opening one two) ⟨⟨waiting,[],[]⟩,⟨two,[],[]⟩,[],m.encode told⟩ :=
    reaches_said speaks (filled told) (by simpa using fits) [] ⟨two,[],[]⟩ []
  have passed : Reaches m room ⟨⟨waiting,[],[]⟩,⟨two,[],[]⟩,[],m.encode told⟩
      ⟨⟨next (some heard),[],[]⟩,⟨pausing,[],[]⟩,[],m.encode told⟩ :=
    reaches_passed grows positive listens clear answers other [] [] (m.encode told)
  have taken : Reaches m room ⟨⟨next (some heard),[],[]⟩,⟨pausing,[],[]⟩,[],m.encode told⟩
      (.opening (next (some heard)) (after (some told))) := by
    rw [whole]
    exact (reaches_heard grows waits also whole [] ⟨next (some heard),[],[]⟩ []).symm
  exact (said.trans passed).trans taken

omit grows in
-- Two messages that both have no room block both parties.
theorem reaches_jam (speaks : m.turn one = .say told waiting refused) (answers : m.turn two = .say heard pausing denied)
    (big : room < (m.encode told).length) (also : room < (m.encode heard).length) :
    ∃ t, Reaches m room (.opening one two) t ∧ Deadlocked m room t := by
  have part : ∀ {message}, room < (m.encode message).length →
      ∃ x left, m.encode message = (m.encode message).take room ++ x :: left := by
    intro message long
    have more : (m.encode message).drop room ≠ [] := fun nothing => absurd (List.drop_eq_nil_iff.mp nothing) (not_le.mpr long)
    obtain ⟨x,left,rest⟩ := List.exists_cons_of_ne_nil more
    refine ⟨x,left,?_⟩
    rw [← rest,List.take_append_drop]
  obtain ⟨x,left,whole⟩ := part big
  obtain ⟨y,rest,other⟩ := part also
  have ours : Reaches m room (.opening one two)
      ⟨⟨one,(m.encode told).take room,[]⟩,⟨two,[],[]⟩,[],(m.encode told).take room⟩ :=
    reaches_part speaks whole (by simp) [] ⟨two,[],[]⟩ []
  have theirs : Reaches m room ⟨⟨one,(m.encode told).take room,[]⟩,⟨two,[],[]⟩,[],(m.encode told).take room⟩
      ⟨⟨one,(m.encode told).take room,[]⟩,⟨two,(m.encode heard).take room,[]⟩,(m.encode heard).take room,(m.encode told).take room⟩ :=
    (reaches_part answers other (by simp) [] ⟨one,(m.encode told).take room,[]⟩ ((m.encode told).take room)).symm
  have here : m.turn one ≠ .gone := by rw [speaks]; exact nofun
  have there : m.turn two ≠ .gone := by rw [answers]; exact nofun
  refine ⟨_,ours.trans theirs,.full speaks ?_ there,.full answers ?_ here⟩
  · rw [List.length_take,Nat.min_eq_left big.le]
  · change room ≤ ((m.encode heard).take room).length
    rw [List.length_take,Nat.min_eq_left also.le]

-- Rounds that go through lead to the first that does not.
theorem reaches_deadlock {rounds : List (φ × φ)} (filled : ∀ message, m.encode message ≠ []) (positive : 1 ≤ room)
    (first : Goes m endOne one (rounds.map Prod.fst) (rounds.map Prod.snd))
    (second : Goes m endTwo two (rounds.map Prod.snd) (rounds.map Prod.fst))
    (big : ∃ pair ∈ rounds, room < (m.encode pair.1).length ∧ room < (m.encode pair.2).length) :
    ∃ t, Reaches m room (.opening one two) t ∧ Deadlocked m room t := by
  induction rounds generalizing one two with
  | nil =>
    obtain ⟨_,member,_⟩ := big
    cases member
  | cons pair rounds ih =>
    obtain ⟨waiting,refused,next,speaks,listens,clear,later⟩ := first.round (by simp)
    obtain ⟨pausing,denied,after,answers,waits,also,rest⟩ := second.round (by simp)
    by_cases jams : room < (m.encode pair.1).length ∧ room < (m.encode pair.2).length
    · exact reaches_jam speaks answers jams.1 jams.2
    · have through : Reaches m room (.opening one two) (.opening (next (some pair.2)) (after (some pair.1))) := by
        by_cases fits : (m.encode pair.1).length ≤ room
        · exact reaches_round grows filled positive speaks listens clear answers waits also fits
        · have other : (m.encode pair.2).length ≤ room := not_lt.mp (fun big => jams ⟨not_le.mp fits,big⟩)
          exact (reaches_round grows filled positive answers waits also speaks listens clear other).symm
      have ahead : ∃ pair ∈ rounds, room < (m.encode pair.1).length ∧ room < (m.encode pair.2).length := by
        obtain ⟨found,member,both⟩ := big
        rcases List.mem_cons.mp member with rfl | inside
        · exact absurd both jams
        · exact ⟨found,inside,both⟩
      obtain ⟨t,reaches,dead⟩ := ih later rest ahead
      exact ⟨t,through.trans reaches,dead⟩

end

end
end Pipes
