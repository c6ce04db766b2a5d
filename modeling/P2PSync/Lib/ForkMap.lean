import Mathlib

-- Replicated maps whose versions carry a clock from a join-semilattice. A
-- delivered version is adopted, ignored or, when the clocks are incomparable,
-- put beside the held one under a forked key, the held clock absorbing its own.
namespace ForkMap

structure Version (D W C : Type) where
  content : D
  writer : W
  clock : C

section
variable {P D W C : Type} [SemilatticeSup C]

abbrev Held (P D W C : Type) := P → Option (Version D W C)

-- The two clocks meet in conflict.
def Clash (l r : C) : Prop := ¬ r ≤ l ∧ ¬ l ≤ r

theorem Clash.symm {l r : C} (clash : Clash l r) : Clash r l := ⟨clash.2,clash.1⟩

open Classical in
noncomputable def settle (l r : Version D W C) : Version D W C :=
  if r.clock ≤ l.clock then l else if l.clock ≤ r.clock then r else { l with clock := l.clock ⊔ r.clock }

noncomputable def settleAt (held : Option (Version D W C)) (r : Version D W C) : Version D W C :=
  match held with
  | none => r
  | some l => settle l r

theorem settle_covered {l r : Version D W C} (covered : r.clock ≤ l.clock) : settle l r = l := if_pos covered

theorem settle_newer {l r : Version D W C} (fresh : ¬ r.clock ≤ l.clock) (newer : l.clock ≤ r.clock) : settle l r = r := by
  rw [settle,if_neg fresh,if_pos newer]

theorem settle_clash {l r : Version D W C} (clash : Clash l.clock r.clock) :
    settle l r = { l with clock := l.clock ⊔ r.clock } := by
  rw [settle,if_neg clash.1,if_neg clash.2]

theorem settle_clock (l r : Version D W C) : (settle l r).clock = l.clock ⊔ r.clock := by
  unfold settle
  split
  · rename_i covered
    exact (sup_eq_left.mpr covered).symm
  · split
    · rename_i newer
      exact (sup_eq_right.mpr newer).symm
    · rfl

variable (fork : P → W → P)

def Clashes (s : Held P D W C) (p : P) (r : Version D W C) : Prop := ∃ l, s p = some l ∧ Clash l.clock r.clock

-- What stands under a key after a delivery at p.
open Classical in
noncomputable def deliver (s : Held P D W C) (p : P) (r : Version D W C) : Held P D W C := fun q =>
  if q = p then some (settleAt (s p) r)
  else if Clashes s p r ∧ q = fork p r.writer then some r else s q

noncomputable def deliverAll (s : Held P D W C) (items : List (P × Version D W C)) : Held P D W C :=
  items.foldl (fun s item => deliver fork s item.1 item.2) s

variable {fork}

theorem deliver_here (s : Held P D W C) (p : P) (r : Version D W C) :
    deliver fork s p r p = some (settleAt (s p) r) := if_pos rfl

theorem deliver_fork {s : Held P D W C} (clashes : Clashes s p r) (away : fork p r.writer ≠ p) :
    deliver fork s p r (fork p r.writer) = some r := by
  rw [deliver,if_neg away,if_pos ⟨clashes,rfl⟩]

theorem deliver_away {s : Held P D W C} (other : q ≠ p) (noFork : ¬ (Clashes s p r ∧ q = fork p r.writer)) :
    deliver fork s p r q = s q := by
  rw [deliver,if_neg other,if_neg noFork]

-- A version some local one already covers is never looked at again.
def Live (s : Held P D W C) (p : P) (r : Version D W C) : Prop := ∀ l, s p = some l → ¬ r.clock ≤ l.clock

-- A delivery that counts and that some order of the items can fork.
def Rival (s : Held P D W C) (items : List (P × Version D W C)) (p : P) (r : Version D W C) : Prop :=
  (p,r) ∈ items ∧ Live s p r ∧ (Clashes s p r ∨ ∃ y, (p,y) ∈ items ∧ Live s p y ∧ Clash y.clock r.clock)

-- A version that some order can fork to the key q.
def Aims (fork : P → W → P) (s : Held P D W C) (items : List (P × Version D W C)) (q : P) (r : Version D W C) : Prop :=
  ∃ p, Rival s items p r ∧ fork p r.writer = q

-- The clocks that do not cover r do not add up to it either.
def Fresh (s : Held P D W C) (items : List (P × Version D W C)) (p : P) (r : Version D W C) : Prop :=
  ∃ u, (∀ l, s p = some l → l.clock ≤ u) ∧ (∀ y, (p,y) ∈ items → ¬ r.clock ≤ y.clock → y.clock ≤ u) ∧ ¬ r.clock ≤ u

-- The held version meets nothing but conflicts, so its content stays.
def Kept (s : Held P D W C) (items : List (P × Version D W C)) (p : P) (l : Version D W C) : Prop :=
  s p = some l ∧ ∀ r, (p,r) ∈ items → Live s p r → Clash l.clock r.clock

-- One delivery outranks the held version and all others of its key.
structure Overruled (s : Held P D W C) (items : List (P × Version D W C)) (p : P) (g : Version D W C) : Prop where
  member : (p,g) ∈ items
  above : ∀ l, s p = some l → l.clock ≤ g.clock
  top : ∀ y, (p,y) ∈ items → Live s p y → y.clock ≤ g.clock ∧ (g.clock ≤ y.clock → y = g)
  fresh : Fresh s items p g

-- The last version of its line is forked to q in every order, and all other forks
-- to q are earlier versions of its key. No delivery under q is news to a fork.
structure Firm (fork : P → W → P) (s : Held P D W C) (items : List (P × Version D W C)) (q p : P) (g : Version D W C) :
    Prop where
  member : (p,g) ∈ items
  target : fork p g.writer = q
  kept : ∃ l, Kept s items p l
  fresh : Fresh s items p g
  last : ∀ y, (p,y) ∈ items → g.clock ≤ y.clock → y = g
  line : ∀ k r, Rival s items k r → fork k r.writer = q → k = p ∧ r.clock ≤ g.clock
  room : ∀ r, Aims fork s items q r → ∀ x, (q,x) ∈ items → x.clock ≤ r.clock

-- What stands under a key without rivals after the deliveries done.
inductive Latest (s : Held P D W C) (done : List (P × Version D W C)) (q : P) : Option (Version D W C) → Prop
  | kept (idle : ∀ x, (q,x) ∈ done → ¬ Live s q x) : Latest s done q (s q)
  | moved {v : Version D W C} (member : (q,v) ∈ done) (live : Live s q v)
      (above : ∀ x, (q,x) ∈ done → Live s q x → x.clock ≤ v.clock) : Latest s done q (some v)

def Single (s : Held P D W C) (items : List (P × Version D W C)) (q : P) : Prop :=
  ∀ h h', Latest s items q h → Latest s items q h' → h = h'

-- Without rivals a key ends with one version, and the forks that only some orders
-- make repeat that version. With rivals it takes no fork itself.
def Arranged (fork : P → W → P) (s : Held P D W C) (items : List (P × Version D W C)) : Prop :=
  ∀ q, ((∀ r, ¬ Rival s items q r) ∧ ((∃ p g, Firm fork s items q p g) ∨
      Single s items q ∧ ∀ r, Aims fork s items q r → Latest s items q (some r))) ∨
    ((∀ r, ¬ Aims fork s items q r) ∧ ((∃ l, Kept s items q l) ∨ ∃ g, Overruled s items q g))

def came (s : Held P D W C) (done : List (P × Version D W C)) (q : P) : Set C :=
  { c | (∃ l, s q = some l ∧ l.clock = c) ∨ ∃ x, (q,x) ∈ done ∧ x.clock = c }

-- The clock is the join of all that came.
structure Joined (s : Held P D W C) (done : List (P × Version D W C)) (q : P) (h : Option (Version D W C)) : Prop where
  absent : h = none → ∀ c, c ∉ came s done q
  join : ∀ v, h = some v → IsLUB (came s done q) v.clock

structure Stands (fork : P → W → P) (s : Held P D W C) (items done : List (P × Version D W C)) (t : Held P D W C) :
    Prop where
  latest : ∀ q, (∀ r, ¬ Rival s items q r) → Latest s done q (t q) ∨ ∃ r, Aims fork s items q r ∧ t q = some r
  joined : ∀ q, (∀ r, ¬ Aims fork s items q r) → Joined s done q (t q)
  kept : ∀ q l, (∀ r, ¬ Aims fork s items q r) → Kept s items q l → ∃ c, t q = some { l with clock := c }
  overruled : ∀ q g, (∀ r, ¬ Aims fork s items q r) → Overruled s items q g → (q,g) ∈ done → t q = some g
  firm : ∀ q p g, (∀ r, ¬ Aims fork s items p r) → Firm fork s items q p g → (p,g) ∈ done → t q = some g

variable {s t : Held P D W C} {items done : List (P × Version D W C)} {g l r x : Version D W C} {k p q : P}
  {h : Option (Version D W C)}

theorem not_live (covered : ¬ Live s p r) : ∃ l, s p = some l ∧ r.clock ≤ l.clock := by
  unfold Live at covered
  push Not at covered
  exact covered

theorem Live.mono (live : Live s p r) (le : r.clock ≤ x.clock) : Live s p x :=
  fun l held below => live l held (le.trans below)

theorem Fresh.live (fresh : Fresh s items p r) : Live s p r := by
  obtain ⟨u,low,_,above⟩ := fresh
  exact fun l held below => above (below.trans (low l held))

omit [SemilatticeSup C] in
theorem mem_came_cons : c ∈ came s ((p,r) :: done) p ↔ c ∈ came s done p ∨ r.clock = c := by
  simp only [came,Set.mem_ofPred_eq,List.mem_cons,Prod.mk.injEq,true_and]
  constructor
  · rintro (held | ⟨x,rfl | before,rfl⟩)
    · exact .inl (.inl held)
    · exact .inr rfl
    · exact .inl (.inr ⟨x,before,rfl⟩)
  · rintro ((held | ⟨x,before,rfl⟩) | rfl)
    · exact .inl held
    · exact .inr ⟨x,.inr before,rfl⟩
    · exact .inr ⟨r,.inl rfl,rfl⟩

theorem Joined.step (joined : Joined s done p h) : Joined s ((p,r) :: done) p (some (settleAt h r)) := by
  refine ⟨nofun,?_⟩
  intro v now
  cases Option.some.inj now
  have all : came s ((p,r) :: done) p = came s done p ∪ {r.clock} := by
    ext c
    exact mem_came_cons.trans (or_congr_right eq_comm)
  rw [all]
  cases h with
  | none =>
    have empty : came s done p = ∅ := Set.eq_empty_of_forall_notMem (joined.absent rfl)
    rw [empty,Set.empty_union]
    exact isLUB_singleton
  | some l =>
    rw [settleAt,settle_clock]
    exact (joined.join l rfl).union isLUB_singleton

theorem Joined.above (joined : Joined s done p (some l)) (held : s p = some x) : x.clock ≤ l.clock :=
  (joined.join l rfl).1 (.inl ⟨x,held,rfl⟩)

theorem Joined.covers (joined : Joined s done p (some l)) (before : (p,x) ∈ done) : x.clock ≤ l.clock :=
  (joined.join l rfl).1 (.inr ⟨x,before,rfl⟩)

theorem Joined.least (joined : Joined s done p (some l)) (low : ∀ x, s p = some x → x.clock ≤ u)
    (others : ∀ x, (p,x) ∈ done → x.clock ≤ u) : l.clock ≤ u := by
  apply (joined.join l rfl).2
  rintro c (⟨x,held,rfl⟩ | ⟨x,before,rfl⟩)
  · exact low x held
  · exact others x before

-- A fresh version that is covered has come before, or one above it has.
theorem Joined.seen (joined : Joined s done p (some l)) (inside : ∀ item ∈ done, item ∈ items)
    (fresh : Fresh s items p g) (covered : g.clock ≤ l.clock) : ∃ y, (p,y) ∈ done ∧ g.clock ≤ y.clock := by
  obtain ⟨u,low,rest,above⟩ := fresh
  by_contra none
  push Not at none
  exact above (covered.trans (joined.least low (fun x m => rest x (inside _ m) (none x m))))

theorem Joined.rival (joined : Joined s done p (t p)) (inside : ∀ item ∈ done, item ∈ items) (member : (p,r) ∈ items)
    (clashes : Clashes t p r) : Rival s items p r := by
  obtain ⟨v,now,clash⟩ := clashes
  rw [now] at joined
  have live : Live s p r := fun l held below => clash.1 (below.trans (joined.above held))
  refine ⟨member,live,?_⟩
  -- Were r above the held version and all live ones that came, it would be above their join.
  by_contra none
  obtain ⟨noHeld,noOther⟩ := not_or.mp none
  have held_le : ∀ l, s p = some l → l.clock ≤ r.clock := by
    intro l held
    by_contra above
    exact noHeld ⟨l,held,live l held,above⟩
  refine clash.2 (joined.least held_le ?_)
  intro x before
  by_cases liveX : Live s p x
  · by_contra above
    refine noOther ⟨x,inside _ before,liveX,?_,above⟩
    exact fun below => clash.1 (below.trans (joined.covers before))
  · obtain ⟨l,held,below⟩ := not_live liveX
    exact below.trans (held_le l held)

section
variable (calm : ∀ r, ¬ Rival s items p r)
include calm

theorem local_le_of_calm (member : (p,r) ∈ items) (live : Live s p r) (held : s p = some l) : l.clock ≤ r.clock := by
  by_contra above
  exact calm r ⟨member,live,.inl ⟨l,held,live l held,above⟩⟩

theorem chain_of_calm (member : (p,r) ∈ items) (other : (p,x) ∈ items) (live : Live s p r) (liveX : Live s p x) :
    r.clock ≤ x.clock ∨ x.clock ≤ r.clock := by
  by_contra apart
  obtain ⟨left,right⟩ := not_or.mp apart
  exact calm r ⟨member,live,.inr ⟨x,other,liveX,left,right⟩⟩

-- A version at which the key would end covers all its deliveries.
theorem Latest.covers (latest : Latest s items p (some g)) (member : (p,r) ∈ items) : r.clock ≤ g.clock := by
  by_cases live : Live s p r
  · generalize same : some g = h at latest
    cases latest with
    | kept idle => exact absurd live (idle r member)
    | moved _ _ above =>
      cases same
      exact above r member live
  · obtain ⟨l,held,below⟩ := not_live live
    generalize same : some g = h at latest
    cases latest with
    | kept =>
      cases same.trans held
      exact below
    | moved inside liveG _ =>
      cases same
      exact below.trans (local_le_of_calm calm inside liveG held)

-- The delivery is taken or has been covered already.
theorem Latest.step (inside : ∀ item ∈ done, item ∈ items) (member : (p,r) ∈ items) (latest : Latest s done p h) :
    (∀ l, h = some l → ¬ Clash l.clock r.clock) ∧ Latest s ((p,r) :: done) p (some (settleAt h r)) := by
  have now_or : ∀ x, (p,x) ∈ (p,r) :: done → x = r ∨ (p,x) ∈ done := by
    intro x m
    simpa using m
  cases latest with
  | kept idle =>
    by_cases live : Live s p r
    · have takes : settleAt (s p) r = r := by
        cases held : s p with
        | none => rfl
        | some l => exact settle_newer (live l held) (local_le_of_calm calm member live held)
      refine ⟨fun l held clash => clash.2 (local_le_of_calm calm member live held),?_⟩
      rw [takes]
      refine .moved List.mem_cons_self live ?_
      intro x m liveX
      rcases now_or x m with rfl | before
      · exact le_refl _
      · exact absurd liveX (idle x before)
    · obtain ⟨l,held,covered⟩ := not_live live
      constructor
      · intro l' held' clash
        cases held.symm.trans held'
        exact clash.1 covered
      · have stays : some (settleAt (s p) r) = s p := by rw [held,settleAt,settle_covered covered]
        rw [stays]
        refine .kept ?_
        intro x m
        rcases now_or x m with rfl | before
        · exact live
        · exact idle x before
  | @moved v before liveV above =>
    have compared : r.clock ≤ v.clock ∨ Live s p r ∧ v.clock ≤ r.clock := by
      by_cases live : Live s p r
      · exact (chain_of_calm calm member (inside _ before) live liveV).imp_right (fun le => ⟨live,le⟩)
      · obtain ⟨l,held,covered⟩ := not_live live
        exact .inl (covered.trans (local_le_of_calm calm (inside _ before) liveV held))
    constructor
    · intro l held clash
      cases held
      exact compared.elim clash.1 (fun both => clash.2 both.2)
    · by_cases covered : r.clock ≤ v.clock
      · rw [settleAt,settle_covered covered]
        refine .moved (List.mem_cons_of_mem _ before) liveV ?_
        intro x m liveX
        rcases now_or x m with rfl | m'
        · exact covered
        · exact above x m' liveX
      · obtain ⟨live,le⟩ := compared.resolve_left covered
        rw [settleAt,settle_newer covered le]
        refine .moved List.mem_cons_self live ?_
        intro x m liveX
        rcases now_or x m with rfl | m'
        · exact le_refl _
        · exact (above x m' liveX).trans le

end

theorem Kept.step (keeps : Kept s items p l) (joined : Joined s done p (t p)) (now : t p = some { l with clock := c })
    (member : (p,r) ∈ items) : ∃ c', some (settleAt (t p) r) = some { l with clock := c' } := by
  have above : l.clock ≤ c := by
    rw [now] at joined
    exact joined.above keeps.1
  rw [now,settleAt]
  by_cases covered : r.clock ≤ c
  · exact ⟨c,by rw [settle_covered (show r.clock ≤ ({ l with clock := c } : Version D W C).clock from covered)]⟩
  · have live : Live s p r := by
      intro l' held below
      cases keeps.1.symm.trans held
      exact covered (below.trans above)
    have clash : Clash c r.clock := ⟨covered,fun le => (keeps.2 r member live).2 (above.trans le)⟩
    exact ⟨c ⊔ r.clock,by rw [settle_clash clash]⟩

theorem Overruled.covers (tops : Overruled s items p g) (member : (p,r) ∈ items) : r.clock ≤ g.clock := by
  by_cases live : Live s p r
  · exact (tops.top r member live).1
  · obtain ⟨l,held,below⟩ := not_live live
    exact below.trans (tops.above l held)

theorem Overruled.step (tops : Overruled s items p g) (inside : ∀ item ∈ done, item ∈ items)
    (joined : Joined s done p (t p)) (before : (p,g) ∈ done → t p = some g) (member : (p,r) ∈ items)
    (now : (p,g) ∈ (p,r) :: done) : settleAt (t p) r = g := by
  have stays : t p = some g → settleAt (t p) r = g := by
    intro held
    rw [held,settleAt,settle_covered (tops.covers member)]
  rcases List.mem_cons.mp now with same | earlier
  · obtain rfl := (Prod.mk.inj same).2
    cases held : t p with
    | none => rfl
    | some v =>
      rw [← held]
      rw [held] at joined
      by_cases covered : g.clock ≤ v.clock
      · obtain ⟨y,m,le⟩ := joined.seen inside tops.fresh covered
        have equal : y = g := (tops.top y (inside _ m) (tops.fresh.live.mono le)).2 le
        exact stays (before (equal ▸ m))
      · rw [held,settleAt]
        exact settle_newer covered (joined.least tops.above (fun x m => tops.covers (inside _ m)))
  · exact stays (before earlier)

theorem Latest.elsewhere (latest : Latest s done q h) (other : q ≠ p) : Latest s ((p,r) :: done) q h := by
  have earlier : ∀ x, (q,x) ∈ (p,r) :: done ↔ (q,x) ∈ done := by simp [other]
  cases latest with
  | kept idle => exact .kept (fun x m => idle x ((earlier x).mp m))
  | moved member live above =>
    exact .moved ((earlier _).mpr member) live (fun x m => above x ((earlier x).mp m))

theorem Joined.elsewhere (joined : Joined s done q h) (other : q ≠ p) : Joined s ((p,r) :: done) q h := by
  have same : came s ((p,r) :: done) q = came s done q := by
    ext c
    simp [came,other]
  exact ⟨same ▸ joined.absent,same ▸ joined.join⟩

section
variable (arranged : Arranged fork s items)
include arranged

theorem Arranged.untargeted (rival : Rival s items p r) : ∀ x, ¬ Aims fork s items p x := by
  rcases arranged p with ⟨calm,_⟩ | ⟨free,_⟩
  · exact absurd rival (calm r)
  · exact free

-- A fork is above whatever is delivered under its key.
theorem Arranged.room (aims : Aims fork s items q r) (member : (q,x) ∈ items) : x.clock ≤ r.clock := by
  rcases arranged q with ⟨calm,⟨p,g,firm⟩ | ⟨_,ends⟩⟩ | ⟨free,_⟩
  · exact firm.room r aims x member
  · exact (ends r aims).covers calm member
  · exact absurd aims (free r)

variable (inside : ∀ item ∈ done, item ∈ items) (member : (p,r) ∈ items) (stands : Stands fork s items done t)
include inside member stands

theorem Stands.rival (clashes : Clashes t p r) : Rival s items p r := by
  by_cases free : ∀ x, ¬ Aims fork s items p x
  · exact (stands.joined p free).rival inside member clashes
  -- Under a key that takes forks nothing clashes.
  have calm : ∀ x, ¬ Rival s items p x := fun x rival => free (arranged.untargeted rival)
  obtain ⟨l,now,clash⟩ := clashes
  rcases stands.latest p calm with latest | ⟨x,aims,held⟩
  · exact absurd clash ((latest.step calm inside member).1 l now)
  · cases now.symm.trans held
    exact absurd (arranged.room aims member) clash.1

theorem Stands.step_here : (∀ x, ¬ Rival s items p x) → Latest s ((p,r) :: done) p (some (settleAt (t p) r)) ∨
    ∃ x, Aims fork s items p x ∧ settleAt (t p) r = x := by
  intro calm
  rcases stands.latest p calm with latest | ⟨x,aims,held⟩
  · exact .inl (latest.step calm inside member).2
  · refine .inr ⟨x,aims,?_⟩
    rw [held,settleAt,settle_covered (arranged.room aims member)]

-- The firm version is forked when it arrives, unless it has been before.
theorem Stands.step_firm (away : ∀ p w, fork p w ≠ p) (free : ∀ x, ¬ Aims fork s items k x)
    (firm : Firm fork s items q k g) (now : (k,g) ∈ (p,r) :: done) : deliver fork t p r q = some g := by
  obtain ⟨l,keeps⟩ := firm.kept
  have clash : Clash l.clock g.clock := keeps.2 g firm.member firm.fresh.live
  have rival : Rival s items k g := ⟨firm.member,firm.fresh.live,.inl ⟨l,keeps.1,clash⟩⟩
  obtain ⟨c,held⟩ := stands.kept k l free keeps
  have joined := stands.joined k free
  rw [held] at joined
  by_cases before : (k,g) ∈ done
  · have stays := stands.firm q k g free firm before
    by_cases here : q = p
    · subst here
      rw [deliver_here,stays,settleAt,settle_covered (firm.room g ⟨k,rival,firm.target⟩ r member)]
    · rw [deliver_away here,stays]
      rintro ⟨clashes,target⟩
      have line := firm.line p r (stands.rival arranged inside member clashes) target.symm
      obtain ⟨rfl,le⟩ := line
      obtain ⟨v,held',clash'⟩ := clashes
      cases held.symm.trans held'
      exact clash'.1 (le.trans (joined.covers before))
  · have same := (List.mem_cons.mp now).resolve_right before
    obtain ⟨rfl,rfl⟩ := Prod.mk.inj same
    obtain rfl := firm.target
    refine deliver_fork ⟨_,held,?_,fun le => clash.2 ((joined.above keeps.1).trans le)⟩ (away _ _)
    intro covered
    obtain ⟨y,m,le⟩ := joined.seen inside firm.fresh covered
    exact before (firm.last y (inside _ m) le ▸ m)

theorem Stands.step (away : ∀ p w, fork p w ≠ p) : Stands fork s items ((p,r) :: done) (deliver fork t p r) := by
  have drop : ∀ {q}, Clashes t p r ∧ q = fork p r.writer → Aims fork s items q r := fun both =>
    ⟨p,stands.rival arranged inside member both.1,both.2.symm⟩
  have still : ∀ {q}, (∀ x, ¬ Aims fork s items q x) → q ≠ p → deliver fork t p r q = t q := fun free other =>
    deliver_away other (fun both => free r (drop both))
  refine ⟨?_,?_,?_,?_,?_⟩
  · intro q calm
    by_cases here : q = p
    · subst here
      rw [deliver_here]
      exact (stands.step_here arranged inside member calm).imp_right
        (fun ⟨x,aims,same⟩ => ⟨x,aims,congrArg some same⟩)
    · by_cases forked : Clashes t p r ∧ q = fork p r.writer
      · obtain ⟨clashes,rfl⟩ := forked
        exact .inr ⟨r,drop ⟨clashes,rfl⟩,deliver_fork clashes here⟩
      · rw [deliver_away here forked]
        exact (stands.latest q calm).imp_left (fun latest => latest.elsewhere here)
  · intro q free
    by_cases here : q = p
    · subst here
      rw [deliver_here]
      exact (stands.joined q free).step
    · rw [still free here]
      exact (stands.joined q free).elsewhere here
  · intro q l free keeps
    obtain ⟨c,held⟩ := stands.kept q l free keeps
    by_cases here : q = p
    · subst here
      rw [deliver_here]
      exact keeps.step (stands.joined q free) held member
    · rw [still free here]
      exact ⟨c,held⟩
  · intro q g free tops now
    by_cases here : q = p
    · subst here
      rw [deliver_here]
      exact congrArg some (tops.step inside (stands.joined q free) (stands.overruled q g free tops) member now)
    · rw [still free here]
      refine stands.overruled q g free tops ((List.mem_cons.mp now).resolve_left ?_)
      exact fun same => here (Prod.mk.inj same).1
  · intro q k g free firm now
    exact stands.step_firm arranged inside member away free firm now

end

theorem Stands.start (fork : P → W → P) (s : Held P D W C) (items : List (P × Version D W C)) :
    Stands fork s items [] s := by
  refine ⟨fun _ _ => .inl (.kept nofun),fun q _ => ⟨?_,?_⟩,fun q l _ keeps => ⟨l.clock,keeps.1⟩,nofun,nofun⟩
  · rintro absent c (⟨l,held,_⟩ | ⟨_,before,_⟩)
    · cases absent.symm.trans held
    · exact nomatch before
  · intro v held
    have only : came s [] q = {v.clock} := by
      ext c
      simp [came,held,eq_comm]
    rw [only]
    exact isLUB_singleton

theorem Stands.run (away : ∀ p w, fork p w ≠ p) (arranged : Arranged fork s items)
    (inside : ∀ item, item ∈ done ∨ item ∈ todo → item ∈ items) (stands : Stands fork s items done t) :
    Stands fork s items (todo.reverse ++ done) (deliverAll fork t todo) := by
  induction todo generalizing done t with
  | nil => exact stands
  | cons item rest ih =>
    obtain ⟨p,r⟩ := item
    have next := stands.step arranged (fun item m => inside item (.inl m)) (inside _ (.inr List.mem_cons_self)) away
    have still : ∀ item, item ∈ (p,r) :: done ∨ item ∈ rest → item ∈ items := by
      intro item m
      apply inside item
      simp only [List.mem_cons] at m ⊢
      tauto
    rw [List.reverse_cons,List.append_assoc]
    exact ih still next

theorem Latest.congr (all : ∀ item, item ∈ done ↔ item ∈ items) (latest : Latest s done q h) : Latest s items q h := by
  cases latest with
  | kept idle => exact .kept (fun x m => idle x ((all _).mpr m))
  | moved member live above => exact .moved ((all _).mp member) live (fun x m => above x ((all _).mpr m))

section
variable {t t' : Held P D W C} {done done' : List (P × Version D W C)} (all : ∀ item, item ∈ done ↔ item ∈ items)
  (all' : ∀ item, item ∈ done' ↔ item ∈ items) (one : Stands fork s items done t) (two : Stands fork s items done' t')
include all all' one two

theorem Stands.same_calm (calm : ∀ r, ¬ Rival s items q r) (single : Single s items q)
    (ends : ∀ r, Aims fork s items q r → Latest s items q (some r)) : t q = t' q := by
  apply single
  · rcases one.latest q calm with latest | ⟨r,aims,held⟩
    · exact latest.congr all
    · exact held ▸ ends r aims
  · rcases two.latest q calm with latest | ⟨r,aims,held⟩
    · exact latest.congr all'
    · exact held ▸ ends r aims

theorem Stands.same_kept (free : ∀ r, ¬ Aims fork s items q r) (keeps : Kept s items q l) : t q = t' q := by
  obtain ⟨c,held⟩ := one.kept q l free keeps
  obtain ⟨c',held'⟩ := two.kept q l free keeps
  have same : came s done q = came s done' q := by
    simp only [came,all,all']
  have join := (one.joined q free).join _ held
  have join' := (two.joined q free).join _ held'
  rw [← same] at join'
  have equal : c = c' := join.unique join'
  rw [held,held',equal]

-- What stands under each key does not depend on the order of the deliveries.
theorem Stands.same (arranged : Arranged fork s items) : t = t' := by
  funext q
  rcases arranged q with ⟨calm,⟨p,g,firm⟩ | ⟨single,ends⟩⟩ | ⟨free,⟨l,keeps⟩ | ⟨g,tops⟩⟩
  · obtain ⟨l,keeps⟩ := firm.kept
    have clash := keeps.2 g firm.member firm.fresh.live
    have free := arranged.untargeted ⟨firm.member,firm.fresh.live,.inl ⟨l,keeps.1,clash⟩⟩
    rw [one.firm q p g free firm ((all _).mpr firm.member),two.firm q p g free firm ((all' _).mpr firm.member)]
  · exact one.same_calm all all' two calm single ends
  · exact one.same_kept all all' two free keeps
  · rw [one.overruled q g free tops ((all _).mpr tops.member),two.overruled q g free tops ((all' _).mpr tops.member)]

end

theorem Arranged.deliverAll_perm (away : ∀ p w, fork p w ≠ p) (arranged : Arranged fork s items)
    (perm : items.Perm items') : deliverAll fork s items = deliverAll fork s items' := by
  have run : ∀ todo, items.Perm todo → Stands fork s items (todo.reverse ++ []) (deliverAll fork s todo) := by
    intro todo same
    refine Stands.run away arranged (fun item m => ?_) (Stands.start fork s items)
    exact m.elim (fun wrong => nomatch wrong) same.mem_iff.mpr
  exact (run _ (.refl _)).same (fun item => by simp) (fun item => by simp [perm.mem_iff]) (run _ perm) arranged

end
end ForkMap
