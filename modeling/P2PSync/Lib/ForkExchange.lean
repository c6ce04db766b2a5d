import P2PSync.Lib.ForkMap

-- Two fork maps that take each other's snapshot, one version per key.
namespace ForkMap
section
variable {P D W C : Type} [SemilatticeSup C]

-- The forks that delivering the items puts under a key, judged on the state before.
def Drops (fork : P → W → P) (s : Held P D W C) (items : List (P × Version D W C)) (q : P) (v : Version D W C) : Prop :=
  ∃ p, (p,v) ∈ items ∧ Clashes s p v ∧ fork p v.writer = q

-- A delivery under a key that takes forks does not clash with a fork.
def Calm (fork : P → W → P) (s : Held P D W C) (items : List (P × Version D W C)) : Prop :=
  ∀ q v r, Drops fork s items q v → (q,r) ∈ items → ¬ Clash v.clock r.clock

-- What the delivery r leaves under a key that takes forks.
def Leaves (fork : P → W → P) (s : Held P D W C) (items : List (P × Version D W C)) (q : P) (r x : Version D W C) : Prop :=
  x = settleAt (s q) r ∨ Drops fork s items q x ∨ x = r ∧ ∃ v, Drops fork s items q v ∧ v.clock ≤ r.clock

structure Progress (fork : P → W → P) (s : Held P D W C) (items done : List (P × Version D W C))
    (t : Held P D W C) : Prop where
  settled : ∀ q r, (∀ v, ¬ Drops fork s items q v) → (q,r) ∈ done → t q = some (settleAt (s q) r)
  waiting : ∀ q, (∀ r, (q,r) ∉ done) → t q = s q ∨ ∃ v, Drops fork s items q v ∧ t q = some v
  taken : ∀ q r, (q,r) ∈ done → ∃ x, t q = some x ∧ Leaves fork s items q r x
  landed : ∀ p v, (∀ u, ¬ Drops fork s items p u) → (p,v) ∈ done → Clashes s p v →
    (∀ r, (fork p v.writer,r) ∉ items) → ∃ x, t (fork p v.writer) = some x ∧ Drops fork s items (fork p v.writer) x

section
variable {fork : P → W → P} {s t : Held P D W C} {items done : List (P × Version D W C)} {p q : P} {r : Version D W C}

theorem Progress.clashes (progress : Progress fork s items done t) (calm : Calm fork s items) (member : (p,r) ∈ items)
    (new : ∀ y, (p,y) ∉ done) (clashes : Clashes t p r) : Clashes s p r := by
  obtain ⟨l,held,clash⟩ := clashes
  rcases progress.waiting p new with same | ⟨v,drops,taken⟩
  · exact ⟨l,same ▸ held,clash⟩
  · cases held.symm.trans taken
    exact absurd clash (calm p l r drops member)

-- The delivered key: a fork it meets covers the delivery or is covered by it.
theorem Progress.step_here (progress : Progress fork s items done t) (calm : Calm fork s items)
    (member : (p,r) ∈ items) (new : ∀ y, (p,y) ∉ done) : Leaves fork s items p r (settleAt (t p) r) := by
  rcases progress.waiting p new with same | ⟨v,drops,held⟩
  · exact .inl (by rw [same])
  · rw [held,settleAt]
    by_cases covered : r.clock ≤ v.clock
    · rw [settle_covered covered]
      exact .inr (.inl drops)
    · by_cases newer : v.clock ≤ r.clock
      · rw [settle_newer covered newer]
        exact .inr (.inr ⟨rfl,v,drops,newer⟩)
      · exact absurd ⟨covered,newer⟩ (calm p v r drops member)

theorem Progress.step (away : ∀ p w, fork p w ≠ p) (progress : Progress fork s items done t) (calm : Calm fork s items)
    (member : (p,r) ∈ items) (new : ∀ y, (p,y) ∉ done) :
    Progress fork s items (done ++ [(p,r)]) (deliver fork t p r) := by
  have drop : Clashes t p r → Drops fork s items (fork p r.writer) r := fun clashes =>
    ⟨p,member,progress.clashes calm member new clashes,rfl⟩
  -- Under any other key there is what was there before or the fork.
  have away_or : ∀ q, q ≠ p → deliver fork t p r q = t q ∨
      Drops fork s items q r ∧ deliver fork t p r q = some r := by
    intro q other
    by_cases forked : Clashes t p r ∧ q = fork p r.writer
    · obtain ⟨clashes,rfl⟩ := forked
      exact .inr ⟨drop clashes,deliver_fork clashes other⟩
    · exact .inl (deliver_away other forked)
  have earlier : ∀ q y, (q,y) ∈ done ++ [(p,r)] → (q,y) ∈ done ∧ q ≠ p ∨ q = p ∧ y = r := by
    intro q y inside
    rcases List.mem_append.mp inside with before | last
    · exact .inl ⟨before,fun same => new y (same ▸ before)⟩
    · exact .inr (Prod.mk.inj (List.mem_singleton.mp last))
  refine ⟨?_,?_,?_,?_⟩
  · intro q y free inside
    rcases earlier q y inside with ⟨before,other⟩ | ⟨rfl,rfl⟩
    · rw [(away_or q other).resolve_right (fun both => free r both.1)]
      exact progress.settled q y free before
    · have same : t q = s q := (progress.waiting q new).resolve_right (fun ⟨v,drops,_⟩ => free v drops)
      rw [deliver_here,same]
  · intro q outside
    have other : q ≠ p := fun same => outside r (by rw [same]; exact List.mem_append_right _ (List.mem_singleton_self _))
    rcases away_or q other with same | ⟨drops,now⟩
    · rw [same]
      exact progress.waiting q (fun y before => outside y (List.mem_append_left _ before))
    · exact .inr ⟨r,drops,now⟩
  · intro q y inside
    rcases earlier q y inside with ⟨before,other⟩ | ⟨rfl,rfl⟩
    · rcases away_or q other with same | ⟨drops,now⟩
      · rw [same]
        exact progress.taken q y before
      · exact ⟨r,now,.inr (.inl drops)⟩
    · exact ⟨_,deliver_here t q y,progress.step_here calm member new⟩
  · intro k v free inside clashes absent
    have other : fork k v.writer ≠ p := fun same => absent r (same ▸ member)
    rcases earlier k v inside with ⟨before,_⟩ | ⟨rfl,rfl⟩
    · rcases away_or _ other with same | ⟨drops,now⟩
      · rw [same]
        exact progress.landed k v free before clashes absent
      · exact ⟨r,now,drops⟩
    · have same : t k = s k := (progress.waiting k new).resolve_right (fun ⟨u,drops,_⟩ => free u drops)
      have clashesNow : Clashes t k v := by
        rw [Clashes,same]
        exact clashes
      exact ⟨v,deliver_fork clashesNow (away _ _),drop clashesNow⟩

theorem Progress.run (away : ∀ p w, fork p w ≠ p) (calm : Calm fork s items) (nodup : (items.map Prod.fst).Nodup)
    (whole : done ++ todo = items) (progress : Progress fork s items done t) :
    Progress fork s items items (deliverAll fork t todo) := by
  induction todo generalizing done t with
  | nil =>
    rw [List.append_nil] at whole
    exact whole ▸ progress
  | cons item rest ih =>
    obtain ⟨p,r⟩ := item
    have member : (p,r) ∈ items := by simp [← whole]
    have new : ∀ y, (p,y) ∉ done := by
      intro y before
      rw [← whole,List.map_append,List.map_cons] at nodup
      exact List.disjoint_of_nodup_append nodup (List.mem_map_of_mem before) List.mem_cons_self
    have shifted : (done ++ [(p,r)]) ++ rest = items := by rw [List.append_assoc,List.singleton_append,whole]
    exact ih shifted (progress.step away calm member new)

theorem deliverAll_progress (away : ∀ p w, fork p w ≠ p) (calm : Calm fork s items)
    (nodup : (items.map Prod.fst).Nodup) : Progress fork s items items (deliverAll fork s items) := by
  refine Progress.run away calm nodup (List.nil_append _) ⟨?_,?_,?_,?_⟩
  · exact fun _ _ _ inside => nomatch inside
  · exact fun _ _ => .inl rfl
  · exact fun _ _ inside => nomatch inside
  · exact fun _ _ _ inside => nomatch inside

end

-- A snapshot: every held version once.
structure Lists (s : Held P D W C) (items : List (P × Version D W C)) : Prop where
  mem_iff : ∀ p v, (p,v) ∈ items ↔ s p = some v
  nodup : (items.map Prod.fst).Nodup

def Contested (a b : Held P D W C) (p : P) (l r : Version D W C) : Prop :=
  a p = some l ∧ b p = some r ∧ Clash l.clock r.clock

-- A version of b's that the exchange forks to the key q of a.
def Lands (fork : P → W → P) (a b : Held P D W C) (q : P) (v : Version D W C) : Prop :=
  ∃ p l, Contested a b p l v ∧ fork p v.writer = q

noncomputable def took (mine theirs : Option (Version D W C)) : Option (Version D W C) :=
  match theirs with
  | none => mine
  | some r => some (settleAt mine r)

-- The clocks that the exchange can leave under the key q of a.
def MayLeave (fork : P → W → P) (a b : Held P D W C) (q : P) (c : C) : Prop :=
  (took (a q) (b q)).map Version.clock = some c ∨ (∃ v, Lands fork a b q v ∧ v.clock = c) ∨
    ∃ r v, b q = some r ∧ r.clock = c ∧ Lands fork a b q v ∧ v.clock ≤ c

-- Under a fork key the snapshot does not clash with a fork, nor what one side
-- can be left with with what the other can.
structure Tame (fork : P → W → P) (a b : Held P D W C) : Prop where
  left : ∀ q v r, Lands fork a b q v → b q = some r → ¬ Clash v.clock r.clock
  right : ∀ q v l, Lands fork b a q v → a q = some l → ¬ Clash v.clock l.clock
  meet : ∀ q c d, MayLeave fork a b q c → MayLeave fork b a q d → ¬ Clash c d

def Level (a b : Held P D W C) : Prop := ∀ p, (a p).map Version.clock = (b p).map Version.clock

section
variable {fork : P → W → P} {a b : Held P D W C} {as bs : List (P × Version D W C)} {p q : P} {v x y : Version D W C}

theorem Contested.symm {l r : Version D W C} (contested : Contested a b p l r) : Contested b a p r l :=
  ⟨contested.2.1,contested.1,contested.2.2.symm⟩

theorem Tame.symm (tame : Tame fork a b) : Tame fork b a :=
  ⟨tame.right,tame.left,fun q c d leftC leftD clash => tame.meet q d c leftD leftC clash.symm⟩

theorem Lists.contested (lists : Lists b bs) (member : (p,v) ∈ bs) (clashes : Clashes a p v) :
    ∃ l, Contested a b p l v := by
  obtain ⟨l,held,clash⟩ := clashes
  exact ⟨l,held,(lists.mem_iff p v).mp member,clash⟩

theorem Lists.lands (lists : Lists b bs) (drops : Drops fork a bs q v) : Lands fork a b q v := by
  obtain ⟨p,member,clashes,target⟩ := drops
  obtain ⟨l,contested⟩ := lists.contested member clashes
  exact ⟨p,l,contested,target⟩

theorem Tame.calm (tame : Tame fork a b) (lists : Lists b bs) : Calm fork a bs := fun q v r drops member =>
  tame.left q v r (lists.lands drops) ((lists.mem_iff q r).mp member)

-- What one side holds under a key no fork lands on.
theorem Progress.exact (progress : Progress fork a bs bs t) (lists : Lists b bs)
    (free : ∀ v, ¬ Drops fork a bs p v) : t p = took (a p) (b p) := by
  cases held : b p with
  | none =>
    refine (progress.waiting p (fun r member => ?_)).resolve_right (fun ⟨v,drops,_⟩ => free v drops)
    cases held.symm.trans ((lists.mem_iff p r).mp member)
  | some r => exact progress.settled p r free ((lists.mem_iff p r).mpr held)

theorem took_clock (mine theirs : Option (Version D W C)) :
    (took mine theirs).map Version.clock = (took theirs mine).map Version.clock := by
  cases mine with
  | none =>
    cases theirs with
    | none => rfl
    | some r => rfl
  | some l =>
    cases theirs with
    | none => rfl
    | some r => simp [took,settleAt,settle_clock,sup_comm]

theorem not_clash_of_level (same : (a p).map Version.clock = (b p).map Version.clock) (left : a p = some x)
    (right : b p = some y) : ¬ Clash x.clock y.clock := by
  rw [left,right] at same
  have equal : x.clock = y.clock := Option.some.inj same
  exact fun clash => clash.1 equal.ge

variable (away : ∀ p w, fork p w ≠ p)
include away

theorem mayLeave_exchange (tame : Tame fork a b) (lists : Lists b bs) (now : deliverAll fork a bs q = some x) :
    MayLeave fork a b q x.clock := by
  have progress := deliverAll_progress away (tame.calm lists) lists.nodup
  cases held : b q with
  | none =>
    have absent : ∀ r, (q,r) ∉ bs := by
      intro r member
      cases held.symm.trans ((lists.mem_iff q r).mp member)
    rcases progress.waiting q absent with same | ⟨v,drops,taken⟩
    · refine .inl ?_
      rw [held,took,← same,now]
      rfl
    · cases now.symm.trans taken
      exact .inr (.inl ⟨x,lists.lands drops,rfl⟩)
  | some r =>
    obtain ⟨y,shown,leaves⟩ := progress.taken q r ((lists.mem_iff q r).mpr held)
    cases now.symm.trans shown
    rcases leaves with rfl | drops | ⟨rfl,v,drops,le⟩
    · exact .inl (by rw [held]; rfl)
    · exact .inr (.inl ⟨x,lists.lands drops,rfl⟩)
    · exact .inr (.inr ⟨x,v,held,rfl,lists.lands drops,le⟩)

-- After one exchange nothing clashes.
theorem uncontested_exchange (tame : Tame fork a b) (listsA : Lists a as) (listsB : Lists b bs) (p : P)
    (l r : Version D W C) : ¬ Contested (deliverAll fork a bs) (deliverAll fork b as) p l r := by
  rintro ⟨left,right,clash⟩
  exact tame.meet p _ _ (mayLeave_exchange away tame listsB left) (mayLeave_exchange away tame.symm listsA right) clash

theorem level_exchange (uncontested : ∀ p l r, ¬ Contested a b p l r) (listsA : Lists a as) (listsB : Lists b bs) :
    Level (deliverAll fork a bs) (deliverAll fork b as) := by
  have freeA : ∀ q v, ¬ Drops fork a bs q v := by
    intro q v drops
    obtain ⟨p,l,contested,_⟩ := listsB.lands drops
    exact uncontested p l v contested
  have freeB : ∀ q v, ¬ Drops fork b as q v := by
    intro q v drops
    obtain ⟨p,l,contested,_⟩ := listsA.lands drops
    exact uncontested p v l contested.symm
  have left := deliverAll_progress away (fun q v r drops => absurd drops (freeA q v)) listsB.nodup
  have right := deliverAll_progress away (fun q v r drops => absurd drops (freeB q v)) listsA.nodup
  intro p
  rw [left.exact listsB (freeA p),right.exact listsA (freeB p)]
  exact took_clock (a p) (b p)

end

-- One contested key, and both versions of it have the same writer: each side's
-- fork lands under the key where the other side puts its own.
structure Twin (fork : P → W → P) (size : P → ℕ) (a b : Held P D W C) (q : P) (w : W) : Prop where
  meets : ∃ x y, Contested a b q x y ∧ x.writer = w ∧ y.writer = w
  alone : ∀ p l r, Contested a b p l r → p = q
  small : ∀ p, a p ≠ none ∨ b p ≠ none → p ≠ fork q w ∧ size p ≤ size (fork q w)

section
variable {fork : P → W → P} {size : P → ℕ} {a b : Held P D W C} {as bs : List (P × Version D W C)} {q : P} {w : W}

theorem Twin.symm (twin : Twin fork size a b q w) : Twin fork size b a q w := by
  obtain ⟨x,y,contested,writerX,writerY⟩ := twin.meets
  exact ⟨⟨y,x,contested.symm,writerY,writerX⟩,fun p l r contested => twin.alone p r l contested.symm,
    fun p held => twin.small p held.symm⟩

theorem Twin.drops (twin : Twin fork size a b q w) (lists : Lists b bs) (drops : Drops fork a bs k v) :
    k = fork q w ∧ b q = some v := by
  obtain ⟨p,member,clashes,target⟩ := drops
  obtain ⟨l,contested⟩ := lists.contested member clashes
  obtain rfl := twin.alone p l v contested
  obtain ⟨x,y,⟨_,heldY,_⟩,_,writerY⟩ := twin.meets
  have same : some v = some y := contested.2.1.symm.trans heldY
  cases same
  rw [writerY] at target
  exact ⟨target.symm,heldY⟩

theorem Twin.unlisted (twin : Twin fork size a b q w) (lists : Lists b bs) (r : Version D W C) : (fork q w,r) ∉ bs := by
  intro member
  have held := (lists.mem_iff _ _).mp member
  exact (twin.small (fork q w) (.inr (by simp [held]))).1 rfl

variable (away : ∀ p w, fork p w ≠ p)
include away

theorem Twin.progress (twin : Twin fork size a b q w) (lists : Lists b bs) :
    Progress fork a bs bs (deliverAll fork a bs) := by
  refine deliverAll_progress away ?_ lists.nodup
  intro k v r drops member
  obtain ⟨rfl,_⟩ := twin.drops lists drops
  exact absurd member (twin.unlisted lists r)

theorem Twin.elsewhere (twin : Twin fork size a b q w) (lists : Lists b bs) (other : p ≠ fork q w) :
    deliverAll fork a bs p = took (a p) (b p) :=
  (twin.progress away lists).exact lists (fun _ drops => other (twin.drops lists drops).1)

theorem Twin.lands (twin : Twin fork size a b q w) (lists : Lists b bs) : deliverAll fork a bs (fork q w) = b q := by
  obtain ⟨x,y,⟨heldX,heldY,clash⟩,_,writerY⟩ := twin.meets
  have free : ∀ u, ¬ Drops fork a bs q u := fun u drops => away q w (twin.drops lists drops).1.symm
  have landed := (twin.progress away lists).landed q y free ((lists.mem_iff q y).mpr heldY) ⟨x,heldX,clash⟩
  rw [writerY] at landed
  obtain ⟨v,now,drops⟩ := landed (twin.unlisted lists)
  rw [now,(twin.drops lists drops).2]

theorem Twin.exchange (grows : ∀ p w, size p < size (fork p w)) (twin : Twin fork size a b q w) (listsA : Lists a as)
    (listsB : Lists b bs) : Twin fork size (deliverAll fork a bs) (deliverAll fork b as) (fork q w) w := by
  refine ⟨?_,?_,?_⟩
  · obtain ⟨x,y,⟨heldX,heldY,clash⟩,writerX,writerY⟩ := twin.meets
    exact ⟨y,x,⟨(twin.lands away listsB).trans heldY,(twin.symm.lands away listsA).trans heldX,clash.symm⟩,
      writerY,writerX⟩
  · intro p l r contested
    by_contra other
    have same : (deliverAll fork a bs p).map Version.clock = (deliverAll fork b as p).map Version.clock := by
      rw [twin.elsewhere away listsB other,twin.symm.elsewhere away listsA other]
      exact took_clock _ _
    exact not_clash_of_level same contested.1 contested.2.1 contested.2.2
  · intro p held
    have bound : size p ≤ size (fork q w) := by
      by_cases here : p = fork q w
      · rw [here]
      · rw [twin.elsewhere away listsB here,twin.symm.elsewhere away listsA here] at held
        refine (twin.small p ?_).2
        by_contra absent
        obtain ⟨noA,noB⟩ := not_or.mp absent
        rw [not_not.mp noA,not_not.mp noB] at held
        exact held.elim (fun wrong => wrong rfl) (fun wrong => wrong rfl)
    have less := Nat.lt_of_le_of_lt bound (grows (fork q w) w)
    exact ⟨fun same => less.ne (congrArg size same),less.le⟩

end
end
end ForkMap
