import P2PSync.Replicas

namespace P2PSync.Replicas
open CrdtStore

variable {ι : Type} [DecidableEq ι]

-- A local put or delete at the path, the entry it makes and the store after it.
inductive LocalEdit (s : CrdtStore) (path : Bytes) : FileEntry → CrdtStore → Prop where
  | put (chunkHashes : List Digest) (merkleRoot : Digest) (size : UInt64) :
      LocalEdit s path (s.putEntry path chunkHashes merkleRoot size) (s.putLocal path chunkHashes merkleRoot size)
  | delete : LocalEdit s path (s.deleteEntry path) (s.deleteLocal path)

def isEdit : Action ι → Bool
  | .put _ _ _ _ _ => true
  | .delete _ _ => true
  | .merge _ _ _ => false

def Counted (count : ℕ) (net : Network ι) : Prop := ∀ path k node, known net path k node ≤ count

omit [DecidableEq ι] in
theorem isEdit_of_edits {action : Action ι} (edits : Edits action k path) : isEdit action = true := by
  rcases edits with ⟨_,_,_,rfl⟩ | rfl <;> rfl

theorem increment_le (c : VectorClock) (node other : Bytes) :
    (c.increment node).counts other ≤ c.counts other + 1 := by
  unfold VectorClock.counts
  rw [VectorClock.get_increment]
  by_cases same : node = other
  · rw [if_pos same,same,UInt64.toNat_add]
    exact Nat.mod_le _ _
  · rw [if_neg same]
    exact Nat.le_succ _

theorem counted_apply {net : Network ι} (counted : Counted count net) (action : Action ι) :
    Counted (count + (if isEdit action then 1 else 0)) (apply net action) := by
  intro path k node
  have ticks := ticks_apply net action k path
  generalize known (apply net action) path k = now at ticks
  cases ticks with
  | same => exact (counted path k node).trans (Nat.le_add_right _ _)
  | edit edits =>
    rw [isEdit_of_edits edits]
    exact (increment_le _ _ _).trans (Nat.succ_le_succ (counted path k node))
  | join j => exact (sup_le (counted path k node) (counted path j node)).trans (Nat.le_add_right _ _)
  | @fork remote forks =>
    obtain ⟨j,source,_,_,held,_⟩ := forks
    rw [← known_held held]
    exact (counted source j node).trans (Nat.le_add_right _ _)

theorem counted_run {ids : ι → Bytes} (run : Runs apply fair (initial ids) actions net) :
    Counted (actions.countP isEdit) net := by
  induction run with
  | nil => exact fun _ _ _ => Nat.zero_le _
  | snoc _ _ ih =>
    rw [List.countP_append,List.countP_singleton]
    exact counted_apply ih _

theorem lead_run {ids : ι → Bytes} (distinct : Function.Injective ids)
    (run : Runs apply (Paced ids path) (initial ids) actions net) (few : actions.countP isEdit < 2^64) : Lead ids path net := by
  induction run with
  | nil => exact lead_initial
  | @snoc actions net action prior paced ih =>
    rw [List.countP_append,List.countP_singleton] at few
    refine lead_apply distinct (named_run prior) ?_ paced (ih (Nat.lt_of_le_of_lt (Nat.le_add_right _ _) few))
    intro k edits
    rw [isEdit_of_edits edits] at few
    exact Nat.lt_of_le_of_lt (Nat.succ_le_succ (counted_run prior path k (ids k))) few

theorem LocalEdit.stored {s : CrdtStore} (edit : LocalEdit s path e next) :
    e.path = path ∧ e.clock = (s.clockAt path).increment s.nodeId ∧ next = s.store e := by
  cases edit with
  | put _ _ _ => exact ⟨rfl,rfl,rfl⟩
  | delete => exact ⟨rfl,deleteEntry_clock s path,rfl⟩

omit [DecidableEq ι] in
theorem counts_edit {ids : ι → Bytes} {net : Network ι} (named : Named ids net)
    (room : known net path k (ids k) + 1 < 2^64) :
    (((net k).clockAt path).increment (net k).nodeId).counts (ids k) = known net path k (ids k) + 1 := by
  rw [named,VectorClock.counts_increment _ _ room,Function.update_self]
  rfl

-- Every other store takes an edit of x at the path for new, and x takes nothing
-- another store holds there for newer than its edit.
def Noticed (net : Network ι) (x : ι) (path : Bytes) : Prop :=
  ∀ e next, LocalEdit (net x) path e next → ∀ y, y ≠ x →
    (((net y).mergeRemote e).1.outcome = .appliedRemote ∨ ((net y).mergeRemote e).1.outcome = .conflictForked) ∧
    ∀ held, (net y).get path = some held → (next.mergeRemote held).1.outcome ≠ .appliedRemote

omit [DecidableEq ι] in
theorem noticed_of_lead {ids : ι → Bytes} {net : Network ι} (named : Named ids net) (lead : Lead ids path net)
    (x : ι) (room : known net path x (ids x) + 1 < 2^64) : Noticed net x path := by
  intro e next edit y _
  obtain ⟨path_eq,clock,rfl⟩ := edit.stored
  have ahead : ∀ held, (net y).get path = some held → held.clock.counts (ids x) < e.clock.counts (ids x) := by
    intro held found
    rw [clock,counts_edit named room,← known_held found]
    exact Nat.lt_succ_of_le (lead x y)
  have notOver : ∀ held, (net y).get path = some held → ¬ e.clock.counts ≤ held.clock.counts := fun held found le =>
    (ahead held found).not_ge (le (ids x))
  subst path_eq
  constructor
  · have merged := mergeRemote_merged (net y) e
    generalize ((net y).mergeRemote e).1 = result at merged ⊢
    generalize ((net y).mergeRemote e).2 = joined at merged
    cases merged with
    | unseen _ => exact .inl rfl
    | newer _ _ => exact .inl rfl
    | synced found order => exact absurd order.ge (notOver _ found)
    | older found order => exact absurd order.le (notOver _ found)
    | conflict _ _ _ => exact .inr rfl
  · intro held found
    have own : ((net x).store e).get held.path = some e := by simp [get_path found]
    have merged := mergeRemote_merged ((net x).store e) held
    generalize (((net x).store e).mergeRemote held).1 = result at merged ⊢
    generalize (((net x).store e).mergeRemote held).2 = joined at merged
    cases merged with
    | unseen absent =>
      rw [own] at absent
      cases absent
    | newer own' order =>
      rw [own] at own'
      cases own'
      exact absurd order.le (notOver _ found)
    | synced _ _ => exact nofun
    | older _ _ => exact nofun
    | conflict _ _ _ => exact nofun

theorem fresh_edit_noticed (ids : ι → Bytes) (distinct : Function.Injective ids) (path : Bytes)
    (actions : List (Action ι)) (net : Network ι) (run : Runs apply (Paced ids path) (initial ids) actions net)
    (few : actions.countP isEdit + 1 < 2^64) (x : ι) : Noticed net x path := by
  have lead := lead_run distinct run (Nat.lt_of_succ_lt few)
  exact noticed_of_lead (named_run run) lead x (Nat.lt_of_le_of_lt (Nat.succ_le_succ (counted_run run path x (ids x))) few)

-- A conflict at the path itself only joins clocks earned there.
def bothDraft : List (Action (Fin 3)) := [write 0 notes 1,write 1 notes 2,.merge 0 1 notes]

theorem fresh_edit_noticed_draft : Noticed (after letters bothDraft) 0 notes := by
  have noFork : ∀ net i path fill, Paced letters notes net (write i path fill) := by
    rintro net i path fill k remote ⟨_,_,_,action,_⟩
    cases action
  have merging : ∀ net, Paced letters notes net (.merge 0 1 notes) := fun net k remote forks =>
    absurd forks (not_forks_here net 0 1 k notes remote)
  have run : Runs apply (Paced letters notes) (initial letters) bothDraft (after letters bothDraft) :=
    .snoc (.snoc (.snoc .nil (noFork _ _ _ _)) (noFork _ _ _ _)) (merging _)
  exact fresh_edit_noticed letters letters_injective notes bothDraft _ run (by decide) 0

-- B forks A's second draft to a path at which A has not written anything yet.
def forkAhead : List (Action (Fin 3)) := [write 0 notes 1,write 0 notes 2,write 1 notes 3,.merge 1 0 notes]

theorem fresh_edit_overtaken : Function.Injective letters ∧
    Runs apply (fun _ _ => True) (initial letters) forkAhead (after letters forkAhead) ∧ forkAhead.countP isEdit + 1 < 2^64 ∧
    ¬ Noticed (after letters forkAhead) 0 (ascii "notes.conflict-A.txt") := by
  refine ⟨letters_injective,.free _ _,by decide,?_⟩
  intro noticed
  have kept := (noticed _ _ (.put [.filled 4] .zero 4) 1 (by decide)).1
  revert kept
  decide +kernel

-- Two entries at the path with equal clocks are one version.
def Identified (path : Bytes) (net : Network ι) : Prop :=
  ∀ i j a b, (net i).get path = some a → (net j).get path = some b →
    VectorClock.compare a.clock b.clock = .equal → SameContent a b

-- No fork lands on the path, and a conflict there gets a joined clock that no
-- other store has at the path already.
structure Clear (ids : ι → Bytes) (path : Bytes) (net : Network ι) (action : Action ι) : Prop where
  room : Room ids path net action
  noFork : ∀ k remote, ¬ Forks net action k path remote
  newJoin : ∀ k j remote loc, action = .merge k j path → (net j).get path = some remote → (net k).get path = some loc →
    VectorClock.compare loc.clock remote.clock = .concurrent →
    ∀ z e, z ≠ k → (net z).get path = some e → VectorClock.compare e.clock (loc.clock.merge remote.clock) ≠ .equal

-- The step, seen from a store that does not move.
theorem identified_actor {ids : ι → Bytes} {net : Network ι} (named : Named ids net) (lead : Lead ids path net)
    (clear : Clear ids path net action) (identified : Identified path net) (other : z ≠ k)
    (now : (apply net action k).get path = some a) (held : (net z).get path = some b)
    (equal : a.clock.counts = b.clock.counts) : SameContent a b := by
  have unseen : Edits action k path → a.clock = ((net k).clockAt path).increment (net k).nodeId → False := by
    intro edits clock
    have own := congrFun equal (ids k)
    rw [clock,counts_edit named (clear.room k edits),← known_held held] at own
    exact (Nat.lt_succ_of_le (lead k z)).ne own.symm
  rcases get_apply net action k path with same | ⟨e,now',becomes⟩
  · rw [same] at now
    exact identified k z a b now held (VectorClock.compare_equal.mpr equal)
  · rw [now] at now'
    cases now'
    cases becomes with
    | put => exact (unseen (.inl ⟨_,_,_,rfl⟩) rfl).elim
    | delete => exact (unseen (.inr rfl) (deleteEntry_clock _ _)).elim
    | @adopted j _ source _ => exact identified j z a b source held (VectorClock.compare_equal.mpr equal)
    | @absorbed j remote loc source own concurrent =>
      have new := clear.newJoin k j remote loc rfl source own concurrent z b other held
      exact absurd (VectorClock.compare_equal.mpr equal.symm) new
    | forked source own concurrent target => exact absurd ⟨_,_,_,rfl,source,own,concurrent,target⟩ (clear.noFork k _)

theorem identified_apply {ids : ι → Bytes} {net : Network ι} (named : Named ids net) (lead : Lead ids path net)
    (clear : Clear ids path net action) (identified : Identified path net) : Identified path (apply net action) := by
  intro i j a b heldA heldB order
  have equal := VectorClock.compare_equal.mp order
  by_cases same : i = j
  · subst same
    rw [heldA] at heldB
    cases heldB
    exact ⟨rfl,rfl⟩
  · by_cases actorJ : j = actor action
    · have still : i ≠ actor action := fun actorI => same (actorI.trans actorJ.symm)
      rw [apply_other net action still] at heldA
      have content := identified_actor named lead clear identified same heldB heldA equal.symm
      exact ⟨content.1.symm,content.2.symm⟩
    · rw [apply_other net action actorJ] at heldB
      exact identified_actor named lead clear identified (Ne.symm same) heldA heldB equal

theorem equal_clocks_one_version (ids : ι → Bytes) (distinct : Function.Injective ids) (path : Bytes)
    (actions : List (Action ι)) (net : Network ι) (run : Runs apply (Clear ids path) (initial ids) actions net) :
    Identified path net := by
  have both : Lead ids path net ∧ Identified path net := by
    induction run with
    | nil => exact ⟨lead_initial,fun _ _ _ _ absent => nomatch absent⟩
    | snoc prior clear ih =>
      obtain ⟨lead,identified⟩ := ih
      have paced : Paced ids path _ _ := fun k remote forks => absurd forks (clear.noFork k remote)
      exact ⟨lead_apply distinct (named_run prior) clear.room paced lead,identified_apply (named_run prior) lead clear identified⟩
  exact both.2

theorem equal_clocks_one_version_draft : Identified notes (after letters bothDraft) := by
  have writes : ∀ net i fill, known net notes i (letters i) + 1 < 2^64 →
      Clear letters notes net (write i notes fill) := by
    intro net i fill room
    refine ⟨?_,?_,?_⟩
    · rintro k (⟨_,_,_,action⟩ | action)
      · cases action
        exact room
      · cases action
    · rintro k remote ⟨_,_,_,action,_⟩
      cases action
    · rintro k j remote loc action
      cases action
  have merging : Clear letters notes (after letters [write 0 notes 1,write 1 notes 2]) (.merge 0 1 notes) := by
    refine ⟨?_,fun k remote => not_forks_here _ 0 1 k notes remote,?_⟩
    · rintro k (⟨_,_,_,action⟩ | action) <;> cases action
    · intro k j remote loc action source own _ z e other held
      cases action
      intro equal
      have counts := VectorClock.compare_equal.mp equal
      rw [VectorClock.counts_merge,← known_held held,← known_held own,← known_held source] at counts
      have behind : ∀ z, z ≠ 0 → known (after letters [write 0 notes 1,write 1 notes 2]) notes z (letters 0) <
          known (after letters [write 0 notes 1,write 1 notes 2]) notes 0 (letters 0) := by
        decide +kernel
      exact (behind z other).not_ge (le_sup_left.trans (congrFun counts (letters 0)).ge)
  have run : Runs apply (Clear letters notes) (initial letters) bothDraft (after letters bothDraft) :=
    .snoc (.snoc (.snoc .nil (writes (initial letters) 0 1 (by decide +kernel)))
      (writes (after letters [write 0 notes 1]) 1 2 (by decide +kernel))) merging
  exact equal_clocks_one_version letters letters_injective notes bothDraft _ run

-- A and B join the same two drafts, each keeping its own content: C still has
-- A's draft as it was before A heard of B's.
def joinedTwice : List (Action (Fin 3)) :=
  [write 0 notes 1,.merge 2 0 notes,write 1 notes 2,.merge 0 1 notes,.merge 1 2 notes]

theorem equal_clocks_two_versions : Function.Injective letters ∧
    Runs apply (fun _ _ => True) (initial letters) joinedTwice (after letters joinedTwice) ∧
    ¬ Identified notes (after letters joinedTwice) := by
  refine ⟨letters_injective,.free _ _,?_⟩
  intro identified
  have same : ∀ a ∈ (after letters joinedTwice 0).get notes, ∀ b ∈ (after letters joinedTwice 1).get notes,
      VectorClock.compare a.clock b.clock = .equal → SameContent a b := fun a heldA b heldB =>
    identified 0 1 a b heldA heldB
  revert same
  decide +kernel

end P2PSync.Replicas
