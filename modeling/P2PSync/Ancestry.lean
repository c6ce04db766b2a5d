import P2PSync.Replicas

namespace P2PSync.Ancestry
open CrdtStore Replicas

variable {ι : Type} [DecidableEq ι]

-- A put or delete: the edit whose version its node held at the path just
-- before, and the clock of the version it made.
structure Edit where
  parent : Option ℕ
  clock : VectorClock

-- The network together with the history that its clocks stand for. Edits are
-- named by their place in the run.
structure Traced (ι : Type) where
  net : Network ι
  edits : List Edit
  maker : ι → Bytes → Option ℕ

def start (ids : ι → Bytes) : Traced ι := ⟨initial ids,[],fun _ _ => none⟩

def assign (maker : ι → Bytes → Option ℕ) (i : ι) (path : Bytes) (edit : Option ℕ) : ι → Bytes → Option ℕ :=
  Function.update maker i (Function.update (maker i) path edit)

def edited (t : Traced ι) (i : ι) (path : Bytes) (next : CrdtStore) : Traced ι :=
  { net := Function.update t.net i next
    edits := t.edits ++ [⟨t.maker i path,next.clockAt path⟩]
    maker := assign t.maker i path (some t.edits.length) }

-- A version keeps its maker, wherever it is copied to.
def merged (t : Traced ι) (i j : ι) (path : Bytes) (result : MergeResult) (next : CrdtStore) : Traced ι :=
  { net := Function.update t.net i next
    edits := t.edits
    maker := match result.outcome with
      | .appliedRemote => assign t.maker i path (t.maker j path)
      | .conflictForked => assign t.maker i result.conflictPath (t.maker j path)
      | .keptLocal => t.maker
      | .noChange => t.maker }

def step (t : Traced ι) : Action ι → Traced ι
  | .put i path chunkHashes merkleRoot size => edited t i path ((t.net i).putLocal path chunkHashes merkleRoot size)
  | .delete i path => edited t i path ((t.net i).deleteLocal path)
  | .merge i j path => match (t.net j).get path with
    | none => t
    | some remote => merged t i j path ((t.net i).mergeRemote remote).1 ((t.net i).mergeRemote remote).2

theorem net_step (t : Traced ι) (action : Action ι) : (step t action).net = apply t.net action := by
  cases action with
  | put i path chunkHashes merkleRoot size => rfl
  | delete i path => rfl
  | merge i j path => cases held : (t.net j).get path <;> simp [step,apply,held,merged]

inductive Ancestor (edits : List Edit) : ℕ → ℕ → Prop where
  | self : Ancestor edits e e
  | parent (made : edits[e]? = some edit) (from_parent : edit.parent = some p) :
      Ancestor edits a p → Ancestor edits a e

def Made (edits : List Edit) (m : ℕ) (e : FileEntry) : Prop :=
  ∃ edit, edits[m]? = some edit ∧ edit.clock.counts ≤ e.clock.counts

structure Grounded (t : Traced ι) : Prop where
  parents : ∀ (m : ℕ) (edit : Edit) (p : ℕ), t.edits[m]? = some edit → edit.parent = some p →
    ∃ older, t.edits[p]? = some older ∧ older.clock.counts ≤ edit.clock.counts
  made : ∀ k path, Option.Rel (Made t.edits) (t.maker k path) ((t.net k).get path)

omit [DecidableEq ι] in
theorem Grounded.held {t : Traced ι} (grounded : Grounded t) (held : (t.net k).get path = some e) :
    ∃ m, t.maker k path = some m ∧ Made t.edits m e := by
  have made := grounded.made k path
  rw [held] at made
  cases maker : t.maker k path with
  | none =>
    rw [maker] at made
    cases made
  | some m =>
    rw [maker] at made
    cases made with
    | some made => exact ⟨m,rfl,made⟩

theorem edits_extend {edits : List Edit} {m : ℕ} (made : edits[m]? = some edit) (next : Edit) :
    (edits ++ [next])[m]? = some edit := by
  obtain ⟨bound,_⟩ := List.getElem?_eq_some_iff.mp made
  rw [List.getElem?_append_left bound]
  exact made

theorem made_extend (next : Edit) (made : Made edits m e) : Made (edits ++ [next]) m e := by
  obtain ⟨edit,found,le⟩ := made
  exact ⟨edit,edits_extend found next,le⟩

theorem assign_here (maker : ι → Bytes → Option ℕ) (i : ι) (path : Bytes) (edit : Option ℕ) :
    assign maker i path edit i path = edit := by
  simp [assign]

theorem assign_away (maker : ι → Bytes → Option ℕ) (i : ι) (path : Bytes) (edit : Option ℕ)
    (other : k ≠ i ∨ q ≠ path) : assign maker i path edit k q = maker k q := by
  by_cases same : k = i
  · subst same
    simp [assign,other.resolve_left (fun differs => differs rfl)]
  · simp [assign,same]

-- The version stored at one path of one node gets its maker with it.
theorem rel_store {edits : List Edit} {net : Network ι} {maker : ι → Bytes → Option ℕ}
    (made : ∀ k path, Option.Rel (Made edits) (maker k path) ((net k).get path))
    (now : Option.Rel (Made edits) edit (some e)) (k : ι) (path : Bytes) :
    Option.Rel (Made edits) (assign maker i e.path edit k path)
      ((Function.update net i ((net i).store e) k).get path) := by
  by_cases actor : k = i
  · subst actor
    rw [Function.update_self,get_store]
    by_cases here : e.path = path
    · subst here
      rw [assign_here,if_pos rfl]
      exact now
    · rw [assign_away _ _ _ _ (.inr (Ne.symm here)),if_neg here]
      exact made k path
  · rw [Function.update_of_ne actor,assign_away _ _ _ _ (.inl actor)]
    exact made k path

omit [DecidableEq ι] in
theorem grounded_start (ids : ι → Bytes) : Grounded (start ids) := by
  constructor
  · intro m edit p found
    cases found
  · exact fun _ _ => .none

theorem grounded_edited {t : Traced ι} (grounded : Grounded t)
    (grows : ((t.net i).clockAt e.path).counts ≤ e.clock.counts) :
    Grounded (edited t i e.path ((t.net i).store e)) := by
  have clock : ((t.net i).store e).clockAt e.path = e.clock := clockAt_held (by simp)
  constructor
  · intro m edit p found parent
    change (t.edits ++ [_])[m]? = some edit at found
    rcases Nat.lt_or_ge m t.edits.length with old | new
    · rw [List.getElem?_append_left old] at found
      obtain ⟨older,before,le⟩ := grounded.parents m edit p found parent
      exact ⟨older,edits_extend before _,le⟩
    · -- The new edit's clock extends what its parent's version had come to.
      rw [List.getElem?_append_right new] at found
      obtain ⟨_,rfl⟩ := List.mem_singleton.mp (List.mem_of_getElem? found)
      have made := grounded.made i e.path
      change t.maker i e.path = some p at parent
      rw [parent] at made
      generalize held : (t.net i).get e.path = entry at made
      cases made with
      | some made =>
        obtain ⟨older,before,le⟩ := made
        refine ⟨older,edits_extend before _,?_⟩
        rw [clockAt_held held] at grows
        change older.clock.counts ≤ (((t.net i).store e).clockAt e.path).counts
        rw [clock]
        exact le.trans grows
  · have extended : ∀ k path, Option.Rel (Made (edited t i e.path ((t.net i).store e)).edits) (t.maker k path)
        ((t.net k).get path) := by
      intro k path
      have made := grounded.made k path
      generalize t.maker k path = m at made ⊢
      generalize (t.net k).get path = entry at made ⊢
      cases made with
      | none => exact .none
      | some made => exact .some (made_extend _ made)
    refine rel_store extended (.some ⟨⟨t.maker i e.path,e.clock⟩,?_,le_refl _⟩)
    change (t.edits ++ [_])[t.edits.length]? = _
    rw [List.getElem?_concat_length,clock]

theorem assign_self (maker : ι → Bytes → Option ℕ) (i : ι) (path : Bytes) :
    assign maker i path (maker i path) = maker := by
  simp [assign]

theorem rel_grows {edits : List Edit} {a b : FileEntry} (made : Option.Rel (Made edits) m (some a))
    (le : a.clock.counts ≤ b.clock.counts) : Option.Rel (Made edits) m (some b) := by
  cases made with
  | some made =>
    obtain ⟨edit,found,before⟩ := made
    exact .some ⟨edit,found,before.trans le⟩

theorem grounded_merged {t : Traced ι} (grounded : Grounded t) (i : ι) (held : (t.net j).get path = some remote) :
    Grounded (merged t i j path ((t.net i).mergeRemote remote).1 ((t.net i).mergeRemote remote).2) := by
  have remotePath : remote.path = path := get_path held
  subst remotePath
  have copied : Option.Rel (Made t.edits) (t.maker j remote.path) (some remote) := held ▸ grounded.made j remote.path
  have result := mergeRemote_merged (t.net i) remote
  generalize ((t.net i).mergeRemote remote).1 = outcome at result ⊢
  generalize ((t.net i).mergeRemote remote).2 = next at result ⊢
  have idle : ∀ k path, Option.Rel (Made t.edits) (t.maker k path)
      ((Function.update t.net i (t.net i) k).get path) := by
    intro k path
    rw [Function.update_eq_self]
    exact grounded.made k path
  refine ⟨grounded.parents,?_⟩
  cases result with
  | unseen _ => exact rel_store grounded.made copied
  | newer _ _ => exact rel_store grounded.made copied
  | synced _ _ => exact idle
  | older _ _ => exact idle
  | @conflict loc own _ _ =>
    have locPath : loc.path = remote.path := get_path own
    -- The fork is stored first, then the local version under its joined clock.
    have forked := rel_store (i := i) (e := forkOf remote) grounded.made (rel_grows copied (le_refl _))
    have kept : Option.Rel (Made t.edits) (assign t.maker i (forkOf remote).path (t.maker j remote.path) i loc.path)
        (some { loc with clock := loc.clock.merge remote.clock }) := by
      rw [assign_away _ _ _ _ (.inr (locPath ▸ (makeConflictPath_ne _ _).symm)),locPath]
      exact rel_grows (own ▸ grounded.made i remote.path) (by simp)
    have both := rel_store (i := i) (e := { loc with clock := loc.clock.merge remote.clock }) forked kept
    rw [assign_self,Function.update_idem,Function.update_self] at both
    exact both

-- No edit of the run wraps its node's counter.
def Unwrapped (ids : ι → Bytes) (t : Traced ι) (action : Action ι) : Prop := ∀ path, Room ids path t.net action

theorem increment_grows (c : VectorClock) (node : Bytes) (room : c.counts node + 1 < 2^64) :
    c.counts ≤ (c.increment node).counts := by
  rw [VectorClock.counts_increment c node room,le_update_self_iff]
  exact Nat.le_succ _

theorem grounded_step {ids : ι → Bytes} {t : Traced ι} (named : Named ids t.net) (unwrapped : Unwrapped ids t action)
    (grounded : Grounded t) : Grounded (step t action) := by
  have grows : ∀ i path, Edits action i path → ((t.net i).clockAt path).counts ≤
      (((t.net i).clockAt path).increment (t.net i).nodeId).counts := by
    intro i path edits
    apply increment_grows
    rw [named]
    exact unwrapped path i edits
  cases action with
  | put i path chunkHashes merkleRoot size =>
    exact grounded_edited (e := (t.net i).putEntry path chunkHashes merkleRoot size) grounded
      (grows i path (.inl ⟨_,_,_,rfl⟩))
  | delete i path =>
    refine grounded_edited (e := (t.net i).deleteEntry path) grounded ?_
    rw [deleteEntry_clock]
    exact grows i path (.inr rfl)
  | merge i j path =>
    cases held : (t.net j).get path with
    | none =>
      simp only [step,held]
      exact grounded
    | some remote =>
      simp only [step,held]
      exact grounded_merged grounded i held

theorem grounded_run {ids : ι → Bytes} (run : Runs step (Unwrapped ids) (start ids) actions t) :
    Named ids t.net ∧ Grounded t := by
  induction run with
  | nil => exact ⟨fun _ => rfl,grounded_start ids⟩
  | @snoc _ t action _ unwrapped ih =>
    obtain ⟨named,grounded⟩ := ih
    exact ⟨net_step t action ▸ named_apply named action,grounded_step named unwrapped grounded⟩

omit [DecidableEq ι] in
theorem ancestor_le {t : Traced ι} (grounded : Grounded t) (ancestor : Ancestor t.edits a e)
    (found : t.edits[e]? = some edit) : ∃ older, t.edits[a]? = some older ∧ older.clock.counts ≤ edit.clock.counts := by
  induction ancestor generalizing edit with
  | self => exact ⟨edit,found,le_refl _⟩
  | parent made isParent _ ih =>
    rw [found] at made
    cases made
    obtain ⟨between,foundP,leP⟩ := grounded.parents _ _ _ found isParent
    obtain ⟨older,foundA,leA⟩ := ih foundP
    exact ⟨older,foundA,leA.trans leP⟩

-- The entry still has the clock of the edit that made it: it has not absorbed
-- the clock of a version it was in conflict with.
def Pristine (t : Traced ι) (k : ι) (path : Bytes) : Prop :=
  ∀ e m edit, (t.net k).get path = some e → t.maker k path = some m → t.edits[m]? = some edit →
    VectorClock.compare edit.clock e.clock = .equal

-- A conflict that merging what j holds into i reports is one between edits
-- neither of which descends from the other.
def Independent (t : Traced ι) (i j : ι) (path : Bytes) : Prop :=
  ∀ remote, (t.net j).get path = some remote → ((t.net i).mergeRemote remote).1.outcome = .conflictForked →
    ∃ e₁ e₂, t.maker i path = some e₁ ∧ t.maker j path = some e₂ ∧
      ¬ Ancestor t.edits e₁ e₂ ∧ ¬ Ancestor t.edits e₂ e₁

omit [DecidableEq ι] in
theorem not_ancestor {t : Traced ι} (grounded : Grounded t) (pristine : Pristine t k path)
    (own : (t.net k).get path = some e) (maker : t.maker k path = some m) (other : Made t.edits n e')
    (notLe : ¬ e.clock.counts ≤ e'.clock.counts) : ¬ Ancestor t.edits m n := by
  intro ancestor
  obtain ⟨edit,found,le⟩ := other
  obtain ⟨older,foundM,leM⟩ := ancestor_le grounded ancestor found
  have same := VectorClock.compare_equal.mp (pristine e m older own maker foundM)
  exact notLe (same ▸ leM.trans le)

theorem conflict_independent (ids : ι → Bytes) (actions : List (Action ι)) (t : Traced ι)
    (run : Runs step (Unwrapped ids) (start ids) actions t) (i j : ι) (path : Bytes)
    (localPristine : Pristine t i path) (remotePristine : Pristine t j path) : Independent t i j path := by
  obtain ⟨_,grounded⟩ := grounded_run run
  intro remote held forked
  obtain ⟨loc,own,left,right,_⟩ := mergeRemote_forked forked
  rw [get_path held] at own
  obtain ⟨e₁,makerI,madeI⟩ := grounded.held own
  obtain ⟨e₂,makerJ,madeJ⟩ := grounded.held held
  exact ⟨e₁,e₂,makerI,makerJ,not_ancestor grounded localPristine own makerI madeJ left,
    not_ancestor grounded remotePristine held makerJ madeI right⟩

-- Two first drafts: neither has absorbed anything.
def apart : Traced (Fin 3) := [write 0 notes 1,write 1 notes 2].foldl step (start letters)

theorem conflict_independent_drafts : Independent apart 0 1 notes := by
  have unwrapped : ∀ (t : Traced (Fin 3)) i fill, t.net i = .new (letters i) → Unwrapped letters t (write i notes fill) := by
    rintro t i fill blank path k (⟨_,_,_,action⟩ | action)
    · cases action
      simp [known,blank,clockAt_absent (get_new _ _)]
    · cases action
  have run : Runs step (Unwrapped letters) (start letters) [write 0 notes 1,write 1 notes 2] apart :=
    .snoc (.snoc .nil (unwrapped (start letters) 0 1 rfl)) (unwrapped (step (start letters) (write 0 notes 1)) 1 2 rfl)
  have pristine : ∀ k, k = 0 ∨ k = 1 → Pristine apart k notes := by
    intro k which e m edit held maker found
    have checked : ∀ k, k = 0 ∨ k = 1 → ∀ e ∈ (apart.net k).get notes, ∀ m ∈ apart.maker k notes,
        ∀ edit ∈ apart.edits[m]?, VectorClock.compare edit.clock e.clock = .equal := by
      decide +kernel
    exact checked k which e held m maker edit found
  exact conflict_independent letters _ apart run 0 1 notes (pristine 0 (.inl rfl)) (pristine 1 (.inr rfl))

-- A's draft absorbs the clock of B's. C's draft grows out of A's as C had it.
def absorbedDraft : List (Action (Fin 3)) :=
  [write 0 notes 1,.merge 2 0 notes,write 1 notes 2,.merge 0 1 notes,write 2 notes 3]

theorem conflict_with_descendant : Function.Injective letters ∧
    Runs step (fun _ _ => True) (start letters) absorbedDraft (absorbedDraft.foldl step (start letters)) ∧
    ¬ Independent (absorbedDraft.foldl step (start letters)) 0 2 notes := by
  refine ⟨letters_injective,.free _ _,?_⟩
  intro independent
  generalize reached : absorbedDraft.foldl step (start letters) = t at independent
  have forks : ∀ remote ∈ ((absorbedDraft.foldl step (start letters)).net 2).get notes,
      (((absorbedDraft.foldl step (start letters)).net 0).mergeRemote remote).1.outcome = .conflictForked := by
    decide +kernel
  have makerA : (absorbedDraft.foldl step (start letters)).maker 0 notes = some 0 := by decide +kernel
  have makerC : (absorbedDraft.foldl step (start letters)).maker 2 notes = some 2 := by decide +kernel
  have parentC : (absorbedDraft.foldl step (start letters)).edits[2]?.bind Edit.parent = some 0 := by decide +kernel
  have heldC : ((absorbedDraft.foldl step (start letters)).net 2).get notes ≠ none := by decide +kernel
  rw [reached] at forks makerA makerC parentC heldC
  obtain ⟨remote,held⟩ := Option.ne_none_iff_exists'.mp heldC
  obtain ⟨e₁,e₂,isA,isC,notBefore,_⟩ := independent remote held (forks remote held)
  rw [makerA] at isA
  rw [makerC] at isC
  cases isA
  cases isC
  obtain ⟨edit,found,parent⟩ := Option.bind_eq_some_iff.mp parentC
  exact notBefore (.parent found parent .self)

end P2PSync.Ancestry
