import P2PSync.CrdtStore

namespace P2PSync.MergeLoss
open CrdtStore

-- What a path held before the merge is still there or has been dominated.
def Kept (before after : CrdtStore) (path : Bytes) : Prop :=
  ∀ old, before.get path = some old → ∃ new, after.get path = some new ∧
    (SameContent old new ∨ VectorClock.compare old.clock new.clock = .before)

def Covered (s : CrdtStore) (remote : FileEntry) : Prop :=
  ∃ loc, s.get remote.path = some loc ∧
    (VectorClock.compare loc.clock remote.clock = .equal ∨ VectorClock.compare loc.clock remote.clock = .after)

def Present (result : MergeResult) (after : CrdtStore) (remote : FileEntry) : Prop :=
  (∃ e, after.get remote.path = some e ∧ SameContent remote e) ∨
    (result.outcome = .conflictForked ∧ ∃ e, after.get result.conflictPath = some e ∧ SameContent remote e)

def NoLoss (s : CrdtStore) (remote : FileEntry) : Prop :=
  (∀ path, Kept s (s.mergeRemote remote).2 path) ∧
    (Covered s remote ∨ Present (s.mergeRemote remote).1 (s.mergeRemote remote).2 remote)

-- The fork goes to a path that already holds another version, and not an older one.
def Overwrites (s : CrdtStore) (remote : FileEntry) : Prop :=
  ∃ loc victim, s.get remote.path = some loc ∧ VectorClock.compare loc.clock remote.clock = .concurrent ∧
    s.get (makeConflictPath remote.path remote.lastWriter) = some victim ∧
    ¬ SameContent victim remote ∧ VectorClock.compare victim.clock remote.clock ≠ .before

theorem kept_same (s : CrdtStore) (path : Bytes) : Kept s s path :=
  fun old held => ⟨old,held,.inl ⟨rfl,rfl⟩⟩

theorem kept_store {s : CrdtStore} {e : FileEntry} (path : Bytes)
    (replaced : ∀ old, s.get e.path = some old →
      SameContent old e ∨ VectorClock.compare old.clock e.clock = .before) : Kept s (s.store e) path := by
  intro old held
  by_cases same : e.path = path
  · subst same
    exact ⟨e,by simp,replaced old held⟩
  · exact ⟨old,by simpa [same] using held,.inl ⟨rfl,rfl⟩⟩

-- The step at a conflict: the local version stays under its path, and only the
-- path of the fork can lose what it held.
theorem kept_conflict {s : CrdtStore} {remote loc : FileEntry} (held : s.get remote.path = some loc)
    (path : Bytes) :
    Kept s ((s.store (forkOf remote)).store { loc with clock := loc.clock.merge remote.clock }) path ↔
      (path = (forkOf remote).path → ∀ victim, s.get path = some victim →
        SameContent victim remote ∨ VectorClock.compare victim.clock remote.clock = .before) := by
  have locPath : loc.path = remote.path := get_path held
  by_cases own : remote.path = path
  · subst own
    have elsewhere : remote.path ≠ (forkOf remote).path := (makeConflictPath_ne _ _).symm
    refine ⟨fun _ same => absurd same elsewhere,fun _ old was => ?_⟩
    rw [held] at was
    cases was
    exact ⟨{ loc with clock := loc.clock.merge remote.clock },by simp [locPath],.inl ⟨rfl,rfl⟩⟩
  · by_cases fork : (forkOf remote).path = path
    · subst fork
      constructor
      · intro kept _ victim was
        obtain ⟨new,now,fine⟩ := kept victim was
        simp only [get_store,locPath,own,if_false,if_true,Option.some.injEq] at now
        subst now
        exact fine
      · intro fine old was
        exact ⟨forkOf remote,by simp [locPath,own],fine rfl old was⟩
    · refine ⟨fun _ same => absurd same.symm fork,fun _ old was => ?_⟩
      exact ⟨old,by simpa [locPath,own,fork] using was,.inl ⟨rfl,rfl⟩⟩

theorem overwrites_conflict {s : CrdtStore} {remote loc : FileEntry} (overwrites : Overwrites s remote)
    (held : s.get remote.path = some loc) :
    ¬ loc.clock.counts ≤ remote.clock.counts ∧ ¬ remote.clock.counts ≤ loc.clock.counts := by
  obtain ⟨_,_,was,concurrent,_⟩ := overwrites
  rw [held] at was
  cases was
  exact VectorClock.compare_concurrent.mp concurrent

theorem present_conflict {s : CrdtStore} {remote loc : FileEntry} (held : s.get remote.path = some loc) :
    Present ⟨.conflictForked,remote.path,(forkOf remote).path⟩
      ((s.store (forkOf remote)).store { loc with clock := loc.clock.merge remote.clock }) remote := by
  have locPath : loc.path = remote.path := get_path held
  refine .inr ⟨rfl,forkOf remote,?_,rfl,rfl⟩
  simp [locPath,(makeConflictPath_ne remote.path remote.lastWriter).symm,forkOf]

-- A merge loses nothing, except where a fork replaces at its conflict path a
-- version with other content that its clock does not dominate.
theorem merge_loss_iff (s : CrdtStore) (remote : FileEntry) : NoLoss s remote ↔ ¬ Overwrites s remote := by
  have merged := mergeRemote_merged s remote
  unfold NoLoss
  generalize (s.mergeRemote remote).1 = result at merged ⊢
  generalize (s.mergeRemote remote).2 = after at merged ⊢
  cases merged with
  | unseen absent =>
    refine iff_of_true ⟨fun path => kept_store path (by simp [absent]),.inr (.inl ⟨remote,by simp,rfl,rfl⟩)⟩ ?_
    rintro ⟨loc,_,held,_⟩
    rw [absent] at held
    cases held
  | @newer loc held order =>
    refine iff_of_true ⟨fun path => kept_store path ?_,.inr (.inl ⟨remote,by simp,rfl,rfl⟩)⟩ ?_
    · intro old was
      rw [held] at was
      cases was
      exact .inr (VectorClock.compare_before.mpr order)
    · exact fun overwrites => (overwrites_conflict overwrites held).1 order.le
  | @synced loc held order =>
    refine iff_of_true ⟨kept_same s,.inl ⟨loc,held,.inl (VectorClock.compare_equal.mpr order)⟩⟩ ?_
    exact fun overwrites => (overwrites_conflict overwrites held).1 order.le
  | @older loc held order =>
    refine iff_of_true ⟨kept_same s,.inl ⟨loc,held,.inr (VectorClock.compare_after.mpr order)⟩⟩ ?_
    exact fun overwrites => (overwrites_conflict overwrites held).2 order.le
  | @conflict loc held left right =>
    have concurrent := VectorClock.compare_concurrent.mpr ⟨left,right⟩
    constructor
    · intro ⟨kept,_⟩ ⟨_,victim,_,_,was,other,notOlder⟩
      rcases (kept_conflict held _).mp (kept _) rfl victim was with same | older
      · exact other same
      · exact notOlder older
    · intro spared
      refine ⟨fun path => (kept_conflict held path).mpr ?_,.inr (present_conflict held)⟩
      rintro rfl victim was
      by_contra lost
      obtain ⟨other,notOlder⟩ := not_or.mp lost
      exact spared ⟨loc,victim,held,concurrent,was,other,notOlder⟩

-- A user's own file under the name the fork takes: node B edits notes.txt and
-- keeps notes.conflict-A.txt, and then hears of A's edit of notes.txt.
def drafting : CrdtStore := (new (ascii "B")).putLocal (ascii "notes.txt") [.filled 1] .zero 4

def ownFile : FileEntry := drafting.putEntry (ascii "notes.conflict-A.txt") [.filled 2] .zero 4

def keeper : CrdtStore := drafting.putLocal (ascii "notes.conflict-A.txt") [.filled 2] .zero 4

def incoming : FileEntry := (new (ascii "A")).putEntry (ascii "notes.txt") [.filled 3] .zero 4

theorem keeper_loses : ¬ NoLoss keeper incoming := by
  rintro ⟨kept,_⟩
  obtain ⟨found,now,fine⟩ := kept (ascii "notes.conflict-A.txt") ownFile (by decide +kernel)
  have replaced : (keeper.mergeRemote incoming).2.get (ascii "notes.conflict-A.txt") = some (forkOf incoming) := by
    decide +kernel
  rw [replaced] at now
  cases now
  revert fine
  decide +kernel

end P2PSync.MergeLoss
