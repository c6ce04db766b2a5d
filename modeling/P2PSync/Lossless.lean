import P2PSync.Directory
import P2PSync.Settled
import P2PSync.Snapshots

namespace P2PSync.Lossless
open SyncEngine Network CrdtStore MergeOrder Sessions Settled Snapshots

-- Forks of the two stores have paths of their own, and equal clocks name one content.
structure Roomy (a b : CrdtStore) : Prop where
  free : ∀ path l r, Contested a b path l r → ∀ writer, writer = l.lastWriter ∨ writer = r.lastWriter →
    a.get (makeConflictPath path writer) = none ∧ b.get (makeConflictPath path writer) = none
  apart : ∀ p q l r x y, Contested a b p l r → Contested a b q x y → p ≠ q →
    makeConflictPath p l.lastWriter ≠ makeConflictPath q x.lastWriter ∧ makeConflictPath p r.lastWriter ≠ makeConflictPath q y.lastWriter
  named : ∀ path l r, a.get path = some l → b.get path = some r → VectorClock.compare l.clock r.clock = .equal → SameContent l r

theorem contested_symm {a b : CrdtStore} (contested : Contested a b path l r) : Contested b a path r l := by
  obtain ⟨left,right,order⟩ := contested
  refine ⟨right,left,?_⟩
  rw [VectorClock.compare_mirror,order]
  rfl

theorem Roomy.symm (roomy : Roomy a b) : Roomy b a := by
  refine ⟨?_,?_,?_⟩
  · intro path l r contested writer which
    exact (roomy.free path r l (contested_symm contested) writer which.symm).symm
  · intro p q l r x y first second differ
    exact (roomy.apart p q r l y x (contested_symm first) (contested_symm second) differ).symm
  · intro path l r left right order
    have same : VectorClock.compare r.clock l.clock = .equal := by
      rw [VectorClock.compare_mirror,order]
      rfl
    obtain ⟨hashes,deleted⟩ := roomy.named path r l right left same
    exact ⟨hashes.symm,deleted.symm⟩

theorem contested_conflicts {a b : CrdtStore} (member : r ∈ b.allEntries) (conflicts : Conflicts a r) :
    ∃ l, Contested a b r.path l r := by
  obtain ⟨l,held,order⟩ := conflicts
  exact ⟨l,held,mem_allEntries.mp member,order⟩

theorem Roomy.uncrowded (roomy : Roomy a b) : Uncrowded a b.allEntries := by
  refine ⟨once_allEntries b,?_,?_⟩
  · intro r member conflicts x inside here
    obtain ⟨l,contested⟩ := contested_conflicts member conflicts
    have vacant := (roomy.free r.path l r contested r.lastWriter (.inr rfl)).2
    have held := mem_allEntries.mp inside
    rw [here] at held
    exact Option.some_ne_none x (held.symm.trans vacant)
  · intro r member x inside conflictsR conflictsX differ
    obtain ⟨l,contested⟩ := contested_conflicts member conflictsR
    obtain ⟨k,other⟩ := contested_conflicts inside conflictsX
    refine (roomy.apart r.path x.path l r k x contested other ?_).2
    intro same
    have held := mem_allEntries.mp member
    rw [same,mem_allEntries.mp inside] at held
    exact differ (Option.some.inj held).symm

def Outdated (a b : CrdtStore) (path : Bytes) (v : FileEntry) : Prop :=
  ∃ w, (a.get path = some w ∨ b.get path = some w) ∧ VectorClock.compare v.clock w.clock = .before

-- The path knows of the version, and its content is there or at its conflict path
-- unless one of the two stores had a newer version.
structure Kept (a b : CrdtStore) (path : Bytes) (v : FileEntry) (after : CrdtStore) : Prop where
  seen : ∃ e, after.get path = some e ∧ VectorClock.AtMost v.clock e.clock
  content : Outdated a b path v ∨ ∃ place e, (place = path ∨ place = makeConflictPath path v.lastWriter) ∧
    after.get place = some e ∧ SameContent v e

theorem kept_own (roomy : Roomy a b) (held : a.get path = some v) : Kept a b path v (mergeAll a b.allEntries) := by
  cases found : b.get path with
  | none =>
    have same : (mergeAll a b.allEntries).get path = a.get path := by
      refine get_mergeAll_away roomy.uncrowded ?_ ?_
      · rintro r member rfl
        exact Option.some_ne_none r ((mem_allEntries.mp member).symm.trans found)
      · rintro r member conflicts rfl
        obtain ⟨l,contested⟩ := contested_conflicts member conflicts
        have vacant := (roomy.free r.path l r contested r.lastWriter (.inr rfl)).1
        exact Option.some_ne_none v (held.symm.trans vacant)
    rw [held] at same
    exact ⟨⟨v,same,VectorClock.atMost_iff.mpr (le_refl _)⟩,.inr ⟨path,v,.inl rfl,same,rfl,rfl⟩⟩
  | some r =>
    have place : r.path = path := get_path found
    subst place
    have here := (get_mergeAll_resolved roomy.uncrowded (mem_allEntries.mpr found)).1
    rw [held] at here
    cases order : VectorClock.compare v.clock r.clock with
    | equal =>
      simp only [resolve,order] at here
      exact ⟨⟨v,here,VectorClock.atMost_iff.mpr (le_refl _)⟩,.inr ⟨_,v,.inl rfl,here,rfl,rfl⟩⟩
    | before =>
      simp only [resolve,order] at here
      exact ⟨⟨r,here,VectorClock.atMost_iff.mpr (VectorClock.compare_before.mp order).le⟩,.inl ⟨r,.inr found,order⟩⟩
    | after =>
      simp only [resolve,order] at here
      exact ⟨⟨v,here,VectorClock.atMost_iff.mpr (le_refl _)⟩,.inr ⟨_,v,.inl rfl,here,rfl,rfl⟩⟩
    | concurrent =>
      simp only [resolve,order] at here
      refine ⟨⟨_,here,VectorClock.atMost_iff.mpr ?_⟩,.inr ⟨_,_,.inl rfl,here,rfl,rfl⟩⟩
      rw [VectorClock.counts_merge]
      exact le_sup_left

theorem kept_other (roomy : Roomy a b) (found : b.get path = some v) : Kept a b path v (mergeAll a b.allEntries) := by
  have place : v.path = path := get_path found
  subst place
  obtain ⟨here,forked⟩ := get_mergeAll_resolved roomy.uncrowded (mem_allEntries.mpr found)
  cases held : a.get v.path with
  | none =>
    rw [held] at here
    exact ⟨⟨v,here,VectorClock.atMost_iff.mpr (le_refl _)⟩,.inr ⟨_,v,.inl rfl,here,rfl,rfl⟩⟩
  | some l =>
    rw [held] at here
    cases order : VectorClock.compare l.clock v.clock with
    | equal =>
      simp only [resolve,order] at here
      obtain ⟨hashes,deleted⟩ := roomy.named _ l v held found order
      exact ⟨⟨l,here,VectorClock.atMost_iff.mpr (VectorClock.compare_equal.mp order).ge⟩,
        .inr ⟨_,l,.inl rfl,here,hashes.symm,deleted.symm⟩⟩
    | before =>
      simp only [resolve,order] at here
      exact ⟨⟨v,here,VectorClock.atMost_iff.mpr (le_refl _)⟩,.inr ⟨_,v,.inl rfl,here,rfl,rfl⟩⟩
    | after =>
      simp only [resolve,order] at here
      have less := VectorClock.compare_after.mp order
      exact ⟨⟨l,here,VectorClock.atMost_iff.mpr less.le⟩,.inl ⟨l,.inl held,VectorClock.compare_before.mpr less⟩⟩
    | concurrent =>
      simp only [resolve,order] at here
      refine ⟨⟨_,here,VectorClock.atMost_iff.mpr ?_⟩,.inr ⟨_,_,.inr rfl,forked ⟨l,held,order⟩,rfl,rfl⟩⟩
      rw [VectorClock.counts_merge]
      exact le_sup_right

theorem Kept.swap (kept : Kept a b path v after) : Kept b a path v after := by
  refine ⟨kept.seen,kept.content.imp_left ?_⟩
  rintro ⟨w,held,order⟩
  exact ⟨w,held.symm,order⟩

-- A version that nothing replaced can be read on the node, as a chunk list and as a file.
structure Survives (a b : CrdtStore) (path : Bytes) (v : FileEntry) (after : SyncEngine) : Prop where
  kept : Kept a b path v after.store
  file : ¬ Outdated a b path v → v.hasContent = true → ∃ place bytes,
    (place = path ∨ place = makeConflictPath path v.lastWriter) ∧ after.blobs.reassemble v.chunkHashes = .ok bytes ∧
      after.disk.files.find place = some bytes

theorem survives_kept (kept : Kept a b path v after.store) (mirrored : Directory.Mirrored after) : Survives a b path v after := by
  refine ⟨kept,?_⟩
  intro current content
  rcases kept.content with old | ⟨place,e,which,held,hashes,deleted⟩
  · exact absurd old current
  · have full : e.hasContent = true := by
      rw [FileEntry.hasContent,← hashes,← deleted]
      exact content
    obtain ⟨bytes,read,file⟩ := mirrored place e held full
    exact ⟨place,bytes,which,hashes ▸ read,file⟩

theorem mirrored_left {a b : SyncEngine} (complete : Complete a b forA forB) (mirrored : Directory.Mirrored a) :
    Directory.Mirrored (left a forA) := by
  obtain ⟨stats,returns⟩ := complete.returnsA
  obtain ⟨paths,rewrites⟩ := Directory.rewrites_session returns
  exact rewrites.mirrored mirrored

theorem session_lossless (a b : SyncEngine) (forA forB : Link) (complete : Complete a b forA forB) (readableA : Readable a)
    (readableB : Readable b) (mirroredA : Directory.Mirrored a) (mirroredB : Directory.Mirrored b) (roomy : Roomy a.store b.store)
    (path : Bytes) (v : FileEntry) (held : a.store.get path = some v ∨ b.store.get path = some v) :
    Survives a.store b.store path v (left a forA) ∧ Survives a.store b.store path v (left b forB) := by
  have keptA : Kept a.store b.store path v (left a forA).store := by
    rw [store_left complete readableB]
    exact held.elim (kept_own roomy) (kept_other roomy)
  have keptB : Kept a.store b.store path v (left b forB).store := by
    rw [store_left complete.symm readableA]
    exact (held.elim (kept_other roomy.symm) (kept_own roomy.symm)).swap
  exact ⟨survives_kept keptA (mirrored_left complete mirroredA),survives_kept keptB (mirrored_left complete.symm mirroredB)⟩

theorem mirrored_drafted (node : Bytes) (fill : UInt8) : Directory.Mirrored (drafted node fill) := by
  intro path entry held _
  change ((CrdtStore.new node).store _).get path = some entry at held
  rw [get_store] at held
  split at held
  · rename_i here
    cases held
    refine ⟨[fill],?_,?_⟩
    · simp [FileStore.reassemble,FileStore.getChunk,SyncEngine.blobs,drafted,CrdtStore.putEntry,Except.map]
    · rw [← here]
      simp [drafted,CrdtStore.putEntry]
  · cases held

theorem held_drafted {node : Bytes} {fill : UInt8} (held : (drafted node fill).store.get path = some e) :
    path = ascii "notes.txt" ∧ e.lastWriter = node := by
  change ((CrdtStore.new node).store _).get path = some e at held
  rw [get_store] at held
  split at held
  · rename_i here
    cases held
    exact ⟨here.symm,rfl⟩
  · cases held

theorem session_lossless_drafts : ∃ v, (drafted (ascii "B") 2).store.get (ascii "notes.txt") = some v ∧ v.hasContent = true ∧
    Survives (drafted (ascii "A") 1).store (drafted (ascii "B") 2).store (ascii "notes.txt") v (left (drafted (ascii "A") 1) forFirst) := by
  have complete : Complete (drafted (ascii "A") 1) (drafted (ascii "B") 2) forFirst forSecond := by
    exact complete_check (by decide +kernel)
  have clocks : ∀ l ∈ (drafted (ascii "A") 1).store.get (ascii "notes.txt"), ∀ r ∈ (drafted (ascii "B") 2).store.get (ascii "notes.txt"),
      VectorClock.compare l.clock r.clock ≠ .equal := by decide +kernel
  have vacant : ∀ writer ∈ [ascii "A",ascii "B"],
      (drafted (ascii "A") 1).store.get (makeConflictPath (ascii "notes.txt") writer) = none ∧
      (drafted (ascii "B") 2).store.get (makeConflictPath (ascii "notes.txt") writer) = none := by decide +kernel
  have roomy : Roomy (drafted (ascii "A") 1).store (drafted (ascii "B") 2).store := by
    refine ⟨?_,?_,?_⟩
    · rintro path l r ⟨left,right,_⟩ writer which
      obtain ⟨rfl,first⟩ := held_drafted left
      obtain ⟨_,second⟩ := held_drafted right
      rw [first,second] at which
      exact vacant writer (by simpa using which)
    · rintro p q l r x y ⟨left,_⟩ ⟨other,_⟩ differ
      exact absurd ((held_drafted left).1.trans (held_drafted other).1.symm) differ
    · intro path l r left right order
      obtain ⟨rfl,_⟩ := held_drafted left
      exact absurd order (clocks l left r right)
  have readableA : Readable (drafted (ascii "A") 1) := by
    unfold Readable
    decide +kernel
  have readableB : Readable (drafted (ascii "B") 2) := by
    unfold Readable
    decide +kernel
  have found : ((drafted (ascii "B") 2).store.get (ascii "notes.txt")).map FileEntry.hasContent = some true := by decide +kernel
  obtain ⟨v,held,content⟩ := Option.map_eq_some_iff.mp found
  exact ⟨v,held,content,(session_lossless _ _ _ _ complete readableA readableB (mirrored_drafted _ _) (mirrored_drafted _ _) roomy
    _ v (.inr held)).1⟩

end P2PSync.Lossless
