import P2PSync.MergeOrder

namespace P2PSync.Snapshots
open CrdtStore MergeOrder

-- What a merge leaves at the path of the remote entry.
def resolve (mine : Option FileEntry) (remote : FileEntry) : FileEntry :=
  match mine with
  | none => remote
  | some loc => match VectorClock.compare loc.clock remote.clock with
    | .equal => loc
    | .before => remote
    | .after => loc
    | .concurrent => { loc with clock := loc.clock.merge remote.clock }

theorem get_mergeRemote_here (s : CrdtStore) (remote : FileEntry) :
    (s.mergeRemote remote).2.get remote.path = some (resolve (s.get remote.path) remote) := by
  cases held : s.get remote.path with
  | none => simp [mergeRemote,held,resolve]
  | some loc =>
    have place : loc.path = remote.path := get_path held
    cases order : VectorClock.compare loc.clock remote.clock with
    | equal => simp [mergeRemote,held,order,resolve]
    | before => simp [mergeRemote,held,order,resolve]
    | after => simp [mergeRemote,held,order,resolve]
    | concurrent => simp [mergeRemote,held,order,resolve,place]

theorem get_mergeRemote_fork {s : CrdtStore} {remote : FileEntry} (conflicts : Conflicts s remote) :
    (s.mergeRemote remote).2.get (forkOf remote).path = some (forkOf remote) := by
  obtain ⟨loc,held,order⟩ := conflicts
  have place : loc.path = remote.path := get_path held
  have apart : remote.path ≠ (forkOf remote).path := (makeConflictPath_ne _ _).symm
  simp [mergeRemote,held,order,place,apart]

theorem get_mergeRemote_away {s : CrdtStore} {remote : FileEntry} (other : remote.path ≠ path)
    (unforked : Conflicts s remote → (forkOf remote).path ≠ path) : (s.mergeRemote remote).2.get path = s.get path := by
  cases held : s.get remote.path with
  | none => simp [mergeRemote,held,other]
  | some loc =>
    have place : loc.path = remote.path := get_path held
    cases order : VectorClock.compare loc.clock remote.clock with
    | equal => simp [mergeRemote,held,order]
    | before => simp [mergeRemote,held,order,other]
    | after => simp [mergeRemote,held,order]
    | concurrent =>
      have apart := unforked ⟨loc,held,order⟩
      simp [mergeRemote,held,order,place,other,apart]

-- Nothing is delivered at a path to which a conflict is forked, and no two forks meet.
structure Uncrowded (s : CrdtStore) (incoming : List FileEntry) : Prop where
  once : (incoming.map FileEntry.path).Nodup
  clear : ∀ r ∈ incoming, Conflicts s r → ∀ x ∈ incoming, x.path ≠ (forkOf r).path
  apart : ∀ r ∈ incoming, ∀ x ∈ incoming, Conflicts s r → Conflicts s x → r ≠ x → (forkOf r).path ≠ (forkOf x).path

theorem conflicts_next {s : CrdtStore} {remote : FileEntry} (uncrowded : Uncrowded s (remote :: rest)) (member : r ∈ rest) :
    (s.mergeRemote remote).2.get r.path = s.get r.path ∧ (Conflicts (s.mergeRemote remote).2 r ↔ Conflicts s r) := by
  have other : remote.path ≠ r.path := by
    have once := uncrowded.once
    simp only [List.map_cons,List.nodup_cons] at once
    exact fun same => once.1 (same ▸ List.mem_map_of_mem member)
  have same := get_mergeRemote_away (s := s) other (fun conflicts clash =>
    uncrowded.clear remote List.mem_cons_self conflicts r (List.mem_cons_of_mem _ member) clash.symm)
  exact ⟨same,by rw [Conflicts,same,Conflicts]⟩

theorem Uncrowded.next {s : CrdtStore} {remote : FileEntry} (uncrowded : Uncrowded s (remote :: rest)) :
    Uncrowded (s.mergeRemote remote).2 rest := by
  have later : ∀ r ∈ rest, r ∈ remote :: rest := fun r member => List.mem_cons_of_mem _ member
  refine ⟨?_,?_,?_⟩
  · have once := uncrowded.once
    simp only [List.map_cons,List.nodup_cons] at once
    exact once.2
  · intro r member conflicts x inside
    exact uncrowded.clear r (later r member) ((conflicts_next uncrowded member).2.mp conflicts) x (later x inside)
  · intro r member x inside conflictsR conflictsX
    exact uncrowded.apart r (later r member) x (later x inside) ((conflicts_next uncrowded member).2.mp conflictsR)
      ((conflicts_next uncrowded inside).2.mp conflictsX)

theorem get_mergeAll_away {s : CrdtStore} {incoming : List FileEntry} (uncrowded : Uncrowded s incoming)
    (other : ∀ r ∈ incoming, r.path ≠ path) (unforked : ∀ r ∈ incoming, Conflicts s r → (forkOf r).path ≠ path) :
    (mergeAll s incoming).get path = s.get path := by
  induction incoming generalizing s with
  | nil => rfl
  | cons remote rest ih =>
    have first := get_mergeRemote_away (other remote List.mem_cons_self) (unforked remote List.mem_cons_self)
    change (mergeAll (s.mergeRemote remote).2 rest).get path = _
    rw [ih uncrowded.next (fun r member => other r (List.mem_cons_of_mem _ member)),first]
    intro r member conflicts
    exact unforked r (List.mem_cons_of_mem _ member) ((conflicts_next uncrowded member).2.mp conflicts)

-- Each delivery is merged into what was there at first, and each conflict leaves its fork.
theorem get_mergeAll_resolved {s : CrdtStore} {incoming : List FileEntry} (uncrowded : Uncrowded s incoming)
    (member : remote ∈ incoming) :
    (mergeAll s incoming).get remote.path = some (resolve (s.get remote.path) remote) ∧
      (Conflicts s remote → (mergeAll s incoming).get (forkOf remote).path = some (forkOf remote)) := by
  induction incoming generalizing s with
  | nil => cases member
  | cons first rest ih =>
    change (mergeAll (s.mergeRemote first).2 rest).get _ = _ ∧ (_ → (mergeAll (s.mergeRemote first).2 rest).get _ = _)
    rcases List.mem_cons.mp member with rfl | later
    · have once := uncrowded.once
      simp only [List.map_cons,List.nodup_cons] at once
      have other : ∀ r ∈ rest, r.path ≠ remote.path := fun r inside same => once.1 (same ▸ List.mem_map_of_mem inside)
      constructor
      · rw [get_mergeAll_away uncrowded.next other]
        · exact get_mergeRemote_here s remote
        · intro r inside conflicts clash
          exact uncrowded.clear r (List.mem_cons_of_mem _ inside) ((conflicts_next uncrowded inside).2.mp conflicts)
            remote List.mem_cons_self clash.symm
      · intro conflicts
        rw [get_mergeAll_away uncrowded.next]
        · exact get_mergeRemote_fork conflicts
        · exact fun r inside => uncrowded.clear remote List.mem_cons_self conflicts r (List.mem_cons_of_mem _ inside)
        · intro r inside again
          refine uncrowded.apart r (List.mem_cons_of_mem _ inside) remote List.mem_cons_self
            ((conflicts_next uncrowded inside).2.mp again) conflicts ?_
          rintro rfl
          exact other r inside rfl
    · obtain ⟨here,forked⟩ := ih uncrowded.next later
      obtain ⟨same,conflicting⟩ := conflicts_next uncrowded later
      rw [same] at here
      exact ⟨here,fun conflicts => forked (conflicting.mpr conflicts)⟩

theorem once_allEntries (s : CrdtStore) : (s.allEntries.map FileEntry.path).Nodup := by
  have keys := s.entries.keys_nodup
  rw [OrdMap.keys,pairs_eq,List.map_map] at keys
  exact keys

end P2PSync.Snapshots
