import P2PSync.Lib.Gossip
import P2PSync.Directory
import P2PSync.Fidelity
import P2PSync.FailedSession
import P2PSync.Snapshots

namespace P2PSync.Histories
open SyncEngine Network EntryCodec CrdtStore MergeOrder Snapshots Fidelity

variable {ι : Type} [DecidableEq ι]

omit [DecidableEq ι] in
def held (t : Mesh ι) (path : Bytes) (i : ι) : Option FileEntry := (t.peers i).engine.store.get path

omit [DecidableEq ι] in
def known (t : Mesh ι) (path : Bytes) (i : ι) : Bytes → ℕ := ((t.peers i).engine.store.clockAt path).counts

-- Who edits which path, and what the file holds then: none is a delete.
omit [DecidableEq ι] in
def edit : Action ι → Option (ι × Bytes × Option Bytes)
  | .ingest i path bytes => some (i,path,some bytes)
  | .delete i path => some (i,path,none)
  | .session _ _ _ _ => none
  | .restart _ => none

omit [DecidableEq ι] in
def call : Action ι → Option (ι × ι)
  | .session i j _ _ => some (i,j)
  | _ => none

-- Every edit is made over the newest version of its path, by a counter with room.
structure Serial (ids : ι → Bytes) (t : Mesh ι) (action : Action ι) : Prop where
  honest : Honest t action
  newest : ∀ i path content, edit action = some (i,path,content) → ∀ j, known t path j ≤ known t path i
  room : ∀ i path content, edit action = some (i,path,content) → known t path i (ids i) + 1 < 2^64

-- The path as one file that is edited in place.
omit [DecidableEq ι] in
def editsOf (path : Bytes) (actions : List (Action ι)) : List (Option Bytes) :=
  (actions.filterMap edit).filterMap (fun (_,at_path,content) => if at_path = path then some content else none)

-- How many of the edits of the path each node has heard of.
def advance (path : Bytes) (place : ι → ℕ) (action : Action ι) : ι → ℕ :=
  match edit action,call action with
  | some (i,at_path,_),_ => if at_path = path then Function.update place i (place i + 1) else place
  | none,some pair => Gossip.call place pair
  | none,none => place

def reach (path : Bytes) (actions : List (Action ι)) : ι → ℕ := actions.foldl (advance path) (fun _ => 0)

-- The entry that an edit leaves.
def Carries (content : Option Bytes) (e : FileEntry) : Prop :=
  match content with
  | some bytes => e.deleted = false ∧ e.chunkHashes = (Chunker.standard.chunk bytes).map Chunk.hash
  | none => e.deleted = true

def version (log : List FileEntry) : ℕ → Option FileEntry
  | 0 => none
  | n+1 => log[n]?

-- Each node holds one of the versions of a history, and the last is somewhere.
structure Follows (t : Mesh ι) (path : Bytes) (log : List FileEntry) (place : ι → ℕ) : Prop where
  rises : log.Pairwise (fun a b => a.clock.counts < b.clock.counts)
  earned : ∀ e ∈ log, 0 < e.clock.counts
  holds : ∀ j, held t path j = version log (place j)
  bound : ∀ j, place j ≤ log.length
  kept : log = [] ∨ ∃ k, place k = log.length

def newer (mine theirs : Option FileEntry) : Option FileEntry :=
  match theirs with
  | none => mine
  | some remote => some (resolve mine remote)

def Comparable (mine theirs : Option FileEntry) : Prop :=
  ∀ a b, mine = some a → theirs = some b → VectorClock.compare a.clock b.clock ≠ .concurrent

-- Merging a whole snapshot without conflicts takes the newer version at each path.
theorem get_mergeAll_snapshot {s other : CrdtStore} (comparable : ∀ path, Comparable (s.get path) (other.get path))
    (path : Bytes) : (mergeAll s other.allEntries).get path = newer (s.get path) (other.get path) := by
  have calm : ∀ r ∈ other.allEntries, ¬ Conflicts s r := by
    rintro r member ⟨loc,held,order⟩
    exact comparable r.path loc r held (mem_allEntries.mp member) order
  have uncrowded : Uncrowded s other.allEntries :=
    ⟨once_allEntries other,fun r member conflicts => absurd conflicts (calm r member),
      fun r member _ _ conflicts => absurd conflicts (calm r member)⟩
  cases found : other.get path with
  | none =>
    refine get_mergeAll_away uncrowded ?_ (fun r member conflicts => absurd conflicts (calm r member))
    rintro r member rfl
    exact Option.some_ne_none r ((mem_allEntries.mp member).symm.trans found)
  | some remote =>
    have place : remote.path = path := get_path found
    subst place
    exact (get_mergeAll_resolved uncrowded (mem_allEntries.mpr found)).1

theorem version_rises {log : List FileEntry} (rises : log.Pairwise (fun a b => a.clock.counts < b.clock.counts))
    (less : m < n) (first : version log m = some a) (second : version log n = some b) : a.clock.counts < b.clock.counts := by
  cases m with
  | zero => cases first
  | succ m =>
    cases n with
    | zero => omega
    | succ n =>
      obtain ⟨boundM,rfl⟩ := List.getElem?_eq_some_iff.mp first
      obtain ⟨boundN,rfl⟩ := List.getElem?_eq_some_iff.mp second
      exact List.pairwise_iff_getElem.mp rises m n boundM boundN (by omega)

theorem version_some {log : List FileEntry} (positive : 0 < n) (bound : n ≤ log.length) : ∃ e ∈ log, version log n = some e := by
  obtain ⟨m,rfl⟩ := Nat.exists_eq_succ_of_ne_zero positive.ne'
  exact ⟨log[m],List.getElem_mem bound,List.getElem?_eq_getElem bound⟩

theorem version_comparable {log : List FileEntry} (rises : log.Pairwise (fun a b => a.clock.counts < b.clock.counts))
    (m n : ℕ) : Comparable (version log m) (version log n) := by
  intro a b first second concurrent
  obtain ⟨left,right⟩ := VectorClock.compare_concurrent.mp concurrent
  rcases Nat.lt_trichotomy m n with less | rfl | more
  · exact left (version_rises rises less first second).le
  · rw [first] at second
    cases second
    exact left (le_refl _)
  · exact right (version_rises rises more second first).le

theorem newer_version {log : List FileEntry} (rises : log.Pairwise (fun a b => a.clock.counts < b.clock.counts))
    (boundM : m ≤ log.length) (boundN : n ≤ log.length) :
    newer (version log m) (version log n) = version log (m ⊔ n) := by
  rcases Nat.eq_zero_or_pos n with rfl | positiveN
  · rw [Nat.max_zero]
    rfl
  · obtain ⟨b,_,second⟩ := version_some positiveN boundN
    rcases Nat.eq_zero_or_pos m with rfl | positiveM
    · rw [Nat.zero_max,second]
      rfl
    · obtain ⟨a,_,first⟩ := version_some positiveM boundM
      rw [first,second]
      rcases Nat.lt_trichotomy m n with less | rfl | more
      · have order := VectorClock.compare_before.mpr (version_rises rises less first second)
        simp [newer,resolve,order,max_eq_right less.le,second]
      · rw [first] at second
        cases second
        have order : VectorClock.compare b.clock b.clock = .equal := VectorClock.compare_equal.mpr rfl
        simp [newer,resolve,order,first]
      · have order := VectorClock.compare_after.mpr (version_rises rises more second first)
        simp [newer,resolve,order,max_eq_left more.le,first]

omit [DecidableEq ι] in
theorem known_held {t : Mesh ι} (found : held t path i = some e) : known t path i = e.clock.counts :=
  congrArg VectorClock.counts (clockAt_held found)

-- An edit changes one entry of one node.
structure Edited (t : Mesh ι) (i : ι) (path : Bytes) (content : Option Bytes) (entry : FileEntry) (after : Mesh ι) : Prop where
  clock : entry.clock = ((t.peers i).engine.store.clockAt path).increment (t.peers i).engine.store.nodeId
  carries : Carries content entry
  holds : ∀ q k, held after q k = if k = i ∧ path = q then some entry else held t q k

theorem step_edited {ids : ι → Bytes} {t : Mesh ι} {action : Action ι} {content : Option Bytes} (kept : Kept ids t)
    (edits : edit action = some (i,path,content)) : ∃ entry, Edited t i path content entry (step ids t action) := by
  have placed : ∀ (p : Peer) (calls : List Bytes) (entry : FileEntry), p.engine.store = (t.peers i).engine.store.store entry →
      entry.path = path → ∀ q k, held ⟨Function.update t.peers i p,calls⟩ q k =
        if k = i ∧ path = q then some entry else held t q k := by
    rintro p calls entry stored rfl q k
    unfold held
    by_cases actor : k = i
    · subst actor
      simp [stored]
    · simp [actor]
  cases action with
  | ingest k path bytes =>
    cases edits
    obtain ⟨files,done⟩ := ingestFile_whole (kept i).whole path bytes
    have stored : ((t.peers i).engine.ingestFile path bytes).1.store = (t.peers i).engine.store.store
        ((t.peers i).engine.store.putEntry path ((Chunker.standard.chunk bytes).map Chunk.hash) _ _) :=
      congrArg (fun done => done.1.store) done
    exact ⟨_,rfl,⟨rfl,rfl⟩,placed _ _ _ stored rfl⟩
  | delete k path =>
    cases edits
    exact ⟨_,deleteEntry_clock _ _,rfl,placed _ _ _ rfl rfl⟩
  | session i j forI forJ => cases edits
  | restart k => cases edits

omit [DecidableEq ι] in
theorem store_sync {p q : Peer} (complete : Complete p.engine q.engine forP forQ) (readable : Readable q.engine) :
    (sync p q forP).engine.store = mergeAll p.engine.store q.engine.store.allEntries := by
  obtain ⟨needed,files,_,left⟩ := complete.left readable
  have store : (merged p.engine q.engine).store = mergeAll p.engine.store q.engine.store.allEntries :=
    FailedSession.store_afterMerge p.engine q.engine.store.allEntries
  rw [← store]
  unfold sync
  rw [left]
  rfl

-- Without conflicts both ends of a session come to the newer versions.
theorem step_called {ids : ι → Bytes} (own : ∀ i, Plain (ids i)) {t : Mesh ι} {action : Action ι} (kept : Kept ids t)
    (honest : Honest t action) (calls : call action = some (i,j))
    (comparable : ∀ path, Comparable (held t path i) (held t path j) ∧ Comparable (held t path j) (held t path i)) (path : Bytes) (k : ι) :
    held (step ids t action) path k = if k = j then newer (held t path j) (held t path i)
      else if k = i then newer (held t path i) (held t path j) else held t path k := by
  have readable : ∀ k, Readable (t.peers k).engine := fun k => ((kept k).legible (own k)).readable
  cases action with
  | ingest k path bytes => cases calls
  | delete k path => cases calls
  | restart k => cases calls
  | session first second forI forJ =>
    cases calls
    obtain ⟨differ,complete⟩ := honest
    unfold held
    by_cases responder : k = j
    · subst responder
      simp only [step,Function.update_self,if_true]
      rw [store_sync complete.symm (readable i),get_mergeAll_snapshot (fun q => (comparable q).2)]
    · by_cases initiator : k = i
      · subst initiator
        simp only [step,Function.update_of_ne responder,Function.update_self,responder,if_true,if_false]
        rw [store_sync complete (readable j),get_mergeAll_snapshot (fun q => (comparable q).1)]
      · simp only [step,Function.update_of_ne responder,Function.update_of_ne initiator,responder,initiator,if_false]

theorem step_idle {ids : ι → Bytes} {t : Mesh ι} {action : Action ι} (kept : Kept ids t) (unedited : edit action = none)
    (silent : call action = none) : step ids t action = t := by
  cases action with
  | ingest k path bytes => cases unedited
  | delete k path => cases unedited
  | session i j forI forJ => cases silent
  | restart k => exact step_restart (kept k)

omit [DecidableEq ι] in
theorem held_known {t : Mesh ι} {log : List FileEntry} {place : ι → ℕ} (follows : Follows t path log place)
    (found : version log (place i) = some e) : known t path i = e.clock.counts :=
  known_held ((follows.holds i).trans found)

-- The editor has the last version.
omit [DecidableEq ι] in
theorem place_newest {t : Mesh ι} {log : List FileEntry} {place : ι → ℕ} (follows : Follows t path log place)
    (newest : ∀ j, known t path j ≤ known t path i) : place i = log.length := by
  rcases follows.kept with rfl | ⟨k,last⟩
  · exact Nat.le_zero.mp (follows.bound i)
  · by_contra behind
    have less : place i < place k := last ▸ Nat.lt_of_le_of_ne (follows.bound i) behind
    obtain ⟨top,member,latest⟩ := version_some (Nat.zero_lt_of_lt less) (follows.bound k)
    have above := newest k
    rw [held_known follows latest] at above
    rcases Nat.eq_zero_or_pos (place i) with unheard | heard
    · -- An editor without a version knows of no edit, and every version counts one.
      have absent : held t path i = none := by rw [follows.holds,unheard,version]
      have nothing : known t path i = 0 := congrArg VectorClock.counts (clockAt_absent absent)
      rw [nothing] at above
      exact (follows.earned top member).not_ge above
    · obtain ⟨e,_,found⟩ := version_some heard (follows.bound i)
      rw [held_known follows found] at above
      exact (version_rises follows.rises less found latest).not_ge above

omit [DecidableEq ι] in
theorem entry_rises {t : Mesh ι} {log : List FileEntry} {place : ι → ℕ} (follows : Follows t path log place)
    (last : place i = log.length) (member : a ∈ log) : a.clock.counts ≤ known t path i := by
  obtain ⟨m,bound,rfl⟩ := List.getElem_of_mem member
  have first : version log (m+1) = some log[m] := List.getElem?_eq_getElem bound
  obtain ⟨top,_,latest⟩ := version_some (n := place i) (by omega) (follows.bound i)
  rw [held_known follows latest]
  rcases Nat.lt_or_ge (m+1) (place i) with less | ge
  · exact (version_rises follows.rises less first latest).le
  · have same : m+1 = place i := by omega
    rw [same,latest] at first
    exact (congrArg (fun e => e.clock.counts) (Option.some.inj first)).ge

theorem follows_edited {ids : ι → Bytes} {t after : Mesh ι} {log : List FileEntry} {place : ι → ℕ} {content : Option Bytes}
    (named : (t.peers i).engine.store.nodeId = ids i) (follows : Follows t path log place)
    (newest : ∀ j, known t path j ≤ known t path i) (room : known t path i (ids i) + 1 < 2^64)
    (edited : Edited t i path content entry after) :
    Follows after path (log ++ [entry]) (Function.update place i (place i + 1)) := by
  have last := place_newest follows newest
  have grows : known t path i < entry.clock.counts := by
    rw [edited.clock,named,VectorClock.counts_increment _ _ room]
    exact lt_update_self_iff.mpr (Nat.lt_succ_self _)
  refine ⟨?_,?_,?_,?_,.inr ⟨i,by simp [last]⟩⟩
  · refine List.pairwise_append.mpr ⟨follows.rises,List.pairwise_singleton _ _,?_⟩
    intro a member b new
    cases List.mem_singleton.mp new
    exact (entry_rises follows last member).trans_lt grows
  · intro e member
    rcases List.mem_append.mp member with before | new
    · exact follows.earned e before
    · cases List.mem_singleton.mp new
      exact zero_le.trans_lt grows
  · intro j
    rw [edited.holds]
    by_cases actor : j = i
    · subst actor
      simp [version,last]
    · rw [if_neg (fun both => actor both.1),Function.update_of_ne actor,follows.holds]
      have bound := follows.bound j
      generalize place j = n at bound
      cases n with
      | zero => rfl
      | succ n => exact (List.getElem?_append_left bound).symm
  · intro j
    by_cases actor : j = i
    · subst actor
      simp [last]
    · rw [Function.update_of_ne actor,List.length_append]
      exact (follows.bound j).trans (Nat.le_add_right _ _)

omit [DecidableEq ι] in
theorem Follows.congr {t after : Mesh ι} {log : List FileEntry} {place : ι → ℕ} (follows : Follows t path log place)
    (same : ∀ j, held after path j = held t path j) : Follows after path log place :=
  ⟨follows.rises,follows.earned,fun j => (same j).trans (follows.holds j),follows.bound,follows.kept⟩

theorem follows_called {t after : Mesh ι} {log : List FileEntry} {place : ι → ℕ} (follows : Follows t path log place)
    (met : ∀ k, held after path k = if k = j then newer (held t path j) (held t path i)
      else if k = i then newer (held t path i) (held t path j) else held t path k) :
    Follows after path log (Gossip.call place (i,j)) := by
  have joined := newer_version follows.rises (follows.bound i) (follows.bound j)
  have mirrored := newer_version follows.rises (follows.bound j) (follows.bound i)
  rw [← follows.holds,← follows.holds] at joined mirrored
  refine ⟨follows.rises,follows.earned,?_,?_,?_⟩
  · intro k
    rw [met]
    by_cases second : k = j
    · rw [if_pos second,mirrored,max_comm]
      simp [Gossip.call,second]
    · by_cases first : k = i
      · rw [if_neg second,if_pos first,joined]
        simp [Gossip.call,first]
      · rw [if_neg second,if_neg first,follows.holds]
        simp [Gossip.call,first,second]
  · intro k
    unfold Gossip.call
    split
    · exact sup_le (follows.bound i) (follows.bound j)
    · exact follows.bound k
  · rcases follows.kept with nothing | ⟨k,last⟩
    · exact .inl nothing
    · refine .inr ⟨k,?_⟩
      unfold Gossip.call
      split
      · rename_i one
        have top : place i ⊔ place j ≤ log.length := sup_le (follows.bound i) (follows.bound j)
        have least : log.length ≤ place i ⊔ place j := by
          rcases one with rfl | rfl
          · exact last ▸ le_sup_left
          · exact last ▸ le_sup_right
        exact le_antisymm top least
      · exact last

-- The state of the run at every path, as its edits and sessions tell it.
def Tracked (actions : List (Action ι)) (t : Mesh ι) : Prop :=
  ∀ path, ∃ log, Follows t path log (reach path actions) ∧ List.Forall₂ Carries (editsOf path actions) log

theorem reach_snoc (path : Bytes) (actions : List (Action ι)) (action : Action ι) :
    reach path (actions ++ [action]) = advance path (reach path actions) action := List.foldl_append

omit [DecidableEq ι] in
theorem editsOf_append (path : Bytes) (first second : List (Action ι)) :
    editsOf path (first ++ second) = editsOf path first ++ editsOf path second := by
  rw [editsOf,List.filterMap_append,List.filterMap_append]
  rfl

theorem tracked_step {ids : ι → Bytes} (own : ∀ i, Plain (ids i)) {t : Mesh ι} {actions : List (Action ι)} {action : Action ι}
    (kept : Kept ids t) (serial : Serial ids t action) (tracked : Tracked actions t) :
    Tracked (actions ++ [action]) (step ids t action) := by
  intro path
  obtain ⟨log,follows,carried⟩ := tracked path
  rw [reach_snoc,editsOf_append]
  cases edits : edit action with
  | some who =>
    obtain ⟨i,place,content⟩ := who
    obtain ⟨entry,edited⟩ := step_edited kept edits
    by_cases here : place = path
    · subst here
      refine ⟨log ++ [entry],?_,?_⟩
      · simp only [advance,edits,if_true]
        exact follows_edited (kept i).named follows (serial.newest i place content edits) (serial.room i place content edits) edited
      · refine List.rel_append carried ?_
        simp only [editsOf,edits,List.filterMap_cons,List.filterMap_nil,if_true]
        exact .cons edited.carries .nil
    · refine ⟨log,?_,?_⟩
      · simp only [advance,edits,here,if_false]
        refine follows.congr (fun j => ?_)
        rw [edited.holds,if_neg (fun both => here both.2)]
      · simpa [editsOf,edits,here] using carried
  | none =>
    have unedited : editsOf path [action] = [] := by simp [editsOf,edits]
    rw [unedited,List.append_nil]
    cases calls : call action with
    | some pair =>
      obtain ⟨i,j⟩ := pair
      have comparable : ∀ q, Comparable (held t q i) (held t q j) ∧ Comparable (held t q j) (held t q i) := by
        intro q
        obtain ⟨line,along,_⟩ := tracked q
        rw [along.holds,along.holds]
        exact ⟨version_comparable along.rises _ _,version_comparable along.rises _ _⟩
      refine ⟨log,?_,carried⟩
      simp only [advance,edits,calls]
      exact follows_called follows (step_called own kept serial.honest calls comparable path)
    | none =>
      refine ⟨log,?_,carried⟩
      simp only [advance,edits,calls]
      rw [step_idle kept edits calls]
      exact follows

theorem tracked_run {ids : ι → Bytes} (own : ∀ i, Plain (ids i))
    (run : Runs (step ids) (Serial ids) (initial ids) actions t) : Kept ids t ∧ Tracked actions t := by
  induction run with
  | nil =>
    refine ⟨fun i => sound_fresh (ids i),fun path => ⟨[],?_,.nil⟩⟩
    exact ⟨.nil,nofun,fun _ => rfl,fun _ => le_refl _,.inl rfl⟩
  | snoc _ serial ih =>
    obtain ⟨kept,tracked⟩ := ih
    exact ⟨kept_step own _ _ kept serial.honest,tracked_step own kept serial tracked⟩

-- The content after the first n edits: none before the first one.
def afterEdits (edits : List (Option Bytes)) : ℕ → Option (Option Bytes)
  | 0 => none
  | n+1 => edits[n]?

-- What a user of the node finds at the path.
def Shows (e : SyncEngine) (path : Bytes) : Option (Option Bytes) → Prop
  | none => e.store.get path = none
  | some none => ∃ entry, e.store.get path = some entry ∧ entry.deleted = true
  | some (some bytes) => ∃ entry, e.store.get path = some entry ∧ entry.deleted = false ∧
      e.blobs.reassemble entry.chunkHashes = .ok bytes ∧ (bytes ≠ [] → e.disk.files.find path = some bytes)

theorem mirrored_step {ids : ι → Bytes} {t : Mesh ι} {action : Action ι} (kept : Kept ids t) (honest : Honest t action)
    (mirrored : ∀ i, Directory.Mirrored (t.peers i).engine) : ∀ i, Directory.Mirrored ((step ids t action).peers i).engine := by
  intro k
  have became := step_became kept honest k
  generalize (step ids t action).peers k = p at became ⊢
  cases became with
  | ingested => exact (Directory.rewrites_ingest (mirrored k) _ _).mirrored (mirrored k)
  | deleted => exact (Directory.rewrites_delete _ _).mirrored (mirrored k)
  | synced complete =>
    obtain ⟨stats,returns⟩ := complete.returnsA
    obtain ⟨paths,rewrites⟩ := Directory.rewrites_session returns
    exact rewrites.mirrored (mirrored k)
  | idle => exact mirrored k

theorem mirrored_run {ids : ι → Bytes} (own : ∀ i, Plain (ids i))
    (run : Runs (step ids) (Serial ids) (initial ids) actions t) : ∀ i, Directory.Mirrored (t.peers i).engine := by
  induction run with
  | nil => exact fun i => nofun
  | snoc prior serial ih => exact mirrored_step (tracked_run own prior).1 serial.honest ih

theorem calls_run {ids : ι → Bytes} (run : Runs (step ids) (Serial ids) (initial ids) actions t) :
    t.calls = actions.flatMap called := by
  induction run with
  | nil => rfl
  | snoc _ _ ih => rw [step_calls,ih,List.flatMap_append,List.flatMap_singleton]

omit [DecidableEq ι] in
theorem called_of_edits {actions : List (Action ι)} (member : some bytes ∈ editsOf path actions) : bytes ∈ actions.flatMap called := by
  obtain ⟨⟨i,place,content⟩,edited,here⟩ := List.mem_filterMap.mp member
  obtain ⟨action,inside,edits⟩ := List.mem_filterMap.mp edited
  refine List.mem_flatMap.mpr ⟨action,inside,?_⟩
  have content_eq : content = some bytes := by
    dsimp only at here
    split at here
    · exact Option.some.inj here
    · cases here
  subst content_eq
  cases action with
  | ingest k q data =>
    cases edits
    exact List.mem_singleton_self bytes
  | delete k q => cases edits
  | session a b forA forB => cases edits
  | restart k => cases edits

theorem shows_carried (sound : Sound node calls p) (free : CollisionFree calls) (mirrored : Directory.Mirrored p.engine)
    {content : Option Bytes} (called : ∀ bytes, content = some bytes → bytes ∈ calls)
    (found : p.engine.store.get path = some e) (carries : Carries content e) : Shows p.engine path (some content) := by
  cases content with
  | none => exact ⟨e,found,carries⟩
  | some bytes =>
    obtain ⟨live,hashes⟩ := carries
    have stored := stored_exact sound free found (called bytes rfl) hashes
    have read : p.engine.blobs.reassemble e.chunkHashes = .ok bytes := by
      rw [hashes,FileStore.reassemble_chunks stored,Chunker.chunk_data]
    refine ⟨e,found,live,read,?_⟩
    intro some
    have content : e.hasContent = true := by
      refine FileEntry.hasContent_iff.mpr ⟨live,fun nothing => some ?_⟩
      rw [nothing] at read
      cases read
      rfl
    obtain ⟨written,again,file⟩ := mirrored path e found content
    rw [read] at again
    cases again
    exact file

section
variable {ids : ι → Bytes} {actions later : List (Action ι)} {t : Mesh ι} (own : ∀ i, Plain (ids i))
  (run : Runs (step ids) (Serial ids) (initial ids) actions t)
include own run

theorem reach_bound (i : ι) (path : Bytes) : reach path actions i ≤ (editsOf path actions).length := by
  obtain ⟨log,follows,carried⟩ := (tracked_run own run).2 path
  rw [carried.length_eq]
  exact follows.bound i

-- The version that a node holds is that of the last edit it has heard of.
theorem shows_run (free : CollisionFree t.calls) (i : ι) (path : Bytes) :
    Shows (t.peers i).engine path (afterEdits (editsOf path actions) (reach path actions i)) := by
  have bound := reach_bound own run i path
  obtain ⟨kept,tracked⟩ := tracked_run own run
  obtain ⟨log,follows,carried⟩ := tracked path
  have holds := follows.holds i
  generalize reach path actions i = n at bound holds
  cases n with
  | zero => exact holds
  | succ n =>
    have here : n < log.length := carried.length_eq ▸ bound
    have content : (editsOf path actions)[n]? = some (editsOf path actions)[n] := List.getElem?_eq_getElem bound
    rw [version,List.getElem?_eq_getElem here] at holds
    rw [afterEdits,content]
    refine shows_carried (kept i) free (mirrored_run own run i) ?_ holds (carried.get bound here)
    intro bytes same
    rw [calls_run run]
    exact called_of_edits (same ▸ List.getElem_mem bound)

end

-- Every node shows each path as it was after the edits that the node has heard of.
theorem shows_heard_edits (ids : ι → Bytes) (own : ∀ i, Plain (ids i)) (actions : List (Action ι)) (t : Mesh ι)
    (run : Runs (step ids) (Serial ids) (initial ids) actions t) (free : CollisionFree t.calls) (i : ι) (path : Bytes) :
    reach path actions i ≤ (editsOf path actions).length ∧
      Shows (t.peers i).engine path (afterEdits (editsOf path actions) (reach path actions i)) :=
  ⟨reach_bound own run i path,shows_run own run free i path⟩

-- A adds a file that B then hears of.
theorem added_serial : Serial pair (initial pair) (.ingest 0 (ascii "a.txt") [7]) := by
  refine ⟨⟨by decide,by decide,by decide,by decide⟩,?_,?_⟩
  · intro i path content edits j
    exact le_refl (0 : Bytes → ℕ)
  · intro i path content edits
    change 0 + 1 < 2^64
    decide

theorem met_serial {forA forB : Link} (complete : Complete (added.peers 0).engine (added.peers 1).engine forA forB) :
    Serial pair added (.session 0 1 forA forB) :=
  ⟨⟨by decide,complete⟩,nofun,nofun⟩

theorem free_met (forA forB : Link) : CollisionFree (step pair added (.session 0 1 forA forB)).calls := free_one_file

theorem shows_heard_edits_one_file : ∃ forA forB t, Runs (step pair) (Serial pair) (initial pair)
      [.ingest 0 (ascii "a.txt") [7],.session 0 1 forA forB] t ∧
    Shows (t.peers 1).engine (ascii "a.txt") (some (some [7])) := by
  obtain ⟨forA,forB,complete⟩ := added_complete
  have run := Runs.snoc (Runs.snoc .nil added_serial) (met_serial complete)
  have shown := (shows_heard_edits pair plain_pair _ _ run (free_met forA forB) 1 (ascii "a.txt")).2
  exact ⟨forA,forB,_,run,shown⟩

-- Without edits of the path the places only travel.
theorem reach_quiet (path : Bytes) (actions later : List (Action ι)) (quiet : editsOf path later = []) :
    reach path (actions ++ later) = Gossip.calls (reach path actions) (later.filterMap call) := by
  induction later using List.reverseRecOn with
  | nil => simp
  | append_singleton later action ih =>
    rw [editsOf_append] at quiet
    obtain ⟨before,here⟩ := List.append_eq_nil_iff.mp quiet
    rw [← List.append_assoc,reach_snoc,ih before,List.filterMap_append,Gossip.calls_append]
    generalize Gossip.calls (reach path actions) (later.filterMap call) = place
    cases action with
    | ingest i q bytes =>
      have away : q ≠ path := by
        rintro rfl
        simp [editsOf,edit] at here
      simp only [advance,edit,away,if_false]
      rfl
    | delete i q =>
      have away : q ≠ path := by
        rintro rfl
        simp [editsOf,edit] at here
      simp only [advance,edit,away,if_false]
      rfl
    | session i j forI forJ => rfl
    | restart i => rfl

theorem afterEdits_length (edits : List (Option Bytes)) : afterEdits edits edits.length = edits.getLast? := by
  cases edits using List.reverseRecOn with
  | nil => rfl
  | append_singleton edits last => simp [afterEdits]

theorem last_edit_prevails (ids : ι → Bytes) (own : ∀ i, Plain (ids i)) (before later : List (Action ι)) (t u : Mesh ι)
    (run : Runs (step ids) (Serial ids) (initial ids) before t) (action : Action ι) (i : ι) (path : Bytes) (content : Option Bytes)
    (edits : edit action = some (i,path,content)) (serial : Serial ids t action)
    (afterwards : Runs (step ids) (Serial ids) (step ids t action) later u) (quiet : editsOf path later = [])
    (free : CollisionFree u.calls) (j : ι) (heard : i ∈ Gossip.heard (later.filterMap call) j) :
    Shows (u.peers j).engine path (some content) := by
  have edited := Runs.snoc run serial
  obtain ⟨log,follows,carried⟩ := (tracked_run own run).2 path
  obtain ⟨_,around,along⟩ := (tracked_run own edited).2 path
  have listed : editsOf path (before ++ [action]) = editsOf path before ++ [content] := by
    rw [editsOf_append]
    simp [editsOf,edits]
  have last : reach path (before ++ [action]) i = (editsOf path (before ++ [action])).length := by
    rw [reach_snoc,listed]
    simp only [advance,edits,if_true,Function.update_self,List.length_append,List.length_singleton]
    rw [place_newest follows (serial.newest i path content edits),carried.length_eq]
  have top : ∀ k, reach path (before ++ [action]) k ≤ reach path (before ++ [action]) i := by
    intro k
    rw [last,along.length_eq]
    exact around.bound k
  have shown := shows_run own (edited.append afterwards) free j path
  rw [reach_quiet path _ later quiet,Gossip.calls_top top heard,editsOf_append,quiet,List.append_nil,last,afterEdits_length,
    listed,List.getLast?_append] at shown
  exact shown

theorem last_edit_prevails_one_file : ∃ forA forB, Shows ((step pair added (.session 0 1 forA forB)).peers 1).engine
    (ascii "a.txt") (some (some [7])) := by
  obtain ⟨forA,forB,complete⟩ := added_complete
  have later : Runs (step pair) (Serial pair) added [.session 0 1 forA forB] _ := .snoc .nil (met_serial complete)
  refine ⟨forA,forB,?_⟩
  exact last_edit_prevails pair plain_pair [] _ (initial pair) _ .nil _ 0 (ascii "a.txt") (some [7]) rfl added_serial later rfl
    (free_met forA forB) 1 (show (0 : Fin 2) ∈ Gossip.heard [(0,1)] 1 by decide)

section
variable {ids : ι → Bytes} {actions later : List (Action ι)} {t : Mesh ι} (own : ∀ i, Plain (ids i))
  (run : Runs (step ids) (Serial ids) (initial ids) actions t)
include own run

-- Once everyone has heard from everyone since the last edit, all have heard of every edit.
theorem reach_level (quiet : ∀ action ∈ later, edit action = none) (everyone : ∀ i j, i ∈ Gossip.heard (later.filterMap call) j)
    (path : Bytes) (j : ι) : reach path (actions ++ later) j = (editsOf path actions).length ∧
      editsOf path (actions ++ later) = editsOf path actions := by
  have silent : later.filterMap edit = [] := List.filterMap_eq_nil_iff.mpr quiet
  have unedited : editsOf path later = [] := by rw [editsOf,silent,List.filterMap_nil]
  refine ⟨?_,by rw [editsOf_append,unedited,List.append_nil]⟩
  obtain ⟨log,follows,carried⟩ := (tracked_run own run).2 path
  rw [reach_quiet path actions later unedited,carried.length_eq]
  rcases follows.kept with rfl | ⟨k,last⟩
  · rw [Gossip.calls_top (i := j) (fun k => (follows.bound k).trans (Nat.zero_le _)) (everyone j j)]
    exact Nat.le_zero.mp (follows.bound j)
  · rw [Gossip.calls_top (i := k) (fun j => last ▸ follows.bound j) (everyone k j),last]

theorem level_entries (level : ∀ path, reach path actions j = reach path actions k) :
    (t.peers j).engine.store.allEntries = (t.peers k).engine.store.allEntries := by
  have same : (t.peers j).engine.store.entries = (t.peers k).engine.store.entries := by
    refine OrdMap.ext (fun path => ?_)
    obtain ⟨log,follows,_⟩ := (tracked_run own run).2 path
    have right := follows.holds k
    rw [← level] at right
    exact (follows.holds j).trans right.symm
  rw [allEntries,same]
  rfl

end

theorem gossip_converges (ids : ι → Bytes) (own : ∀ i, Plain (ids i)) (actions later : List (Action ι)) (t u : Mesh ι)
    (run : Runs (step ids) (Serial ids) (initial ids) actions t) (afterwards : Runs (step ids) (Serial ids) t later u)
    (quiet : ∀ action ∈ later, edit action = none) (everyone : ∀ i j, i ∈ Gossip.heard (later.filterMap call) j)
    (free : CollisionFree u.calls) :
    (∀ j k, (u.peers j).engine.store.allEntries = (u.peers k).engine.store.allEntries) ∧
    ∀ j path, Shows (u.peers j).engine path (editsOf path actions).getLast? := by
  have whole := run.append afterwards
  have level := fun path j => reach_level own run quiet everyone path j
  constructor
  · intro j k
    exact level_entries own whole (fun path => (level path j).1.trans (level path k).1.symm)
  · intro j path
    have shown := shows_run own whole free j path
    rw [(level path j).2,(level path j).1,afterEdits_length] at shown
    exact shown

theorem gossip_converges_one_file : ∃ forA forB,
    ((step pair added (.session 0 1 forA forB)).peers 0).engine.store.allEntries =
      ((step pair added (.session 0 1 forA forB)).peers 1).engine.store.allEntries := by
  obtain ⟨forA,forB,complete⟩ := added_complete
  have run : Runs (step pair) (Serial pair) (initial pair) _ added := .snoc .nil added_serial
  have later : Runs (step pair) (Serial pair) added [.session 0 1 forA forB] _ := .snoc .nil (met_serial complete)
  have quiet : ∀ action ∈ [Action.session (0 : Fin 2) 1 forA forB], edit action = none := by
    intro action member
    cases List.mem_singleton.mp member
    rfl
  have everyone : ∀ i j : Fin 2, i ∈ Gossip.heard [(0,1)] j := by decide
  exact ⟨forA,forB,(gossip_converges pair plain_pair _ _ _ _ run later quiet everyone (free_met forA forB)).1 0 1⟩

end P2PSync.Histories
