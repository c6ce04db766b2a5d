import P2PSync.Lib.Runs
import P2PSync.Exchange

namespace P2PSync.Directory
open SyncEngine Network

-- The paths are plain file names, so that different paths are different files.
inductive Operation where
  | ingest (path bytes : Bytes)
  | delete (path : Bytes)
  | session (link : Link)

def step (e : SyncEngine) : Operation → SyncEngine
  | .ingest path bytes => (e.ingestFile path bytes).1
  | .delete path => e.deleteFile path
  | .session link => ((runSyncSession e).run link).engine

-- A session counts once it has returned, whatever its peer is.
def Returns (e : SyncEngine) : Operation → Prop
  | .session link => ∃ stats, ((runSyncSession e).run link).result = .ok stats
  | _ => True

def LiveView (e : SyncEngine) : Prop := ∀ path entry, e.store.get path = some entry →
  (entry.deleted = false → ∃ bytes, e.blobs.reassemble entry.chunkHashes = .ok bytes ∧ e.disk.files.find path = some bytes) ∧
  (entry.deleted = true → e.disk.files.find path = none)

-- Every entry with content has its file.
def Mirrored (e : SyncEngine) : Prop := ∀ path entry, e.store.get path = some entry → entry.hasContent = true →
  ∃ bytes, e.blobs.reassemble entry.chunkHashes = .ok bytes ∧ e.disk.files.find path = some bytes

theorem Mirrored.keeps (mirrored : Mirrored e) : e.Keeps (· = false) := by
  intro path entry held live hash member
  have content := FileEntry.hasContent_iff.mpr ⟨live,List.ne_nil_of_mem member⟩
  obtain ⟨bytes,read,_⟩ := mirrored path entry held content
  exact FileStore.has_reassemble read hash member

theorem content_held {e : SyncEngine} (held : e.store.get path = some entry) (full : entry.hasContent = true)
    (read : e.blobs.reassemble entry.chunkHashes = .ok bytes) : e.content path = some bytes := by
  unfold content
  rw [held]
  dsimp only
  rw [if_pos full,read]
  rfl

theorem content_none {e : SyncEngine} (gone : ∀ entry, e.store.get path = some entry → entry.deleted = true) : e.content path = none := by
  unfold content
  cases held : e.store.get path with
  | none => rfl
  | some entry =>
    have dead := gone entry held
    dsimp only
    rw [if_neg]
    intro full
    rw [(FileEntry.hasContent_iff.mp full).1] at dead
    cases dead

-- What an operation does to the directory: it writes what some paths now hold. All
-- other entries are as they were, and no chunk is lost.
structure Rewrites (e : SyncEngine) (paths : List Bytes) (after : SyncEngine) : Prop where
  files : ∀ path, after.disk.files.find path =
    if path ∈ paths then (after.content path).or (e.disk.files.find path) else e.disk.files.find path
  chunks : e.blobs.Extends after.blobs
  settled : ∀ path ∈ paths, ∀ entry, after.store.get path = some entry → entry.hasContent = true →
    ∃ bytes, after.blobs.reassemble entry.chunkHashes = .ok bytes
  others : ∀ path entry, after.store.get path = some entry → entry.hasContent = true → path ∉ paths →
    ∃ old, e.store.get path = some old ∧ SameContent old entry

theorem Rewrites.mirrored (rewrites : Rewrites e paths after) (mirrored : Mirrored e) : Mirrored after := by
  intro path entry held full
  by_cases written : path ∈ paths
  · obtain ⟨bytes,read⟩ := rewrites.settled path written entry held full
    refine ⟨bytes,read,?_⟩
    rw [rewrites.files,if_pos written,content_held held full read]
    rfl
  · obtain ⟨old,before,hashes,deleted⟩ := rewrites.others path entry held full written
    have same : old.hasContent = true := by
      rw [FileEntry.hasContent,hashes,deleted]
      exact full
    obtain ⟨bytes,read,file⟩ := mirrored path old before same
    rw [hashes] at read
    refine ⟨bytes,rewrites.chunks.reassemble read,?_⟩
    rw [rewrites.files,if_neg written,file]

theorem Rewrites.leaves (rewrites : Rewrites e paths after) (gone : ∀ entry, after.store.get path = some entry → entry.deleted = true) :
    after.disk.files.find path = e.disk.files.find path := by
  rw [rewrites.files,content_none gone]
  split
  · rfl
  · rfl

theorem rewrites_ingest {e : SyncEngine} (mirrored : Mirrored e) (path bytes : Bytes) :
    Rewrites e [path] (e.ingestFile path bytes).1 := by
  have keeps := keeps_ingested mirrored.keeps path bytes
  obtain ⟨files,same,wrote⟩ := ingestFile_content mirrored.keeps path bytes
  rw [same]
  refine ⟨?_,FileStore.extends_putChunks e.blobs _,?_,?_⟩
  · intro other
    have found := wrote other
    by_cases here : other = path
    · subst here
      rw [if_pos rfl] at found
      rw [if_pos (by simp)]
      exact found
    · rw [if_neg here] at found
      rw [if_neg (by simpa using here)]
      exact found
  · intro other _ entry held full
    exact FileStore.reassemble_has (keeps other entry held (FileEntry.hasContent_iff.mp full).1)
  · intro other entry held _ away
    change (e.store.store _).get other = some entry at held
    rw [CrdtStore.get_store,if_neg (fun here => away (List.mem_singleton.mpr here.symm))] at held
    exact ⟨entry,held,rfl,rfl⟩

theorem rewrites_delete (e : SyncEngine) (path : Bytes) : Rewrites e [] (e.deleteFile path) := by
  refine ⟨fun _ => rfl,.refl e.blobs,nofun,?_⟩
  intro other entry held full _
  change (e.store.store _).get other = some entry at held
  rw [CrdtStore.get_store] at held
  split at held
  · cases held
    cases full
  · exact ⟨entry,held,rfl,rfl⟩

theorem rewrites_session {e : SyncEngine} {link : Link} (returns : ((runSyncSession e).run link).result = .ok stats) :
    ∃ paths, Rewrites e paths ((runSyncSession e).run link).engine := by
  obtain ⟨manifest,request,data,entries,needed,theirs,returned⟩ := run_returned returns
  obtain ⟨next,settled,left⟩ := returned.settled
  obtain ⟨⟨files,rfl,wrote⟩,read⟩ := materializeAll_content settled
  have origin := (merging_paths e.blobs entries ⟨e.store,.empty,[],⟨e.store.allEntries.length,0,0,0,0,0⟩⟩).2
  refine ⟨(merging e entries).paths,?_⟩
  rw [left]
  refine ⟨wrote,FileStore.extends_putChunks e.blobs _,read,?_⟩
  intro path entry held _ away
  rcases origin path entry held with taken | before
  · exact absurd taken away
  · exact before

theorem rewrites_step {e : SyncEngine} (mirrored : Mirrored e) (operation : Operation) (returns : Returns e operation) :
    ∃ paths, Rewrites e paths (step e operation) := by
  cases operation with
  | ingest path bytes => exact ⟨[path],rewrites_ingest mirrored path bytes⟩
  | delete path => exact ⟨[],rewrites_delete e path⟩
  | session link =>
    obtain ⟨stats,result⟩ := returns
    exact rewrites_session result

theorem mirrored_run (run : Runs step Returns (fresh nodeId) operations e) : Mirrored e := by
  have initially : Mirrored (fresh nodeId) := by
    intro path entry held
    cases held
  refine run.invariant initially ?_
  intro e operation mirrored returns
  obtain ⟨paths,rewrites⟩ := rewrites_step mirrored operation returns
  exact rewrites.mirrored mirrored

-- Entries with chunks have their files, and nothing else in the directory is touched.
theorem materialized_view (nodeId : Bytes) (operations : List Operation) (e : SyncEngine)
    (run : Runs step Returns (fresh nodeId) operations e) :
    (∀ path entry, e.store.get path = some entry → entry.deleted = false → entry.chunkHashes ≠ [] →
      ∃ bytes, e.blobs.reassemble entry.chunkHashes = .ok bytes ∧ e.disk.files.find path = some bytes) ∧
    ∀ operation, Returns e operation → ∀ path,
      (∀ entry, (step e operation).store.get path = some entry → entry.deleted = true) →
      (step e operation).disk.files.find path = e.disk.files.find path := by
  have mirrored := mirrored_run run
  constructor
  · intro path entry held live some
    exact mirrored path entry held (FileEntry.hasContent_iff.mpr ⟨live,some⟩)
  · intro operation returns path gone
    obtain ⟨paths,rewrites⟩ := rewrites_step mirrored operation returns
    exact rewrites.leaves gone

def addThenRemove : List Operation := [.ingest (ascii "a.txt") [7],.delete (ascii "a.txt")]

theorem addThenRemove_run : Runs step Returns (fresh (ascii "A")) addThenRemove (addThenRemove.foldl step (fresh (ascii "A"))) := by
  have added : Returns (fresh (ascii "A")) (.ingest (ascii "a.txt") [7]) := trivial
  have removed : Returns (step (fresh (ascii "A")) (.ingest (ascii "a.txt") [7])) (.delete (ascii "a.txt")) := trivial
  exact .snoc (.snoc .nil added) removed

theorem materialized_view_one_file : ((addThenRemove.foldl step (fresh (ascii "A"))).disk.files.find (ascii "a.txt")) = some [7] := by
  have added : Returns (fresh (ascii "A")) (.ingest (ascii "a.txt") [7]) := trivial
  have removed : Returns (step (fresh (ascii "A")) (.ingest (ascii "a.txt") [7])) (.delete (ascii "a.txt")) := trivial
  have dead : ((addThenRemove.foldl step (fresh (ascii "A"))).store.get (ascii "a.txt")).map FileEntry.deleted = some true := by
    decide +kernel
  have gone : ∀ entry, (addThenRemove.foldl step (fresh (ascii "A"))).store.get (ascii "a.txt") = some entry → entry.deleted = true := by
    intro entry held
    rw [held] at dead
    exact Option.some.inj dead
  have kept := (materialized_view (ascii "A") [.ingest (ascii "a.txt") [7]] _ (.snoc .nil added)).2 _ removed (ascii "a.txt") gone
  have written : (step (fresh (ascii "A")) (.ingest (ascii "a.txt") [7])).disk.files.find (ascii "a.txt") = some [7] := by decide +kernel
  exact kept.trans written

-- A file that was added and removed stays in the directory.
theorem removed_file_stays : ∃ e, Runs step Returns (fresh (ascii "A")) addThenRemove e ∧ ¬ LiveView e := by
  refine ⟨_,addThenRemove_run,?_⟩
  intro view
  have dead : ((addThenRemove.foldl step (fresh (ascii "A"))).store.get (ascii "a.txt")).map FileEntry.deleted = some true := by
    decide +kernel
  have file : (addThenRemove.foldl step (fresh (ascii "A"))).disk.files.find (ascii "a.txt") = some [7] := by decide +kernel
  obtain ⟨entry,held,deleted⟩ := Option.map_eq_some_iff.mp dead
  have none := (view _ entry held).2 deleted
  rw [file] at none
  cases none

end P2PSync.Directory
