import P2PSync.Exchange

namespace P2PSync.Commands
open SyncEngine Network EntryCodec Text

-- source is what the source file holds, none if it cannot be opened. refused says
-- that the file system did not make a directory, for a session with the files
-- that were written before. list stands for every command that changes nothing.
inductive Command where
  | add (logicalPath : Bytes) (source : Option Bytes) (refused : Bool)
  | rm (logicalPath : Bytes)
  | list
  | sync (link : Link) (refused : Option (OrdMap Bytes Bytes))

structure Process where
  nodeId : Bytes
  command : Command

def dispatch (e : SyncEngine) : Command → Disk
  | .add path source refused => match source with
    | none => e.disk
    | some bytes => if refused then (e.ingestRefused path bytes).disk else (e.ingestFile path bytes).1.disk
  | .rm path => (e.deleteFile path).disk
  | .list => e.disk
  | .sync link refused =>
    let left := ((runSyncSession e).run link).engine.disk
    match refused with
    | none => left
    | some files => ⟨left.blobs,e.disk.journal,files⟩

-- A process leaves nothing behind but the directory.
def Process.exit (disk : Disk) (p : Process) : Disk :=
  match SyncEngine.start p.nodeId disk with
  | .error _ => disk
  | .ok e => dispatch e p.command

def directory (processes : List Process) : Disk := processes.foldl Process.exit ⟨.empty,none,.empty⟩

def Process.Fits (p : Process) : Prop :=
  Lined p.nodeId ∧ match p.command with
    | .add path _ _ => Lined path
    | .rm path => Lined path
    | _ => True

structure Stocked (blobs : FileStore) (e : FileEntry) : Prop where
  lined : LinedEntry e
  chunks : e.deleted = false → ∀ hash ∈ e.chunkHashes, blobs.hasChunk hash = true

def Closed (disk : Disk) : Prop :=
  ∀ text, disk.journal = some text → ∃ s : CrdtStore, text = journalText s ∧ ∀ path e, s.get path = some e → Stocked disk.blobs e

-- An engine all of whose entries could be saved as they are.
def Ready (e : SyncEngine) : Prop := Lined e.store.nodeId ∧ ∀ path entry, e.store.get path = some entry → Stocked e.blobs entry

variable {blobs larger : FileStore} {disk : Disk} {e : SyncEngine}

theorem Stocked.extend {e : FileEntry} (stocked : Stocked blobs e) (more : blobs.Extends larger) : Stocked larger e :=
  ⟨stocked.lined,fun live hash member => more.hasChunk (stocked.chunks live hash member)⟩

theorem Closed.extend (closed : Closed disk) (more : disk.blobs.Extends blobs) (files : OrdMap Bytes Bytes) :
    Closed ⟨blobs,disk.journal,files⟩ := by
  intro text journal
  obtain ⟨s,same,stocked⟩ := closed text journal
  exact ⟨s,same,fun path e held => (stocked path e held).extend more⟩

theorem closed_saveJournal (stocked : ∀ path entry, e.store.get path = some entry → Stocked e.blobs entry) :
    Closed e.saveJournal.disk := by
  intro text journal
  cases journal
  exact ⟨e.store,rfl,stocked⟩

-- A line of the journal stands for an entry of the store it was written from, but for the clock.
theorem line_stocked {s : CrdtStore} {line : Bytes} {e : FileEntry} (stocked : ∀ path e, s.get path = some e → Stocked blobs e)
    (member : line ∈ getlines 10 [] (journalText s)) (read : lineToEntry line = .ok e) : Stocked blobs e := by
  have lined : ∀ old ∈ s.allEntries, LinedEntry old := fun old listed => (stocked _ old (CrdtStore.mem_allEntries.mp listed)).lined
  have newline := (mem_getlines List.not_mem_nil member).1
  rw [lines_journalText lined] at member
  obtain ⟨old,listed,rfl⟩ := List.mem_map.mp member
  have before := stocked _ old (CrdtStore.mem_allEntries.mp listed)
  have after := (lineToEntry_read newline read).1
  rw [lineToEntry_tabFree old before.lined.tabFree] at read
  obtain ⟨clock,_,rfl⟩ := map_ok read
  exact ⟨after,before.chunks⟩

theorem start_ready (own : Lined nodeId) (closed : Closed disk) (started : SyncEngine.start nodeId disk = .ok e) : Ready e := by
  obtain ⟨same,node,lines⟩ := start_read started
  subst same
  refine ⟨node ▸ own,?_⟩
  intro path entry held
  obtain ⟨text,journal,line,member,read⟩ := lines path entry held
  obtain ⟨s,rfl,stocked⟩ := closed text journal
  exact line_stocked stocked member read

theorem Ready.keeps (ready : Ready e) : e.Keeps (· = false) := fun path entry held live => (ready.2 path entry held).chunks live

theorem stocked_ingested (ready : Ready e) (path bytes : Bytes) (lined : Lined path) :
    ∀ at_path entry, (e.ingested path bytes).store.get at_path = some entry → Stocked (e.ingested path bytes).blobs entry := by
  have more := FileStore.extends_putChunks e.blobs (Chunker.standard.chunk bytes)
  have nodes := nodes_increment (fun path e held => (ready.2 path e held).lined.nodes) ready.1 path
  refine CrdtStore.entries_store (fun path entry held => (ready.2 path entry held).extend more) ⟨⟨lined,ready.1,nodes⟩,?_⟩
  intro _ hash member
  obtain ⟨c,inside,rfl⟩ := List.mem_map.mp member
  exact FileStore.has_putChunks e.blobs _ c inside

theorem closed_ingestFile (ready : Ready e) (path bytes : Bytes) (lined : Lined path) : Closed (e.ingestFile path bytes).1.disk := by
  obtain ⟨files,done⟩ := ingestFile_keeps ready.keeps path bytes
  rw [done]
  exact closed_saveJournal (stocked_ingested ready path bytes lined)

theorem closed_ingestRefused (closed : Closed e.disk) (ready : Ready e) (path bytes : Bytes) (lined : Lined path) :
    Closed (e.ingestRefused path bytes).disk := by
  unfold ingestRefused
  split
  · exact closed_ingestFile ready path bytes lined
  · split
    · exact closed.extend (FileStore.extends_putChunks e.blobs (Chunker.standard.chunk bytes)) e.disk.files
    · exact closed_ingestFile ready path bytes lined

theorem closed_deleteFile (ready : Ready e) (path : Bytes) (lined : Lined path) : Closed (e.deleteFile path).disk := by
  apply closed_saveJournal
  have nodes := nodes_increment (fun path e held => (ready.2 path e held).lined.nodes) ready.1 path
  rw [← CrdtStore.deleteEntry_clock] at nodes
  exact CrdtStore.entries_store ready.2 ⟨⟨lined,ready.1,nodes⟩,fun live => nomatch live⟩

-- The chunks of a path that materialize went through are there.
theorem content_has {e : SyncEngine} {entry : FileEntry}
    (read : entry.hasContent = true → ∃ bytes, e.blobs.reassemble entry.chunkHashes = .ok bytes) (live : entry.deleted = false) :
    ∀ hash ∈ entry.chunkHashes, e.blobs.hasChunk hash = true := by
  intro hash member
  obtain ⟨bytes,done⟩ := read (FileEntry.hasContent_iff.mpr ⟨live,List.ne_nil_of_mem member⟩)
  exact FileStore.has_reassemble done hash member

-- Whatever the peer sent, what is saved has its chunks: an entry is there since
-- before the session, or its path was materialized.
theorem stocked_settled (ready : Ready e) (listed : parseManifest manifest = .ok entries)
    (settled : materializeAll (stored (afterMerge e entries) data) (merging e entries).paths = (next,.ok ())) :
    ∀ path entry, next.store.get path = some entry → Stocked next.blobs entry := by
  obtain ⟨⟨files,rfl,_⟩,read⟩ := materializeAll_content settled
  have lined := merging_entries LinedEntry (fun _ => lined_forkOf) (fun _ _ => lined_absorbed) e.blobs entries
    ⟨e.store,.empty,[],⟨e.store.allEntries.length,0,0,0,0,0⟩⟩ (fun path entry held => (ready.2 path entry held).lined)
    (fun re member => (parseManifest_clean listed re member).1)
  have origin := (merging_paths e.blobs entries ⟨e.store,.empty,[],⟨e.store.allEntries.length,0,0,0,0,0⟩⟩).2
  intro path entry held
  refine ⟨lined path entry held,?_⟩
  rcases origin path entry held with taken | ⟨old,before,hashes,deleted⟩
  · exact content_has (read path taken entry held)
  · intro live hash member
    have more := FileStore.extends_putChunks e.blobs (decodeChunks data).1
    apply more.hasChunk
    apply (ready.2 path old before).chunks (deleted.trans live)
    rw [hashes]
    exact member

theorem closed_session (closed : Closed e.disk) (ready : Ready e) (link : Link) :
    Closed ((runSyncSession e).run link).engine.disk := by
  have ended := run_ended e link
  generalize (runSyncSession e).run link = o at ended ⊢
  cases ended with
  | unread _ => exact closed
  | merged _ => exact closed
  | fetched _ _ _ listed _ _ finished =>
    cases finished with
    | @thrown files x => exact closed.extend (FileStore.extends_putChunks e.blobs _) files
    | unsent settled => exact closed_saveJournal (stocked_settled ready listed settled)
    | returned settled _ => exact closed_saveJournal (stocked_settled ready listed settled)

theorem session_extends (e : SyncEngine) (link : Link) : e.blobs.Extends ((runSyncSession e).run link).engine.blobs := by
  have ended := run_ended e link
  generalize (runSyncSession e).run link = o at ended ⊢
  cases ended with
  | unread _ => exact .refl e.blobs
  | merged _ => exact .refl e.blobs
  | fetched _ _ _ _ _ _ finished =>
    change e.blobs.Extends _
    rw [finished.blobs]
    exact FileStore.extends_putChunks e.blobs _

theorem closed_exit (closed : Closed disk) (p : Process) (fits : p.Fits) : Closed (p.exit disk) := by
  obtain ⟨nodeId,command⟩ := p
  obtain ⟨own,names⟩ := fits
  unfold Process.exit
  cases started : SyncEngine.start nodeId disk with
  | error x => exact closed
  | ok e =>
    have ready := start_ready own closed started
    obtain ⟨same,_⟩ := start_read started
    subst same
    cases command with
    | add path source refused =>
      cases source with
      | none => exact closed
      | some bytes =>
        cases refused with
        | true => exact closed_ingestRefused closed ready path bytes names
        | false => exact closed_ingestFile ready path bytes names
    | rm path => exact closed_deleteFile ready path names
    | list => exact closed
    | sync link refused =>
      cases refused with
      | none => exact closed_session closed ready link
      | some files => exact closed.extend (session_extends e link) files

theorem closed_directory (processes : List Process) (fits : ∀ p ∈ processes, p.Fits) : Closed (directory processes) := by
  induction processes using List.reverseRecOn with
  | nil => exact nofun
  | append_singleton processes p ih =>
    rw [directory,List.foldl_append]
    exact closed_exit (ih (fun p member => fits p (List.mem_append_left _ member))) p (fits p (by simp))

theorem chunk_closure (processes : List Process) (fits : ∀ p ∈ processes, p.Fits) (text : Bytes)
    (journal : (directory processes).journal = some text) :
    (∃ s : CrdtStore, text = journalText s ∧ ∀ e ∈ s.allEntries, e.deleted = false →
      ∀ hash ∈ e.chunkHashes, (directory processes).blobs.hasChunk hash = true) ∧
    ∀ line ∈ getlines 10 [] text, ∀ e, lineToEntry line = .ok e → e.deleted = false →
      ∀ hash ∈ e.chunkHashes, (directory processes).blobs.hasChunk hash = true := by
  obtain ⟨s,rfl,stocked⟩ := closed_directory processes fits text journal
  refine ⟨⟨s,rfl,fun e listed => (stocked _ e (CrdtStore.mem_allEntries.mp listed)).chunks⟩,?_⟩
  intro line member e read
  exact (line_stocked stocked member read).chunks

-- A node with a file, and a peer that offers a file whose chunk it then does not send.
def hostile : List Process :=
  let ghost := (fresh (ascii "B")).withStore ((CrdtStore.new (ascii "B")).putLocal (ascii "b.txt") [.filled 1] .zero 4)
  let frames := [⟨frameManifest,serializeManifest ghost⟩,⟨frameChunkRequest,[]⟩,⟨frameChunkData,[]⟩,⟨frameDone,[]⟩]
  [⟨ascii "A",.add (ascii "a.txt") (some [7]) false⟩,⟨ascii "A",.sync ⟨wire frames,false,4⟩ none⟩]

theorem chunk_closure_hostile : ∃ text, (directory hostile).journal = some text ∧ (getlines 10 [] text).length = 1 ∧
    ∀ line ∈ getlines 10 [] text, ∀ e, lineToEntry line = .ok e → e.deleted = false →
      ∀ hash ∈ e.chunkHashes, (directory hostile).blobs.hasChunk hash = true := by
  have fits : ∀ p ∈ hostile, p.Fits := by
    intro p member
    rcases List.mem_cons.mp member with rfl | later
    · exact ⟨⟨by decide,by decide⟩,⟨by decide,by decide⟩⟩
    · cases List.mem_singleton.mp later
      exact ⟨⟨by decide,by decide⟩,trivial⟩
  have one : (directory hostile).journal.map (fun text => (getlines 10 [] text).length) = some 1 := by decide +kernel
  obtain ⟨text,journal,single⟩ := Option.map_eq_some_iff.mp one
  exact ⟨text,journal,single,(chunk_closure hostile fits text journal).2⟩

end P2PSync.Commands
