import P2PSync.Crashes
import P2PSync.FailedSession

-- The versions of one data directory over the processes that work on it.
namespace P2PSync.Lineage
open SyncEngine Network EntryCodec CrdtStore Commands Crashes MergeOrder

-- A later version of a path: its clock covers the older one's, and where the clocks are
-- equal the content is the same.
structure Follows (old new : FileEntry) : Prop where
  covers : old.clock.counts ≤ new.clock.counts
  settled : old.clock.counts = new.clock.counts → SameContent old new

theorem Follows.refl (e : FileEntry) : Follows e e := ⟨le_refl _,fun _ => ⟨rfl,rfl⟩⟩

theorem Follows.trans (first : Follows a b) (second : Follows b c) : Follows a c := by
  refine ⟨first.covers.trans second.covers,?_⟩
  intro same
  have left : a.clock.counts = b.clock.counts := le_antisymm first.covers (same ▸ second.covers)
  obtain ⟨hashes,deleted⟩ := first.settled left
  obtain ⟨hashes',deleted'⟩ := second.settled (left.symm.trans same)
  exact ⟨hashes.trans hashes',deleted.trans deleted'⟩

theorem follows_newer {old e : FileEntry} (newer : old.clock.counts < e.clock.counts) : Follows old e :=
  ⟨newer.le,fun same => absurd same newer.ne⟩

-- No path is lost and none goes back.
def Forward (before after : CrdtStore) : Prop := ∀ path old, before.get path = some old → ∃ new, after.get path = some new ∧ Follows old new

theorem Forward.refl (s : CrdtStore) : Forward s s := fun _ old held => ⟨old,held,.refl old⟩

theorem Forward.trans (first : Forward a b) (second : Forward b c) : Forward a c := by
  intro path old held
  obtain ⟨middle,there,follows⟩ := first path old held
  obtain ⟨new,last,later⟩ := second path middle there
  exact ⟨new,last,follows.trans later⟩

theorem forward_store {s : CrdtStore} (follows : ∀ old, s.get e.path = some old → Follows old e) : Forward s (s.store e) := by
  intro path old held
  by_cases here : e.path = path
  · subst here
    exact ⟨e,by simp,follows old held⟩
  · refine ⟨old,?_,.refl old⟩
    rw [get_store,if_neg here]
    exact held

-- A local edit, where the node's counter does not wrap.
theorem forward_edit {s : CrdtStore} (clock : e.clock = (s.clockAt e.path).increment s.nodeId)
    (room : (s.clockAt e.path).counts s.nodeId + 1 < 2^64) : Forward s (s.store e) := by
  apply forward_store
  intro old held
  apply follows_newer
  rw [clockAt_held held] at clock room
  rw [clock,VectorClock.counts_increment _ _ room]
  exact lt_update_self_iff.mpr (Nat.lt_succ_self _)

-- A fork is put where there is nothing, or where it follows what is there.
def Clear (s : CrdtStore) (re : FileEntry) : Prop := (s.mergeRemote re).1.outcome = .conflictForked →
  ∀ victim, s.get (makeConflictPath re.path re.lastWriter) = some victim → Follows victim re

theorem forward_mergeRemote {s : CrdtStore} (clear : Clear s re) : Forward s (s.mergeRemote re).2 := by
  have merged := mergeRemote_merged s re
  unfold Clear at clear
  generalize (s.mergeRemote re).1 = result at merged clear
  generalize (s.mergeRemote re).2 = after at merged ⊢
  cases merged with
  | unseen absent =>
    apply forward_store
    intro old held
    rw [absent] at held
    cases held
  | newer held order =>
    apply forward_store
    intro old found
    rw [held] at found
    cases found
    exact follows_newer order
  | synced held order => exact .refl s
  | older held order => exact .refl s
  | @conflict loc held left right =>
    have forked : Forward s (s.store (forkOf re)) := by
      apply forward_store
      intro old found
      have follows := clear rfl old found
      exact ⟨follows.covers,follows.settled⟩
    apply forked.trans
    apply forward_store
    intro old found
    have place : loc.path = re.path := get_path held
    have apart : (forkOf re).path ≠ loc.path := by
      rw [place]
      exact makeConflictPath_ne _ _
    dsimp only at found ⊢
    rw [get_store,if_neg apart,place,held] at found
    cases found
    refine ⟨?_,fun _ => ⟨rfl,rfl⟩⟩
    dsimp only
    rw [VectorClock.counts_merge]
    exact le_sup_left

def ClearAll (s : CrdtStore) : List FileEntry → Prop
  | [] => True
  | re :: rest => Clear s re ∧ ClearAll (s.mergeRemote re).2 rest

theorem forward_mergeAll (s : CrdtStore) (entries : List FileEntry) (clear : ClearAll s entries) : Forward s (mergeAll s entries) := by
  induction entries generalizing s with
  | nil => exact .refl s
  | cons re rest ih => exact (forward_mergeRemote clear.1).trans (ih _ clear.2)

-- What a session heard, as the code reads it.
def Heard (link : Link) (entries : List FileEntry) : Prop := ∃ manifest rest,
  recvFrame link.inbound = some (⟨frameManifest,manifest⟩,rest) ∧ parseManifest manifest = .ok entries

-- An edit does not wrap the node's counter, and a session overwrites no version with a fork.
def Careful (e : SyncEngine) : Command → Prop
  | .add path _ _ => (e.store.clockAt path).counts e.store.nodeId + 1 < 2^64
  | .rm path => (e.store.clockAt path).counts e.store.nodeId + 1 < 2^64
  | .list => True
  | .sync link _ => ∀ entries, Heard link entries → ClearAll e.store entries

-- A directory and the store that its journal was written from, which leads on from an
-- earlier store.
structure Stands (s : CrdtStore) (disk : Disk) (t : CrdtStore) : Prop where
  saved : disk.journal = some (journalText t) ∨ (disk.journal = none ∧ ∀ path, t.get path = none)
  fits : ∀ path e, t.get path = some e → Stocked disk.blobs e ∧ PlainNodes e
  forward : Forward s t

-- The next process, under whatever name, goes on from that store.
theorem Stands.start {disk : Disk} (stands : Stands s disk t) (nodeId : Bytes) :
    ∃ e, SyncEngine.start nodeId disk = .ok e ∧ e.disk = disk ∧ e.store.nodeId = nodeId ∧ Stands s e.disk e.store := by
  refine ⟨⟨disk,⟨nodeId,t.entries,t.keyed⟩⟩,?_,rfl,rfl,⟨stands.saved,stands.fits,stands.forward⟩⟩
  unfold SyncEngine.start
  rcases stands.saved with journal | ⟨journal,nothing⟩
  · have listed : ∀ e ∈ t.allEntries, Stocked disk.blobs e ∧ PlainNodes e := fun e member =>
      stands.fits e.path e (mem_allEntries.mp member)
    have loaded := loadJournal_lines (s := ⟨nodeId,t.entries,t.keyed⟩) (fun e member => (listed e member).1.lined)
      (fun e member => lineToEntry_nodes e (listed e member).1.lined (listed e member).2)
    have same : loadJournal (.new nodeId) (journalText t) = .ok ⟨nodeId,t.entries,t.keyed⟩ := loaded
    rw [journal]
    dsimp only
    rw [same]
    rfl
  · have empty : CrdtStore.new nodeId = ⟨nodeId,t.entries,t.keyed⟩ := CrdtStore.ext rfl (fun path => (nothing path).symm)
    rw [journal]
    dsimp only
    rw [empty]

theorem Stands.extend {disk after : Disk} (stands : Stands s disk t) (more : disk.blobs.Extends after.blobs)
    (same : after.journal = disk.journal) : Stands s after t := by
  refine ⟨?_,fun path e held => ⟨(stands.fits path e held).1.extend more,(stands.fits path e held).2⟩,stands.forward⟩
  rw [same]
  exact stands.saved

theorem stands_saved {e : SyncEngine} (stocked : ∀ path entry, e.store.get path = some entry → Stocked e.blobs entry)
    (plain : ∀ path entry, e.store.get path = some entry → PlainNodes entry) (forward : Forward s e.store) :
    Stands s e.saveJournal.disk e.store :=
  ⟨.inl rfl,fun path entry held => ⟨stocked path entry held,plain path entry held⟩,forward⟩

section
variable {e : SyncEngine} (stands : Stands s e.disk e.store)
include stands

theorem Stands.plain : ∀ path entry, e.store.get path = some entry → PlainNodes entry :=
  fun path entry held => (stands.fits path entry held).2

variable (own : Plain e.store.nodeId)
include own

theorem Stands.ready : Ready e := ⟨own.lined,fun path entry held => (stands.fits path entry held).1⟩

theorem stands_add (path bytes : Bytes) (lined : Lined path) (room : (e.store.clockAt path).counts e.store.nodeId + 1 < 2^64) :
    ∃ t, Stands s (e.ingestFile path bytes).1.disk t := by
  have ready := stands.ready own
  obtain ⟨files,done⟩ := ingestFile_keeps ready.keeps path bytes
  rw [done]
  have forward : Forward e.store (e.ingested path bytes).store := forward_edit rfl room
  exact ⟨_,stands_saved (e := (e.ingested path bytes).withFiles files) (stocked_ingested ready path bytes lined)
    (entries_store stands.plain (nodes_increment stands.plain own path)) (stands.forward.trans forward)⟩

theorem stands_rm (path : Bytes) (lined : Lined path) (room : (e.store.clockAt path).counts e.store.nodeId + 1 < 2^64) :
    ∃ t, Stands s (e.deleteFile path).disk t := by
  have ready := stands.ready own
  have nodes := nodes_increment (fun path e held => (ready.2 path e held).lined.nodes) ready.1 path
  have plain := nodes_increment stands.plain own path
  rw [← deleteEntry_clock] at nodes plain
  have forward : Forward e.store (e.store.deleteLocal path) := forward_edit (deleteEntry_clock e.store path) room
  exact ⟨_,stands_saved (e := e.withStore (e.store.deleteLocal path))
    (entries_store ready.2 ⟨⟨lined,ready.1,nodes⟩,fun live => nomatch live⟩) (entries_store stands.plain plain)
    (stands.forward.trans forward)⟩

theorem stands_sync (link : Link) (clear : ∀ entries, Heard link entries → ClearAll e.store entries) :
    ∃ t, Stands s ((runSyncSession e).run link).engine.disk t := by
  have saved : ∀ {manifest data : Bytes} {entries : List FileEntry} {next : SyncEngine}, Heard link entries →
      parseManifest manifest = .ok entries →
      materializeAll (stored (afterMerge e entries) data) (merging e entries).paths = (next,.ok ()) →
      ∃ t, Stands s next.saveJournal.disk t := by
    intro manifest data entries next heard listed settled
    have forward := forward_mergeAll e.store entries (clear entries heard)
    rw [← FailedSession.store_afterMerge] at forward
    have stocked := stocked_settled (stands.ready own) listed settled
    obtain ⟨files,rfl⟩ := settled_files settled
    exact ⟨_,stands_saved stocked (plain_merging stands.plain listed) (stands.forward.trans forward)⟩
  have ended := run_ended e link
  generalize (runSyncSession e).run link = o at ended ⊢
  cases ended with
  | unread _ => exact ⟨_,stands⟩
  | merged _ => exact ⟨_,stands⟩
  | fetched hello _ _ listed _ _ finished =>
    cases finished with
    | thrown => exact ⟨_,stands.extend (FileStore.extends_putChunks e.blobs _) rfl⟩
    | unsent settled => exact saved ⟨_,_,hello,listed⟩ listed settled
    | returned settled _ => exact saved ⟨_,_,hello,listed⟩ listed settled

end

-- A process of the run: its names are plain, it is not cut inside the journal's own
-- write, and it is careful.
structure Fair (disk : Disk) (p : Process × Fate) : Prop where
  orderly : Orderly disk p
  careful : ∀ e, SyncEngine.start p.1.nodeId disk = .ok e → Careful e p.1.command

theorem stands_crash (disk : Disk) (p : Process × Fate) (stands : ∃ t, Stands s disk t) (fair : Fair disk p) :
    ∃ t, Stands s (crash disk p) t := by
  obtain ⟨t,before⟩ := stands
  obtain ⟨⟨nodeId,command⟩,fate⟩ := p
  obtain ⟨e,started,rfl,named,here⟩ := before.start nodeId
  have careful := fair.careful e started
  have own : Plain e.store.nodeId := named ▸ fair.orderly.own
  have names := fair.orderly.fits.2
  unfold crash
  rw [started]
  rcases done_cases (writes_commit_last e command) fate (fair.orderly.spares e started) with whole | early
  · dsimp only
    rw [whole,apply_writes]
    cases command with
    | add path source refused =>
      cases source with
      | none => exact ⟨_,here⟩
      | some bytes => exact stands_add here own path bytes names careful
    | rm path => exact stands_rm here own path names careful
    | list => exact ⟨_,here⟩
    | sync link refused => exact stands_sync here own link careful
  · obtain ⟨more,unsaved⟩ := apply_uncommitted early e.disk
    exact ⟨_,here.extend more unsaved⟩

-- Any earlier processes, and later ones that are fair: what the next process finds leads
-- on from what an earlier one found.
theorem versions_lead_on (earlier later : List (Process × Fate)) (disk after : Disk)
    (first : Runs crash Orderly ⟨.empty,none,.empty⟩ earlier disk) (second : Runs crash Fair disk later after) (nodeId nodeId' : Bytes) :
    ∃ e f, SyncEngine.start nodeId disk = .ok e ∧ SyncEngine.start nodeId' after = .ok f ∧
      ∀ path old, e.store.get path = some old → ∃ found, f.store.get path = some found ∧
        old.clock.counts ≤ found.clock.counts ∧ (old.clock.counts = found.clock.counts → SameContent old found) := by
  have initially : Sturdy ⟨.empty,none,.empty⟩ := nofun
  obtain ⟨e,started,rfl,journal,fits⟩ := start_sturdy (first.invariant initially sturdy_crash) nodeId
  have saved : e.disk.journal = some (journalText e.store) ∨ (e.disk.journal = none ∧ ∀ path, e.store.get path = none) := by
    cases text : e.disk.journal with
    | some text' => exact .inl (congrArg some (journal text' text))
    | none =>
      refine .inr ⟨rfl,?_⟩
      obtain ⟨_,_,lines⟩ := start_read started
      intro path
      cases held : e.store.get path with
      | none => rfl
      | some entry =>
        obtain ⟨_,some,_⟩ := lines path entry held
        rw [text] at some
        cases some
  have stands : Stands e.store e.disk e.store := ⟨saved,fits,.refl e.store⟩
  obtain ⟨t,last⟩ := second.invariant ⟨_,stands⟩ stands_crash
  obtain ⟨f,restarted,_,_,there⟩ := last.start nodeId'
  refine ⟨e,f,started,restarted,?_⟩
  intro path old held
  obtain ⟨found,now,follows⟩ := there.forward path old held
  exact ⟨found,now,follows.covers,follows.settled⟩

-- An empty file is added, and later removed by a process that is killed too early.
def adding : Process × Fate := (⟨ascii "A",.add (ascii "a.txt") (some []) false⟩,.ends)

def removing : Process × Fate := (⟨ascii "A",.rm (ascii "a.txt")⟩,.killed 0)

theorem versions_lead_on_removed : ∃ disk after, Runs crash Orderly ⟨.empty,none,.empty⟩ [adding] disk ∧
    Runs crash Fair disk [removing] after ∧ ∃ e f, SyncEngine.start (ascii "A") disk = .ok e ∧
      SyncEngine.start (ascii "B") after = .ok f ∧ ∀ path old, e.store.get path = some old →
        ∃ found, f.store.get path = some found ∧ old.clock.counts ≤ found.clock.counts := by
  have own : Plain (ascii "A") := ⟨by decide,by decide,by decide,by decide⟩
  have lined : Lined (ascii "a.txt") := ⟨by decide,by decide⟩
  have orderly : Orderly ⟨.empty,none,.empty⟩ adding := ⟨own,⟨own.lined,lined⟩,fun _ _ => trivial⟩
  have counted : (SyncEngine.start (ascii "A") (crash ⟨.empty,none,.empty⟩ adding)).map
      (fun e => (e.store.clockAt (ascii "a.txt")).counts e.store.nodeId) = .ok 1 := by decide +kernel
  have careful : ∀ e, SyncEngine.start (ascii "A") (crash ⟨.empty,none,.empty⟩ adding) = .ok e → Careful e (.rm (ascii "a.txt")) := by
    intro e started
    rw [started] at counted
    have one : (e.store.clockAt (ascii "a.txt")).counts e.store.nodeId = 1 := Except.ok.inj counted
    rw [Careful,one]
    decide
  have first : Runs crash Orderly ⟨.empty,none,.empty⟩ [adding] _ := .snoc .nil orderly
  have second : Runs crash Fair (crash ⟨.empty,none,.empty⟩ adding) [removing] _ :=
    .snoc .nil ⟨⟨own,⟨own.lined,lined⟩,fun _ _ => trivial⟩,careful⟩
  obtain ⟨e,f,started,restarted,leads⟩ := versions_lead_on [adding] [removing] _ _ first second (ascii "A") (ascii "B")
  refine ⟨_,_,first,second,e,f,started,restarted,?_⟩
  intro path old held
  obtain ⟨found,there,covers,_⟩ := leads path old held
  exact ⟨found,there,covers⟩

end P2PSync.Lineage
