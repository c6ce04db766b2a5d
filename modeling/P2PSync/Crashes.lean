import P2PSync.Lib.Runs
import P2PSync.Commands

namespace P2PSync.Crashes
open SyncEngine Network EntryCodec Text Commands

-- The files a process writes, one by one.
inductive Write where
  | chunk (c : Chunk)
  | file (path bytes : Bytes)
  | journal (text : Bytes)

def Write.apply (disk : Disk) : Write → Disk
  | .chunk c => ⟨disk.blobs.putChunk c,disk.journal,disk.files⟩
  | .file path bytes => ⟨disk.blobs,disk.journal,disk.files.insert path bytes⟩
  | .journal text => ⟨disk.blobs,some text,disk.files⟩

-- A write of which only the first bytes arrive.
def Write.cut (size : ℕ) : Write → Write
  | .chunk c => .chunk ⟨c.offset,c.data.take size,c.hash⟩
  | .file path bytes => .file path (bytes.take size)
  | .journal text => .journal (text.take size)

def Write.commits : Write → Bool
  | .journal _ => true
  | _ => false

-- The files that materialize writes, and whether it gets through the paths.
def materializeWrites (e : SyncEngine) : List Bytes → List Write × Bool
  | [] => ([],true)
  | path :: rest => match e.materialize path with
    | (_,.error _) => ([],false)
    | (next,.ok _) =>
      let (later,done) := materializeWrites next rest
      ((e.content path).toList.map (.file path) ++ later,done)

-- The end of ingest_file and of a session: materialize, then save the journal.
def commitWrites (e : SyncEngine) (paths : List Bytes) : List Write :=
  let (files,done) := materializeWrites e paths
  files ++ if done then [.journal (journalText e.store)] else []

def ingestWrites (e : SyncEngine) (path bytes : Bytes) : List Write :=
  (Chunker.standard.chunk bytes).map .chunk ++ commitWrites (e.ingested path bytes) [path]

def finishWrites (e : SyncEngine) (paths : List Bytes) (payload : Bytes) : List Write :=
  let (chunks,past) := decodeChunks payload
  chunks.map .chunk ++ if past then [] else commitWrites (stored e payload) paths

-- A session writes nothing before the CHUNK_DATA frame is there.
def sessionWrites (e : SyncEngine) (link : Link) : List Write :=
  let received := ((runSyncSession e).run link).received
  match received[0]?,received[2]? with
  | some hello,some data => if data.type = frameChunkData then match parseManifest hello.payload with
      | .error _ => []
      | .ok entries => finishWrites (afterMerge e entries) (merging e entries).paths data.payload
    else []
  | _,_ => []

-- A directory that cannot be made ends the process there, as a kill does.
def writes (e : SyncEngine) : Command → List Write
  | .add path source _ => match source with
    | none => []
    | some bytes => ingestWrites e path bytes
  | .rm path => [.journal (journalText (e.store.deleteLocal path))]
  | .list => []
  | .sync link _ => sessionWrites e link

-- How far a process comes: it ends by itself, or it is killed after a number of
-- writes, or in the middle of the next one.
inductive Fate where
  | ends
  | killed (after : ℕ)
  | torn (after size : ℕ)

def Fate.done (listed : List Write) : Fate → List Write
  | .ends => listed
  | .killed after => listed.take after
  | .torn after size => listed.take after ++ ((listed.drop after).head?.map (Write.cut size)).toList

def crash (disk : Disk) (p : Process × Fate) : Disk :=
  match SyncEngine.start p.1.nodeId disk with
  | .error _ => disk
  | .ok e => (p.2.done (writes e p.1.command)).foldl Write.apply disk

theorem apply_chunks (disk : Disk) (chunks : List Chunk) : (chunks.map Write.chunk).foldl Write.apply disk =
    ⟨chunks.foldl FileStore.putChunk disk.blobs,disk.journal,disk.files⟩ := by
  induction chunks generalizing disk with
  | nil => rfl
  | cons c rest ih => exact ih _

theorem apply_materialize (e : SyncEngine) (paths : List Bytes) :
    (materializeWrites e paths).1.foldl Write.apply e.disk = (materializeAll e paths).1.disk ∧
      (materializeWrites e paths).2 = (materializeAll e paths).2.isOk := by
  induction paths generalizing e with
  | nil => exact ⟨rfl,rfl⟩
  | cons path rest ih =>
    cases step : e.materialize path with
    | mk next result =>
      cases result with
      | error x =>
        have unmoved : next = e := by
          unfold materialize at step
          split at step
          · cases step
          · split at step
            · split at step
              · exact (congrArg Prod.fst step).symm
              · cases step
            · cases step
        simp only [materializeWrites,materializeAll,step,unmoved]
        exact ⟨rfl,rfl⟩
      | ok done =>
        obtain ⟨disks,results⟩ := ih next
        have written : ((e.content path).toList.map (Write.file path)).foldl Write.apply e.disk = next.disk := by
          rcases materialize_cases step with ⟨rfl,nothing,_⟩ | ⟨entry,bytes,_,_,content,rfl⟩
          · rw [nothing]
            rfl
          · rw [content]
            rfl
        simp only [materializeWrites,materializeAll,step]
        rw [List.foldl_append,written]
        exact ⟨disks,results⟩

theorem apply_commit (e : SyncEngine) (paths : List Bytes) : (commitWrites e paths).foldl Write.apply e.disk =
    match materializeAll e paths with
    | (next,.error _) => next.disk
    | (next,.ok _) => next.saveJournal.disk := by
  obtain ⟨disks,results⟩ := apply_materialize e paths
  obtain ⟨files,left⟩ := materializeAll_files e paths
  unfold commitWrites
  dsimp only
  rw [List.foldl_append,disks,results]
  cases settled : materializeAll e paths with
  | mk next result =>
    rw [settled] at left
    dsimp only at left
    subst left
    cases result with
    | error x => rfl
    | ok done => rfl

theorem apply_ingest (e : SyncEngine) (path bytes : Bytes) :
    (ingestWrites e path bytes).foldl Write.apply e.disk = (e.ingestFile path bytes).1.disk := by
  have committed := apply_commit (e.ingested path bytes) [path]
  unfold ingestWrites
  rw [List.foldl_append,apply_chunks]
  change (commitWrites (e.ingested path bytes) [path]).foldl Write.apply (e.ingested path bytes).disk = _
  rw [committed]
  unfold ingestFile materializeAll
  cases step : (e.ingested path bytes).materialize path with
  | mk next result =>
    cases result with
    | error x => rfl
    | ok done => rfl

theorem apply_finish (e : SyncEngine) (paths : List Bytes) (stats : SyncStats) (payload : Bytes) (link : Link) :
    (finishWrites e paths payload).foldl Write.apply e.disk = ((finishSession e paths stats payload).run link).engine.disk := by
  have committed := apply_commit (stored e payload) paths
  unfold finishWrites finishSession
  dsimp only
  rw [List.foldl_append,apply_chunks]
  change (if _ then [] else commitWrites (stored e payload) paths).foldl Write.apply (stored e payload).disk = _
  split
  · rfl
  · rw [committed]
    change _ = ((match materializeAll (stored e payload) paths with
      | (e,.error x) => Session.stop e (.error x)
      | (e,.ok _) => Session.send e.saveJournal ⟨frameDone,[]⟩ (.recv e.saveJournal (fun _ =>
          .stop e.saveJournal (.ok (tally stats payload))))).run link).engine.disk
    cases settled : materializeAll (stored e payload) paths with
    | mk next result =>
      cases result with
      | error x => rfl
      | ok done =>
        rcases run_done next.saveJournal (tally stats payload) link with ⟨x,sent,failed⟩ | ⟨received,finished⟩
        · exact (congrArg (fun o => o.engine.disk) failed).symm
        · exact (congrArg (fun o => o.engine.disk) finished).symm

-- Either no CHUNK_DATA frame came as the n-th, and the disk is untouched, or the
-- session has gone through with it.
inductive Reached (n : ℕ) (now : SyncEngine) (paths : List Bytes) (o : Outcome) : Prop where
  | short (same : o.engine.disk = now.disk) (without : ∀ frame, o.received[n]? = some frame → frame.type ≠ frameChunkData)
  | through (data : Bytes) (arrived : o.received[n]? = some ⟨frameChunkData,data⟩)
      (left : o.engine.disk = (finishWrites now paths data).foldl Write.apply now.disk)

theorem Reached.said (reached : Reached n now paths o) (frame : Frame) : Reached n now paths (o.said frame) := by
  cases reached with
  | short same without => exact .short same without
  | through data arrived left => exact .through data arrived left

theorem Reached.heard (reached : Reached n now paths o) (frame : Frame) : Reached (n+1) now paths (o.heard frame) := by
  cases reached with
  | short same without => exact .short same without
  | through data arrived left => exact .through data arrived left

theorem answer_reached (now : SyncEngine) (paths : List Bytes) (stats : SyncStats) (request : Bytes) (link : Link) :
    Reached 0 now paths ((answerRequest now paths stats request).run link) := by
  unfold answerRequest answerRequestWith
  cases asked : parseHashList request with
  | error x => exact .short rfl nofun
  | ok theirs =>
    dsimp only
    rcases run_send now ⟨frameChunkData,answer now.blobs theirs⟩ (expect frameChunkData
      (ascii "expected CHUNK_DATA frame from peer") now (finishSession now paths stats)) link with ⟨x,failed⟩ | ⟨n,sends⟩
    · rw [failed]
      exact .short rfl nofun
    · rw [sends]
      refine Reached.said ?_ _
      rcases run_recv_expect now frameChunkData (ascii "expected CHUNK_DATA frame from peer") (finishSession now paths stats)
        ⟨link.inbound,link.reset,n⟩ with ⟨x,received,failed,other⟩ | ⟨data,last,arrived,heard⟩
      · rw [failed]
        exact .short rfl (fun frame first => other frame (List.mem_of_getElem? first))
      · rw [heard]
        exact .through data rfl (apply_finish now paths stats data _).symm

-- An expected frame is waited for once: what came instead is the last that is read.
theorem run_expect_once (now : SyncEngine) (type : UInt8) (what : Bytes) (next : Bytes → Session) (link : Link) :
    (∃ x received, (expect type what now next).run link = ⟨now,[],received,.error x⟩ ∧ received.length ≤ 1) ∨
    ∃ payload rest, (expect type what now next).run link = ((next payload).run ⟨rest,link.reset,link.takes⟩).heard ⟨type,payload⟩ := by
  cases arrived : recvFrame link.inbound with
  | none =>
    rw [expect,run_recv_nothing now _ link arrived]
    left
    cases link.reset with
    | true => exact ⟨_,[],rfl,by decide⟩
    | false => exact ⟨_,[],rfl,by decide⟩
  | some pair =>
    obtain ⟨⟨kind,payload⟩,rest⟩ := pair
    rw [expect,run_recv now _ link arrived]
    by_cases same : kind = type
    · subst same
      refine .inr ⟨payload,rest,?_⟩
      dsimp only
      rw [if_pos rfl]
    · refine .inl ⟨.runtimeError what,[⟨kind,payload⟩],?_,Nat.le_refl 1⟩
      dsimp only
      rw [if_neg same]
      rfl

theorem merge_reached (e : SyncEngine) (manifest : Bytes) (link : Link) :
    (∃ entries, parseManifest manifest = .ok entries ∧ Reached 1 (afterMerge e entries) (merging e entries).paths
      ((mergeManifest e ⟨e.store.allEntries.length,0,0,0,0,0⟩ manifest).run link)) ∨
    ((mergeManifest e ⟨e.store.allEntries.length,0,0,0,0,0⟩ manifest).run link).engine.disk = e.disk ∧
      ((mergeManifest e ⟨e.store.allEntries.length,0,0,0,0,0⟩ manifest).run link).received = [] := by
  cases listed : parseManifest manifest with
  | error x =>
    right
    unfold mergeManifest mergeManifestWith
    rw [listed]
    exact ⟨rfl,rfl⟩
  | ok entries =>
    refine .inl ⟨entries,rfl,?_⟩
    obtain ⟨needed,asking⟩ := asking_listed e entries
    rw [mergeManifest_listed listed asking]
    rcases run_send (afterMerge e entries) ⟨frameChunkRequest,serializeHashList needed⟩ (expect frameChunkRequest
      (ascii "expected CHUNK_REQUEST frame from peer") (afterMerge e entries)
      (answerRequest (afterMerge e entries) (merging e entries).paths (merging e entries).stats)) link
      with ⟨x,failed⟩ | ⟨n,sends⟩
    · rw [failed]
      exact .short rfl nofun
    · rw [sends]
      refine Reached.said ?_ _
      rcases run_expect_once (afterMerge e entries) frameChunkRequest (ascii "expected CHUNK_REQUEST frame from peer")
        (answerRequest (afterMerge e entries) (merging e entries).paths (merging e entries).stats)
        ⟨link.inbound,link.reset,n⟩ with ⟨x,received,failed,once⟩ | ⟨request,second,heard⟩
      · rw [failed]
        refine .short rfl (fun frame read => ?_)
        have beyond : received[1]? = none := List.getElem?_eq_none once
        exact absurd (read.symm.trans beyond) (Option.some_ne_none frame)
      · rw [heard]
        exact (answer_reached _ _ _ request _).heard _

theorem apply_session (e : SyncEngine) (link : Link) :
    (sessionWrites e link).foldl Write.apply e.disk = ((runSyncSession e).run link).engine.disk := by
  rw [sessionWrites,runSyncSession_eq]
  rcases run_send e ⟨frameManifest,serializeManifest e⟩ (expect frameManifest (ascii "expected MANIFEST frame from peer") e
    (mergeManifest e ⟨e.store.allEntries.length,0,0,0,0,0⟩)) link with ⟨x,failed⟩ | ⟨n,sends⟩
  · rw [failed]
    rfl
  · rw [sends]
    rcases run_expect_once e frameManifest (ascii "expected MANIFEST frame from peer")
      (mergeManifest e ⟨e.store.allEntries.length,0,0,0,0,0⟩) ⟨link.inbound,link.reset,n⟩
      with ⟨x,received,failed,once⟩ | ⟨manifest,first,heard⟩
    · rw [failed]
      have beyond : received[2]? = none := List.getElem?_eq_none (once.trans (by decide))
      simp only [Outcome.said,beyond]
      split
      · rename_i nothing
        cases nothing
      · rfl
    · rw [heard]
      rcases merge_reached e manifest ⟨first,link.reset,n⟩ with ⟨entries,listed,reached⟩ | ⟨same,silent⟩
      · generalize (mergeManifest e ⟨e.store.allEntries.length,0,0,0,0,0⟩ manifest).run ⟨first,link.reset,n⟩ = o at reached ⊢
        simp only [Outcome.said,Outcome.heard,List.getElem?_cons_zero,List.getElem?_cons_succ]
        cases reached with
        | short same without =>
          have disk : o.engine.disk = e.disk := same
          cases third : o.received[1]? with
          | none => exact disk.symm
          | some data =>
            simp only [if_neg (without data third)]
            exact disk.symm
        | through data arrived left =>
          simp only [arrived,if_true,listed]
          exact left.symm
      · generalize (mergeManifest e ⟨e.store.allEntries.length,0,0,0,0,0⟩ manifest).run ⟨first,link.reset,n⟩ = o at same silent ⊢
        simp only [Outcome.said,Outcome.heard,silent]
        exact same.symm

-- The command where the file system makes every directory.
def willing : Command → Command
  | .add path source _ => .add path source false
  | .rm path => .rm path
  | .list => .list
  | .sync link _ => .sync link none

theorem apply_writes (e : SyncEngine) (command : Command) :
    (writes e command).foldl Write.apply e.disk = dispatch e (willing command) := by
  cases command with
  | add path source refused =>
    cases source with
    | none => rfl
    | some bytes => exact apply_ingest e path bytes
  | rm path => rfl
  | list => rfl
  | sync link refused => exact apply_session e link

theorem materializeWrites_files (e : SyncEngine) (paths : List Bytes) : ∀ w ∈ (materializeWrites e paths).1, w.commits = false := by
  induction paths generalizing e with
  | nil => exact nofun
  | cons path rest ih =>
    unfold materializeWrites
    split
    · exact nofun
    · intro w member
      rcases List.mem_append.mp member with here | later
      · obtain ⟨bytes,_,rfl⟩ := List.mem_map.mp here
        rfl
      · exact ih _ w later

theorem commit_last {early : List Write} (before : ∀ w ∈ early, w.commits = false) (e : SyncEngine) (paths : List Bytes) :
    ∀ w ∈ (early ++ commitWrites e paths).dropLast, w.commits = false := by
  have files := materializeWrites_files e paths
  unfold commitWrites
  dsimp only
  split
  · rw [← List.append_assoc,List.dropLast_concat]
    intro w member
    exact (List.mem_append.mp member).elim (before w) (files w)
  · rw [List.append_nil]
    intro w member
    exact (List.mem_append.mp (List.mem_of_mem_dropLast member)).elim (before w) (files w)

theorem chunks_commit (chunks : List Chunk) : ∀ w ∈ chunks.map Write.chunk, w.commits = false := by
  intro w member
  obtain ⟨c,_,rfl⟩ := List.mem_map.mp member
  rfl

-- The journal is only written at the very end.
theorem writes_commit_last (e : SyncEngine) (command : Command) : ∀ w ∈ (writes e command).dropLast, w.commits = false := by
  cases command with
  | add path source refused =>
    cases source with
    | none => exact nofun
    | some bytes => exact commit_last (chunks_commit _) _ _
  | rm path => exact nofun
  | list => exact nofun
  | sync link refused =>
    unfold writes sessionWrites
    dsimp only
    split
    · split
      · split
        · exact nofun
        · unfold finishWrites
          dsimp only
          split
          · rw [List.append_nil]
            exact fun w member => chunks_commit _ w (List.mem_of_mem_dropLast member)
          · exact commit_last (chunks_commit _) _ _
      · exact nofun
    · exact nofun

-- The write that is torn is not the journal's.
def Fate.Spares (listed : List Write) : Fate → Prop
  | .torn after _ => ∀ w, listed[after]? = some w → w.commits = false
  | _ => True

theorem done_cases {listed : List Write} (last : ∀ w ∈ listed.dropLast, w.commits = false) (fate : Fate) (spares : fate.Spares listed) :
    fate.done listed = listed ∨ ∀ w ∈ fate.done listed, w.commits = false := by
  have front : ∀ n, n < listed.length → ∀ w ∈ listed.take n, w.commits = false := by
    intro n less w member
    refine last w ?_
    rw [List.dropLast_eq_take]
    have short : n ≤ listed.length - 1 := by omega
    exact List.take_subset_take_left listed short member
  cases fate with
  | ends => exact .inl rfl
  | killed after =>
    rcases Nat.lt_or_ge after listed.length with less | ge
    · exact .inr (front after less)
    · exact .inl (List.take_of_length_le ge)
  | torn after size =>
    rcases Nat.lt_or_ge after listed.length with less | ge
    · right
      intro w member
      rcases List.mem_append.mp member with before | here
      · exact front after less w before
      · have head : (listed.drop after).head? = some listed[after] := by
          rw [List.head?_drop,List.getElem?_eq_getElem less]
        rw [head] at here
        have spared := spares listed[after] (List.getElem?_eq_getElem less)
        cases List.mem_singleton.mp here
        cases whole : listed[after] with
        | chunk c => rfl
        | file path bytes => rfl
        | journal text =>
          rw [whole] at spared
          cases spared
    · left
      simp only [Fate.done]
      rw [List.take_of_length_le ge,List.drop_eq_nil_of_le ge]
      exact List.append_nil listed

theorem apply_uncommitted {listed : List Write} (none : ∀ w ∈ listed, w.commits = false) (disk : Disk) :
    disk.blobs.Extends (listed.foldl Write.apply disk).blobs ∧ (listed.foldl Write.apply disk).journal = disk.journal := by
  induction listed generalizing disk with
  | nil => exact ⟨.refl disk.blobs,rfl⟩
  | cons w rest ih =>
    obtain ⟨more,same⟩ := ih (fun w member => none w (List.mem_cons_of_mem _ member)) (Write.apply disk w)
    cases w with
    | chunk c => exact ⟨(FileStore.extends_putChunk disk.blobs c).trans more,same⟩
    | file path bytes => exact ⟨more,same⟩
    | journal text => exact nomatch none _ List.mem_cons_self

-- The journal is that of a store whose lines read back, with the chunks of its files.
def Sturdy (disk : Disk) : Prop := ∀ text, disk.journal = some text → ∃ s : CrdtStore, text = journalText s ∧
  ∀ path e, s.get path = some e → Stocked disk.blobs e ∧ PlainNodes e

theorem Sturdy.extend {disk after : Disk} (sturdy : Sturdy disk) (more : disk.blobs.Extends after.blobs)
    (same : after.journal = disk.journal) : Sturdy after := by
  intro text journal
  obtain ⟨s,written,fits⟩ := sturdy text (same.symm.trans journal)
  exact ⟨s,written,fun path e held => ⟨(fits path e held).1.extend more,(fits path e held).2⟩⟩

theorem sturdy_saveJournal {e : SyncEngine} (stocked : ∀ path entry, e.store.get path = some entry → Stocked e.blobs entry)
    (plain : ∀ path entry, e.store.get path = some entry → PlainNodes entry) : Sturdy e.saveJournal.disk := by
  intro text journal
  cases journal
  exact ⟨e.store,rfl,fun path entry held => ⟨stocked path entry held,plain path entry held⟩⟩

-- The next process, under whatever name, finds exactly the store that was saved.
theorem start_sturdy {disk : Disk} (sturdy : Sturdy disk) (nodeId : Bytes) : ∃ e, SyncEngine.start nodeId disk = .ok e ∧ e.disk = disk ∧
    (∀ text, disk.journal = some text → text = journalText e.store) ∧
    ∀ path entry, e.store.get path = some entry → Stocked disk.blobs entry ∧ PlainNodes entry := by
  unfold SyncEngine.start
  cases journal : disk.journal with
  | none => exact ⟨_,rfl,rfl,nofun,nofun⟩
  | some text =>
    obtain ⟨s,rfl,fits⟩ := sturdy text journal
    have listed : ∀ e ∈ s.allEntries, Stocked disk.blobs e ∧ PlainNodes e := fun e member =>
      fits e.path e (CrdtStore.mem_allEntries.mp member)
    have loaded := loadJournal_lines (s := ⟨nodeId,s.entries,s.keyed⟩) (fun e member => (listed e member).1.lined)
      (fun e member => lineToEntry_nodes e (listed e member).1.lined (listed e member).2)
    refine ⟨⟨disk,⟨nodeId,s.entries,s.keyed⟩⟩,?_,rfl,?_,fits⟩
    · change (loadJournal (.new nodeId) (journalText s)).map _ = _
      have same : loadJournal (.new nodeId) (journalText s) = .ok ⟨nodeId,s.entries,s.keyed⟩ := loaded
      rw [same]
      rfl
    · intro text again
      cases again
      rfl

theorem plain_forked (e : FileEntry) (plain : PlainNodes e) : PlainNodes (CrdtStore.forkOf e) := plain

theorem plain_merging {e : SyncEngine} (plain : ∀ path entry, e.store.get path = some entry → PlainNodes entry)
    (listed : parseManifest manifest = .ok entries) :
    ∀ path entry, (merging e entries).store.get path = some entry → PlainNodes entry :=
  merging_entries PlainNodes plain_forked plain_joined e.blobs entries ⟨e.store,.empty,[],⟨e.store.allEntries.length,0,0,0,0,0⟩⟩
    plain (fun re member => (parseManifest_clean listed re member).2)

theorem sturdy_session {e : SyncEngine} (sturdy : Sturdy e.disk) (ready : Ready e)
    (plain : ∀ path entry, e.store.get path = some entry → PlainNodes entry) (link : Link) :
    Sturdy ((runSyncSession e).run link).engine.disk := by
  have ended := run_ended e link
  generalize (runSyncSession e).run link = o at ended ⊢
  have saved : ∀ {manifest data : Bytes} {entries : List FileEntry} {next : SyncEngine}, parseManifest manifest = .ok entries →
      materializeAll (stored (afterMerge e entries) data) (merging e entries).paths = (next,.ok ()) → Sturdy next.saveJournal.disk := by
    intro manifest data entries next listed settled
    obtain ⟨files,left⟩ := settled_files settled
    refine sturdy_saveJournal (stocked_settled ready listed settled) ?_
    rw [left]
    exact plain_merging plain listed
  cases ended with
  | unread _ => exact sturdy
  | merged _ => exact sturdy
  | fetched _ _ _ listed _ _ finished =>
    cases finished with
    | @thrown files x => exact sturdy.extend (FileStore.extends_putChunks e.blobs _) rfl
    | unsent settled => exact saved listed settled
    | returned settled _ => exact saved listed settled

theorem sturdy_dispatch {e : SyncEngine} (sturdy : Sturdy e.disk) (ready : Ready e) (own : Plain e.store.nodeId)
    (plain : ∀ path entry, e.store.get path = some entry → PlainNodes entry) (p : Process) (fits : p.Fits) :
    Sturdy (dispatch e (willing p.command)) := by
  have nodes : ∀ path, ∀ node ∈ ((e.store.clockAt path).increment e.store.nodeId).counters.keys, Plain node :=
    nodes_increment plain own
  obtain ⟨nodeId,command⟩ := p
  obtain ⟨_,names⟩ := fits
  cases command with
  | add path source refused =>
    cases source with
    | none => exact sturdy
    | some bytes =>
      obtain ⟨files,done⟩ := ingestFile_keeps ready.keeps path bytes
      change Sturdy (e.ingestFile path bytes).1.disk
      rw [done]
      exact sturdy_saveJournal (e := (e.ingested path bytes).withFiles files) (stocked_ingested ready path bytes names)
        (CrdtStore.entries_store plain (nodes path))
  | rm path =>
    have lined := nodes_increment (fun path e held => (ready.2 path e held).lined.nodes) ready.1 path
    rw [← CrdtStore.deleteEntry_clock] at lined
    refine sturdy_saveJournal (e := e.withStore (e.store.deleteLocal path))
      (CrdtStore.entries_store ready.2 ⟨⟨names,ready.1,lined⟩,fun live => nomatch live⟩) (CrdtStore.entries_store plain ?_)
    unfold PlainNodes
    rw [CrdtStore.deleteEntry_clock]
    exact nodes path
  | list => exact sturdy
  | sync link refused => exact sturdy_session sturdy ready plain link

-- Processes with plain names that are never cut inside the journal's own write.
structure Orderly (disk : Disk) (p : Process × Fate) : Prop where
  own : Plain p.1.nodeId
  fits : p.1.Fits
  spares : ∀ e, SyncEngine.start p.1.nodeId disk = .ok e → p.2.Spares (writes e p.1.command)

theorem sturdy_crash (disk : Disk) (p : Process × Fate) (sturdy : Sturdy disk) (orderly : Orderly disk p) : Sturdy (crash disk p) := by
  obtain ⟨e,started,same,_,entries⟩ := start_sturdy sturdy p.1.nodeId
  obtain ⟨_,named,_⟩ := start_read started
  subst same
  have own : Plain e.store.nodeId := named ▸ orderly.own
  have ready : Ready e := ⟨own.lined,fun path entry held => (entries path entry held).1⟩
  unfold crash
  rw [started]
  rcases done_cases (writes_commit_last e p.1.command) p.2 (orderly.spares e started) with whole | early
  · dsimp only
    rw [whole,apply_writes]
    exact sturdy_dispatch sturdy ready own (fun path entry held => (entries path entry held).2) p.1 orderly.fits
  · obtain ⟨more,unsaved⟩ := apply_uncommitted early e.disk
    exact sturdy.extend more unsaved

theorem crash_safe (processes : List (Process × Fate)) (disk : Disk)
    (run : Runs crash Orderly ⟨.empty,none,.empty⟩ processes disk) (nodeId : Bytes) :
    ∃ e, SyncEngine.start nodeId disk = .ok e ∧ (∀ text, disk.journal = some text → text = journalText e.store) ∧
      ∀ path entry, e.store.get path = some entry → entry.deleted = false → ∀ hash ∈ entry.chunkHashes, e.blobs.hasChunk hash = true := by
  have initially : Sturdy ⟨.empty,none,.empty⟩ := nofun
  have sturdy : Sturdy disk := run.invariant initially sturdy_crash
  obtain ⟨e,started,rfl,text,entries⟩ := start_sturdy sturdy nodeId
  exact ⟨e,started,text,fun path entry held => (entries path entry held).1.chunks⟩

-- The first add dies inside its chunk file, the next one before the journal.
def unlucky : List (Process × Fate) :=
  [(⟨ascii "A",.add (ascii "a.txt") (some [7]) false⟩,.torn 0 0),(⟨ascii "A",.add (ascii "a.txt") (some [7]) false⟩,.killed 2)]

theorem crash_safe_unlucky : ∃ disk, Runs crash Orderly ⟨.empty,none,.empty⟩ unlucky disk ∧
    ∃ e, SyncEngine.start (ascii "A") disk = .ok e := by
  have own : Plain (ascii "A") := ⟨by decide,by decide,by decide,by decide⟩
  have fits : (⟨ascii "A",.add (ascii "a.txt") (some [7]) false⟩ : Process).Fits := ⟨own.lined,⟨by decide,by decide⟩⟩
  have first : (writes (fresh (ascii "A")) (.add (ascii "a.txt") (some [7]) false))[0]?.map Write.commits = some false := by
    decide +kernel
  have torn : Orderly ⟨.empty,none,.empty⟩ (⟨ascii "A",.add (ascii "a.txt") (some [7]) false⟩,.torn 0 0) := by
    refine ⟨own,fits,?_⟩
    intro e started w found
    cases started
    have written : (writes (fresh (ascii "A")) (.add (ascii "a.txt") (some [7]) false))[0]? = some w := found
    rw [written] at first
    exact Option.some.inj first
  have run : Runs crash Orderly ⟨.empty,none,.empty⟩ unlucky _ := .snoc (.snoc .nil torn) ⟨own,fits,fun e started => trivial⟩
  obtain ⟨e,started,_⟩ := crash_safe unlucky _ run (ascii "A")
  exact ⟨_,run,e,started⟩

end P2PSync.Crashes
