import P2PSync.Outcomes

namespace P2PSync.Network
open Text EntryCodec

theorem recvFrame_wire (frame : Frame) (rest : List Frame) (small : frame.payload.length < 2^32) :
    recvFrame (wire (frame :: rest)) = some (frame,wire rest) := by
  rw [wire,List.flatMap_cons]
  exact recvFrame_sendFrame frame small _

-- The session at each end returns, and each hears what the other end said.
structure Complete (a b : SyncEngine) (forA forB : Link) : Prop where
  returnsA : ∃ stats, ((runSyncSession a).run forA).result = .ok stats
  returnsB : ∃ stats, ((runSyncSession b).run forB).result = .ok stats
  heardA : forA.inbound = wire ((runSyncSession b).run forB).sent
  heardB : forB.inbound = wire ((runSyncSession a).run forA).sent
  smallA : ∀ frame ∈ ((runSyncSession a).run forA).sent, frame.payload.length < 2^32
  smallB : ∀ frame ∈ ((runSyncSession b).run forB).sent, frame.payload.length < 2^32

theorem Complete.symm (complete : Complete a b forA forB) : Complete b a forB forA :=
  ⟨complete.returnsB,complete.returnsA,complete.heardB,complete.heardA,complete.smallB,complete.smallA⟩

-- An engine whose entries survive the text formats.
structure Legible (e : SyncEngine) : Prop where
  node : 10 ∉ e.store.nodeId
  entries : ∀ entry ∈ e.store.allEntries, PlainEntry entry

def Readable (e : SyncEngine) : Prop := parseManifest (serializeManifest e) = .ok e.store.allEntries

theorem Legible.readable (legible : Legible e) : Readable e :=
  parseManifest_serializeManifest legible.node
    (fun entry listed => ⟨(legible.entries entry listed).lined,(legible.entries entry listed).nodes⟩)

def granted (blobs : FileStore) (hashes : List Digest) : List Chunk :=
  hashes.filterMap (fun hash => (blobs.chunks.find (FileStore.chunkPath hash)).map (fun bytes => ⟨0,bytes,hash⟩))

theorem answer_granted (blobs : FileStore) (hashes : List Digest) : answer blobs hashes =
    ((granted blobs hashes).map (fun c => (c.hash,c.data))).flatMap (fun r => encodeChunk r.1 r.2) := by
  induction hashes with
  | nil => rfl
  | cons hash rest ih =>
    cases found : blobs.chunks.find (FileStore.chunkPath hash) with
    | none =>
      have same : answer blobs (hash :: rest) = answer blobs rest := by simp [answer,found]
      rw [same,ih]
      simp [granted,found]
    | some bytes =>
      have later : answer blobs (hash :: rest) = encodeChunk hash bytes ++ answer blobs rest := by simp [answer,found]
      rw [later,ih]
      simp [granted,found]

theorem decodeChunks_answer (blobs : FileStore) (hashes : List Digest) (small : (answer blobs hashes).length < 2^32) :
    decodeChunks (answer blobs hashes) = (granted blobs hashes,false) := by
  rw [answer_granted] at small ⊢
  rw [decodeChunks_records]
  · simp only [List.map_map,Prod.mk.injEq,and_true]
    refine (List.map_congr_left ?_).trans (List.map_id _)
    intro c member
    obtain ⟨hash,_,found⟩ := List.mem_filterMap.mp member
    obtain ⟨bytes,_,rfl⟩ := Option.map_eq_some_iff.mp found
    rfl
  · intro r member
    have part := List.sublist_flatten_of_mem (List.mem_map_of_mem (f := fun r => encodeChunk r.1 r.2) member)
    have length := part.length_le
    rw [← List.flatMap_def] at length
    simp only [encodeChunk,List.length_append] at length
    simp only [encodeChunk] at small
    omega

-- The engine when the peer's entries are merged, and when the chunks are in.
def merged (e peer : SyncEngine) : SyncEngine := e.withStore (merging e peer.store.allEntries).store

def fetched (e peer : SyncEngine) (needed : List Digest) : SyncEngine :=
  (merged e peer).withBlobs ((granted peer.blobs needed).foldl FileStore.putChunk e.blobs)

theorem merged_afterMerge (a b : SyncEngine) : merged a b = afterMerge a b.store.allEntries := rfl

-- What each end of a complete exchange asked for, got and made of it.
structure Exchanged (a b : SyncEngine) (o : Outcome) (needed theirs : List Digest) : Prop where
  asking : (merging a b.store.allEntries).needed.keys.mapM hexToDigest = .ok needed
  said : o.sent = script a needed theirs
  received : o.received[2]? = some ⟨frameChunkData,answer b.blobs needed⟩
  decoded : decodeChunks (answer b.blobs needed) = (granted b.blobs needed,false)
  settled : ∃ next, materializeAll (fetched a b needed) (merging a b.store.allEntries).paths = (next,.ok ()) ∧
    o.engine = next.saveJournal
  counted : o.result = .ok (tally (merging a b.store.allEntries).stats (answer b.blobs needed))

theorem Complete.exchanged (complete : Complete a b forA forB) (readable : Readable b) :
    ∃ needed theirs, Exchanged a b ((runSyncSession a).run forA) needed theirs := by
  obtain ⟨_,okA⟩ := complete.returnsA
  obtain ⟨_,okB⟩ := complete.returnsB
  obtain ⟨manifestA,requestA,dataA,entriesA,neededA,theirsA,here⟩ := run_returned okA
  obtain ⟨manifestB,requestB,dataB,entriesB,neededB,theirsB,there⟩ := run_returned okB
  have smallA := complete.smallA
  have smallB := complete.smallB
  obtain ⟨first,second,last,helloA,asksA,arrivedA⟩ := here.heard
  obtain ⟨_,_,_,helloB,asksB,_⟩ := there.heard
  rw [complete.heardA,there.said,script,recvFrame_wire _ _ (smallB _ (by simp [there.said,script]))] at helloA
  rw [complete.heardB,here.said,script,recvFrame_wire _ _ (smallA _ (by simp [here.said,script]))] at helloB
  cases helloA
  cases helloB
  rw [recvFrame_wire _ _ (smallB _ (by simp [there.said,script]))] at asksA
  rw [recvFrame_wire _ _ (smallA _ (by simp [here.said,script]))] at asksB
  cases asksA
  cases asksB
  rw [recvFrame_wire _ _ (smallB _ (by simp [there.said,script]))] at arrivedA
  cases arrivedA
  have listed := here.listed
  rw [readable] at listed
  cases listed
  have asked := there.asked
  rw [parseHashList_serializeHashList] at asked
  cases asked
  have small : (answer b.blobs neededA).length < 2^32 :=
    smallB ⟨frameChunkData,answer b.blobs neededA⟩ (by simp [there.said,script])
  have decoded := decodeChunks_answer _ _ small
  obtain ⟨next,settled,left⟩ := here.settled
  rw [stored,decoded] at settled
  exact ⟨neededA,theirsA,here.asking,here.said,here.received,decoded,⟨next,settled,left⟩,here.counted⟩

theorem Complete.left (complete : Complete a b forA forB) (readable : Readable b) :
    ∃ needed files, (merging a b.store.allEntries).needed.keys.mapM hexToDigest = .ok needed ∧
      ((runSyncSession a).run forA).engine = ((fetched a b needed).withFiles files).saveJournal := by
  obtain ⟨needed,theirs,exchanged⟩ := complete.exchanged readable
  obtain ⟨next,settled,left⟩ := exchanged.settled
  obtain ⟨files,rfl⟩ := settled_files settled
  exact ⟨needed,files,exchanged.asking,left⟩

theorem mem_need {blobs : FileStore} {needed : OrdMap Bytes Unit} {hashes : List Digest} :
    key ∈ (need blobs needed hashes).keys ↔
      key ∈ needed.keys ∨ ∃ hash ∈ hashes, blobs.hasChunk hash = false ∧ key = Sha256.toHex hash := by
  induction hashes generalizing needed with
  | nil => simp [need]
  | cons hash rest ih =>
    have later : need blobs needed (hash :: rest) =
        need blobs (if blobs.hasChunk hash then needed else needed.insert (Sha256.toHex hash) ()) rest := rfl
    rw [later,ih]
    cases has : blobs.hasChunk hash with
    | true => simp [has]
    | false =>
      simp only [Bool.false_eq_true,if_false,OrdMap.mem_keys_insert,List.exists_mem_cons_iff,has,true_and]
      tauto

theorem mergeEntry_store (blobs : FileStore) (m : Merging) (re : FileEntry) :
    (mergeEntry blobs m re).store = (m.store.mergeRemote re).2 := by
  unfold mergeEntry
  dsimp only
  split
  · rfl
  · split <;> rfl
  · rfl
  · rfl

-- The paths to materialize are those where versions were taken.
theorem mergeEntry_paths (blobs : FileStore) (m : Merging) (re : FileEntry) :
    (mergeEntry blobs m re).paths = m.paths ++ (m.store.mergeRemote re).1.landing.toList := by
  unfold mergeEntry MergeResult.landing
  dsimp only
  cases outcome : (m.store.mergeRemote re).1.outcome with
  | appliedRemote => simp [CrdtStore.path_mergeRemote]
  | conflictForked =>
    have forked := CrdtStore.get_fork outcome
    simp [forked]
  | keptLocal => simp
  | noChange => simp

-- What the merge loop leaves at a path is there since before, or is to be materialized.
theorem merging_paths (blobs : FileStore) (entries : List FileEntry) (m : Merging) :
    (∀ path ∈ m.paths, path ∈ (entries.foldl (mergeEntry blobs) m).paths) ∧
    ∀ path e, (entries.foldl (mergeEntry blobs) m).store.get path = some e →
      path ∈ (entries.foldl (mergeEntry blobs) m).paths ∨ ∃ old, m.store.get path = some old ∧ SameContent old e := by
  induction entries generalizing m with
  | nil => exact ⟨fun _ member => member,fun path e held => .inr ⟨e,held,rfl,rfl⟩⟩
  | cons re rest ih =>
    obtain ⟨grows,left⟩ := ih (mergeEntry blobs m re)
    rw [List.foldl_cons]
    constructor
    · intro path member
      apply grows
      rw [mergeEntry_paths]
      exact List.mem_append_left _ member
    · intro path e held
      rcases left path e held with inside | ⟨middle,before,same⟩
      · exact .inl inside
      · rw [mergeEntry_store] at before
        rcases CrdtStore.get_mergeRemote before with ⟨lands,_⟩ | ⟨_,old,earlier,from_old⟩
        · left
          apply grows
          rw [mergeEntry_paths,lands]
          simp
        · refine .inr ⟨old,earlier,?_⟩
          rcases from_old with rfl | rfl
          · exact same
          · exact same

-- What a merge keeps of every entry, the merge loop keeps.
theorem merging_entries (fits : FileEntry → Prop) (forks : ∀ e, fits e → fits (CrdtStore.forkOf e))
    (absorbs : ∀ e re, fits e → fits re → fits { e with clock := e.clock.merge re.clock })
    (blobs : FileStore) (entries : List FileEntry) (m : Merging) (here : ∀ path e, m.store.get path = some e → fits e)
    (there : ∀ re ∈ entries, fits re) : ∀ path e, (entries.foldl (mergeEntry blobs) m).store.get path = some e → fits e := by
  induction entries generalizing m with
  | nil => exact here
  | cons re rest ih =>
    have remote := there re List.mem_cons_self
    refine ih (mergeEntry blobs m re) ?_ (fun re member => there re (List.mem_cons_of_mem _ member))
    intro path e held
    rw [mergeEntry_store] at held
    rcases CrdtStore.get_mergeRemote held with ⟨_,from_remote⟩ | ⟨_,old,before,from_old⟩
    · rcases from_remote with rfl | rfl
      · exact remote
      · exact forks re remote
    · rcases from_old with rfl | rfl
      · exact here path e before
      · exact absorbs old re (here path old before) remote

-- A version that is taken has its missing chunks asked for, and no other has.
theorem mem_mergeEntry {blobs : FileStore} {m : Merging} {re : FileEntry} :
    key ∈ (mergeEntry blobs m re).needed.keys ↔ key ∈ m.needed.keys ∨
      ((m.store.mergeRemote re).1.landing ≠ none ∧
        ∃ hash ∈ re.chunkHashes, blobs.hasChunk hash = false ∧ key = Sha256.toHex hash) := by
  unfold mergeEntry MergeResult.landing
  dsimp only
  cases outcome : (m.store.mergeRemote re).1.outcome with
  | appliedRemote => simp [mem_need]
  | conflictForked =>
    have forked := CrdtStore.get_fork outcome
    simp only [forked,mem_need]
    simp [CrdtStore.forkOf]
  | keptLocal => simp
  | noChange => simp

-- What the merge loop has come to: the chunks of every entry that counts are here,
-- or asked for and with the peer.
structure Gathers (counted : Bool → Prop) (blobs peer : FileStore) (m : Merging) : Prop where
  spelled : ∀ key ∈ m.needed.keys, ∃ hash, key = Sha256.toHex hash
  covered : ∀ path e, m.store.get path = some e → counted e.deleted → ∀ hash ∈ e.chunkHashes,
    blobs.hasChunk hash = true ∨ (Sha256.toHex hash ∈ m.needed.keys ∧ peer.hasChunk hash = true)

theorem gathers_mergeEntry (gathers : Gathers counted blobs peer m)
    (has : counted re.deleted → ∀ hash ∈ re.chunkHashes, peer.hasChunk hash = true) :
    Gathers counted blobs peer (mergeEntry blobs m re) := by
  constructor
  · intro key member
    rcases mem_mergeEntry.mp member with before | ⟨_,hash,_,_,rfl⟩
    · exact gathers.spelled key before
    · exact ⟨hash,rfl⟩
  · intro path e held counts hash member
    rw [mergeEntry_store] at held
    rcases CrdtStore.get_mergeRemote held with ⟨lands,from_remote⟩ | ⟨_,old,before,from_old⟩
    · have same : e.chunkHashes = re.chunkHashes ∧ e.deleted = re.deleted := by
        rcases from_remote with rfl | rfl
        · exact ⟨rfl,rfl⟩
        · exact ⟨rfl,rfl⟩
      rw [same.2] at counts
      rw [same.1] at member
      cases here : blobs.hasChunk hash with
      | true => exact .inl rfl
      | false =>
        refine .inr ⟨mem_mergeEntry.mpr (.inr ⟨?_,hash,member,here,rfl⟩),has counts hash member⟩
        rw [lands]
        exact Option.some_ne_none path
    · have same : e.chunkHashes = old.chunkHashes ∧ e.deleted = old.deleted := by
        rcases from_old with rfl | rfl
        · exact ⟨rfl,rfl⟩
        · exact ⟨rfl,rfl⟩
      rw [same.2] at counts
      rw [same.1] at member
      rcases gathers.covered path old before counts hash member with here | ⟨asked,there⟩
      · exact .inl here
      · exact .inr ⟨mem_mergeEntry.mpr (.inl asked),there⟩

theorem gathers_merging {a b : SyncEngine} (keepsA : a.Keeps counted) (keepsB : b.Keeps counted) :
    Gathers counted a.blobs b.blobs (merging a b.store.allEntries) := by
  have has : ∀ re ∈ b.store.allEntries, counted re.deleted → ∀ hash ∈ re.chunkHashes, b.blobs.hasChunk hash = true :=
    fun re listed => keepsB re.path re (CrdtStore.mem_allEntries.mp listed)
  have initially : Gathers counted a.blobs b.blobs ⟨a.store,.empty,[],⟨a.store.allEntries.length,0,0,0,0,0⟩⟩ :=
    ⟨nofun,fun path e held counts hash member => .inl (keepsA path e held counts hash member)⟩
  unfold merging
  generalize (⟨a.store,.empty,[],_⟩ : Merging) = m at initially ⊢
  generalize b.store.allEntries = entries at has ⊢
  induction entries generalizing m with
  | nil => exact initially
  | cons re rest ih =>
    exact ih _ (gathers_mergeEntry initially (has re List.mem_cons_self))
      (fun re listed => has re (List.mem_cons_of_mem _ listed))

theorem mem_granted {blobs : FileStore} {hashes : List Digest} {c : Chunk} : c ∈ granted blobs hashes ↔
    c.offset = 0 ∧ c.hash ∈ hashes ∧ blobs.chunks.find (FileStore.chunkPath c.hash) = some c.data := by
  unfold granted
  rw [List.mem_filterMap]
  constructor
  · rintro ⟨hash,member,found⟩
    obtain ⟨bytes,stored,rfl⟩ := Option.map_eq_some_iff.mp found
    exact ⟨rfl,member,stored⟩
  · obtain ⟨offset,data,hash⟩ := c
    rintro ⟨rfl,member,stored⟩
    exact ⟨hash,member,by rw [stored]; rfl⟩

-- What the two engines kept of their chunks, the merged store has once the chunks are in.
theorem keeps_fetched {a b : SyncEngine} (keepsA : a.Keeps counted) (keepsB : b.Keeps counted)
    (asking : (merging a b.store.allEntries).needed.keys.mapM hexToDigest = .ok needed) :
    (fetched a b needed).Keeps counted := by
  have gathers := gathers_merging keepsA keepsB
  intro path entry held counts hash member
  rcases gathers.covered path entry held counts hash member with here | ⟨asked,has⟩
  · exact (FileStore.extends_putChunks _ _).hasChunk here
  · obtain ⟨found,inside,read⟩ := mem_of_mapM asking asked
    rw [hexToDigest_toHex] at read
    cases read
    obtain ⟨bytes,stored⟩ := FileStore.hasChunk_iff.mp has
    exact FileStore.has_putChunks a.blobs (granted b.blobs needed) ⟨0,bytes,hash⟩ (mem_granted.mpr ⟨rfl,inside,stored⟩)

theorem whole_fetched {a b : SyncEngine} (wholeA : a.Whole) (wholeB : b.Whole)
    (asking : (merging a b.store.allEntries).needed.keys.mapM hexToDigest = .ok needed) : (fetched a b needed).Whole :=
  (keeps_fetched wholeA.keeps wholeB.keeps asking).whole

theorem spelled_foldl (blobs : FileStore) (entries : List FileEntry) (m : Merging)
    (spelled : ∀ key ∈ m.needed.keys, ∃ hash, key = Sha256.toHex hash) :
    ∀ key ∈ (entries.foldl (mergeEntry blobs) m).needed.keys, ∃ hash, key = Sha256.toHex hash := by
  induction entries generalizing m with
  | nil => exact spelled
  | cons re rest ih =>
    refine ih (mergeEntry blobs m re) ?_
    intro key member
    rcases mem_mergeEntry.mp member with before | ⟨_,hash,_,_,rfl⟩
    · exact spelled key before
    · exact ⟨hash,rfl⟩

theorem mapM_spelled {keys : List Bytes} (spelled : ∀ key ∈ keys, ∃ hash, key = Sha256.toHex hash) :
    ∃ hashes, keys.mapM hexToDigest = .ok hashes := by
  induction keys with
  | nil => exact ⟨[],rfl⟩
  | cons key rest ih =>
    obtain ⟨hash,rfl⟩ := spelled key List.mem_cons_self
    obtain ⟨hashes,read⟩ := ih (fun key member => spelled key (List.mem_cons_of_mem _ member))
    refine ⟨hash :: hashes,?_⟩
    rw [List.mapM_cons,hexToDigest_toHex,read]
    rfl

-- The request can always be put together: what is asked for was written by to_hex.
theorem asking_listed (e : SyncEngine) (entries : List FileEntry) :
    ∃ needed, (merging e entries).needed.keys.mapM hexToDigest = .ok needed :=
  mapM_spelled (spelled_foldl e.blobs entries _ nofun)

theorem asking_exact (a b : SyncEngine) : ∃ needed, (merging a b.store.allEntries).needed.keys.mapM hexToDigest = .ok needed :=
  asking_listed a b.store.allEntries

theorem answerRequest_listed (e : SyncEngine) (paths : List Bytes) (stats : SyncStats) (theirs : List Digest) :
    answerRequest e paths stats (serializeHashList theirs) =
      .send e ⟨frameChunkData,answer e.blobs theirs⟩
        (expect frameChunkData (ascii "expected CHUNK_DATA frame from peer") e (finishSession e paths stats)) := by
  unfold answerRequest answerRequestWith
  rw [parseHashList_serializeHashList]

-- Steps 5 and 6 where all chunks are read and all paths can be materialized.
theorem finishSession_done {e next : SyncEngine} (read : decodeChunks payload = (chunks,false))
    (done : materializeAll (e.withBlobs (chunks.foldl FileStore.putChunk e.blobs)) paths = (next,.ok ())) (stats : SyncStats) :
    ∃ total, finishSession e paths stats payload = .send next.saveJournal ⟨frameDone,[]⟩
      (.recv next.saveJournal (fun _ => .stop next.saveJournal (.ok total))) := by
  unfold finishSession
  rw [read]
  dsimp only
  rw [if_neg (by decide),done]
  exact ⟨_,rfl⟩

theorem finishSession_keeps {a b : SyncEngine} (keeps : (fetched a b needed).Keeps (· = false))
    (small : (answer b.blobs needed).length < 2^32) (paths : List Bytes) (stats : SyncStats) :
    ∃ files total, finishSession (merged a b) paths stats (answer b.blobs needed) =
      .send ((fetched a b needed).withFiles files).saveJournal ⟨frameDone,[]⟩
        (.recv ((fetched a b needed).withFiles files).saveJournal
          (fun _ => .stop ((fetched a b needed).withFiles files).saveJournal (.ok total))) := by
  obtain ⟨files,done⟩ := materializeAll_keeps keeps paths
  obtain ⟨total,finishes⟩ := finishSession_done (decodeChunks_answer b.blobs needed small) done stats
  exact ⟨files,total,finishes⟩

-- Against a peer that keeps to its script a session runs to its end.
theorem run_script {a b : SyncEngine} (readable : Readable b) (keepsA : a.Keeps (· = false)) (keepsB : b.Keeps (· = false))
    (asking : (merging a b.store.allEntries).needed.keys.mapM hexToDigest = .ok needed)
    (small : ∀ frame ∈ script b theirs needed, frame.payload.length < 2^32) :
    ∃ after stats, (runSyncSession a).run ⟨wire (script b theirs needed),false,4⟩ =
      ⟨after,script a needed theirs,script b theirs needed,.ok stats⟩ := by
  have hello := recvFrame_wire ⟨frameManifest,serializeManifest b⟩
    [⟨frameChunkRequest,serializeHashList theirs⟩,⟨frameChunkData,answer b.blobs needed⟩,⟨frameDone,[]⟩]
    (small _ (by simp [script]))
  have asks := recvFrame_wire ⟨frameChunkRequest,serializeHashList theirs⟩
    [⟨frameChunkData,answer b.blobs needed⟩,⟨frameDone,[]⟩] (small _ (by simp [script]))
  have data : (answer b.blobs needed).length < 2^32 :=
    small ⟨frameChunkData,answer b.blobs needed⟩ (by simp [script])
  have arrived := recvFrame_wire ⟨frameChunkData,answer b.blobs needed⟩ [⟨frameDone,[]⟩] data
  have bye := recvFrame_wire ⟨frameDone,[]⟩ [] (by decide)
  have merges := mergeManifest_listed readable asking
  have answers := answerRequest_listed (merged a b) (merging a b.store.allEntries).paths
    (merging a b.store.allEntries).stats theirs
  obtain ⟨files,total,finishes⟩ := finishSession_keeps (keeps_fetched keepsA keepsB asking) data
    (merging a b.store.allEntries).paths (merging a b.store.allEntries).stats
  refine ⟨((fetched a b needed).withFiles files).saveJournal,total,?_⟩
  rw [← merged_afterMerge] at merges
  simp only [runSyncSession_eq,script,Session.run,expect,hello,merges,asks,answers,arrived,finishes,bye,if_true]
  rfl

-- So two engines with legible entries and the chunks of their files always complete a session.
theorem completes {a b : SyncEngine} (readableA : Readable a) (readableB : Readable b) (keepsA : a.Keeps (· = false))
    (keepsB : b.Keeps (· = false)) :
    ∃ needed theirs, (merging a b.store.allEntries).needed.keys.mapM hexToDigest = .ok needed ∧
      (merging b a.store.allEntries).needed.keys.mapM hexToDigest = .ok theirs ∧
      ((∀ frame ∈ script a needed theirs ++ script b theirs needed, frame.payload.length < 2^32) →
        Complete a b ⟨wire (script b theirs needed),false,4⟩ ⟨wire (script a needed theirs),false,4⟩) := by
  obtain ⟨needed,asking⟩ := asking_exact a b
  obtain ⟨theirs,asked⟩ := asking_exact b a
  refine ⟨needed,theirs,asking,asked,?_⟩
  intro small
  have smallA : ∀ frame ∈ script a needed theirs, frame.payload.length < 2^32 :=
    fun frame member => small frame (List.mem_append_left _ member)
  have smallB : ∀ frame ∈ script b theirs needed, frame.payload.length < 2^32 :=
    fun frame member => small frame (List.mem_append_right _ member)
  obtain ⟨afterA,statsA,runA⟩ := run_script readableB keepsA keepsB asking smallB
  obtain ⟨afterB,statsB,runB⟩ := run_script readableA keepsB keepsA asked smallA
  refine ⟨⟨statsA,by rw [runA]⟩,⟨statsB,by rw [runB]⟩,by rw [runB],by rw [runA],?_,?_⟩
  · rw [runA]
    exact smallA
  · rw [runB]
    exact smallB

end P2PSync.Network
