import P2PSync.Transfer

-- What a session says and counts, whatever the peer sends.
namespace P2PSync.Conduct
open Network EntryCodec Transfer

-- The frames sent from the CHUNK_DATA payload on, and from the CHUNK_REQUEST payload on.
theorem finish_sent (now : SyncEngine) (paths : List Bytes) (stats : SyncStats) (payload : Bytes) (link : Link) :
    ((finishSession now paths stats payload).run link).sent <+: [⟨frameDone,[]⟩] := by
  unfold finishSession
  dsimp only
  split
  · exact List.nil_prefix
  · split
    · exact List.nil_prefix
    · rename_i next _ _
      rcases run_send next.saveJournal ⟨frameDone,[]⟩ (.recv next.saveJournal (fun _ => .stop next.saveJournal (.ok _))) link
        with ⟨x,failed⟩ | ⟨n,sends⟩
      · rw [failed]
        exact List.nil_prefix
      · rw [sends]
        cases arrived : recvFrame link.inbound with
        | some pair =>
          rw [run_recv _ _ ⟨link.inbound,link.reset,n⟩ arrived]
          exact List.prefix_rfl
        | none =>
          rw [run_recv_nothing _ _ ⟨link.inbound,link.reset,n⟩ arrived]
          cases link.reset with
          | true => exact List.prefix_rfl
          | false => exact List.prefix_rfl

inductive Answers (blobs : FileStore) (request : Bytes) : List Frame → Prop where
  | silent : Answers blobs request []
  | data (asked : parseHashList request = .ok theirs) (closing : later <+: [⟨frameDone,[]⟩]) :
      Answers blobs request (⟨frameChunkData,answer blobs theirs⟩ :: later)

theorem answer_sent (now : SyncEngine) (paths : List Bytes) (stats : SyncStats) (request : Bytes) (link : Link) :
    Answers now.blobs request ((answerRequest now paths stats request).run link).sent := by
  unfold answerRequest answerRequestWith
  cases asked : parseHashList request with
  | error x => exact .silent
  | ok theirs =>
    dsimp only
    rcases run_send now ⟨frameChunkData,answer now.blobs theirs⟩ (expect frameChunkData
      (ascii "expected CHUNK_DATA frame from peer") now (finishSession now paths stats)) link with ⟨x,failed⟩ | ⟨n,sends⟩
    · rw [failed]
      exact .silent
    · rw [sends]
      rcases run_recv_expect now frameChunkData (ascii "expected CHUNK_DATA frame from peer") (finishSession now paths stats)
        ⟨link.inbound,link.reset,n⟩ with ⟨x,received,failed,_⟩ | ⟨data,last,arrived,heard⟩
      · rw [failed]
        exact .data asked List.nil_prefix
      · rw [heard]
        exact .data asked (finish_sent now paths stats data _)

-- The same with the frames received, from the MANIFEST payload on and for the whole.
inductive Merges (e : SyncEngine) (manifest : Bytes) : List Frame → List Frame → Prop where
  | silent : Merges e manifest [] received
  | asks (listed : parseManifest manifest = .ok entries) (asking : (merging e entries).needed.keys.mapM hexToDigest = .ok needed) :
      Merges e manifest [⟨frameChunkRequest,serializeHashList needed⟩] received
  | answers (listed : parseManifest manifest = .ok entries) (asking : (merging e entries).needed.keys.mapM hexToDigest = .ok needed)
      (answers : Answers e.blobs request later) :
      Merges e manifest (⟨frameChunkRequest,serializeHashList needed⟩ :: later) (⟨frameChunkRequest,request⟩ :: received)

theorem merge_sent (e : SyncEngine) (manifest : Bytes) (link : Link) :
    Merges e manifest ((mergeManifest e ⟨e.store.allEntries.length,0,0,0,0,0⟩ manifest).run link).sent
      ((mergeManifest e ⟨e.store.allEntries.length,0,0,0,0,0⟩ manifest).run link).received := by
  cases listed : parseManifest manifest with
  | error x =>
    unfold mergeManifest mergeManifestWith
    rw [listed]
    exact .silent
  | ok entries =>
    obtain ⟨needed,asking⟩ := asking_listed e entries
    rw [mergeManifest_listed listed asking]
    rcases run_send (afterMerge e entries) ⟨frameChunkRequest,serializeHashList needed⟩ (expect frameChunkRequest
      (ascii "expected CHUNK_REQUEST frame from peer") (afterMerge e entries)
      (answerRequest (afterMerge e entries) (merging e entries).paths (merging e entries).stats)) link
      with ⟨x,failed⟩ | ⟨n,sends⟩
    · rw [failed]
      exact .silent
    · rw [sends]
      rcases run_recv_expect (afterMerge e entries) frameChunkRequest (ascii "expected CHUNK_REQUEST frame from peer")
        (answerRequest (afterMerge e entries) (merging e entries).paths (merging e entries).stats)
        ⟨link.inbound,link.reset,n⟩ with ⟨x,received,failed,_⟩ | ⟨request,second,asks,heard⟩
      · rw [failed]
        exact .asks listed asking
      · rw [heard]
        -- The merge has not touched the blob store that answers.
        have answers : Answers e.blobs request _ := answer_sent (afterMerge e entries) (merging e entries).paths
          (merging e entries).stats request ⟨second,link.reset,n⟩
        exact .answers listed asking answers

inductive Conducts (e : SyncEngine) : List Frame → List Frame → Prop where
  | silent : Conducts e [] received
  | greets : Conducts e [⟨frameManifest,serializeManifest e⟩] received
  | merges (merges : Merges e manifest later received) :
      Conducts e (⟨frameManifest,serializeManifest e⟩ :: later) (⟨frameManifest,manifest⟩ :: received)

theorem session_sent (e : SyncEngine) (link : Link) :
    Conducts e ((runSyncSession e).run link).sent ((runSyncSession e).run link).received := by
  rw [runSyncSession_eq]
  rcases run_send e ⟨frameManifest,serializeManifest e⟩ (expect frameManifest (ascii "expected MANIFEST frame from peer") e
    (mergeManifest e ⟨e.store.allEntries.length,0,0,0,0,0⟩)) link with ⟨x,failed⟩ | ⟨n,sends⟩
  · rw [failed]
    exact .silent
  · rw [sends]
    rcases run_recv_expect e frameManifest (ascii "expected MANIFEST frame from peer")
      (mergeManifest e ⟨e.store.allEntries.length,0,0,0,0,0⟩) ⟨link.inbound,link.reset,n⟩
      with ⟨x,received,failed,_⟩ | ⟨manifest,first,hello,heard⟩
    · rw [failed]
      exact .greets
    · rw [heard]
      exact .merges (merge_sent e manifest ⟨first,link.reset,n⟩)

-- What is asked for, whatever was listed.
theorem mem_asked {e : SyncEngine} {entries : List FileEntry} (asking : (merging e entries).needed.keys.mapM hexToDigest = .ok needed) :
    needed.Nodup ∧ ∀ hash, hash ∈ needed ↔ (∃ re ∈ taken e.store entries, hash ∈ re.chunkHashes) ∧ e.blobs.hasChunk hash = false := by
  have spelled : (merging e entries).needed.keys = needed.map Sha256.toHex := by
    apply spelled_exact _ asking
    exact spelled_foldl e.blobs entries _ nofun
  have keys := (merging e entries).needed.keys_nodup
  rw [spelled] at keys
  refine ⟨keys.of_map _,?_⟩
  intro hash
  have listed : hash ∈ needed ↔ Sha256.toHex hash ∈ (merging e entries).needed.keys := by
    rw [spelled]
    exact (List.mem_map_of_injective (fun _ _ same => toHex_injective same)).symm
  rw [listed,merging,mem_needed]
  constructor
  · intro collected
    rcases collected with never | ⟨re,member,other,inside,missing,same⟩
    · cases never
    · cases toHex_injective same
      exact ⟨⟨re,member,inside⟩,missing⟩
  · intro absent
    obtain ⟨⟨re,member,inside⟩,missing⟩ := absent
    exact .inr ⟨re,member,hash,inside,missing,rfl⟩

-- Every entry of the peer is counted once.
def counted (s : SyncStats) : ℕ := s.entriesAppliedRemote + s.entriesKeptLocal + s.entriesNoChange + s.conflictsForked

theorem counted_mergeEntry (blobs : FileStore) (m : Merging) (re : FileEntry) :
    counted (mergeEntry blobs m re).stats = counted m.stats + 1 ∧ (mergeEntry blobs m re).stats.entriesSent = m.stats.entriesSent := by
  unfold mergeEntry counted
  dsimp only
  split
  · exact ⟨by dsimp only; omega,rfl⟩
  · split
    · exact ⟨by dsimp only; omega,rfl⟩
    · exact ⟨by dsimp only; omega,rfl⟩
  · exact ⟨by dsimp only; omega,rfl⟩
  · exact ⟨by dsimp only; omega,rfl⟩

theorem counted_foldl (blobs : FileStore) (entries : List FileEntry) (m : Merging) :
    counted (entries.foldl (mergeEntry blobs) m).stats = counted m.stats + entries.length ∧
      (entries.foldl (mergeEntry blobs) m).stats.entriesSent = m.stats.entriesSent := by
  induction entries generalizing m with
  | nil => exact ⟨rfl,rfl⟩
  | cons re rest ih =>
    obtain ⟨one,same⟩ := counted_mergeEntry blobs m re
    obtain ⟨more,still⟩ := ih (mergeEntry blobs m re)
    rw [List.foldl_cons,List.length_cons,more,still,one,same]
    exact ⟨by omega,rfl⟩

theorem counted_merging (e : SyncEngine) (entries : List FileEntry) :
    counted (merging e entries).stats = entries.length ∧ (merging e entries).stats.entriesSent = e.store.allEntries.length ∧
      (merging e entries).stats.chunksFetched = 0 := by
  obtain ⟨each,sent⟩ := counted_foldl e.blobs entries ⟨e.store,.empty,[],⟨e.store.allEntries.length,0,0,0,0,0⟩⟩
  refine ⟨?_,sent,chunksFetched_foldl e.blobs entries _⟩
  rw [merging,each]
  exact Nat.zero_add _

-- What stats stand for once a session has returned.
structure Tallied (e : SyncEngine) (o : Outcome) (stats : SyncStats) (manifest data : Bytes) (entries : List FileEntry) : Prop where
  heard : o.received[0]? = some ⟨frameManifest,manifest⟩
  listed : parseManifest manifest = .ok entries
  fetched : o.received[2]? = some ⟨frameChunkData,data⟩
  sent : stats.entriesSent = e.store.allEntries.length
  once : counted stats = entries.length
  chunks : stats.chunksFetched = (decodeChunks data).1.length

theorem session_tallied (ok : ((runSyncSession e).run link).result = .ok stats) : ((runSyncSession e).run link).sent.length = 4 ∧
    ∃ manifest data entries, Tallied e ((runSyncSession e).run link) stats manifest data entries := by
  have ended := run_ended e link
  generalize (runSyncSession e).run link = o at ended ok ⊢
  cases ended with
  | unread _ => cases ok
  | merged _ => cases ok
  | fetched _ _ _ listed _ _ finished =>
    cases finished with
    | thrown => cases ok
    | unsent _ => cases ok
    | returned _ _ =>
      obtain ⟨once,sent,unfetched⟩ := counted_merging e _
      cases ok
      refine ⟨rfl,_,_,_,rfl,listed,rfl,sent,once,?_⟩
      rw [tally,unfetched]
      exact Nat.zero_add _

-- How far a session got shows in what it sent, and what it sent follows from
-- what it heard.
structure Conducted (e : SyncEngine) (o : Outcome) (needed theirs : List Digest) : Prop where
  scripted : o.sent <+: script e needed theirs
  asks : 2 ≤ o.sent.length → ∃ manifest entries, o.received[0]? = some ⟨frameManifest,manifest⟩ ∧
    parseManifest manifest = .ok entries ∧ needed.Nodup ∧
    ∀ hash, hash ∈ needed ↔ (∃ re ∈ taken e.store entries, hash ∈ re.chunkHashes) ∧ e.blobs.hasChunk hash = false
  answers : 3 ≤ o.sent.length → ∃ request, o.received[1]? = some ⟨frameChunkRequest,request⟩ ∧
    parseHashList request = .ok theirs

theorem Conducts.conducted (conducts : Conducts e o.sent o.received) : ∃ needed theirs, Conducted e o needed theirs := by
  obtain ⟨engine,sent,received,result⟩ := o
  dsimp only at conducts
  have silent : ([] : List Frame) <+: script e [] [] := List.nil_prefix
  have greets : [⟨frameManifest,serializeManifest e⟩] <+: script e [] [] := ⟨_,rfl⟩
  cases conducts with
  | silent => exact ⟨[],[],silent,by simp,by simp⟩
  | greets => exact ⟨[],[],greets,by simp,by simp⟩
  | @merges manifest later received merges =>
    cases merges with
    | silent => exact ⟨[],[],greets,by simp,by simp⟩
    | @asks entries needed _ listed asking =>
      refine ⟨needed,[],⟨_,rfl⟩,?_,by simp⟩
      exact fun _ => ⟨manifest,entries,rfl,listed,mem_asked asking⟩
    | @answers entries needed request later received listed asking answers =>
      cases answers with
      | silent =>
        refine ⟨needed,[],⟨_,rfl⟩,?_,by simp⟩
        exact fun _ => ⟨manifest,entries,rfl,listed,mem_asked asking⟩
      | @data theirs later asked closing =>
        refine ⟨needed,theirs,?_,?_,?_⟩
        · simpa [script] using closing
        · exact fun _ => ⟨manifest,entries,rfl,listed,mem_asked asking⟩
        · exact fun _ => ⟨request,rfl,asked⟩

theorem session_conduct (e : SyncEngine) (link : Link) : ∃ needed theirs,
    Conducted e ((runSyncSession e).run link) needed theirs ∧
    ∀ stats, ((runSyncSession e).run link).result = .ok stats →
      ((runSyncSession e).run link).sent = script e needed theirs ∧
      ∃ manifest data entries, Tallied e ((runSyncSession e).run link) stats manifest data entries := by
  obtain ⟨needed,theirs,conducted⟩ := (session_sent e link).conducted
  refine ⟨needed,theirs,conducted,?_⟩
  intro stats ok
  obtain ⟨four,tallied⟩ := session_tallied ok
  exact ⟨conducted.scripted.eq_of_length four,tallied⟩

end P2PSync.Conduct
