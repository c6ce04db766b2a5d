import P2PSync.Network

namespace P2PSync.Network
open Text EntryCodec

-- The engine once the chunks of a CHUNK_DATA payload are stored.
def stored (e : SyncEngine) (payload : Bytes) : SyncEngine :=
  e.withBlobs ((decodeChunks payload).1.foldl FileStore.putChunk e.blobs)

def merging (e : SyncEngine) (entries : List FileEntry) : Merging :=
  entries.foldl (mergeEntry e.blobs) ⟨e.store,.empty,[],⟨e.store.allEntries.length,0,0,0,0,0⟩⟩

-- What an engine says in a session in which it needs some chunks and the peer others.
def script (e : SyncEngine) (needed theirs : List Digest) : List Frame :=
  [⟨frameManifest,serializeManifest e⟩,⟨frameChunkRequest,serializeHashList needed⟩,
    ⟨frameChunkData,answer e.blobs theirs⟩,⟨frameDone,[]⟩]

def Outcome.said (frame : Frame) (o : Outcome) : Outcome := ⟨o.engine,frame :: o.sent,o.received,o.result⟩

def Outcome.heard (frame : Frame) (o : Outcome) : Outcome := ⟨o.engine,o.sent,frame :: o.received,o.result⟩

theorem run_send (now : SyncEngine) (frame : Frame) (next : Session) (link : Link) :
    (∃ x, (Session.send now frame next).run link = ⟨now,[],[],.error x⟩) ∨
    ∃ n, (Session.send now frame next).run link = (next.run ⟨link.inbound,link.reset,n⟩).said frame := by
  obtain ⟨inbound,reset,takes⟩ := link
  cases takes with
  | zero => exact .inl ⟨_,rfl⟩
  | succ n => exact .inr ⟨n,rfl⟩

theorem run_recv (now : SyncEngine) (next : Option Frame → Session) (link : Link)
    (arrived : recvFrame link.inbound = some (frame,rest)) : (Session.recv now next).run link =
      ((next (some frame)).run ⟨rest,link.reset,link.takes⟩).heard frame := by
  rw [Session.run,arrived]
  rfl

theorem run_recv_nothing (now : SyncEngine) (next : Option Frame → Session) (link : Link)
    (nothing : recvFrame link.inbound = none) : (Session.recv now next).run link =
      if link.reset then ⟨now,[],[],.error (.runtimeError (ascii "recv() failed"))⟩
      else (next none).run ⟨[],link.reset,link.takes⟩ := by
  rw [Session.run,nothing]

theorem run_recv_expect (now : SyncEngine) (type : UInt8) (what : Bytes) (next : Bytes → Session) (link : Link) :
    (∃ x received, (expect type what now next).run link = ⟨now,[],received,.error x⟩ ∧ ∀ frame ∈ received, frame.type ≠ type) ∨
    ∃ payload rest, recvFrame link.inbound = some (⟨type,payload⟩,rest) ∧ (expect type what now next).run link =
      ((next payload).run ⟨rest,link.reset,link.takes⟩).heard ⟨type,payload⟩ := by
  cases arrived : recvFrame link.inbound with
  | none =>
    rw [expect,run_recv_nothing now _ link arrived]
    left
    have empty : ∀ frame ∈ ([] : List Frame), frame.type ≠ type := fun frame member => absurd member List.not_mem_nil
    cases link.reset with
    | true => exact ⟨_,[],rfl,empty⟩
    | false => exact ⟨_,[],rfl,empty⟩
  | some pair =>
    obtain ⟨⟨kind,payload⟩,rest⟩ := pair
    rw [expect,run_recv now _ link arrived]
    by_cases same : kind = type
    · subst same
      refine .inr ⟨payload,rest,rfl,?_⟩
      dsimp only
      rw [if_pos rfl]
    · refine .inl ⟨.runtimeError what,[⟨kind,payload⟩],?_,?_⟩
      · dsimp only
        rw [if_neg same]
        rfl
      · intro frame member
        cases List.mem_singleton.mp member
        exact same

theorem run_send_congr {now : SyncEngine} {frame : Frame} {next other : Session} {link : Link}
    (agree : ∀ n, link.takes = n+1 → next.run ⟨link.inbound,link.reset,n⟩ = other.run ⟨link.inbound,link.reset,n⟩) :
    (Session.send now frame next).run link = (Session.send now frame other).run link := by
  obtain ⟨inbound,reset,takes⟩ := link
  cases takes with
  | zero => rfl
  | succ n =>
    change (next.run ⟨inbound,reset,n⟩).said frame = (other.run ⟨inbound,reset,n⟩).said frame
    rw [agree n rfl]

theorem run_takes (s : Session) (link : Link) : (s.run link).sent.length ≤ link.takes := by
  induction s generalizing link with
  | stop e result => exact Nat.zero_le _
  | send e frame next ih =>
    obtain ⟨inbound,reset,takes⟩ := link
    cases takes with
    | zero => exact Nat.zero_le _
    | succ n => exact Nat.succ_le_succ (ih ⟨inbound,reset,n⟩)
  | recv e next ih =>
    cases arrived : recvFrame link.inbound with
    | some pair =>
      rw [run_recv e next link arrived]
      exact ih _ ⟨pair.2,link.reset,link.takes⟩
    | none =>
      rw [run_recv_nothing e next link arrived]
      split
      · exact Nat.zero_le _
      · exact ih _ ⟨[],link.reset,link.takes⟩

-- Only what comes after a payload that really arrives matters.
theorem run_expect_congr {now : SyncEngine} {type : UInt8} {what : Bytes} {next other : Bytes → Session} {link : Link}
    (agree : ∀ payload rest, recvFrame link.inbound = some (⟨type,payload⟩,rest) →
      (next payload).run ⟨rest,link.reset,link.takes⟩ = (other payload).run ⟨rest,link.reset,link.takes⟩) :
    (expect type what now next).run link = (expect type what now other).run link := by
  cases arrived : recvFrame link.inbound with
  | none =>
    unfold expect
    rw [run_recv_nothing now _ link arrived,run_recv_nothing now _ link arrived]
  | some pair =>
    obtain ⟨⟨kind,payload⟩,rest⟩ := pair
    unfold expect
    rw [run_recv now _ link arrived,run_recv now _ link arrived]
    dsimp only
    by_cases same : kind = type
    · subst same
      rw [if_pos rfl,if_pos rfl,agree payload rest arrived]
    · rw [if_neg same,if_neg same]

-- The last step: what the peer still sends does not matter.
theorem run_done (now : SyncEngine) (stats : SyncStats) (link : Link) :
    (∃ x sent, (Session.send now ⟨frameDone,[]⟩ (.recv now (fun _ => .stop now (.ok stats)))).run link = ⟨now,sent,[],.error x⟩) ∨
    ∃ received, (Session.send now ⟨frameDone,[]⟩ (.recv now (fun _ => .stop now (.ok stats)))).run link =
      ⟨now,[⟨frameDone,[]⟩],received,.ok stats⟩ := by
  rcases run_send now ⟨frameDone,[]⟩ (.recv now (fun _ => .stop now (.ok stats))) link with ⟨x,failed⟩ | ⟨n,sends⟩
  · exact .inl ⟨x,[],failed⟩
  · rw [sends]
    cases arrived : recvFrame link.inbound with
    | some pair =>
      rw [run_recv now _ ⟨link.inbound,link.reset,n⟩ arrived]
      exact .inr ⟨[pair.1],rfl⟩
    | none =>
      rw [run_recv_nothing now _ ⟨link.inbound,link.reset,n⟩ arrived]
      cases link.reset with
      | true => exact .inl ⟨_,_,rfl⟩
      | false => exact .inr ⟨[],rfl⟩

def tally (stats : SyncStats) (payload : Bytes) : SyncStats :=
  { stats with chunksFetched := stats.chunksFetched + (decodeChunks payload).1.length }

-- From the CHUNK_DATA payload on: nothing is saved unless every path materialized.
inductive Finished (now : SyncEngine) (paths : List Bytes) (stats : SyncStats) (payload : Bytes) : Outcome → Prop where
  | thrown : Finished now paths stats payload ⟨(stored now payload).withFiles files,[],[],.error x⟩
  | unsent (settled : materializeAll (stored now payload) paths = (next,.ok ())) :
      Finished now paths stats payload ⟨next.saveJournal,sent,[],.error x⟩
  | returned (settled : materializeAll (stored now payload) paths = (next,.ok ())) (whole : (decodeChunks payload).2 = false) :
      Finished now paths stats payload ⟨next.saveJournal,[⟨frameDone,[]⟩],received,.ok (tally stats payload)⟩

theorem run_finish (now : SyncEngine) (paths : List Bytes) (stats : SyncStats) (payload : Bytes) (link : Link) :
    Finished now paths stats payload ((finishSession now paths stats payload).run link) := by
  obtain ⟨files,kept⟩ := materializeAll_files (stored now payload) paths
  unfold finishSession
  dsimp only
  split
  · change Finished now paths stats payload ⟨(stored now payload).withFiles now.disk.files,[],[],.error .pastPayload⟩
    exact .thrown
  · rename_i whole
    split
    · rename_i next x failed
      have same : next = (stored now payload).withFiles files := by
        rw [← kept]
        exact (congrArg Prod.fst failed).symm
      rw [same]
      exact .thrown
    · rename_i next _ settled
      rcases run_done next.saveJournal (tally stats payload) link with ⟨x,sent,failed⟩ | ⟨received,done⟩
      · exact failed ▸ .unsent settled
      · exact done ▸ .returned settled (by simpa using whole)

theorem settled_files {e : SyncEngine} (settled : materializeAll e paths = (next,.ok ())) : ∃ files, next = e.withFiles files := by
  obtain ⟨files,kept⟩ := materializeAll_files e paths
  rw [settled] at kept
  exact ⟨files,kept⟩

theorem Finished.blobs (finished : Finished now paths stats payload o) :
    o.engine.blobs = (decodeChunks payload).1.foldl FileStore.putChunk now.blobs := by
  cases finished with
  | thrown => rfl
  | unsent settled =>
    obtain ⟨files,rfl⟩ := settled_files settled
    rfl
  | returned settled _ =>
    obtain ⟨files,rfl⟩ := settled_files settled
    rfl

theorem Finished.store (finished : Finished now paths stats payload o) : o.engine.store = now.store := by
  cases finished with
  | thrown => rfl
  | unsent settled =>
    obtain ⟨files,rfl⟩ := settled_files settled
    rfl
  | returned settled _ =>
    obtain ⟨files,rfl⟩ := settled_files settled
    rfl

-- The engine when the entries are merged.
def afterMerge (e : SyncEngine) (entries : List FileEntry) : SyncEngine := e.withStore (merging e entries).store

section
variable (finish : SyncEngine → List Bytes → SyncStats → Bytes → Session)

-- From the peer's CHUNK_REQUEST payload on.
inductive Answered (now : SyncEngine) (paths : List Bytes) (stats : SyncStats) (request inbound : Bytes) : Outcome → Prop where
  | thrown : Answered now paths stats request inbound ⟨now,sent,received,.error x⟩
  | fetched (asked : parseHashList request = .ok theirs)
      (arrived : recvFrame inbound = some (⟨frameChunkData,data⟩,last)) (link : Link) :
      Answered now paths stats request inbound
        ((((finish now paths stats data).run link).heard ⟨frameChunkData,data⟩).said
          ⟨frameChunkData,answer now.blobs theirs⟩)

theorem run_answer (now : SyncEngine) (paths : List Bytes) (stats : SyncStats) (request : Bytes) (link : Link) :
    Answered finish now paths stats request link.inbound ((answerRequestWith finish now paths stats request).run link) := by
  unfold answerRequestWith
  cases asked : parseHashList request with
  | error x => exact .thrown
  | ok theirs =>
    dsimp only
    rcases run_send now ⟨frameChunkData,answer now.blobs theirs⟩ (expect frameChunkData
      (ascii "expected CHUNK_DATA frame from peer") now (finish now paths stats)) link with ⟨x,failed⟩ | ⟨n,sends⟩
    · rw [failed]
      exact .thrown
    · rw [sends]
      rcases run_recv_expect now frameChunkData (ascii "expected CHUNK_DATA frame from peer") (finish now paths stats)
        ⟨link.inbound,link.reset,n⟩ with ⟨x,received,failed,_⟩ | ⟨data,last,arrived,heard⟩
      · rw [failed]
        exact .thrown
      · rw [heard]
        exact .fetched asked arrived _

theorem mergeManifestWith_listed {e : SyncEngine} (listed : parseManifest manifest = .ok entries)
    (asking : (merging e entries).needed.keys.mapM hexToDigest = .ok needed) :
    mergeManifestWith finish e ⟨e.store.allEntries.length,0,0,0,0,0⟩ manifest =
      .send (afterMerge e entries) ⟨frameChunkRequest,serializeHashList needed⟩
        (expect frameChunkRequest (ascii "expected CHUNK_REQUEST frame from peer") (afterMerge e entries)
          (answerRequestWith finish (afterMerge e entries) (merging e entries).paths (merging e entries).stats)) := by
  unfold mergeManifestWith
  rw [listed]
  dsimp only
  rw [← merging,asking,afterMerge]

theorem mergeManifestWith_unspelled {e : SyncEngine} (listed : parseManifest manifest = .ok entries)
    (failed : (merging e entries).needed.keys.mapM hexToDigest = .error x) :
    mergeManifestWith finish e ⟨e.store.allEntries.length,0,0,0,0,0⟩ manifest = .stop (afterMerge e entries) (.error x) := by
  unfold mergeManifestWith
  rw [listed]
  dsimp only
  rw [← merging,failed,afterMerge]

-- From the peer's MANIFEST payload on.
inductive Listed (e : SyncEngine) (manifest : Bytes) (inbound : Bytes) : Outcome → Prop where
  | unread (unread : ∀ entries, parseManifest manifest ≠ .ok entries) : Listed e manifest inbound ⟨e,[],[],.error x⟩
  | merged (listed : parseManifest manifest = .ok entries) :
      Listed e manifest inbound ⟨afterMerge e entries,sent,received,.error x⟩
  | answered (listed : parseManifest manifest = .ok entries)
      (asking : (merging e entries).needed.keys.mapM hexToDigest = .ok needed)
      (asks : recvFrame inbound = some (⟨frameChunkRequest,request⟩,second))
      (answered : Answered finish (afterMerge e entries) (merging e entries).paths (merging e entries).stats request second o) :
      Listed e manifest inbound ((o.heard ⟨frameChunkRequest,request⟩).said ⟨frameChunkRequest,serializeHashList needed⟩)

theorem run_merge (e : SyncEngine) (manifest : Bytes) (link : Link) : Listed finish e manifest link.inbound
    ((mergeManifestWith finish e ⟨e.store.allEntries.length,0,0,0,0,0⟩ manifest).run link) := by
  cases listed : parseManifest manifest with
  | error x =>
    unfold mergeManifestWith
    rw [listed]
    refine .unread (fun entries => ?_)
    rw [listed]
    exact nofun
  | ok entries =>
    cases asking : (merging e entries).needed.keys.mapM hexToDigest with
    | error x =>
      rw [mergeManifestWith_unspelled finish listed asking]
      exact .merged listed
    | ok needed =>
      rw [mergeManifestWith_listed finish listed asking]
      rcases run_send (afterMerge e entries) ⟨frameChunkRequest,serializeHashList needed⟩ (expect frameChunkRequest
        (ascii "expected CHUNK_REQUEST frame from peer") (afterMerge e entries)
        (answerRequestWith finish (afterMerge e entries) (merging e entries).paths (merging e entries).stats)) link
        with ⟨x,failed⟩ | ⟨n,sends⟩
      · rw [failed]
        exact .merged listed
      · rw [sends]
        rcases run_recv_expect (afterMerge e entries) frameChunkRequest (ascii "expected CHUNK_REQUEST frame from peer")
          (answerRequestWith finish (afterMerge e entries) (merging e entries).paths (merging e entries).stats)
          ⟨link.inbound,link.reset,n⟩ with ⟨x,received,failed,_⟩ | ⟨request,second,asks,heard⟩
        · rw [failed]
          exact .merged listed
        · rw [heard]
          exact .answered listed asking asks (run_answer finish _ _ _ request ⟨second,link.reset,n⟩)

-- Everything a session can come to, whatever its last steps do, with how far it got.
inductive EndedWith (e : SyncEngine) (inbound : Bytes) : Outcome → Prop where
  | unread (unread : ∀ frame ∈ received, frame.type = frameManifest → ∀ entries, parseManifest frame.payload ≠ .ok entries) :
      EndedWith e inbound ⟨e,sent,received,.error x⟩
  | merged (listed : parseManifest manifest = .ok entries) :
      EndedWith e inbound ⟨afterMerge e entries,sent,⟨frameManifest,manifest⟩ :: received,.error x⟩
  | fetched (hello : recvFrame inbound = some (⟨frameManifest,manifest⟩,first))
      (asks : recvFrame first = some (⟨frameChunkRequest,request⟩,second))
      (arrived : recvFrame second = some (⟨frameChunkData,data⟩,last))
      (listed : parseManifest manifest = .ok entries)
      (asking : (merging e entries).needed.keys.mapM hexToDigest = .ok needed)
      (asked : parseHashList request = .ok theirs) (link : Link)
      (finished : (finish (afterMerge e entries) (merging e entries).paths (merging e entries).stats data).run link = o) :
      EndedWith e inbound ⟨o.engine,(script e needed theirs).take 3 ++ o.sent,
        [⟨frameManifest,manifest⟩,⟨frameChunkRequest,request⟩,⟨frameChunkData,data⟩] ++ o.received,o.result⟩

theorem run_endedWith (e : SyncEngine) (link : Link) :
    EndedWith finish e link.inbound ((runSyncSessionWith finish e).run link) := by
  unfold runSyncSessionWith
  rcases run_send e ⟨frameManifest,serializeManifest e⟩ (expect frameManifest (ascii "expected MANIFEST frame from peer") e
    (mergeManifestWith finish e ⟨e.store.allEntries.length,0,0,0,0,0⟩)) link with ⟨x,failed⟩ | ⟨n,sends⟩
  · rw [failed]
    exact .unread nofun
  · rw [sends]
    rcases run_recv_expect e frameManifest (ascii "expected MANIFEST frame from peer")
      (mergeManifestWith finish e ⟨e.store.allEntries.length,0,0,0,0,0⟩) ⟨link.inbound,link.reset,n⟩
      with ⟨x,received,failed,other⟩ | ⟨manifest,first,hello,heard⟩
    · rw [failed]
      exact .unread (fun frame member same => absurd same (other frame member))
    · rw [heard]
      have later := run_merge finish e manifest ⟨first,link.reset,n⟩
      generalize (mergeManifestWith finish e ⟨e.store.allEntries.length,0,0,0,0,0⟩ manifest).run ⟨first,link.reset,n⟩ = o
        at later ⊢
      cases later with
      | unread unread =>
        refine .unread ?_
        intro frame member _
        cases List.mem_singleton.mp member
        exact unread
      | merged listed => exact .merged listed
      | answered listed asking asks answered =>
        cases answered with
        | thrown => exact .merged listed
        | fetched asked arrived link => exact .fetched hello asks arrived listed asking asked link rfl

-- Over this link a session comes to the peer's CHUNK_DATA payload.
structure Link.Reaches (link : Link) (entries : List FileEntry) (data : Bytes) : Prop where
  takes : 3 ≤ link.takes
  frames : ∃ manifest request first second last, recvFrame link.inbound = some (⟨frameManifest,manifest⟩,first) ∧
    recvFrame first = some (⟨frameChunkRequest,request⟩,second) ∧ recvFrame second = some (⟨frameChunkData,data⟩,last) ∧
    parseManifest manifest = .ok entries ∧ ∃ theirs, parseHashList request = .ok theirs

variable {finish} in
-- A session depends on its last steps only where it comes to them.
theorem run_session_congr {other : SyncEngine → List Bytes → SyncStats → Bytes → Session} {e : SyncEngine} {link : Link}
    (agree : ∀ entries data, link.Reaches entries data →
      finish (afterMerge e entries) (merging e entries).paths (merging e entries).stats data =
        other (afterMerge e entries) (merging e entries).paths (merging e entries).stats data) :
    (runSyncSessionWith finish e).run link = (runSyncSessionWith other e).run link := by
  refine run_send_congr (fun n first_sent => run_expect_congr (fun manifest first hello => ?_))
  cases listed : parseManifest manifest with
  | error x =>
    unfold mergeManifestWith
    rw [listed]
  | ok entries =>
    cases asking : (merging e entries).needed.keys.mapM hexToDigest with
    | error x => rw [mergeManifestWith_unspelled finish listed asking,mergeManifestWith_unspelled other listed asking]
    | ok needed =>
      rw [mergeManifestWith_listed finish listed asking,mergeManifestWith_listed other listed asking]
      refine run_send_congr (fun m second_sent => run_expect_congr (fun request second asks => ?_))
      unfold answerRequestWith
      cases asked : parseHashList request with
      | error x => rfl
      | ok theirs =>
        refine run_send_congr (fun k third_sent => run_expect_congr (fun data last arrived => ?_))
        dsimp only at second_sent third_sent
        rw [agree entries data ⟨by omega,manifest,request,first,second,last,hello,asks,arrived,listed,theirs,asked⟩]

end

theorem mergeManifest_listed {e : SyncEngine} (listed : parseManifest manifest = .ok entries)
    (asking : (merging e entries).needed.keys.mapM hexToDigest = .ok needed) :
    mergeManifest e ⟨e.store.allEntries.length,0,0,0,0,0⟩ manifest =
      .send (afterMerge e entries) ⟨frameChunkRequest,serializeHashList needed⟩
        (expect frameChunkRequest (ascii "expected CHUNK_REQUEST frame from peer") (afterMerge e entries)
          (answerRequest (afterMerge e entries) (merging e entries).paths (merging e entries).stats)) :=
  mergeManifestWith_listed finishSession listed asking

theorem mergeManifest_unspelled {e : SyncEngine} (listed : parseManifest manifest = .ok entries)
    (failed : (merging e entries).needed.keys.mapM hexToDigest = .error x) :
    mergeManifest e ⟨e.store.allEntries.length,0,0,0,0,0⟩ manifest = .stop (afterMerge e entries) (.error x) :=
  mergeManifestWith_unspelled finishSession listed failed

inductive Ended (e : SyncEngine) (inbound : Bytes) : Outcome → Prop where
  | unread (unread : ∀ frame ∈ received, frame.type = frameManifest → ∀ entries, parseManifest frame.payload ≠ .ok entries) :
      Ended e inbound ⟨e,sent,received,.error x⟩
  | merged (listed : parseManifest manifest = .ok entries) :
      Ended e inbound ⟨afterMerge e entries,sent,⟨frameManifest,manifest⟩ :: received,.error x⟩
  | fetched (hello : recvFrame inbound = some (⟨frameManifest,manifest⟩,first))
      (asks : recvFrame first = some (⟨frameChunkRequest,request⟩,second))
      (arrived : recvFrame second = some (⟨frameChunkData,data⟩,last))
      (listed : parseManifest manifest = .ok entries)
      (asking : (merging e entries).needed.keys.mapM hexToDigest = .ok needed)
      (asked : parseHashList request = .ok theirs)
      (finished : Finished (afterMerge e entries) (merging e entries).paths (merging e entries).stats data o) :
      Ended e inbound ⟨o.engine,(script e needed theirs).take 3 ++ o.sent,
        [⟨frameManifest,manifest⟩,⟨frameChunkRequest,request⟩,⟨frameChunkData,data⟩] ++ o.received,o.result⟩

theorem run_ended (e : SyncEngine) (link : Link) : Ended e link.inbound ((runSyncSession e).run link) := by
  have ended : EndedWith finishSession e link.inbound ((runSyncSession e).run link) := run_endedWith finishSession e link
  generalize (runSyncSession e).run link = o at ended ⊢
  cases ended with
  | unread unread => exact .unread unread
  | merged listed => exact .merged listed
  | fetched hello asks arrived listed asking asked link finished =>
    exact .fetched hello asks arrived listed asking asked (finished ▸ run_finish _ _ _ _ link)

-- Everything that went over the line in a session that returned.
structure Returned (e : SyncEngine) (inbound : Bytes) (o : Outcome) (manifest request data : Bytes) (entries : List FileEntry)
    (needed theirs : List Digest) : Prop where
  heard : ∃ first second last, recvFrame inbound = some (⟨frameManifest,manifest⟩,first) ∧
    recvFrame first = some (⟨frameChunkRequest,request⟩,second) ∧ recvFrame second = some (⟨frameChunkData,data⟩,last)
  received : o.received[2]? = some ⟨frameChunkData,data⟩
  listed : parseManifest manifest = .ok entries
  asking : (merging e entries).needed.keys.mapM hexToDigest = .ok needed
  asked : parseHashList request = .ok theirs
  said : o.sent = script e needed theirs
  settled : ∃ next, materializeAll (stored (afterMerge e entries) data) (merging e entries).paths = (next,.ok ()) ∧
    o.engine = next.saveJournal
  whole : (decodeChunks data).2 = false
  counted : o.result = .ok (tally (merging e entries).stats data)

theorem run_returned (ok : ((runSyncSession e).run link).result = .ok stats) :
    ∃ manifest request data entries needed theirs,
      Returned e link.inbound ((runSyncSession e).run link) manifest request data entries needed theirs := by
  have ended := run_ended e link
  generalize (runSyncSession e).run link = o at ended ok ⊢
  cases ended with
  | unread _ => cases ok
  | merged _ => cases ok
  | fetched hello asks arrived listed asking asked finished =>
    cases finished with
    | thrown => cases ok
    | unsent _ => cases ok
    | returned settled whole =>
      exact ⟨_,_,_,_,_,_,⟨_,_,_,hello,asks,arrived⟩,rfl,listed,asking,asked,rfl,⟨_,settled,rfl⟩,whole,rfl⟩

end P2PSync.Network
