import P2PSync.Lib.Dialogue
import P2PSync.Transfer

namespace P2PSync.Interleaving
open Network EntryCodec Dialogue Transfer

def turn : Session → Turn Session Frame
  | .send e frame next =>
    .say frame next (.stop e (.error (.runtimeError (ascii "send() failed / peer closed connection"))))
  | .recv _ next => .hear next
  | .stop _ _ => .gone

def line : Machine Session Frame UInt8 := ⟨turn,sendFrame,recvFrame⟩

-- Two sessions over the bytes of one connection, before the first step.
def opening (a b : SyncEngine) : Talk Session UInt8 := .opening (runSyncSession a) (runSyncSession b)

def asks (e peer : SyncEngine) : List Digest :=
  match (merging e peer.store.allEntries).needed.keys.mapM hexToDigest with
  | .error _ => []
  | .ok needed => needed

-- The frames of one end of a session that goes well.
def speech (e peer : SyncEngine) : List Frame := script e (asks e peer) (asks peer e)

def copy (peer blobs : FileStore) (hash : Digest) : FileStore :=
  match peer.chunks.find (FileStore.chunkPath hash) with
  | none => blobs
  | some bytes => blobs.putChunk ⟨0,bytes,hash⟩

-- An entry of a snapshot, without messages: merge it, and copy the chunks of what is taken.
def take (peer : FileStore) (left : CrdtStore × FileStore) (re : FileEntry) : CrdtStore × FileStore :=
  let (r,store) := left.1.mergeRemote re
  match r.landing with
  | none => (store,left.2)
  | some _ => (store,re.chunkHashes.foldl (copy peer) left.2)

structure Kept where
  store : CrdtStore
  blobs : FileStore
  journal : Option Bytes

def kept (e : SyncEngine) : Kept := ⟨e.store,e.blobs,e.disk.journal⟩

def takeAll (e : SyncEngine) (snapshot : List FileEntry) (peer : FileStore) : Kept :=
  let (store,blobs) := snapshot.foldl (take peer) (e.store,e.blobs)
  ⟨store,blobs,some (SyncEngine.journalText store)⟩

-- Both snapshots first, then each is merged into the other side.
def sequential (a b : SyncEngine) : Kept × Kept :=
  let (ours,theirs) := (a.store.allEntries,b.store.allEntries)
  (takeAll a theirs b.blobs,takeAll b ours a.blobs)

theorem asks_exact (e peer : SyncEngine) : (merging e peer.store.allEntries).needed.keys.mapM hexToDigest = .ok (asks e peer) := by
  obtain ⟨needed,asking⟩ := asking_exact e peer
  rw [asks,asking]

theorem copy_granted (peer blobs : FileStore) (hashes : List Digest) :
    hashes.foldl (copy peer) blobs = (granted peer hashes).foldl FileStore.putChunk blobs := by
  induction hashes generalizing blobs with
  | nil => rfl
  | cons hash rest ih =>
    rw [List.foldl_cons,ih,copy]
    cases found : peer.chunks.find (FileStore.chunkPath hash) with
    | none => simp [granted,found]
    | some bytes => simp [granted,found]

theorem granted_append (peer : FileStore) (few more : List Digest) :
    granted peer (few ++ more) = granted peer few ++ granted peer more := List.filterMap_append

theorem take_exact (peer : FileStore) (s : CrdtStore) (blobs : FileStore) (re : FileEntry) : take peer (s,blobs) re =
    ((s.mergeRemote re).2,(granted peer ((taken s [re]).flatMap FileEntry.chunkHashes)).foldl FileStore.putChunk blobs) := by
  unfold take MergeResult.landing
  cases outcome : (s.mergeRemote re).1.outcome with
  | appliedRemote => simp [outcome,taken,copy_granted]
  | conflictForked => simp [outcome,taken,copy_granted]
  | keptLocal => simp [outcome,taken,granted]
  | noChange => simp [outcome,taken,granted]

theorem taken_cons (s : CrdtStore) (re : FileEntry) (rest : List FileEntry) :
    taken s (re :: rest) = taken s [re] ++ taken (s.mergeRemote re).2 rest := by
  cases outcome : (s.mergeRemote re).1.outcome with
  | appliedRemote => simp [outcome,taken]
  | conflictForked => simp [outcome,taken]
  | keptLocal => simp [outcome,taken]
  | noChange => simp [outcome,taken]

-- Merging entry by entry comes to the merge loop's store and to the chunks of all it took.
theorem foldl_take (peer blobs : FileStore) (snapshot : List FileEntry) (m : Merging) (gathered : FileStore) :
    snapshot.foldl (take peer) (m.store,gathered) = ((snapshot.foldl (mergeEntry blobs) m).store,
      (granted peer ((taken m.store snapshot).flatMap FileEntry.chunkHashes)).foldl FileStore.putChunk gathered) := by
  induction snapshot generalizing m gathered with
  | nil => rfl
  | cons re rest ih =>
    rw [List.foldl_cons,List.foldl_cons,take_exact,← mergeEntry_store blobs,ih,mergeEntry_store,
      taken_cons m.store re rest,List.flatMap_append,granted_append,List.foldl_append]

theorem find_granted {blobs peer : FileStore} {hashes : List Digest} :
    ((granted peer hashes).foldl FileStore.putChunk blobs).chunks.find name = some bytes ↔
      blobs.chunks.find name = some bytes ∨ (blobs.chunks.find name = none ∧
        ∃ hash ∈ hashes, FileStore.chunkPath hash = name ∧ peer.chunks.find name = some bytes) := by
  have only : ∀ data, ((granted peer hashes).foldl FileStore.putChunk blobs).chunks.find name = some data →
      blobs.chunks.find name = some data ∨ (blobs.chunks.find name = none ∧
        ∃ hash ∈ hashes, FileStore.chunkPath hash = name ∧ peer.chunks.find name = some data) := by
    intro data found
    rcases FileStore.find_putChunks _ _ _ _ found with before | ⟨c,⟨missing,front,back,split,_⟩,rfl,rfl⟩
    · exact .inl before
    · have member : c ∈ granted peer hashes := by simp [split]
      obtain ⟨_,asked,stored⟩ := mem_granted.mp member
      refine .inr ⟨?_,c.hash,asked,rfl,stored⟩
      rw [FileStore.hasChunk,OrdMap.contains] at missing
      simpa using missing
  refine ⟨only bytes,?_⟩
  rintro (before | ⟨absent,hash,asked,rfl,stored⟩)
  · exact FileStore.extends_putChunks _ _ _ _ before
  · have has := FileStore.has_putChunks blobs (granted peer hashes) ⟨0,bytes,hash⟩ (mem_granted.mpr ⟨rfl,asked,stored⟩)
    obtain ⟨data,found⟩ := FileStore.hasChunk_iff.mp has
    rcases only data found with before | ⟨_,_,_,_,same⟩
    · rw [absent] at before
      cases before
    · rw [stored] at same
      rw [found,same]

-- What is missing decides which chunks come in, not how often or in which order they are named.
theorem granted_congr {blobs : FileStore} {few more : List Digest} (peer : FileStore)
    (same : ∀ hash, blobs.hasChunk hash = false → (hash ∈ few ↔ hash ∈ more)) :
    (granted peer few).foldl FileStore.putChunk blobs = (granted peer more).foldl FileStore.putChunk blobs := by
  have find : ∀ name bytes, ((granted peer few).foldl FileStore.putChunk blobs).chunks.find name = some bytes ↔
      ((granted peer more).foldl FileStore.putChunk blobs).chunks.find name = some bytes := by
    intro name bytes
    rw [find_granted,find_granted]
    refine or_congr Iff.rfl (and_congr_right (fun absent => exists_congr (fun hash => ?_)))
    refine and_congr_left (fun named => same hash ?_)
    rw [FileStore.hasChunk,OrdMap.contains,named.1,absent]
    rfl
  have chunks := OrdMap.ext (fun name => Option.ext (find name))
  exact congrArg FileStore.mk chunks

theorem takeAll_fetched (a b : SyncEngine) (files : OrdMap Bytes Bytes) :
    kept ((fetched a b (asks a b)).withFiles files).saveJournal = takeAll a b.store.allEntries b.blobs := by
  have folded := foldl_take b.blobs a.blobs b.store.allEntries
    ⟨a.store,.empty,[],⟨a.store.allEntries.length,0,0,0,0,0⟩⟩ a.blobs
  have asked : ∀ hash, a.blobs.hasChunk hash = false →
      (hash ∈ asks a b ↔ hash ∈ (taken a.store b.store.allEntries).flatMap FileEntry.chunkHashes) := by
    intro hash missing
    rw [mem_wanted (asks_exact a b),List.mem_flatMap]
    exact and_iff_left missing
  have chunks := granted_congr b.blobs asked
  unfold takeAll
  rw [folded]
  dsimp only
  rw [← chunks]
  rfl

theorem clear {frame : Frame} (small : frame.payload.length < 2^32) : line.Clear frame := recvFrame_sendFrame frame small

theorem follows_expect (speaks : line.turn s = .say told (expect type what e next) refused)
    (small : (⟨type,payload⟩ : Frame).payload.length < 2^32) (later : line.Follows final (next payload) rounds) :
    line.Follows final s ((told,⟨type,payload⟩) :: rounds) := by
  refine .round speaks rfl (clear small) ?_
  dsimp only
  rw [if_pos rfl]
  exact later

-- A session keeps to the script while its peer does.
theorem follows_session {a b : SyncEngine} (readable : Readable b) (stockedA : a.Keeps (· = false)) (stockedB : b.Keeps (· = false))
    (small : ∀ frame ∈ speech b a, frame.payload.length < 2^32) :
    ∃ files total, line.Follows (.stop ((fetched a b (asks a b)).withFiles files).saveJournal (.ok total)) (runSyncSession a)
      ((speech a b).zip (speech b a)) := by
  have asking := asks_exact a b
  have merges := mergeManifest_listed readable asking
  have answers := answerRequest_listed (merged a b) (merging a b.store.allEntries).paths
    (merging a b.store.allEntries).stats (asks b a)
  have data : (answer b.blobs (asks a b)).length < 2^32 :=
    small ⟨frameChunkData,answer b.blobs (asks a b)⟩ (by simp [speech,script])
  obtain ⟨files,total,finishes⟩ := finishSession_keeps (keeps_fetched stockedA stockedB asking) data
    (merging a b.store.allEntries).paths (merging a b.store.allEntries).stats
  refine ⟨files,total,?_⟩
  rw [runSyncSession_eq]
  apply follows_expect rfl (small ⟨frameManifest,serializeManifest b⟩ (by simp [speech,script]))
  rw [merges]
  apply follows_expect rfl (small ⟨frameChunkRequest,serializeHashList (asks b a)⟩ (by simp [speech,script]))
  rw [← merged_afterMerge,answers]
  apply follows_expect rfl (small ⟨frameChunkData,answer b.blobs (asks a b)⟩ (by simp [speech,script]))
  rw [finishes]
  exact .round rfl rfl (clear (by decide)) (.done rfl)

theorem speech_swap (a b : SyncEngine) : (speech b a).zip (speech a b) = ((speech a b).zip (speech b a)).map Prod.swap := rfl

theorem gone_stop {s : Session} (gone : turn s = .gone) : ∃ e result, s = .stop e result := by
  cases s with
  | send e frame next => cases gone
  | recv e next => cases gone
  | stop e result => exact ⟨e,result,rfl⟩

-- What every state of a run has: each side is on its way to the end it has in the sequential function.
theorem meets_reached {a b : SyncEngine} (legibleA : Legible a) (legibleB : Legible b)
    (stockedA : a.Keeps (· = false)) (stockedB : b.Keeps (· = false))
    (small : ∀ frame ∈ speech a b ++ speech b a, frame.payload.length < 2^32) (reached : line.Reaches (opening a b) t) :
    ∃ filesA totalA filesB totalB left, line.Meets
      (.stop ((fetched a b (asks a b)).withFiles filesA).saveJournal (.ok totalA))
      (.stop ((fetched b a (asks b a)).withFiles filesB).saveJournal (.ok totalB)) left t := by
  obtain ⟨filesA,totalA,followsA⟩ := follows_session legibleB.readable stockedA stockedB
    (fun frame member => small frame (List.mem_append_right _ member))
  obtain ⟨filesB,totalB,followsB⟩ := follows_session legibleA.readable stockedB stockedA
    (fun frame member => small frame (List.mem_append_left _ member))
  rw [speech_swap] at followsB
  obtain ⟨left,meets⟩ := (Machine.meets_opening followsA followsB).reach rfl reached
  exact ⟨filesA,totalA,filesB,totalB,left,meets⟩

theorem interleaving_irrelevant (a b : SyncEngine) (legibleA : Legible a) (legibleB : Legible b)
    (stockedA : a.Keeps (· = false)) (stockedB : b.Keeps (· = false))
    (small : ∀ frame ∈ speech a b ++ speech b a, frame.payload.length < 2^32)
    (t : Talk Session UInt8) (reached : line.Reaches (opening a b) t) :
    (∀ e x, t.one ≠ .stop e (.error x) ∧ t.two ≠ .stop e (.error x)) ∧
    ((∃ u, line.Moves t u) ∨ ∃ one ours two theirs, t.one = .stop one ours ∧ t.two = .stop two theirs) ∧
    (∀ one ours two theirs, t.one = .stop one ours → t.two = .stop two theirs → (kept one,kept two) = sequential a b) ∧
    Acc (fun u t => line.Moves t u) t := by
  obtain ⟨filesA,totalA,filesB,totalB,left,meets⟩ := meets_reached legibleA legibleB stockedA stockedB small reached
  have endsA : ∀ e result, t.one = .stop e result →
      Session.stop e result = .stop ((fetched a b (asks a b)).withFiles filesA).saveJournal (.ok totalA) := by
    intro e result stopped
    rw [← stopped]
    exact meets.ended (by rw [stopped]; rfl)
  have endsB : ∀ e result, t.two = .stop e result →
      Session.stop e result = .stop ((fetched b a (asks b a)).withFiles filesB).saveJournal (.ok totalB) := by
    intro e result stopped
    rw [← stopped]
    exact meets.symm.ended (by change turn t.two = .gone; rw [stopped]; rfl)
  refine ⟨?_,?_,?_,meets.terminates rfl⟩
  · intro e x
    constructor
    · intro thrown
      cases endsA e _ thrown
    · intro thrown
      cases endsB e _ thrown
  · rcases meets.progress with moves | ⟨goneA,goneB⟩
    · exact .inl moves
    · obtain ⟨one,ours,stoppedA⟩ := gone_stop goneA
      obtain ⟨two,theirs,stoppedB⟩ := gone_stop goneB
      exact .inr ⟨one,ours,two,theirs,stoppedA,stoppedB⟩
  · intro one ours two theirs stoppedA stoppedB
    cases endsA one ours stoppedA
    cases endsB two theirs stoppedB
    rw [takeAll_fetched,takeAll_fetched]
    rfl

-- A node with one file and a new one: the session completes, and the file gets across.
theorem interleaving_irrelevant_one_file : ∃ t one ours two theirs,
    line.Reaches (opening (Fidelity.added.peers 0).engine (Fidelity.added.peers 1).engine) t ∧
    t.one = .stop one ours ∧ t.two = .stop two theirs ∧
    (kept one,kept two) = sequential (Fidelity.added.peers 0).engine (Fidelity.added.peers 1).engine ∧
    two.store.get (ascii "a.txt") ≠ none := by
  have sound := Fidelity.kept_run Fidelity.plain_pair Fidelity.added_run
  have small : ∀ frame ∈ speech (Fidelity.added.peers 0).engine (Fidelity.added.peers 1).engine ++
      speech (Fidelity.added.peers 1).engine (Fidelity.added.peers 0).engine, frame.payload.length < 2^32 := by decide +kernel
  have found : (sequential (Fidelity.added.peers 0).engine (Fidelity.added.peers 1).engine).2.store.get (ascii "a.txt") ≠ none := by
    decide +kernel
  have result := interleaving_irrelevant _ _ ((sound 0).legible (Fidelity.plain_pair 0))
    ((sound 1).legible (Fidelity.plain_pair 1)) (sound 0).whole.keeps (sound 1).whole.keeps small
  obtain ⟨t,reached,one,ours,two,theirs,stoppedA,stoppedB⟩ :=
    Machine.exists_complete (result _ .refl).2.2.2 (fun t reached => (result t reached).2.1)
  have same := (result t reached).2.2.1 one ours two theirs stoppedA stoppedB
  refine ⟨t,one,ours,two,theirs,reached,stoppedA,stoppedB,same,?_⟩
  rw [← same] at found
  exact found

end P2PSync.Interleaving
