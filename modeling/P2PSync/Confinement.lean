import P2PSync.Lib.Paths
import P2PSync.Directory
import P2PSync.FailedSession

namespace P2PSync.Confinement
open Network SyncEngine MergeOrder Paths

def materializedDir (dataDir : Bytes) : Bytes := dataDir ++ ascii "/files"

-- fs::path(dir) / path
def joinPath (dir path : Bytes) : Bytes :=
  if path.head? = some 47 then path
  else if dir = [] ∨ dir.getLast? = some 47 then dir ++ path
  else dir ++ 47 :: path

def move (piece : Bytes) : Move Bytes :=
  if piece = [] ∨ piece = ascii "." then .stay else if piece = ascii ".." then .up else .down piece

def moves (path : Bytes) : List (Move Bytes) := (Text.pieces 47 path).map move

-- path.lexically_normal(), as far as it tells where a path leads.
def normal (path : Bytes) : Place Bytes := (if path.head? = some 47 then Place.root else .here).walk (moves path)

-- The file that FileStore::materialize writes lies under the directory it is given.
def Confined (dataDir path : Bytes) : Prop :=
  (normal (materializedDir dataDir)).Under (normal (joinPath (materializedDir dataDir) path))

-- The same by the text of the path: an absolute path begins with the directory; a
-- relative one that climbs out of it comes back by the names it climbed over.
def Stays (dataDir path : Bytes) : Prop :=
  let dir := normal (materializedDir dataDir)
  if path.head? = some 47 then dir.rooted = true ∧ dir.names <+: (normal path).names
  else ((normal path).ups ≤ dir.names.length ∨ dir.rooted = true) ∧
    dir.names.drop (dir.names.length - (normal path).ups) <+: (normal path).names

theorem moves_join (dir path : Bytes) : moves (dir ++ 47 :: path) = moves dir ++ moves path := by
  rw [moves,Text.pieces_append,List.map_append]
  rfl

theorem normal_join {dir path : Bytes} (relative : path.head? ≠ some 47) (filled : dir ≠ []) (named : dir.getLast? ≠ some 47) :
    normal (joinPath dir path) = (normal dir).walk (moves path) := by
  have joined : joinPath dir path = dir ++ 47 :: path := by
    rw [joinPath,if_neg relative,if_neg (not_or.mpr ⟨filled,named⟩)]
  have start : (dir ++ 47 :: path).head? = dir.head? := by
    cases dir with
    | nil => exact absurd rfl filled
    | cons c rest => rfl
  rw [joined,normal,start,moves_join,Place.walk,List.foldl_append]
  rfl

theorem materializedDir_filled (dataDir : Bytes) : materializedDir dataDir ≠ [] := by
  intro nothing
  have length := congrArg List.length nothing
  simp [materializedDir,ascii] at length

theorem materializedDir_named (dataDir : Bytes) : (materializedDir dataDir).getLast? ≠ some 47 := by
  have last : (ascii "/files").getLast? = some 115 := by decide
  simp [materializedDir,List.getLast?_append,last]

theorem confined_iff (dataDir path : Bytes) : Confined dataDir path ↔ Stays dataDir path := by
  have filled := materializedDir_filled dataDir
  have named := materializedDir_named dataDir
  unfold Confined Stays
  by_cases absolute : path.head? = some 47
  · have joined : joinPath (materializedDir dataDir) path = path := by rw [joinPath,if_pos absolute]
    have rooted : normal path = Place.root.walk (moves path) := by rw [normal,if_pos absolute]
    rw [joined,if_pos absolute,rooted]
    exact Place.under_root _ _
  · have here : normal path = Place.here.walk (moves path) := by rw [normal,if_neg absolute]
    rw [normal_join absolute filled named,if_neg absolute,here]
    exact Place.under_walk _ _

-- The paths that the merge of a manifest brings versions to.
def landings (s : CrdtStore) : List FileEntry → List Bytes
  | [] => []
  | re :: rest => (s.mergeRemote re).1.landing.toList ++ landings (s.mergeRemote re).2 rest

theorem paths_foldl (blobs : FileStore) (entries : List FileEntry) (m : Merging) :
    (entries.foldl (mergeEntry blobs) m).paths = m.paths ++ landings m.store entries := by
  induction entries generalizing m with
  | nil => simp [landings]
  | cons re rest ih => rw [List.foldl_cons,ih,mergeEntry_paths,mergeEntry_store,landings,List.append_assoc]

theorem paths_merging (e : SyncEngine) (entries : List FileEntry) : (merging e entries).paths = landings e.store entries := by
  rw [merging,paths_foldl]
  rfl

-- The files an engine has that another did not have in the same way.
def Writes (before after : SyncEngine) (allowed : Bytes → Prop) : Prop :=
  ∀ path bytes, after.disk.files.find path = some bytes → before.disk.files.find path = some bytes ∨ allowed path

theorem writes_nothing {before after : SyncEngine} (same : after.disk.files = before.disk.files) (allowed : Bytes → Prop) :
    Writes before after allowed := by
  intro path bytes found
  rw [same] at found
  exact .inl found

theorem materialize_writes (e : SyncEngine) (path : Bytes) : Writes e (e.materialize path).1
    (fun place => place = path ∧ ∃ entry, e.store.get path = some entry ∧ entry.hasContent = true) := by
  intro place bytes found
  unfold materialize at found
  split at found
  · exact .inl found
  · rename_i entry held
    split at found
    · rename_i full
      split at found
      · exact .inl found
      · rename_i content read
        change (e.disk.files.insert path content).find place = some bytes at found
        rw [OrdMap.find_insert] at found
        split at found
        · rename_i here
          exact .inr ⟨here.symm,entry,held,full⟩
        · exact .inl found
    · exact .inl found

-- Whether or not it runs to its end, only paths with content are written.
theorem materializeAll_writes (e : SyncEngine) (paths : List Bytes) : Writes e (materializeAll e paths).1
    (fun path => path ∈ paths ∧ ∃ entry, e.store.get path = some entry ∧ entry.hasContent = true) := by
  induction paths generalizing e with
  | nil => exact writes_nothing rfl _
  | cons first rest ih =>
    have here := materialize_writes e first
    obtain ⟨files,same⟩ := e.materialize_files first
    intro path bytes found
    unfold materializeAll at found
    split at found
    · rename_i next x failed
      rw [failed] at here
      rcases here path bytes found with before | ⟨rfl,content⟩
      · exact .inl before
      · exact .inr ⟨List.mem_cons_self,content⟩
    · rename_i next _ done
      rw [done] at here same
      change next = e.withFiles files at same
      have store : next.store = e.store := by
        rw [same]
        rfl
      rcases ih next path bytes found with between | ⟨inside,content⟩
      · rcases here path bytes between with before | ⟨rfl,content⟩
        · exact .inl before
        · exact .inr ⟨List.mem_cons_self,content⟩
      · rw [store] at content
        exact .inr ⟨List.mem_cons_of_mem _ inside,content⟩

-- What holds of the engine whenever a session stands at the socket or is over.
def Throughout (holds : SyncEngine → Prop) : Session → Prop
  | .send e _ next => holds e ∧ Throughout holds next
  | .recv e next => holds e ∧ ∀ frame, Throughout holds (next frame)
  | .stop e _ => holds e

theorem Throughout.run {s : Session} (through : Throughout holds s) (link : Link) : holds (s.run link).engine := by
  induction s generalizing link with
  | stop e result => exact through
  | send e frame next ih =>
    rcases run_send e frame next link with ⟨x,failed⟩ | ⟨n,sends⟩
    · rw [failed]
      exact through.1
    · rw [sends]
      exact ih through.2 _
  | recv e next ih =>
    cases arrived : recvFrame link.inbound with
    | some pair =>
      rw [run_recv e next link arrived]
      exact ih _ (through.2 _) _
    | none =>
      rw [run_recv_nothing e next link arrived]
      split
      · exact through.1
      · exact ih none (through.2 none) _

theorem through_expect (now : holds e) (next : ∀ payload, Throughout holds (after payload)) (type : UInt8) (what : Bytes) :
    Throughout holds (expect type what e after) := by
  refine ⟨now,?_⟩
  intro frame
  cases frame with
  | none => exact now
  | some frame =>
    dsimp only
    split
    · exact next frame.payload
    · exact now

-- The paths that a session with this store and manifest may write.
def Content (s : CrdtStore) (entries : List FileEntry) (path : Bytes) : Prop :=
  path ∈ landings s entries ∧ ∃ entry, (mergeAll s entries).get path = some entry ∧ entry.hasContent = true

theorem through_finish {e now : SyncEngine} (same : now.disk.files = e.disk.files) (paths : List Bytes) (stats : SyncStats)
    (payload : Bytes) : Throughout (fun after => Writes e after
      (fun path => path ∈ paths ∧ ∃ entry, now.store.get path = some entry ∧ entry.hasContent = true))
      (finishSession now paths stats payload) := by
  have writes := materializeAll_writes (stored now payload) paths
  have files : (stored now payload).disk.files = e.disk.files := same
  rw [Writes,files] at writes
  unfold finishSession
  dsimp only
  split
  · exact writes_nothing files _
  · split
    · rename_i next x failed
      have ended : next = (materializeAll (stored now payload) paths).1 := (congrArg Prod.fst failed).symm
      rw [← ended] at writes
      exact writes
    · rename_i next _ settled
      have ended : next = (materializeAll (stored now payload) paths).1 := (congrArg Prod.fst settled).symm
      rw [← ended] at writes
      exact ⟨writes,writes,fun _ => writes⟩

theorem through_answer {e now : SyncEngine} (same : now.disk.files = e.disk.files) (paths : List Bytes) (stats : SyncStats)
    (request : Bytes) : Throughout (fun after => Writes e after
      (fun path => path ∈ paths ∧ ∃ entry, now.store.get path = some entry ∧ entry.hasContent = true))
      (answerRequest now paths stats request) := by
  have unwritten := writes_nothing same (fun path => path ∈ paths ∧ ∃ entry, now.store.get path = some entry ∧ entry.hasContent = true)
  unfold answerRequest answerRequestWith
  split
  · exact unwritten
  · exact ⟨unwritten,through_expect unwritten (through_finish same paths stats) _ _⟩

-- From the peer's manifest on, a session writes content to paths where versions landed.
theorem through_merge {e : SyncEngine} (listed : parseManifest manifest = .ok entries) :
    Throughout (fun after => Writes e after (Content e.store entries))
      (mergeManifest e ⟨e.store.allEntries.length,0,0,0,0,0⟩ manifest) := by
  have same : (afterMerge e entries).disk.files = e.disk.files := rfl
  have unwritten := writes_nothing same (Content e.store entries)
  have answers : ∀ request, Throughout (fun after => Writes e after (fun path => path ∈ (merging e entries).paths ∧
      ∃ entry, (afterMerge e entries).store.get path = some entry ∧ entry.hasContent = true))
      (answerRequest (afterMerge e entries) (merging e entries).paths (merging e entries).stats request) :=
    through_answer same (merging e entries).paths (merging e entries).stats
  rw [paths_merging,FailedSession.store_afterMerge] at answers
  cases asking : (merging e entries).needed.keys.mapM EntryCodec.hexToDigest with
  | error x =>
    rw [mergeManifest_unspelled listed asking]
    exact unwritten
  | ok needed =>
    rw [mergeManifest_listed listed asking,paths_merging]
    exact ⟨unwritten,through_expect unwritten answers _ _⟩

-- A session whose peer begins with the manifest, up to what the peer makes of it later.
theorem session_writes {e : SyncEngine} {link : Link} (hello : recvFrame link.inbound = some (⟨frameManifest,manifest⟩,rest)) :
    Writes e ((runSyncSession e).run link).engine
      (fun path => ∃ entries, parseManifest manifest = .ok entries ∧ Content e.store entries path) := by
  have unwritten := writes_nothing (rfl : e.disk.files = e.disk.files)
    (fun path => ∃ entries, parseManifest manifest = .ok entries ∧ Content e.store entries path)
  rw [runSyncSession_eq]
  rcases run_send e ⟨frameManifest,serializeManifest e⟩ (expect frameManifest (ascii "expected MANIFEST frame from peer") e
    (mergeManifest e ⟨e.store.allEntries.length,0,0,0,0,0⟩)) link with ⟨x,failed⟩ | ⟨n,sends⟩
  · rw [failed]
    exact unwritten
  · rw [sends,expect,run_recv e _ ⟨link.inbound,link.reset,n⟩ hello]
    dsimp only
    rw [if_pos rfl]
    cases listed : parseManifest manifest with
    | error x =>
      unfold mergeManifest mergeManifestWith
      rw [listed]
      exact writes_nothing rfl _
    | ok entries =>
      have writes := (through_merge (e := e) listed).run ⟨rest,link.reset,n⟩
      intro path bytes found
      rcases writes path bytes found with before | content
      · exact .inl before
      · exact .inr ⟨entries,rfl,content⟩

-- An engine over the store that has every chunk of the merged one, and no file yet.
def stocked (s : CrdtStore) (entries : List FileEntry) : SyncEngine :=
  let hashes := (mergeAll s entries).allEntries.flatMap FileEntry.chunkHashes
  ⟨⟨(hashes.map (fun hash => ⟨0,[],hash⟩)).foldl FileStore.putChunk .empty,none,.empty⟩,s⟩

theorem stocked_keeps (s : CrdtStore) (entries : List FileEntry) : (afterMerge (stocked s entries) entries).Keeps (· = false) := by
  intro path entry held _ hash member
  rw [FailedSession.store_afterMerge] at held
  have place := CrdtStore.get_path held
  have listed : entry ∈ (mergeAll s entries).allEntries := CrdtStore.mem_allEntries.mpr (by rw [place]; exact held)
  have named : hash ∈ (mergeAll s entries).allEntries.flatMap FileEntry.chunkHashes := List.mem_flatMap.mpr ⟨entry,listed,member⟩
  exact FileStore.has_putChunks .empty _ ⟨0,[],hash⟩ (List.mem_map_of_mem named)

-- A peer that sends the manifest, asks for nothing and has nothing to send.
def quiet (manifest : Bytes) : List Frame :=
  [⟨frameManifest,manifest⟩,⟨frameChunkRequest,[]⟩,⟨frameChunkData,[]⟩,⟨frameDone,[]⟩]

theorem quiet_run {e : SyncEngine} (small : manifest.length < 2^32) (listed : parseManifest manifest = .ok entries)
    (keeps : (afterMerge e entries).Keeps (· = false)) :
    ∃ files, materializeAll (afterMerge e entries) (merging e entries).paths = ((afterMerge e entries).withFiles files,.ok ()) ∧
      ((runSyncSession e).run ⟨wire (quiet manifest),false,4⟩).engine = ((afterMerge e entries).withFiles files).saveJournal := by
  have hello := recvFrame_wire ⟨frameManifest,manifest⟩ [⟨frameChunkRequest,[]⟩,⟨frameChunkData,[]⟩,⟨frameDone,[]⟩] small
  have asks := recvFrame_wire ⟨frameChunkRequest,[]⟩ [⟨frameChunkData,[]⟩,⟨frameDone,[]⟩] (by decide)
  have arrived := recvFrame_wire ⟨frameChunkData,[]⟩ [⟨frameDone,[]⟩] (by decide)
  have bye := recvFrame_wire ⟨frameDone,[]⟩ [] (by decide)
  obtain ⟨needed,asking⟩ := asking_listed e entries
  have merges := mergeManifest_listed listed asking
  have answers : answerRequest (afterMerge e entries) (merging e entries).paths (merging e entries).stats [] = _ :=
    answerRequest_listed _ _ _ []
  obtain ⟨files,done⟩ := materializeAll_keeps keeps (merging e entries).paths
  have nothing : decodeChunks [] = ([],false) := by decide +kernel
  have settled : materializeAll ((afterMerge e entries).withBlobs (([] : List Chunk).foldl FileStore.putChunk (afterMerge e entries).blobs))
      (merging e entries).paths = ((afterMerge e entries).withFiles files,.ok ()) := done
  obtain ⟨total,finishes⟩ := finishSession_done nothing settled (merging e entries).stats
  refine ⟨files,done,?_⟩
  simp only [runSyncSession_eq,quiet,Session.run,expect,hello,merges,asks,answers,arrived,finishes,bye,if_true]

-- With it such an engine writes all the content that landed.
theorem quiet_writes {s : CrdtStore} (small : manifest.length < 2^32) (listed : parseManifest manifest = .ok entries)
    (content : Content s entries path) :
    ∃ bytes, ((runSyncSession (stocked s entries)).run ⟨wire (quiet manifest),false,4⟩).engine.disk.files.find path = some bytes := by
  obtain ⟨lands,entry,held,full⟩ := content
  obtain ⟨files,done,final⟩ := quiet_run small listed (stocked_keeps s entries)
  obtain ⟨⟨written,same,wrote⟩,read⟩ := materializeAll_content done
  have there : (afterMerge (stocked s entries) entries).store.get path = some entry := by
    rw [FailedSession.store_afterMerge]
    exact held
  have reached : path ∈ (merging (stocked s entries) entries).paths := by
    rw [paths_merging]
    exact lands
  obtain ⟨bytes,whole⟩ := read path reached entry there full
  have table : files = written := congrArg (fun e => e.disk.files) same
  refine ⟨bytes,?_⟩
  rw [final]
  change files.find path = some bytes
  rw [table,wrote,if_pos reached,Directory.content_held there full whole]
  rfl

-- Engines over one store differ in their chunks and in the files they have already.
def StaysInside (dataDir : Bytes) (s : CrdtStore) (manifest : Bytes) : Prop :=
  ∀ e link rest, e.store = s → recvFrame link.inbound = some (⟨frameManifest,manifest⟩,rest) →
    Writes e ((runSyncSession e).run link).engine (Confined dataDir)

theorem materialized_inside_iff (dataDir : Bytes) (s : CrdtStore) (manifest : Bytes) (small : manifest.length < 2^32) :
    StaysInside dataDir s manifest ↔
      ∀ entries, parseManifest manifest = .ok entries → ∀ path, Content s entries path → Stays dataDir path := by
  constructor
  · intro inside entries listed path content
    obtain ⟨bytes,found⟩ := quiet_writes small listed content
    have hello := recvFrame_wire ⟨frameManifest,manifest⟩ [⟨frameChunkRequest,[]⟩,⟨frameChunkData,[]⟩,⟨frameDone,[]⟩] small
    rcases inside (stocked s entries) ⟨wire (quiet manifest),false,4⟩ _ rfl hello path bytes found with before | confined
    · cases before
    · exact (confined_iff dataDir path).mp confined
  · rintro stays e link rest rfl hello path bytes found
    rcases session_writes hello path bytes found with before | ⟨entries,listed,content⟩
    · exact .inl before
    · exact .inr ((confined_iff dataDir path).mpr (stays entries listed path content))

-- A peer's manifest with one file of one chunk.
def oneFile (path : Bytes) : Bytes :=
  ascii "B" ++ 10 :: path ++ 9 :: ascii "0" ++ 9 :: ascii "1" ++ 9 :: 9 :: ascii "B:1" ++ 9 :: ascii "B" ++ 9 :: Sha256.toHex (.filled 1)

theorem materialized_inside_iff_nested : (oneFile (ascii "docs/a.txt")).length < 2^32 ∧
    StaysInside (ascii "data") (.new (ascii "A")) (oneFile (ascii "docs/a.txt")) := by
  have small : (oneFile (ascii "docs/a.txt")).length < 2^32 := by decide
  have lands : (parseManifest (oneFile (ascii "docs/a.txt"))).map (landings (.new (ascii "A"))) = .ok [ascii "docs/a.txt"] := by
    decide +kernel
  refine ⟨small,(materialized_inside_iff (ascii "data") (.new (ascii "A")) _ small).mpr ?_⟩
  intro entries listed path content
  rw [listed] at lands
  have only : landings (.new (ascii "A")) entries = [ascii "docs/a.txt"] := Except.ok.inj lands
  have here := content.1
  rw [only] at here
  rw [List.mem_singleton.mp here]
  unfold Stays
  decide +kernel

-- The journal of the receiver lies one level up.
theorem store_meta_overwritten : ¬ StaysInside (ascii "data") (.new (ascii "A")) (oneFile (ascii "../store.meta")) := by
  intro inside
  have hello := recvFrame_wire ⟨frameManifest,oneFile (ascii "../store.meta")⟩
    [⟨frameChunkRequest,[]⟩,⟨frameChunkData,encodeChunk (.filled 1) [7]⟩,⟨frameDone,[]⟩] (by decide)
  have written := inside (fresh (ascii "A")) ⟨_,false,4⟩ _ rfl hello (ascii "../store.meta") [7] (by decide +kernel)
  rcases written with before | confined
  · cases before
  · rw [confined_iff] at confined
    revert confined
    unfold Stays
    decide +kernel

end P2PSync.Confinement
