import P2PSync.SyncEngine

namespace P2PSync
open Text EntryCodec

structure Frame where
  type : UInt8
  payload : Bytes
  deriving DecidableEq

structure SyncStats where
  entriesSent : ℕ
  entriesAppliedRemote : ℕ
  entriesKeptLocal : ℕ
  entriesNoChange : ℕ
  conflictsForked : ℕ
  chunksFetched : ℕ
  deriving DecidableEq

namespace Network

def frameManifest : UInt8 := 1

def frameChunkRequest : UInt8 := 2

def frameChunkData : UInt8 := 3

def frameDone : UInt8 := 4

def sendFrame (frame : Frame) : Bytes :=
  Sha256.wordBytes (UInt32.ofNat frame.payload.length) ++ frame.type :: frame.payload

def readLength (a b c d : UInt8) : UInt32 :=
  (a.toUInt32 <<< 24) ||| (b.toUInt32 <<< 16) ||| (c.toUInt32 <<< 8) ||| d.toUInt32

-- none is a disconnect in the header or in the payload.
def recvFrame : Bytes → Option (Frame × Bytes)
  | a :: b :: c :: d :: type :: rest =>
    let len := (readLength a b c d).toNat
    if len ≤ rest.length then some (⟨type,rest.take len⟩,rest.drop len) else none
  | _ => none

def serializeManifest (e : SyncEngine) : Bytes := e.store.nodeId ++ 10 :: SyncEngine.journalText e.store

def parseManifest (payload : Bytes) : Except Error (List FileEntry) :=
  (((getlines 10 [] payload).drop 1).filter (· ≠ [])).mapM lineToEntry

def serializeHashList (hashes : List Digest) : Bytes := joined 10 (hashes.map Sha256.toHex)

def parseHashList (payload : Bytes) : Except Error (List Digest) :=
  ((getlines 10 [] payload).filter (· ≠ [])).mapM hexToDigest

-- The merge loop: needed_hex is a std::set of hex strings.
structure Merging where
  store : CrdtStore
  needed : OrdMap Bytes Unit
  paths : List Bytes
  stats : SyncStats

def need (blobs : FileStore) (needed : OrdMap Bytes Unit) (hashes : List Digest) : OrdMap Bytes Unit :=
  hashes.foldl (fun needed h => if blobs.hasChunk h then needed else needed.insert (Sha256.toHex h) ()) needed

def mergeEntry (blobs : FileStore) (m : Merging) (re : FileEntry) : Merging :=
  let (r,store) := m.store.mergeRemote re
  match r.outcome with
  | .appliedRemote =>
    ⟨store,need blobs m.needed re.chunkHashes,m.paths ++ [re.path],
      { m.stats with entriesAppliedRemote := m.stats.entriesAppliedRemote + 1 }⟩
  | .conflictForked =>
    let stats := { m.stats with conflictsForked := m.stats.conflictsForked + 1 }
    match store.get r.conflictPath with
    | none => ⟨store,m.needed,m.paths,stats⟩
    | some forked => ⟨store,need blobs m.needed forked.chunkHashes,m.paths ++ [r.conflictPath],stats⟩
  | .keptLocal =>
    ⟨store,m.needed,m.paths,{ m.stats with entriesKeptLocal := m.stats.entriesKeptLocal + 1 }⟩
  | .noChange =>
    ⟨store,m.needed,m.paths,{ m.stats with entriesNoChange := m.stats.entriesNoChange + 1 }⟩

def encodeChunk (hash : Digest) (bytes : Bytes) : Bytes :=
  hash.bytes ++ (Sha256.wordBytes (UInt32.ofNat bytes.length) ++ bytes)

-- The chunks asked for that are not here are skipped.
def answer (blobs : FileStore) (hashes : List Digest) : Bytes :=
  hashes.flatMap (fun hash => match blobs.chunks.find (FileStore.chunkPath hash) with
    | none => []
    | some bytes => encodeChunk hash bytes)

-- The records of a CHUNK_DATA payload, and whether the last one runs past its end.
def decodeChunks (payload : Bytes) : List Chunk × Bool :=
  match header : payload.drop 32 with
  | a :: b :: c :: d :: rest =>
    let len := (readLength a b c d).toNat
    if len ≤ rest.length then
      let (chunks,past) := decodeChunks (rest.drop len)
      (⟨0,rest.take len,⟨payload.take 32,by
        have size := congrArg List.length header
        simp only [List.length_drop,List.length_cons] at size
        rw [List.length_take]
        omega⟩⟩ :: chunks,past)
    else ([],true)
  | _ => ([],false)
termination_by payload.length
decreasing_by
  have size := congrArg List.length header
  simp only [List.length_drop,List.length_cons] at size ⊢
  omega

def materializeAll (e : SyncEngine) : List Bytes → SyncEngine × Except Error Unit
  | [] => (e,.ok ())
  | path :: rest => match e.materialize path with
    | (e,.error x) => (e,.error x)
    | (e,.ok _) => materializeAll e rest

-- A running session up to its next step on the socket, with the engine as it
-- stands there. A receive that the peer answers with a disconnect gets none.
inductive Session where
  | send (engine : SyncEngine) (frame : Frame) (next : Session)
  | recv (engine : SyncEngine) (next : Option Frame → Session)
  | stop (engine : SyncEngine) (result : Except Error SyncStats)

-- if (!sock.recv_frame(type, payload) || type != expected) throw
def expect (type : UInt8) (what : Bytes) (e : SyncEngine) (next : Bytes → Session) : Session :=
  .recv e (fun frame => match frame with
    | none => .stop e (.error (.runtimeError what))
    | some frame => if frame.type = type then next frame.payload else .stop e (.error (.runtimeError what)))

-- Steps 5 and 6: store the chunks received, materialize, save, say DONE.
def finishSession (e : SyncEngine) (paths : List Bytes) (stats : SyncStats) (payload : Bytes) : Session :=
  let (chunks,past) := decodeChunks payload
  let e := e.withBlobs (chunks.foldl FileStore.putChunk e.blobs)
  let stats := { stats with chunksFetched := stats.chunksFetched + chunks.length }
  if past then .stop e (.error .pastPayload)
  else match materializeAll e paths with
    | (e,.error x) => .stop e (.error x)
    | (e,.ok _) =>
      let e := e.saveJournal
      .send e ⟨frameDone,[]⟩ (.recv e (fun _ => .stop e (.ok stats)))

section
variable (finish : SyncEngine → List Bytes → SyncStats → Bytes → Session)

-- Step 4: answer the peer's request.
def answerRequestWith (e : SyncEngine) (paths : List Bytes) (stats : SyncStats) (payload : Bytes) : Session :=
  match parseHashList payload with
  | .error x => .stop e (.error x)
  | .ok theirs =>
    .send e ⟨frameChunkData,answer e.blobs theirs⟩
      (expect frameChunkData (ascii "expected CHUNK_DATA frame from peer") e (finish e paths stats))

-- Steps 2 and 3: merge the peer's entries, ask for the chunks they need.
def mergeManifestWith (e : SyncEngine) (stats : SyncStats) (payload : Bytes) : Session :=
  match parseManifest payload with
  | .error x => .stop e (.error x)
  | .ok entries =>
    let m := entries.foldl (mergeEntry e.blobs) ⟨e.store,.empty,[],stats⟩
    let e := e.withStore m.store
    match m.needed.keys.mapM hexToDigest with
    | .error x => .stop e (.error x)
    | .ok needed =>
      .send e ⟨frameChunkRequest,serializeHashList needed⟩
        (expect frameChunkRequest (ascii "expected CHUNK_REQUEST frame from peer") e
          (answerRequestWith finish e m.paths m.stats))

def runSyncSessionWith (e : SyncEngine) : Session :=
  .send e ⟨frameManifest,serializeManifest e⟩
    (expect frameManifest (ascii "expected MANIFEST frame from peer") e
      (mergeManifestWith finish e ⟨e.store.allEntries.length,0,0,0,0,0⟩))

end

def answerRequest (e : SyncEngine) (paths : List Bytes) (stats : SyncStats) (payload : Bytes) : Session :=
  answerRequestWith finishSession e paths stats payload

def mergeManifest (e : SyncEngine) (stats : SyncStats) (payload : Bytes) : Session :=
  mergeManifestWith finishSession e stats payload

def runSyncSession (e : SyncEngine) : Session := runSyncSessionWith finishSession e

theorem runSyncSession_eq (e : SyncEngine) : runSyncSession e = .send e ⟨frameManifest,serializeManifest e⟩
    (expect frameManifest (ascii "expected MANIFEST frame from peer") e
      (mergeManifest e ⟨e.store.allEntries.length,0,0,0,0,0⟩)) := rfl

-- What one end of a connection meets: the bytes that arrive, whether they end in
-- an error instead of a disconnect, and how many frames the peer takes.
structure Link where
  inbound : Bytes
  reset : Bool
  takes : ℕ

structure Outcome where
  engine : SyncEngine
  sent : List Frame
  received : List Frame
  result : Except Error SyncStats

def Session.run : Session → Link → Outcome
  | .stop e result,_ => ⟨e,[],[],result⟩
  | .send e frame next,link => match link.takes with
    | 0 => ⟨e,[],[],.error (.runtimeError (ascii "send() failed / peer closed connection"))⟩
    | n+1 =>
      let outcome := next.run { link with takes := n }
      { outcome with sent := frame :: outcome.sent }
  | .recv e next,link => match recvFrame link.inbound with
    | some (frame,rest) =>
      let outcome := (next (some frame)).run { link with inbound := rest }
      { outcome with received := frame :: outcome.received }
    | none =>
      if link.reset then ⟨e,[],[],.error (.runtimeError (ascii "recv() failed"))⟩
      else (next none).run { link with inbound := [] }

def wire (frames : List Frame) : Bytes := frames.flatMap sendFrame

theorem readLength_wordBytes (w : UInt32) :
    readLength (w >>> 24).toUInt8 (w >>> 16).toUInt8 (w >>> 8).toUInt8 w.toUInt8 = w := by
  have bound := w.toNat_lt
  rw [readLength,word_exact]
  apply UInt32.toNat_inj.mp
  have shifts : 24 % 2^32 % 32 = 24 ∧ 16 % 2^32 % 32 = 16 ∧ 8 % 2^32 % 32 = 8 := by decide
  simp only [UInt32.toNat_ofNat',UInt32.toNat_toUInt8,UInt32.toNat_shiftRight,UInt32.toNat_ofNat,
    Nat.shiftRight_eq_div_pow,shifts]
  omega

-- The header counts the payload modulo 2^32.
theorem recvFrame_header (frame : Frame) (later : Bytes) : recvFrame (sendFrame frame ++ later) =
    some (⟨frame.type,(frame.payload ++ later).take (frame.payload.length % 2^32)⟩,
      (frame.payload ++ later).drop (frame.payload.length % 2^32)) := by
  have length : (UInt32.ofNat frame.payload.length).toNat = frame.payload.length % 2^32 := by rw [UInt32.toNat_ofNat']
  have short : frame.payload.length % 2^32 ≤ (frame.payload ++ later).length := by
    rw [List.length_append]
    exact (Nat.mod_le _ _).trans (Nat.le_add_right _ _)
  rw [sendFrame,Sha256.wordBytes]
  simp only [List.cons_append,List.nil_append,recvFrame,readLength_wordBytes,length]
  rw [if_pos short]

theorem recvFrame_sendFrame (frame : Frame) (small : frame.payload.length < 2^32) (rest : Bytes) :
    recvFrame (sendFrame frame ++ rest) = some (frame,rest) := by
  rw [recvFrame_header,Nat.mod_eq_of_lt small,List.take_left,List.drop_left]

theorem parseManifest_serializeManifest {e : SyncEngine} (node : 10 ∉ e.store.nodeId)
    (clean : ∀ entry ∈ e.store.allEntries, LinedEntry entry ∧ PlainNodes entry) :
    parseManifest (serializeManifest e) = .ok e.store.allEntries := by
  rw [parseManifest,serializeManifest,getlines_cons node,List.drop_one,List.tail_cons,
    SyncEngine.lines_journalText (fun entry listed => (clean entry listed).1),SyncEngine.filter_lines]
  exact mapM_encoded entryToLine lineToEntry _
    (fun entry listed => lineToEntry_nodes entry (clean entry listed).1 (clean entry listed).2)

-- Whatever a manifest says, its entries can be written again.
theorem parseManifest_clean (listed : parseManifest manifest = .ok entries) :
    ∀ re ∈ entries, LinedEntry re ∧ PlainNodes re := by
  intro re member
  obtain ⟨line,inside,read⟩ := mapM_source listed member
  have whole := List.mem_of_mem_drop (List.mem_filter.mp inside).1
  exact lineToEntry_read (mem_getlines List.not_mem_nil whole).1 read

theorem parseHashList_serializeHashList (hashes : List Digest) :
    parseHashList (serializeHashList hashes) = .ok hashes := by
  have pieces : ∀ piece ∈ hashes.map Sha256.toHex, 10 ∉ piece ∧ piece ≠ [] := by
    intro piece member
    obtain ⟨d,_,rfl⟩ := List.mem_map.mp member
    exact ⟨fun newline => (mem_toHex newline).2.1 rfl,toHex_ne_nil d⟩
  have lines : (hashes.map Sha256.toHex).filter (· ≠ []) = hashes.map Sha256.toHex := by
    rw [List.filter_eq_self]
    intro piece member
    simpa using (pieces piece member).2
  rw [parseHashList,serializeHashList,getlines_joined pieces,lines,mapM_hexToDigest]

-- Receiving what the peer sent.
theorem run_expect (e : SyncEngine) (what : Bytes) (next : Bytes → Session) (frame : Frame)
    (small : frame.payload.length < 2^32) (rest : Bytes) (reset : Bool) (takes : ℕ) :
    (expect frame.type what e next).run ⟨sendFrame frame ++ rest,reset,takes⟩ =
      let outcome := (next frame.payload).run ⟨rest,reset,takes⟩
      { outcome with received := frame :: outcome.received } := by
  simp only [expect,Session.run,recvFrame_sendFrame frame small,if_true]

theorem decodeChunks_step (hash : Digest) (bytes : Bytes) (small : bytes.length < 2^32) (rest : Bytes) :
    decodeChunks (encodeChunk hash bytes ++ rest) =
      (⟨0,bytes,hash⟩ :: (decodeChunks rest).1,(decodeChunks rest).2) := by
  have length : (UInt32.ofNat bytes.length).toNat = bytes.length := by
    rw [UInt32.toNat_ofNat',Nat.mod_eq_of_lt small]
  have front : (encodeChunk hash bytes ++ rest).take 32 = hash.bytes := by
    rw [encodeChunk,List.append_assoc,List.take_append_of_le_length hash.size.ge,List.take_of_length_le hash.size.le]
  have back : (encodeChunk hash bytes ++ rest).drop 32 =
      Sha256.wordBytes (UInt32.ofNat bytes.length) ++ (bytes ++ rest) := by
    rw [encodeChunk,List.append_assoc,← hash.size,List.drop_left,List.append_assoc]
  rw [decodeChunks]
  split
  · rename_i a b c d body header
    rw [back,Sha256.wordBytes] at header
    simp only [List.cons_append,List.nil_append,List.cons.injEq] at header
    obtain ⟨rfl,rfl,rfl,rfl,rfl⟩ := header
    simp only [readLength_wordBytes,length,front]
    rw [if_pos (by simp),List.take_left,List.drop_left]
  · rename_i short
    rw [back,Sha256.wordBytes] at short
    exact absurd rfl (short _ _ _ _ _)

theorem decodeChunks_short {payload : Bytes} (short : payload.length < 36) : decodeChunks payload = ([],false) := by
  rw [decodeChunks]
  split
  · rename_i header
    have size := congrArg List.length header
    simp only [List.length_drop,List.length_cons] at size
    omega
  · rfl

-- Less than a header behind the records is not looked at.
theorem decodeChunks_tail (records : List (Digest × Bytes)) (small : ∀ r ∈ records, r.2.length < 2^32) {tail : Bytes}
    (short : tail.length < 36) : decodeChunks (records.flatMap (fun r => encodeChunk r.1 r.2) ++ tail) =
      (records.map (fun r => ⟨0,r.2,r.1⟩),false) := by
  induction records with
  | nil => exact decodeChunks_short short
  | cons r rest ih =>
    rw [List.flatMap_cons,List.append_assoc,decodeChunks_step r.1 r.2 (small r List.mem_cons_self),
      ih (fun r member => small r (List.mem_cons_of_mem _ member))]
    rfl

theorem decodeChunks_records (records : List (Digest × Bytes)) (small : ∀ r ∈ records, r.2.length < 2^32) :
    decodeChunks (records.flatMap (fun r => encodeChunk r.1 r.2)) = (records.map (fun r => ⟨0,r.2,r.1⟩),false) := by
  have decoded := decodeChunks_tail records small (show ([] : Bytes).length < 36 by decide)
  rw [List.append_nil] at decoded
  exact decoded

theorem materializeAll_files (e : SyncEngine) (paths : List Bytes) :
    ∃ files, (materializeAll e paths).1 = e.withFiles files := by
  induction paths generalizing e with
  | nil => exact ⟨e.disk.files,rfl⟩
  | cons path rest ih =>
    obtain ⟨files,here⟩ := e.materialize_files path
    unfold materializeAll
    split
    · rename_i next x failed
      rw [failed] at here
      exact ⟨files,here⟩
    · rename_i next _ done
      rw [done] at here
      obtain ⟨later,there⟩ := ih next
      cases here
      exact ⟨later,there⟩

-- A run of materialize that goes through wrote what each of the paths holds.
theorem materializeAll_content {e : SyncEngine} (done : materializeAll e paths = (next,.ok ())) :
    (∃ files, next = e.withFiles files ∧ ∀ path, files.find path =
      if path ∈ paths then (e.content path).or (e.disk.files.find path) else e.disk.files.find path) ∧
    ∀ path ∈ paths, ∀ entry, e.store.get path = some entry → entry.hasContent = true →
      ∃ bytes, e.blobs.reassemble entry.chunkHashes = .ok bytes := by
  induction paths generalizing e with
  | nil =>
    have unmoved : e = next := congrArg Prod.fst done
    subst unmoved
    exact ⟨⟨e.disk.files,rfl,fun path => rfl⟩,nofun⟩
  | cons first rest ih =>
    unfold materializeAll at done
    split at done
    · cases done
    · rename_i middle _ here
      obtain ⟨⟨files,rfl,wrote⟩,read⟩ := SyncEngine.materialize_content here
      obtain ⟨⟨later,rfl,more⟩,others⟩ := ih done
      refine ⟨⟨later,rfl,?_⟩,?_⟩
      · intro path
        have before : (e.withFiles files).disk.files.find path = files.find path := rfl
        have unchanged : (e.withFiles files).content path = e.content path := rfl
        rw [more path,before,unchanged,wrote path]
        by_cases again : path ∈ rest
        · by_cases equal : path = first
          · subst equal
            simp only [again,if_true,List.mem_cons_self]
            cases e.content path with
            | none => rfl
            | some bytes => rfl
          · simp [again,equal]
        · by_cases equal : path = first
          · subst equal
            simp [again]
          · simp [again,equal]
      · intro path member entry held content
        rcases List.mem_cons.mp member with rfl | inside
        · exact read entry held content
        · exact others path inside entry held content

theorem materializeAll_keeps {e : SyncEngine} (keeps : e.Keeps (· = false)) (paths : List Bytes) :
    ∃ files, materializeAll e paths = (e.withFiles files,.ok ()) := by
  induction paths generalizing e with
  | nil => exact ⟨e.disk.files,rfl⟩
  | cons path rest ih =>
    obtain ⟨files,here⟩ := SyncEngine.materialize_keeps keeps path
    have still : (e.withFiles files).Keeps (· = false) := keeps
    obtain ⟨later,there⟩ := ih still
    rw [materializeAll,here]
    exact ⟨later,there⟩

end Network
end P2PSync
