import P2PSync.Lib.Runs
import P2PSync.Layout

namespace P2PSync.ContentAddressed
open Network SyncEngine Layout

-- Every chunk file holds bytes that hash to its name.
def Addressed (blobs : FileStore) : Prop :=
  ∀ hash bytes, blobs.chunks.find (FileStore.chunkPath hash) = some bytes → Sha256.hash bytes = hash

-- What a node does, and what its surroundings do meanwhile.
inductive Action where
  | ingest (path bytes : Bytes) (fate : Fate)
  | session (link : Link) (fate : Fate)

-- An ingest or session that throws leaves the engine as it was at the throw.
def step (site : Site) (e : SyncEngine) : Action → SyncEngine
  | .ingest path bytes fate => ingestAt site fate e path bytes
  | .session link fate => (sessionAt site fate e link).engine

-- What is ingested or lands with content is written away from the chunk files. The
-- records of a CHUNK_DATA frame that a session comes to end inside it and, wherever
-- they are written, carry the digest of their bytes.
def Truthful (site : Site) (e : SyncEngine) : Action → Prop
  | .ingest path bytes _ => bytes = [] ∨ site.Clear path
  | .session link _ => Tidy site.Clear e.store link ∧ ∀ entries data, link.Reaches entries data →
    ∀ c, e.blobs.Written (decodeChunks data).1 c → Sha256.hash c.data = c.hash

theorem addressed_putChunks {blobs : FileStore} {chunks : List Chunk} (addressed : Addressed blobs)
    (truthful : ∀ c, blobs.Written chunks c → Sha256.hash c.data = c.hash) :
    Addressed (chunks.foldl FileStore.putChunk blobs) := by
  intro hash bytes found
  rcases FileStore.find_putChunks blobs chunks _ _ found with before | ⟨c,written,name,rfl⟩
  · exact addressed hash bytes before
  · rw [truthful c written,FileStore.chunkPath_injective name]

theorem addressed_ingested (e : SyncEngine) (path bytes : Bytes) (addressed : Addressed e.blobs) :
    Addressed (e.ingested path bytes).blobs := by
  refine addressed_putChunks addressed ?_
  rintro c ⟨_,before,after,split,_⟩
  exact (Chunker.chunk_hash Chunker.standard bytes c (by simp [split])).symm

-- A file that is ingested is written only when it has bytes.
theorem written_ingested {site : Site} {e : SyncEngine} (clear : bytes = [] ∨ site.Clear path) : Written site.Clear (e.ingested path bytes) path := by
  intro entry held content
  rcases clear with rfl | clear
  · obtain rfl := Option.some.inj ((CrdtStore.get_store e.store _ path).symm.trans held |>.symm.trans (if_pos rfl))
    cases content
  · exact clear

theorem addressed_step (site : Site) (e : SyncEngine) (action : Action) (addressed : Addressed e.blobs)
    (truthful : Truthful site e action) : Addressed (step site e action).blobs := by
  cases action with
  | ingest path bytes fate =>
    have kept := (materializeAt_frame fate (written_ingested (e := e) truthful)).1
    have blobs : (ingestAt site fate e path bytes).blobs = (e.ingested path bytes).blobs := by
      unfold ingestAt
      split
      · rename_i next x failed
        rw [failed] at kept
        exact kept
      · rename_i next _ done
        rw [done] at kept
        exact kept
    rw [step,blobs]
    exact addressed_ingested e path bytes addressed
  | session link fate =>
    obtain ⟨tidy,records⟩ := truthful
    rcases sessionAt_blobs fate tidy with same | ⟨entries,data,reaches,fetched⟩
    · rw [step,same]
      exact addressed
    · rw [step,fetched]
      exact addressed_putChunks addressed (records entries data reaches)

def Sound (e : SyncEngine) : Prop := Addressed e.blobs

theorem blobs_addressed (site : Site) (nodeId : Bytes) (actions : List Action) (e : SyncEngine)
    (run : Runs (step site) (Truthful site) (fresh nodeId) actions e) : Addressed e.blobs := by
  have initially : Sound (fresh nodeId) := fun _ _ found => nomatch found
  have reached : Sound e := run.invariant initially (addressed_step site)
  exact reached

-- A peer with nothing to share that answers an empty request with records.
def recordsOnly (records : List (Digest × Bytes)) : Link :=
  ⟨wire [⟨frameManifest,[]⟩,⟨frameChunkRequest,[]⟩,
    ⟨frameChunkData,records.flatMap (fun r => encodeChunk r.1 r.2)⟩,⟨frameDone,[]⟩],false,4⟩

theorem recordsOnly_run (nodeId : Bytes) (records : List (Digest × Bytes))
    (small : (records.flatMap (fun r => encodeChunk r.1 r.2)).length < 2^32) :
    ((runSyncSession (fresh nodeId)).run (recordsOnly records)).engine.blobs =
      (decodeChunks (records.flatMap (fun r => encodeChunk r.1 r.2))).1.foldl FileStore.putChunk .empty := by
  have stream : (recordsOnly records).inbound = sendFrame ⟨frameManifest,[]⟩ ++ (sendFrame ⟨frameChunkRequest,[]⟩ ++
      (sendFrame ⟨frameChunkData,records.flatMap (fun r => encodeChunk r.1 r.2)⟩ ++ sendFrame ⟨frameDone,[]⟩)) := by
    simp [recordsOnly,wire]
  have link : recordsOnly records = ⟨(recordsOnly records).inbound,false,4⟩ := rfl
  have asked : mergeManifest (fresh nodeId) ⟨0,0,0,0,0,0⟩ [] =
      .send (fresh nodeId) ⟨frameChunkRequest,[]⟩
        (expect frameChunkRequest (ascii "expected CHUNK_REQUEST frame from peer") (fresh nodeId)
          (answerRequest (fresh nodeId) [] ⟨0,0,0,0,0,0⟩)) := rfl
  have answered : answerRequest (fresh nodeId) [] ⟨0,0,0,0,0,0⟩ [] =
      .send (fresh nodeId) ⟨frameChunkData,[]⟩
        (expect frameChunkData (ascii "expected CHUNK_DATA frame from peer") (fresh nodeId)
          (finishSession (fresh nodeId) [] ⟨0,0,0,0,0,0⟩)) := rfl
  have start : runSyncSession (fresh nodeId) = .send (fresh nodeId) ⟨frameManifest,serializeManifest (fresh nodeId)⟩
      (expect frameManifest (ascii "expected MANIFEST frame from peer") (fresh nodeId)
        (mergeManifest (fresh nodeId) ⟨0,0,0,0,0,0⟩)) := rfl
  have first := run_expect (fresh nodeId) (ascii "expected MANIFEST frame from peer")
    (mergeManifest (fresh nodeId) ⟨0,0,0,0,0,0⟩) ⟨frameManifest,[]⟩ (by simp)
  have second := run_expect (fresh nodeId) (ascii "expected CHUNK_REQUEST frame from peer")
    (answerRequest (fresh nodeId) [] ⟨0,0,0,0,0,0⟩) ⟨frameChunkRequest,[]⟩ (by simp)
  have third := run_expect (fresh nodeId) (ascii "expected CHUNK_DATA frame from peer")
    (finishSession (fresh nodeId) [] ⟨0,0,0,0,0,0⟩)
    ⟨frameChunkData,records.flatMap (fun r => encodeChunk r.1 r.2)⟩ small
  rw [link,stream,start]
  simp only [Session.run,first,asked,second,answered,third]
  exact (run_finish (fresh nodeId) [] _ _ _).blobs

theorem recordsOnly_reaches {records : List (Digest × Bytes)}
    (small : (records.flatMap (fun r => encodeChunk r.1 r.2)).length < 2^32) (reaches : (recordsOnly records).Reaches entries data) :
    entries = [] ∧ data = records.flatMap (fun r => encodeChunk r.1 r.2) := by
  obtain ⟨_,manifest,request,first,second,last,hello,asks,arrived,listed,_⟩ := reaches
  have stream := recvFrame_wire ⟨frameManifest,[]⟩ [⟨frameChunkRequest,[]⟩,
    ⟨frameChunkData,records.flatMap (fun r => encodeChunk r.1 r.2)⟩,⟨frameDone,[]⟩] (by decide)
  cases Option.some.inj (stream.symm.trans hello)
  have second := recvFrame_wire ⟨frameChunkRequest,[]⟩ [⟨frameChunkData,records.flatMap (fun r => encodeChunk r.1 r.2)⟩,
    ⟨frameDone,[]⟩] (by decide)
  cases Option.some.inj (second.symm.trans asks)
  have third := recvFrame_wire ⟨frameChunkData,records.flatMap (fun r => encodeChunk r.1 r.2)⟩ [⟨frameDone,[]⟩] small
  cases Option.some.inj (third.symm.trans arrived)
  have nothing : parseManifest [] = .ok [] := by decide
  exact ⟨(Except.ok.inj (nothing.symm.trans listed)).symm,rfl⟩

theorem recordsOnly_tidy (records : List (Digest × Bytes)) (sized : ∀ r ∈ records, r.2.length < 2^32)
    (small : (records.flatMap (fun r => encodeChunk r.1 r.2)).length < 2^32) (wanted : Bytes → Prop) (s : CrdtStore) :
    Tidy wanted s (recordsOnly records) := by
  intro entries data reaches
  obtain ⟨rfl,rfl⟩ := recordsOnly_reaches small reaches
  refine ⟨by rw [decodeChunks_records records sized],?_⟩
  rintro path ⟨lands,_⟩
  cases lands

def forgery : List (Digest × Bytes) := [(.filled 1,[7]),(.filled 2,[7])]

-- One chunk under two names: whatever the digest of [7] is, one of them is wrong.
theorem forged_blobs_not_addressed : ∃ e, Runs (step home) (fun _ _ => True) (fresh (ascii "B"))
    [.session (recordsOnly forgery) .calm] e ∧ ¬ Addressed e.blobs := by
  refine ⟨_,Runs.free _ _,?_⟩
  intro addressed
  have plain := sessionAt_smooth (recordsOnly_tidy forgery (by decide) (by decide)
    (Smooth home .calm) (fresh (ascii "B")).store)
  have stored := recordsOnly_run (ascii "B") forgery (by decide)
  rw [decodeChunks_records forgery (by decide),← plain] at stored
  have first : Sha256.hash [7] = .filled 1 := addressed _ _ (by
    change (sessionAt home .calm (fresh (ascii "B")) (recordsOnly forgery)).engine.blobs.chunks.find _ = _
    rw [stored]
    decide +kernel)
  have second : Sha256.hash [7] = .filled 2 := addressed _ _ (by
    change (sessionAt home .calm (fresh (ascii "B")) (recordsOnly forgery)).engine.blobs.chunks.find _ = _
    rw [stored]
    decide +kernel)
  exact absurd (first.symm.trans second) (by decide)

theorem blobs_addressed_one_chunk : ∃ e, Runs (step home) (Truthful home) (fresh (ascii "B"))
      [.session (recordsOnly [(Sha256.hash [7],[7])]) .calm,.ingest (ascii "a.txt") [1,2,3] .calm] e ∧ Addressed e.blobs ∧
    (sessionAt home .calm (fresh (ascii "B")) (recordsOnly [(Sha256.hash [7],[7])])).engine.blobs.chunks.find
      (FileStore.chunkPath (Sha256.hash [7])) = some [7] := by
  have length : ([(Sha256.hash [7],[7])].flatMap (fun r => encodeChunk r.1 r.2)).length < 2^32 := by
    simp [encodeChunk,Sha256.wordBytes,Digest.size]
  have sized : ∀ r ∈ ([(Sha256.hash [7],[7])] : List (Digest × Bytes)), r.2.length < 2^32 := by simp
  have plain := sessionAt_smooth (recordsOnly_tidy _ sized length (Smooth home .calm) (fresh (ascii "B")).store)
  have stored := recordsOnly_run (ascii "B") [(Sha256.hash [7],[7])] length
  rw [decodeChunks_records _ sized,← plain] at stored
  have truthful : Truthful home (fresh (ascii "B")) (.session (recordsOnly [(Sha256.hash [7],[7])]) .calm) := by
    refine ⟨recordsOnly_tidy _ sized length home.Clear _,?_⟩
    intro entries data reaches c written
    obtain ⟨_,rfl⟩ := recordsOnly_reaches length reaches
    rw [decodeChunks_records _ sized] at written
    obtain ⟨_,before,after,split,_⟩ := written
    have member : c ∈ before ++ c :: after := by simp
    rw [← split] at member
    cases List.mem_singleton.mp member
    rfl
  have local_edit : Truthful home (step home (fresh (ascii "B")) (.session (recordsOnly [(Sha256.hash [7],[7])]) .calm))
      (.ingest (ascii "a.txt") [1,2,3] .calm) := .inr (by decide +kernel)
  have run := Runs.snoc (Runs.snoc Runs.nil truthful) local_edit
  refine ⟨_,run,blobs_addressed _ _ _ _ run,?_⟩
  rw [stored]
  exact (FileStore.find_putChunk .empty ⟨0,[7],Sha256.hash [7]⟩ _).trans (if_pos ⟨rfl,rfl⟩)

end P2PSync.ContentAddressed
