import P2PSync.Lib.Runs
import P2PSync.Exchange

namespace P2PSync.Fidelity
open SyncEngine Network EntryCodec

-- An engine, and for each path the ingest_file call that made the version there.
-- Calls are named by their place in the run.
structure Peer where
  engine : SyncEngine
  maker : Bytes → Option ℕ

structure Mesh (ι : Type) where
  peers : ι → Peer
  calls : List Bytes

inductive Action (ι : Type) where
  | ingest (i : ι) (path bytes : Bytes)
  | delete (i : ι) (path : Bytes)
  | session (i j : ι) (forI forJ : Link)
  | restart (i : ι)

-- A version that a merge takes keeps its maker where it lands.
def carry (theirs : Bytes → Option ℕ) : (Bytes → Option ℕ) → CrdtStore → List FileEntry → Bytes → Option ℕ
  | maker,_,[] => maker
  | maker,s,remote :: rest =>
    let (result,next) := s.mergeRemote remote
    carry theirs (match result.landing with
      | none => maker
      | some path => Function.update maker path (theirs remote.path)) next rest

def sync (p other : Peer) (link : Link) : Peer :=
  ⟨((runSyncSession p.engine).run link).engine,carry other.maker p.maker p.engine.store other.engine.store.allEntries⟩

variable {ι : Type} [DecidableEq ι]

def initial (ids : ι → Bytes) : Mesh ι := ⟨fun i => ⟨fresh (ids i),fun _ => none⟩,[]⟩

-- A restart whose journal could not be read would stop the process; restart_exact
-- shows that it never comes to that.
def step (ids : ι → Bytes) (t : Mesh ι) : Action ι → Mesh ι
  | .ingest i path bytes =>
    let p := t.peers i
    ⟨Function.update t.peers i ⟨(p.engine.ingestFile path bytes).1,Function.update p.maker path (some t.calls.length)⟩,
      t.calls ++ [bytes]⟩
  | .delete i path =>
    let p := t.peers i
    ⟨Function.update t.peers i ⟨p.engine.deleteFile path,Function.update p.maker path none⟩,t.calls⟩
  | .session i j forI forJ =>
    let (p,q) := (t.peers i,t.peers j)
    ⟨Function.update (Function.update t.peers i (sync p q forI)) j (sync q p forJ),t.calls⟩
  | .restart i =>
    let p := t.peers i
    match SyncEngine.start (ids i) p.engine.disk with
    | .error _ => t
    | .ok e => ⟨Function.update t.peers i ⟨e,p.maker⟩,t.calls⟩

omit [DecidableEq ι] in
def Honest (t : Mesh ι) : Action ι → Prop
  | .ingest _ path _ => Plain path
  | .delete _ path => Plain path
  | .session i j forI forJ => i ≠ j ∧ Complete (t.peers i).engine (t.peers j).engine forI forJ
  | .restart _ => True

-- The chunks of every file that was ever ingested.
def pieces (calls : List Bytes) : List Bytes :=
  calls.flatMap (fun bytes => (Chunker.standard.chunk bytes).map Chunk.data)

def CollisionFree (calls : List Bytes) : Prop :=
  ∀ x ∈ pieces calls, ∀ y ∈ pieces calls, Sha256.hash x = Sha256.hash y → x = y

def Made (calls : List Bytes) (maker : Option ℕ) (e : FileEntry) : Prop :=
  e.deleted = false → ∃ n bytes, maker = some n ∧ calls[n]? = some bytes ∧
    e.chunkHashes = (Chunker.standard.chunk bytes).map Chunk.hash

def Genuine (calls : List Bytes) (blobs : FileStore) : Prop :=
  ∀ name data, blobs.chunks.find name = some data → ∃ bytes ∈ calls, ∃ c ∈ Chunker.standard.chunk bytes,
    FileStore.chunkPath c.hash = name ∧ c.data = data

structure Sound (node : Bytes) (calls : List Bytes) (p : Peer) : Prop where
  named : p.engine.store.nodeId = node
  plain : ∀ path e, p.engine.store.get path = some e → PlainEntry e
  made : ∀ path e, p.engine.store.get path = some e → Made calls (p.maker path) e
  whole : p.engine.Whole
  genuine : Genuine calls p.engine.blobs
  journaled : p.engine.disk.journal = some (journalText p.engine.store) ∨
    (p.engine.disk.journal = none ∧ p.engine.store = .new node)

theorem sound_fresh (node : Bytes) : Sound node [] ⟨fresh node,fun _ => none⟩ :=
  ⟨rfl,nofun,nofun,nofun,nofun,.inr ⟨rfl,rfl⟩⟩

theorem made_extend (more : List Bytes) (made : Made calls maker e) : Made (calls ++ more) maker e := by
  intro live
  obtain ⟨n,bytes,tagged,called,hashes⟩ := made live
  obtain ⟨bound,_⟩ := List.getElem?_eq_some_iff.mp called
  exact ⟨n,bytes,tagged,by rw [List.getElem?_append_left bound,called],hashes⟩

theorem genuine_extend {blobs : FileStore} (more : List Bytes) (genuine : Genuine calls blobs) :
    Genuine (calls ++ more) blobs := by
  intro name data found
  obtain ⟨bytes,called,chunk⟩ := genuine name data found
  exact ⟨bytes,List.mem_append_left _ called,chunk⟩

theorem sound_extend (more : List Bytes) (sound : Sound node calls p) : Sound node (calls ++ more) p :=
  ⟨sound.named,sound.plain,fun path e held => made_extend more (sound.made path e held),sound.whole,
    genuine_extend more sound.genuine,sound.journaled⟩

theorem genuine_putChunks {blobs : FileStore} {chunks : List Chunk} (genuine : Genuine calls blobs)
    (from_calls : ∀ c ∈ chunks, ∃ bytes ∈ calls, ∃ d ∈ Chunker.standard.chunk bytes, d.hash = c.hash ∧ d.data = c.data) :
    Genuine calls (chunks.foldl FileStore.putChunk blobs) := by
  intro name data found
  rcases FileStore.find_putChunks blobs chunks name data found with before | ⟨c,⟨_,front,back,split,_⟩,named,same⟩
  · exact genuine name data before
  · obtain ⟨bytes,called,d,inside,hash,content⟩ := from_calls c (by simp [split])
    exact ⟨bytes,called,d,inside,by rw [hash,named],by rw [content,same]⟩

theorem made_store {s : CrdtStore} {maker : Bytes → Option ℕ}
    (made : ∀ path e, s.get path = some e → Made calls (maker path) e) (new : Made calls call entry) :
    ∀ path e, (s.store entry).get path = some e → Made calls (Function.update maker entry.path call path) e := by
  intro path e held
  rw [CrdtStore.get_store] at held
  split at held
  · rename_i here
    cases held
    subst here
    rw [Function.update_self]
    exact new
  · rename_i away
    rw [Function.update_of_ne (Ne.symm away)]
    exact made path e held

theorem sound_ingest (own : Plain node) (sound : Sound node calls p) (path bytes : Bytes) (plain : Plain path) :
    Sound node (calls ++ [bytes])
      ⟨(p.engine.ingestFile path bytes).1,Function.update p.maker path (some calls.length)⟩ := by
  obtain ⟨files,done⟩ := ingestFile_whole sound.whole path bytes
  have extended := sound_extend [bytes] sound
  have writer : Plain p.engine.store.nodeId := sound.named ▸ own
  rw [done]
  refine ⟨sound.named,?_,?_,whole_ingested sound.whole path bytes,?_,.inl rfl⟩
  · have nodes := nodes_increment (fun path e held => (sound.plain path e held).nodes) writer path
    exact CrdtStore.entries_store sound.plain ⟨plain,writer,nodes⟩
  · refine made_store extended.made ?_
    exact fun _ => ⟨calls.length,bytes,rfl,by simp,rfl⟩
  · refine genuine_putChunks extended.genuine ?_
    intro c inside
    exact ⟨bytes,by simp,c,inside,rfl,rfl⟩

theorem sound_delete (own : Plain node) (sound : Sound node calls p) (path : Bytes) (plain : Plain path) :
    Sound node calls ⟨p.engine.deleteFile path,Function.update p.maker path none⟩ := by
  have writer : Plain p.engine.store.nodeId := sound.named ▸ own
  refine ⟨sound.named,?_,?_,whole_deleteFile sound.whole path,sound.genuine,.inl rfl⟩
  · refine CrdtStore.entries_store sound.plain ⟨plain,writer,?_⟩
    rw [CrdtStore.deleteEntry_clock]
    exact nodes_increment (fun path e held => (sound.plain path e held).nodes) writer path
  · refine made_store sound.made ?_
    exact fun live => nomatch live

theorem Sound.listed (sound : Sound node calls p) : ∀ e ∈ p.engine.store.allEntries, PlainEntry e :=
  fun e member => sound.plain e.path e (CrdtStore.mem_allEntries.mp member)

-- The constructor finds in the journal the store the engine had.
theorem restart_exact (sound : Sound node calls p) : SyncEngine.start node p.engine.disk = .ok p.engine := by
  unfold SyncEngine.start
  rcases sound.journaled with saved | ⟨unsaved,empty⟩
  · have loaded := loadJournal_journalText sound.listed
    rw [sound.named] at loaded
    rw [saved]
    dsimp only
    rw [loaded]
    rfl
  · rw [unsaved]
    dsimp only
    rw [← empty]

-- What the merge loop leaves: every version still has the maker it came with.
theorem made_merging (blobs : FileStore) (entries : List FileEntry) (m : Merging) (maker : Bytes → Option ℕ)
    (here : ∀ path e, m.store.get path = some e → Made calls (maker path) e)
    (there : ∀ re ∈ entries, Made calls (theirs re.path) re) :
    ∀ path e, (entries.foldl (mergeEntry blobs) m).store.get path = some e → Made calls (carry theirs maker m.store entries path) e := by
  induction entries generalizing m maker with
  | nil => exact here
  | cons re rest ih =>
    have made := there re List.mem_cons_self
    have next := ih (mergeEntry blobs m re) (match (m.store.mergeRemote re).1.landing with
      | none => maker
      | some path => Function.update maker path (theirs re.path)) ?_ (fun re member => there re (List.mem_cons_of_mem _ member))
    · rw [mergeEntry_store] at next
      exact next
    · intro path e held
      rw [mergeEntry_store] at held
      rcases CrdtStore.get_mergeRemote held with ⟨lands,from_remote⟩ | ⟨away,old,before,from_old⟩
      · rw [lands]
        simp only [Function.update_self]
        rcases from_remote with rfl | rfl
        · exact made
        · exact made
      · have oldMade := here path old before
        have same : (match (m.store.mergeRemote re).1.landing with
          | none => maker
          | some path => Function.update maker path (theirs re.path)) path = maker path := by
          cases landing : (m.store.mergeRemote re).1.landing with
          | none => rfl
          | some place =>
            rw [landing] at away
            exact Function.update_of_ne (fun equal => away (congrArg some equal.symm)) _ _
        rw [same]
        rcases from_old with rfl | rfl
        · exact oldMade
        · exact oldMade

theorem nodeId_merging (blobs : FileStore) (entries : List FileEntry) (m : Merging) :
    (entries.foldl (mergeEntry blobs) m).store.nodeId = m.store.nodeId := by
  induction entries generalizing m with
  | nil => rfl
  | cons re rest ih =>
    rw [List.foldl_cons,ih,mergeEntry_store]
    exact CrdtStore.nodeId_mergeRemote m.store re

theorem Sound.legible (own : Plain node) (sound : Sound node calls p) : Legible p.engine :=
  ⟨by rw [sound.named]; exact own.newline,sound.listed⟩

theorem sound_sync (ownQ : Plain other) (sound : Sound node calls p) (soundQ : Sound other calls q)
    (complete : Complete p.engine q.engine forP forQ) : Sound node calls (sync p q forP) := by
  obtain ⟨needed,files,asking,left⟩ := complete.left (soundQ.legible ownQ).readable
  have plain := merging_entries PlainEntry (fun _ => plain_forkOf) (fun _ _ => plain_absorbed) p.engine.blobs
    q.engine.store.allEntries ⟨p.engine.store,.empty,[],⟨p.engine.store.allEntries.length,0,0,0,0,0⟩⟩
    sound.plain soundQ.listed
  have made := made_merging p.engine.blobs q.engine.store.allEntries
    ⟨p.engine.store,.empty,[],⟨p.engine.store.allEntries.length,0,0,0,0,0⟩⟩ p.maker sound.made
    (fun re member => soundQ.made re.path re (CrdtStore.mem_allEntries.mp member))
  unfold sync
  rw [left]
  refine ⟨?_,plain,made,
    whole_fetched sound.whole soundQ.whole asking,?_,.inl rfl⟩
  · exact (nodeId_merging _ _ _).trans sound.named
  · refine genuine_putChunks sound.genuine ?_
    intro c member
    obtain ⟨_,_,stored⟩ := mem_granted.mp member
    obtain ⟨bytes,called,d,inside,named,same⟩ := soundQ.genuine _ _ stored
    exact ⟨bytes,called,d,inside,FileStore.chunkPath_injective named,same⟩

def Kept (ids : ι → Bytes) (t : Mesh ι) : Prop := ∀ i, Sound (ids i) t.calls (t.peers i)

theorem step_restart {ids : ι → Bytes} {t : Mesh ι} (sound : Sound (ids i) t.calls (t.peers i)) :
    step ids t (.restart i) = t := by
  simp only [step,restart_exact sound]
  rw [Function.update_eq_self]

-- What a step makes of one of the peers.
inductive Became (t : Mesh ι) (k : ι) : Action ι → Peer → Prop where
  | ingested : Became t k (.ingest k path bytes)
      ⟨((t.peers k).engine.ingestFile path bytes).1,Function.update (t.peers k).maker path (some t.calls.length)⟩
  | deleted : Became t k (.delete k path) ⟨(t.peers k).engine.deleteFile path,Function.update (t.peers k).maker path none⟩
  | synced (complete : Complete (t.peers k).engine (t.peers other).engine forK forOther) :
      Became t k (.session i j forI forJ) (sync (t.peers k) (t.peers other) forK)
  | idle : Became t k action (t.peers k)

theorem step_became {ids : ι → Bytes} {t : Mesh ι} {action : Action ι} (kept : Kept ids t) (honest : Honest t action) (k : ι) :
    Became t k action ((step ids t action).peers k) := by
  cases action with
  | ingest i path bytes =>
    by_cases actor : k = i
    · subst actor
      simp only [step,Function.update_self]
      exact .ingested
    · simp only [step,Function.update_of_ne actor]
      exact .idle
  | delete i path =>
    by_cases actor : k = i
    · subst actor
      simp only [step,Function.update_self]
      exact .deleted
    · simp only [step,Function.update_of_ne actor]
      exact .idle
  | session i j forI forJ =>
    obtain ⟨differ,complete⟩ := honest
    by_cases second : k = j
    · subst second
      simp only [step,Function.update_self]
      exact .synced complete.symm
    · simp only [step,Function.update_of_ne second]
      by_cases first : k = i
      · subst first
        rw [Function.update_self]
        exact .synced complete
      · rw [Function.update_of_ne first]
        exact .idle
  | restart i =>
    rw [step_restart (kept i)]
    exact .idle

omit [DecidableEq ι] in
def called : Action ι → List Bytes
  | .ingest _ _ bytes => [bytes]
  | _ => []

theorem step_calls (ids : ι → Bytes) (t : Mesh ι) (action : Action ι) : (step ids t action).calls = t.calls ++ called action := by
  cases action with
  | ingest i path bytes => rfl
  | delete i path => exact (List.append_nil t.calls).symm
  | session i j forI forJ => exact (List.append_nil t.calls).symm
  | restart i =>
    unfold step
    dsimp only
    split
    · exact (List.append_nil t.calls).symm
    · exact (List.append_nil t.calls).symm

theorem kept_step {ids : ι → Bytes} (own : ∀ i, Plain (ids i)) (t : Mesh ι) (action : Action ι) (kept : Kept ids t)
    (honest : Honest t action) : Kept ids (step ids t action) := by
  intro k
  rw [step_calls]
  have became := step_became kept honest k
  generalize (step ids t action).peers k = p at became ⊢
  cases became with
  | ingested => exact sound_ingest (own k) (kept k) _ _ honest
  | deleted => exact sound_extend [] (sound_delete (own k) (kept k) _ honest)
  | @synced other forK forOther i j forI forJ complete =>
    exact sound_extend [] (sound_sync (own other) (kept k) (kept other) complete)
  | idle => exact sound_extend (called action) (kept k)

theorem kept_run {ids : ι → Bytes} (own : ∀ i, Plain (ids i))
    (run : Runs (step ids) Honest (initial ids) actions t) : Kept ids t := by
  have initially : Kept ids (initial ids) := fun i => sound_fresh (ids i)
  exact run.invariant initially (kept_step own)

-- A live version's chunks are in the blob store with the bytes they were cut from.
theorem stored_exact (sound : Sound node calls p) (free : CollisionFree calls)
    (held : p.engine.store.get path = some e) (called : bytes ∈ calls)
    (hashes : e.chunkHashes = (Chunker.standard.chunk bytes).map Chunk.hash) :
    ∀ c ∈ Chunker.standard.chunk bytes, p.engine.blobs.chunks.find (FileStore.chunkPath c.hash) = some c.data := by
  intro c inside
  have has : p.engine.blobs.hasChunk c.hash = true :=
    sound.whole path e held c.hash (by rw [hashes]; exact List.mem_map_of_mem inside)
  obtain ⟨data,found⟩ := FileStore.hasChunk_iff.mp has
  obtain ⟨source,from_call,d,cut,named,rfl⟩ := sound.genuine _ _ found
  have digests : Sha256.hash d.data = Sha256.hash c.data := by
    rw [← Chunker.chunk_hash Chunker.standard source d cut,← Chunker.chunk_hash Chunker.standard bytes c inside]
    exact FileStore.chunkPath_injective named
  have same : d.data = c.data := free d.data
    (List.mem_flatMap.mpr ⟨source,from_call,List.mem_map_of_mem cut⟩) c.data
    (List.mem_flatMap.mpr ⟨bytes,called,List.mem_map_of_mem inside⟩) digests
  rw [found,same]

theorem content_fidelity (ids : ι → Bytes) (own : ∀ i, Plain (ids i)) (actions : List (Action ι)) (t : Mesh ι)
    (run : Runs (step ids) Honest (initial ids) actions t) (free : CollisionFree t.calls)
    (i : ι) (path : Bytes) (e : FileEntry) (held : (t.peers i).engine.store.get path = some e) (live : e.deleted = false) :
    ∃ n bytes, (t.peers i).maker path = some n ∧ t.calls[n]? = some bytes ∧
      (t.peers i).engine.blobs.reassemble e.chunkHashes = .ok bytes := by
  have sound := kept_run own run i
  obtain ⟨n,bytes,made,called,hashes⟩ := sound.made path e held live
  have stored := stored_exact sound free held (List.mem_of_getElem? called) hashes
  refine ⟨n,bytes,made,called,?_⟩
  rw [hashes,FileStore.reassemble_chunks stored,Chunker.chunk_data]

def pair : Fin 2 → Bytes := ![ascii "A",ascii "B"]

theorem plain_pair : ∀ i, Plain (pair i) := by
  intro i
  fin_cases i
  · exact ⟨by decide,by decide,by decide,by decide⟩
  · exact ⟨by decide,by decide,by decide,by decide⟩

def added : Mesh (Fin 2) := step pair (initial pair) (.ingest 0 (ascii "a.txt") [7])

theorem added_run : Runs (step pair) Honest (initial pair) [.ingest 0 (ascii "a.txt") [7]] added := by
  have plain : Plain (ascii "a.txt") := ⟨by decide,by decide,by decide,by decide⟩
  have honest : Honest (initial pair) (.ingest 0 (ascii "a.txt") [7]) := plain
  exact .snoc .nil honest

theorem added_complete : ∃ forA forB, Complete (added.peers 0).engine (added.peers 1).engine forA forB := by
  have kept := kept_run plain_pair added_run
  obtain ⟨needed,theirs,asking,asked,complete⟩ := completes ((kept 0).legible (plain_pair 0)).readable
    ((kept 1).legible (plain_pair 1)).readable (kept 0).whole.keeps (kept 1).whole.keeps
  refine ⟨_,_,complete ?_⟩
  have nothing : (merging (added.peers 0).engine (added.peers 1).engine.store.allEntries).needed.keys.mapM hexToDigest =
      .ok [] := by decide +kernel
  have chunk : (merging (added.peers 1).engine (added.peers 0).engine.store.allEntries).needed.keys.mapM hexToDigest =
      .ok [Sha256.hash [7]] := by decide +kernel
  rw [nothing] at asking
  rw [chunk] at asked
  cases asking
  cases asked
  decide +kernel

theorem free_one_file : CollisionFree [[7]] := by
  have single : ∀ x ∈ pieces [[7]], x = [7] := by decide +kernel
  intro x hx y hy _
  rw [single x hx,single y hy]

theorem added_alive : ((added.peers 0).engine.store.get (ascii "a.txt")).map FileEntry.deleted = some false := by
  decide +kernel

-- One file, one session, and a restart of the node that got the file.
theorem content_fidelity_one_file : ∃ forA forB t e, Runs (step pair) Honest (initial pair)
      [.ingest 0 (ascii "a.txt") [7],.session 0 1 forA forB,.restart 1] t ∧
    (t.peers 1).engine.store.get (ascii "a.txt") = some e ∧ e.deleted = false ∧
    (t.peers 1).engine.blobs.reassemble e.chunkHashes = .ok [7] := by
  obtain ⟨forA,forB,complete⟩ := added_complete
  have honest : Honest added (.session 0 1 forA forB) := ⟨by decide,complete⟩
  have synced := Runs.snoc added_run honest
  have kept := kept_run plain_pair synced
  have again : Honest (step pair added (.session 0 1 forA forB)) (.restart 1) := trivial
  have run := Runs.snoc synced again
  have calls : (step pair added (.session 0 1 forA forB)).calls = [[7]] := rfl
  obtain ⟨needed,files,_,left⟩ := complete.symm.left ((kept_run plain_pair added_run 0).legible (plain_pair 0)).readable
  have engine : ((step pair added (.session 0 1 forA forB)).peers 1).engine =
      ((fetched (added.peers 1).engine (added.peers 0).engine needed).withFiles files).saveJournal := left
  have found : (merging (added.peers 1).engine (added.peers 0).engine.store.allEntries).store.get (ascii "a.txt") =
      (added.peers 0).engine.store.get (ascii "a.txt") := by decide +kernel
  obtain ⟨e,here,live⟩ := Option.map_eq_some_iff.mp added_alive
  have held : ((step pair added (.session 0 1 forA forB)).peers 1).engine.store.get (ascii "a.txt") = some e := by
    rw [engine,← here,← found]
    rfl
  rw [step_restart (kept 1)] at run
  obtain ⟨n,bytes,_,called,read⟩ := content_fidelity pair plain_pair _ _ run free_one_file 1 _ e held live
  rw [calls] at called
  cases List.mem_singleton.mp (List.mem_of_getElem? called)
  exact ⟨forA,forB,_,e,run,held,live,read⟩

end P2PSync.Fidelity
