import P2PSync.Fidelity

namespace P2PSync.WellFormed
open SyncEngine Network EntryCodec Fidelity

-- The root over a list of digests, halves first, apart from any tree.
def rootOver : List Digest → Digest
  | [] => .zero
  | [hash] => hash
  | first :: second :: rest =>
    let hashes := first :: second :: rest
    Sha256.combine (rootOver (hashes.take (hashes.length/2))) (rootOver (hashes.drop (hashes.length/2)))
termination_by hashes => hashes.length
decreasing_by
  · simp only [List.length_take,List.length_cons]
    omega
  · simp only [List.length_drop,List.length_cons]
    omega

theorem rootOver_halves (hashes : List Digest) (several : 2 ≤ hashes.length) :
    rootOver hashes = Sha256.combine (rootOver (hashes.take (hashes.length/2))) (rootOver (hashes.drop (hashes.length/2))) := by
  match hashes with
  | [] => cases several
  | [_] =>
    simp only [List.length_singleton] at several
    omega
  | first :: second :: rest => rw [rootOver]

theorem buildRecursive_root (chunks : List Chunk) (lo hi : ℕ) (some : lo < hi) (within : hi ≤ chunks.length) :
    (MerkleTree.buildRecursive chunks lo hi some within).hash = rootOver (((chunks.map Chunk.hash).drop lo).take (hi - lo)) := by
  fun_induction MerkleTree.buildRecursive chunks lo hi some within with
  | case1 lo hi some within single =>
    have inside : lo < (chunks.map Chunk.hash).length := by
      rw [List.length_map]
      omega
    rw [single,List.drop_eq_getElem_cons inside,List.take_succ_cons,List.take_zero,List.getElem_map,rootOver]
    rfl
  | case2 lo hi some within more mid left right ihl ihr =>
    have size : (((chunks.map Chunk.hash).drop lo).take (hi - lo)).length = hi - lo := by
      rw [List.length_take,List.length_drop,List.length_map]
      omega
    have front : (((chunks.map Chunk.hash).drop lo).take (hi - lo)).take ((hi - lo)/2) =
        ((chunks.map Chunk.hash).drop lo).take (mid - lo) := by
      rw [List.take_take]
      congr 1
      omega
    have back : (((chunks.map Chunk.hash).drop lo).take (hi - lo)).drop ((hi - lo)/2) =
        ((chunks.map Chunk.hash).drop mid).take (hi - mid) := by
      rw [List.drop_take,List.drop_drop]
      congr 1
      omega
    rw [rootOver_halves _ (by omega),size,front,back,← ihl,← ihr]
    rfl

theorem build_root (chunks : List Chunk) : (MerkleTree.build chunks).root.getD .zero = rootOver (chunks.map Chunk.hash) := by
  unfold MerkleTree.build
  split
  · rename_i some
    have recursive := buildRecursive_root chunks 0 chunks.length some (le_refl _)
    rw [List.drop_zero,Nat.sub_zero,List.take_of_length_le (by rw [List.length_map])] at recursive
    exact recursive
  · rename_i none
    have empty : chunks = [] := List.length_eq_zero_iff.mp (by omega)
    subst empty
    rw [List.map_nil,rootOver]
    rfl

theorem foldl_size (chunks : List Chunk) (start : UInt64) :
    chunks.foldl (fun total c => total + UInt64.ofNat c.data.length) start =
      start + UInt64.ofNat (chunks.flatMap Chunk.data).length := by
  induction chunks generalizing start with
  | nil => simp
  | cons c rest ih => rw [List.foldl_cons,ih,List.flatMap_cons,List.length_append,UInt64.ofNat_add,UInt64.add_assoc]

-- An entry in a run with these ingest_file calls and so many edits.
structure Formed (calls : List Bytes) (edits : ℕ) (e : FileEntry) : Prop where
  bare : e.deleted = true → e.chunkHashes = []
  live : e.deleted = false → e.merkleRoot = rootOver e.chunkHashes ∧ ∃ bytes ∈ calls,
    e.chunkHashes = (Chunker.standard.chunk bytes).map Chunk.hash ∧ e.size = UInt64.ofNat bytes.length
  bounded : ∀ node, e.clock.counts node ≤ edits
  written : 1 ≤ e.clock.counts e.lastWriter

theorem Formed.later (formed : Formed calls edits e) (more : List Bytes) (longer : edits ≤ total) : Formed (calls ++ more) total e := by
  refine ⟨formed.bare,?_,fun node => (formed.bounded node).trans longer,formed.written⟩
  intro alive
  obtain ⟨root,bytes,called,made⟩ := formed.live alive
  exact ⟨root,bytes,List.mem_append_left _ called,made⟩

theorem formed_forkOf (formed : Formed calls edits e) : Formed calls edits (CrdtStore.forkOf e) :=
  ⟨formed.bare,formed.live,formed.bounded,formed.written⟩

theorem formed_absorbed (formed : Formed calls edits e) (theirs : Formed calls edits re) :
    Formed calls edits { e with clock := e.clock.merge re.clock } := by
  refine ⟨formed.bare,formed.live,?_,?_⟩
  · intro node
    rw [VectorClock.counts_merge]
    exact max_le (formed.bounded node) (theirs.bounded node)
  · rw [VectorClock.counts_merge]
    exact le_max_of_le_left formed.written

-- The clock of a local edit: one more than before at the own node, at most one more anywhere.
theorem edit_clock {s : CrdtStore} (formed : ∀ path e, s.get path = some e → Formed calls edits e) (room : edits + 1 < 2^64)
    (path : Bytes) : (∀ node, ((s.clockAt path).increment s.nodeId).counts node ≤ edits + 1) ∧
      1 ≤ ((s.clockAt path).increment s.nodeId).counts s.nodeId := by
  have before : ∀ node, (s.clockAt path).counts node ≤ edits := by
    intro node
    cases held : s.get path with
    | none =>
      rw [CrdtStore.clockAt_absent held]
      exact Nat.zero_le edits
    | some e =>
      rw [CrdtStore.clockAt_held held]
      exact (formed path e held).bounded node
  have own := before s.nodeId
  rw [VectorClock.counts_increment _ _ (by omega)]
  constructor
  · intro node
    by_cases here : node = s.nodeId
    · subst here
      rw [Function.update_self]
      omega
    · rw [Function.update_of_ne here]
      exact (before node).trans (Nat.le_succ edits)
  · rw [Function.update_self]
    omega

theorem formed_ingested {e : SyncEngine} (formed : ∀ path entry, e.store.get path = some entry → Formed calls edits entry)
    (room : edits + 1 < 2^64) (path bytes : Bytes) :
    ∀ at_path entry, (e.ingested path bytes).store.get at_path = some entry → Formed (calls ++ [bytes]) (edits + 1) entry := by
  obtain ⟨bounded,written⟩ := edit_clock formed room path
  refine CrdtStore.entries_store (fun path entry held => (formed path entry held).later [bytes] (Nat.le_succ edits)) ⟨nofun,?_,bounded,written⟩
  intro _
  refine ⟨build_root _,bytes,by simp,rfl,?_⟩
  change (Chunker.standard.chunk bytes).foldl (fun total c => total + UInt64.ofNat c.data.length) 0 = _
  rw [foldl_size,Chunker.chunk_data,UInt64.zero_add]

theorem formed_deleted {s : CrdtStore} (formed : ∀ path e, s.get path = some e → Formed calls edits e) (room : edits + 1 < 2^64)
    (path : Bytes) : ∀ at_path entry, (s.deleteLocal path).get at_path = some entry → Formed calls (edits + 1) entry := by
  obtain ⟨bounded,written⟩ := edit_clock formed room path
  rw [← CrdtStore.deleteEntry_clock] at bounded written
  refine CrdtStore.entries_store ?_ ⟨fun _ => rfl,nofun,bounded,written⟩
  intro path entry held
  have kept := (formed path entry held).later [] (Nat.le_succ edits)
  rw [List.append_nil] at kept
  exact kept

variable {ι : Type} [DecidableEq ι]

def isEdit : Action ι → Bool
  | .ingest _ _ _ => true
  | .delete _ _ => true
  | .session _ _ _ _ => false
  | .restart _ => false

def AllFormed (edits : ℕ) (t : Mesh ι) : Prop :=
  ∀ i path e, (t.peers i).engine.store.get path = some e → Formed t.calls edits e

theorem formed_sync {p q : Peer} (ownQ : Plain other) (soundQ : Sound other calls q)
    (formed : ∀ path e, p.engine.store.get path = some e → Formed calls edits e)
    (theirs : ∀ path e, q.engine.store.get path = some e → Formed calls edits e)
    (complete : Complete p.engine q.engine forP forQ) :
    ∀ path e, (sync p q forP).engine.store.get path = some e → Formed calls edits e := by
  obtain ⟨needed,files,_,left⟩ := complete.left (soundQ.legible ownQ).readable
  unfold sync
  rw [left]
  exact merging_entries (Formed calls edits) (fun _ => formed_forkOf) (fun _ _ => formed_absorbed) p.engine.blobs
    q.engine.store.allEntries ⟨p.engine.store,.empty,[],⟨p.engine.store.allEntries.length,0,0,0,0,0⟩⟩ formed
    (fun re listed => theirs re.path re (CrdtStore.mem_allEntries.mp listed))

theorem formed_step {ids : ι → Bytes} (own : ∀ i, Plain (ids i)) (t : Mesh ι) (action : Action ι) (kept : Kept ids t)
    (honest : Honest t action) (formed : AllFormed edits t) (room : edits + (isEdit action).toNat < 2^64) :
    AllFormed (edits + (isEdit action).toNat) (step ids t action) := by
  intro k
  rw [step_calls]
  have became := step_became kept honest k
  generalize (step ids t action).peers k = p at became ⊢
  cases became with
  | @ingested path bytes =>
    obtain ⟨files,done⟩ := ingestFile_whole (kept k).whole path bytes
    rw [done]
    exact formed_ingested (formed k) room path bytes
  | @deleted path =>
    intro at_path e held
    exact (formed_deleted (formed k) room path at_path e held).later [] (le_refl _)
  | @synced other forK forOther i j forI forJ complete =>
    intro path e held
    exact (formed_sync (own other) (kept other) (formed k) (formed other) complete path e held).later [] (le_refl _)
  | idle => exact fun path e held => (formed k path e held).later (called action) (Nat.le_add_right _ _)

theorem formed_run {ids : ι → Bytes} (own : ∀ i, Plain (ids i)) (run : Runs (step ids) Honest (initial ids) actions t)
    (few : actions.countP isEdit < 2^64) : AllFormed (actions.countP isEdit) t := by
  induction run with
  | nil => exact fun _ => nofun
  | @snoc before s action prior honest ih =>
    have counts : (before ++ [action]).countP isEdit = before.countP isEdit + (isEdit action).toNat := by
      rw [List.countP_append]
      cases edit : isEdit action with
      | true => simp [edit]
      | false => simp [edit]
    rw [counts] at few ⊢
    exact formed_step own s action (kept_run own prior) honest (ih (by omega)) few

theorem entries_well_formed (ids : ι → Bytes) (own : ∀ i, Plain (ids i)) (actions : List (Action ι)) (t : Mesh ι)
    (run : Runs (step ids) Honest (initial ids) actions t) (free : CollisionFree t.calls)
    (sized : ∀ bytes ∈ t.calls, bytes.length < 2^64) (few : actions.countP isEdit < 2^64)
    (i : ι) (k : Bytes) (e : FileEntry) (held : (t.peers i).engine.store.get k = some e) :
    e.path = k ∧ (e.deleted = true → e.chunkHashes = []) ∧
    (e.deleted = false → e.merkleRoot = rootOver e.chunkHashes ∧
      ∃ bytes, (t.peers i).engine.blobs.reassemble e.chunkHashes = .ok bytes ∧ e.size.toNat = bytes.length) ∧
    1 ≤ (e.clock.get e.lastWriter).toNat := by
  have formed := formed_run own run few i k e held
  refine ⟨CrdtStore.get_path held,formed.bare,?_,formed.written⟩
  intro live
  obtain ⟨root,bytes,called,hashes,size⟩ := formed.live live
  have stored := stored_exact (kept_run own run i) free held called hashes
  refine ⟨root,bytes,?_,?_⟩
  · rw [hashes,FileStore.reassemble_chunks stored,Chunker.chunk_data]
  · rw [size,UInt64.toNat_ofNat',Nat.mod_eq_of_lt (sized bytes called)]

-- A second node ingests its own draft of the file.
def drafted (second : Fin 2) : Mesh (Fin 2) := step pair added (.ingest second (ascii "a.txt") [8])

theorem drafted_run : Runs (step pair) Honest (initial pair)
    [.ingest 0 (ascii "a.txt") [7],.ingest 1 (ascii "a.txt") [8]] (drafted 1) := by
  have plain : Plain (ascii "a.txt") := ⟨by decide,by decide,by decide,by decide⟩
  have honest : Honest added (.ingest 1 (ascii "a.txt") [8]) := plain
  exact .snoc added_run honest

-- What the two nodes ask for, how long their frames are, and the fork of the first.
theorem drafted_asks :
    (merging ((drafted 1).peers 0).engine ((drafted 1).peers 1).engine.store.allEntries).needed.keys.mapM hexToDigest = .ok [Sha256.hash [8]] ∧
    (merging ((drafted 1).peers 1).engine ((drafted 1).peers 0).engine.store.allEntries).needed.keys.mapM hexToDigest = .ok [Sha256.hash [7]] ∧
    (∀ frame ∈ script ((drafted 1).peers 0).engine [Sha256.hash [8]] [Sha256.hash [7]] ++
      script ((drafted 1).peers 1).engine [Sha256.hash [7]] [Sha256.hash [8]], frame.payload.length < 2^32) ∧
    ((merging ((drafted 1).peers 0).engine ((drafted 1).peers 1).engine.store.allEntries).store.get
      (ascii "a.conflict-B.txt")).map FileEntry.deleted = some false := by decide +kernel

theorem drafted_complete : ∃ forA forB, Complete ((drafted 1).peers 0).engine ((drafted 1).peers 1).engine forA forB := by
  have kept := kept_run plain_pair drafted_run
  obtain ⟨needed,theirs,asking,asked,complete⟩ := completes ((kept 0).legible (plain_pair 0)).readable
    ((kept 1).legible (plain_pair 1)).readable (kept 0).whole.keeps (kept 1).whole.keeps
  obtain ⟨eight,seven,small,_⟩ := drafted_asks
  rw [eight] at asking
  rw [seven] at asked
  cases asking
  cases asked
  exact ⟨_,_,complete small⟩

theorem free_drafts : CollisionFree [[7],[8]] := by
  have only : ∀ x ∈ pieces [[7],[8]], x = [7] ∨ x = [8] := by decide +kernel
  have apart : Sha256.hash [7] ≠ Sha256.hash [8] := by decide +kernel
  intro x hx y hy same
  rcases only x hx with rfl | rfl
  · rcases only y hy with rfl | rfl
    · rfl
    · exact absurd same apart
  · rcases only y hy with rfl | rfl
    · exact absurd same.symm apart
    · rfl

-- The draft of the other node is forked out, and the fork survives a restart.
theorem entries_well_formed_drafts : ∃ forA forB t e, Runs (step pair) Honest (initial pair)
      [.ingest 0 (ascii "a.txt") [7],.ingest 1 (ascii "a.txt") [8],.session 0 1 forA forB,.restart 0] t ∧
    (t.peers 0).engine.store.get (ascii "a.conflict-B.txt") = some e ∧ e.path = ascii "a.conflict-B.txt" ∧ e.deleted = false ∧
    e.merkleRoot = rootOver e.chunkHashes ∧
    (∃ bytes, (t.peers 0).engine.blobs.reassemble e.chunkHashes = .ok bytes ∧ e.size.toNat = bytes.length) ∧
    1 ≤ (e.clock.get e.lastWriter).toNat := by
  obtain ⟨forA,forB,complete⟩ := drafted_complete
  have honest : Honest (drafted 1) (.session 0 1 forA forB) := ⟨by decide,complete⟩
  have synced := Runs.snoc drafted_run honest
  have again : Honest (step pair (drafted 1) (.session 0 1 forA forB)) (.restart 0) := trivial
  have run := Runs.snoc synced again
  obtain ⟨needed,files,_,left⟩ := complete.left ((kept_run plain_pair drafted_run 1).legible (plain_pair 1)).readable
  have engine : ((step pair (drafted 1) (.session 0 1 forA forB)).peers 0).engine =
      ((fetched ((drafted 1).peers 0).engine ((drafted 1).peers 1).engine needed).withFiles files).saveJournal := left
  obtain ⟨_,_,_,forked⟩ := drafted_asks
  obtain ⟨e,found,live⟩ := Option.map_eq_some_iff.mp forked
  have held : ((step pair (drafted 1) (.session 0 1 forA forB)).peers 0).engine.store.get (ascii "a.conflict-B.txt") = some e := by
    rw [engine,← found]
    rfl
  rw [step_restart (kept_run plain_pair synced 0)] at run
  have sized : ∀ bytes ∈ ([[7],[8]] : List Bytes), bytes.length < 2^64 := by decide
  have few : ([.ingest 0 (ascii "a.txt") [7],.ingest 1 (ascii "a.txt") [8]] ++ [.session 0 1 forA forB] ++
      [.restart 0] : List (Action (Fin 2))).countP isEdit = 2 := rfl
  obtain ⟨path,_,content,written⟩ := entries_well_formed pair plain_pair _ _ run free_drafts sized (few.trans_lt (by decide)) 0 _ e held
  exact ⟨forA,forB,_,e,run,held,path,live,(content live).1,(content live).2,written⟩

end P2PSync.WellFormed
