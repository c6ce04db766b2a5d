import P2PSync.Fidelity

namespace P2PSync.Transfer
open Network EntryCodec Text

-- The entries of the peer's snapshot that a session adopts or forks.
def taken (s : CrdtStore) : List FileEntry → List FileEntry
  | [] => []
  | re :: rest =>
    let (r,next) := s.mergeRemote re
    match r.outcome with
    | .appliedRemote => re :: taken next rest
    | .conflictForked => re :: taken next rest
    | .keptLocal => taken next rest
    | .noChange => taken next rest

theorem mem_taken_cons {s : CrdtStore} {re : FileEntry} {rest : List FileEntry} : x ∈ taken s (re :: rest) ↔
    ((s.mergeRemote re).1.landing ≠ none ∧ x = re) ∨ x ∈ taken (s.mergeRemote re).2 rest := by
  rw [taken,MergeResult.landing]
  cases outcome : (s.mergeRemote re).1.outcome with
  | appliedRemote => simp [outcome]
  | conflictForked => simp [outcome]
  | keptLocal => simp [outcome]
  | noChange => simp [outcome]

theorem taken_subset (s : CrdtStore) (entries : List FileEntry) : ∀ x ∈ taken s entries, x ∈ entries := by
  induction entries generalizing s with
  | nil => exact nofun
  | cons re rest ih =>
    intro x member
    rcases mem_taken_cons.mp member with ⟨_,rfl⟩ | later
    · exact List.mem_cons_self
    · exact List.mem_cons_of_mem _ (ih _ x later)

-- The missing chunks of the entries that were taken, and no others, are asked for.
theorem mem_needed (blobs : FileStore) (entries : List FileEntry) (m : Merging) :
    key ∈ (entries.foldl (mergeEntry blobs) m).needed.keys ↔ key ∈ m.needed.keys ∨
      ∃ re ∈ taken m.store entries, ∃ hash ∈ re.chunkHashes, blobs.hasChunk hash = false ∧ key = Sha256.toHex hash := by
  induction entries generalizing m with
  | nil => simp [taken]
  | cons re rest ih =>
    rw [List.foldl_cons,ih,mem_mergeEntry,mergeEntry_store]
    constructor
    · rintro ((before | ⟨lands,missing⟩) | ⟨x,later,missing⟩)
      · exact .inl before
      · exact .inr ⟨re,mem_taken_cons.mpr (.inl ⟨lands,rfl⟩),missing⟩
      · exact .inr ⟨x,mem_taken_cons.mpr (.inr later),missing⟩
    · rintro (before | ⟨x,member,missing⟩)
      · exact .inl (.inl before)
      · rcases mem_taken_cons.mp member with ⟨lands,rfl⟩ | later
        · exact .inl (.inr ⟨lands,missing⟩)
        · exact .inr ⟨x,later,missing⟩

theorem chunksFetched_foldl (blobs : FileStore) (entries : List FileEntry) (m : Merging) :
    (entries.foldl (mergeEntry blobs) m).stats.chunksFetched = m.stats.chunksFetched := by
  induction entries generalizing m with
  | nil => rfl
  | cons re rest ih =>
    rw [List.foldl_cons,ih]
    unfold mergeEntry
    dsimp only
    split
    · rfl
    · split
      · rfl
      · rfl
    · rfl
    · rfl

-- The digests asked for are those whose hex strings were collected, once each.
theorem spelled_exact {keys : List Bytes} {hashes : List Digest} (spelled : ∀ key ∈ keys, ∃ hash, key = Sha256.toHex hash)
    (read : keys.mapM hexToDigest = .ok hashes) : keys = hashes.map Sha256.toHex := by
  induction keys generalizing hashes with
  | nil =>
    cases read
    rfl
  | cons key rest ih =>
    obtain ⟨hash,rfl⟩ := spelled key List.mem_cons_self
    rw [List.mapM_cons,hexToDigest_toHex] at read
    obtain ⟨_,first,read⟩ := bind_ok read
    obtain ⟨more,others,read⟩ := bind_ok read
    cases first
    cases read
    rw [List.map_cons,← ih (fun key member => spelled key (List.mem_cons_of_mem _ member)) others]

theorem granted_hashes {blobs : FileStore} {hashes : List Digest} (has : ∀ hash ∈ hashes, blobs.hasChunk hash = true) :
    (granted blobs hashes).map Chunk.hash = hashes := by
  induction hashes with
  | nil => rfl
  | cons hash rest ih =>
    obtain ⟨bytes,found⟩ := FileStore.hasChunk_iff.mp (has hash List.mem_cons_self)
    have later := ih (fun hash member => has hash (List.mem_cons_of_mem _ member))
    simpa [granted,found] using later

theorem needed_spelled {a b : SyncEngine} (asking : (merging a b.store.allEntries).needed.keys.mapM hexToDigest = .ok needed) :
    (merging a b.store.allEntries).needed.keys = needed.map Sha256.toHex := by
  apply spelled_exact _ asking
  intro key member
  rcases (mem_needed a.blobs _ _).mp member with never | ⟨_,_,hash,_,_,same⟩
  · cases never
  · exact ⟨hash,same⟩

theorem needed_nodup {a b : SyncEngine} (asking : (merging a b.store.allEntries).needed.keys.mapM hexToDigest = .ok needed) :
    needed.Nodup := by
  have keys := (merging a b.store.allEntries).needed.keys_nodup
  rw [needed_spelled asking] at keys
  exact keys.of_map _

theorem mem_wanted {a b : SyncEngine} {hash : Digest}
    (asking : (merging a b.store.allEntries).needed.keys.mapM hexToDigest = .ok needed) :
    hash ∈ needed ↔ (∃ re ∈ taken a.store b.store.allEntries, hash ∈ re.chunkHashes) ∧ a.blobs.hasChunk hash = false := by
  have listed : hash ∈ needed ↔ Sha256.toHex hash ∈ (merging a b.store.allEntries).needed.keys := by
    rw [needed_spelled asking]
    exact (List.mem_map_of_injective (fun _ _ same => toHex_injective same)).symm
  rw [listed,merging,mem_needed]
  constructor
  · rintro (never | ⟨re,member,other,inside,missing,same⟩)
    · cases never
    · cases toHex_injective same
      exact ⟨⟨re,member,inside⟩,missing⟩
  · rintro ⟨⟨re,member,inside⟩,missing⟩
    exact .inr ⟨re,member,hash,inside,missing,rfl⟩

theorem taken_stocked {b : SyncEngine} (s : CrdtStore) (stocked : b.Keeps (· = false))
    (bare : ∀ path e, b.store.get path = some e → e.deleted = true → e.chunkHashes = []) :
    ∀ re ∈ taken s b.store.allEntries, ∀ hash ∈ re.chunkHashes, b.blobs.hasChunk hash = true := by
  intro re member hash inside
  have held := CrdtStore.mem_allEntries.mp (taken_subset _ _ re member)
  cases dead : re.deleted with
  | false => exact stocked _ re held dead hash inside
  | true =>
    rw [bare _ re held dead] at inside
    cases inside

theorem exact_transfer (a b : SyncEngine) (forA forB : Link) (complete : Complete a b forA forB) (readable : Readable b)
    (stocked : b.Keeps (· = false)) (bare : ∀ path e, b.store.get path = some e → e.deleted = true → e.chunkHashes = []) :
    ∃ data chunks stats, ((runSyncSession a).run forA).received[2]? = some ⟨frameChunkData,data⟩ ∧
      decodeChunks data = (chunks,false) ∧ (chunks.map Chunk.hash).Nodup ∧
      (∀ hash, hash ∈ chunks.map Chunk.hash ↔
        (∃ re ∈ taken a.store b.store.allEntries, hash ∈ re.chunkHashes) ∧ a.blobs.hasChunk hash = false) ∧
      (∀ c ∈ chunks, b.blobs.chunks.find (FileStore.chunkPath c.hash) = some c.data) ∧
      ((runSyncSession a).run forA).result = .ok stats ∧ stats.chunksFetched = chunks.length ∧
      ∀ re ∈ taken a.store b.store.allEntries, ∀ hash ∈ re.chunkHashes,
        ((runSyncSession a).run forA).engine.blobs.hasChunk hash = true := by
  obtain ⟨needed,theirs,exchanged⟩ := complete.exchanged readable
  have has := taken_stocked a.store stocked bare
  have supplied : ∀ hash ∈ needed, b.blobs.hasChunk hash = true := by
    intro hash member
    obtain ⟨⟨re,listed,inside⟩,_⟩ := (mem_wanted exchanged.asking).mp member
    exact has re listed hash inside
  have hashes := granted_hashes supplied
  refine ⟨_,_,_,exchanged.received,exchanged.decoded,?_,?_,?_,exchanged.counted,?_,?_⟩
  · rw [hashes]
    exact needed_nodup exchanged.asking
  · rw [hashes]
    exact fun hash => mem_wanted exchanged.asking
  · exact fun c member => (mem_granted.mp member).2.2
  · rw [tally,merging,chunksFetched_foldl,exchanged.decoded]
    exact Nat.zero_add _
  · intro re member hash inside
    obtain ⟨next,settled,left⟩ := exchanged.settled
    obtain ⟨files,rfl⟩ := settled_files settled
    rw [left]
    cases here : a.blobs.hasChunk hash with
    | true => exact (FileStore.extends_putChunks a.blobs (granted b.blobs needed)).hasChunk here
    | false =>
      obtain ⟨bytes,found⟩ := FileStore.hasChunk_iff.mp (has re member hash inside)
      exact FileStore.has_putChunks a.blobs (granted b.blobs needed) ⟨0,bytes,hash⟩
        (mem_granted.mpr ⟨rfl,(mem_wanted exchanged.asking).mpr ⟨⟨re,member,inside⟩,here⟩,found⟩)

-- The chunk of a one-byte file goes over.
theorem exact_transfer_one_file : ∃ forA forB data chunks,
    ((runSyncSession (Fidelity.added.peers 1).engine).run forB).received[2]? = some ⟨frameChunkData,data⟩ ∧
    Complete (Fidelity.added.peers 1).engine (Fidelity.added.peers 0).engine forB forA ∧
    decodeChunks data = (chunks,false) ∧ Sha256.hash [7] ∈ chunks.map Chunk.hash := by
  obtain ⟨forA,forB,complete⟩ := Fidelity.added_complete
  have sound := Fidelity.kept_run Fidelity.plain_pair Fidelity.added_run 0
  have bare : ∀ e ∈ (Fidelity.added.peers 0).engine.store.allEntries, e.deleted = true → e.chunkHashes = [] := by
    decide +kernel
  obtain ⟨data,chunks,stats,received,decoded,_,exactly,_⟩ := exact_transfer _ _ forB forA complete.symm
    (sound.legible (Fidelity.plain_pair 0)).readable sound.whole.keeps
    (fun path e held => bare e (CrdtStore.mem_allEntries.mpr (by rw [CrdtStore.get_path held]; exact held)))
  refine ⟨forA,forB,data,chunks,received,complete.symm,decoded,(exactly (Sha256.hash [7])).mpr ⟨?_,?_⟩⟩
  · decide +kernel
  · decide +kernel

end P2PSync.Transfer
