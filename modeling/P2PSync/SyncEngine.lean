import P2PSync.EntryCodec
import P2PSync.MerkleTree

namespace P2PSync
open Text EntryCodec

-- The chunk files of a blob store by their names.
structure FileStore where
  chunks : OrdMap Bytes Bytes

namespace FileStore

def empty : FileStore := ⟨.empty⟩

def chunkPath (hash : Digest) : Bytes := Sha256.toHex hash ++ ascii ".chunk"

def hasChunk (blobs : FileStore) (hash : Digest) : Bool := blobs.chunks.contains (chunkPath hash)

-- A chunk whose file exists is not written again, whatever the file holds.
def putChunk (blobs : FileStore) (c : Chunk) : FileStore :=
  if blobs.hasChunk c.hash then blobs else ⟨blobs.chunks.insert (chunkPath c.hash) c.data⟩

def getChunk (blobs : FileStore) (hash : Digest) : Except Error Bytes :=
  match blobs.chunks.find (chunkPath hash) with
  | none => .error (.runtimeError (ascii "missing chunk: " ++ Sha256.toHex hash))
  | some bytes => .ok bytes

def reassemble (blobs : FileStore) : List Digest → Except Error Bytes
  | [] => .ok []
  | hash :: rest => match blobs.getChunk hash with
    | .error e => .error e
    | .ok bytes => (blobs.reassemble rest).map (bytes ++ ·)

end FileStore

-- What a data directory keeps between two processes. The three parts are kept apart,
-- and every path has a file to itself: so it is where no path leads to another's file
-- or to one of the engine's own. Layout has the paths that do.
structure Disk where
  blobs : FileStore
  journal : Option Bytes
  files : OrdMap Bytes Bytes

structure SyncEngine where
  disk : Disk
  store : CrdtStore

namespace SyncEngine

def blobs (e : SyncEngine) : FileStore := e.disk.blobs

def withBlobs (e : SyncEngine) (blobs : FileStore) : SyncEngine := { e with disk := { e.disk with blobs } }

def withFiles (e : SyncEngine) (files : OrdMap Bytes Bytes) : SyncEngine := { e with disk := { e.disk with files } }

def withStore (e : SyncEngine) (store : CrdtStore) : SyncEngine := { e with store }

def journalText (s : CrdtStore) : Bytes := s.allEntries.flatMap (fun e => entryToLine e ++ [10])

def saveJournal (e : SyncEngine) : SyncEngine := { e with disk := { e.disk with journal := some (journalText e.store) } }

def loadLine (s : CrdtStore) (line : Bytes) : Except Error CrdtStore := (lineToEntry line).map s.loadEntry

def loadJournal (s : CrdtStore) (text : Bytes) : Except Error CrdtStore :=
  ((getlines 10 [] text).filter (· ≠ [])).foldlM loadLine s

-- The constructor: an engine over what its data directory holds.
def start (nodeId : Bytes) (disk : Disk) : Except Error SyncEngine :=
  match disk.journal with
  | none => .ok ⟨disk,.new nodeId⟩
  | some text => (loadJournal (.new nodeId) text).map (fun store => ⟨disk,store⟩)

-- An engine over an empty data directory.
def fresh (nodeId : Bytes) : SyncEngine := ⟨⟨.empty,none,.empty⟩,.new nodeId⟩

-- An exception leaves the engine as it was when it was thrown.
def materialize (e : SyncEngine) (path : Bytes) : SyncEngine × Except Error Unit :=
  match e.store.get path with
  | none => (e,.ok ())
  | some entry =>
    if entry.hasContent then match e.blobs.reassemble entry.chunkHashes with
      | .error x => (e,.error x)
      | .ok bytes => ({ e with disk := { e.disk with files := e.disk.files.insert path bytes } },.ok ())
    else (e,.ok ())

-- The entry that ingest_file records, and the engine when its chunks are stored.
def ingested (e : SyncEngine) (path bytes : Bytes) : SyncEngine :=
  let chunks := Chunker.standard.chunk bytes
  let size := chunks.foldl (fun total c => total + UInt64.ofNat c.data.length) 0
  let store := e.store.putLocal path (chunks.map Chunk.hash) ((MerkleTree.build chunks).root.getD .zero) size
  (e.withBlobs (chunks.foldl FileStore.putChunk e.blobs)).withStore store

def ingestFile (e : SyncEngine) (path bytes : Bytes) : SyncEngine × Except Error (Option FileEntry) :=
  match (e.ingested path bytes).materialize path with
  | (e,.error x) => (e,.error x)
  | (e,.ok _) => (e.saveJournal,.ok (e.store.get path))

-- ingest_file where the file system does not make the directories of the path:
-- create_directories throws after the entry is recorded and before it is saved.
def ingestRefused (e : SyncEngine) (path bytes : Bytes) : SyncEngine :=
  match (e.ingested path bytes).store.get path with
  | none => (e.ingestFile path bytes).1
  | some entry => if entry.hasContent then e.ingested path bytes else (e.ingestFile path bytes).1

def deleteFile (e : SyncEngine) (path : Bytes) : SyncEngine := (e.withStore (e.store.deleteLocal path)).saveJournal

theorem lines_journalText {s : CrdtStore} (lined : ∀ e ∈ s.allEntries, LinedEntry e) :
    getlines 10 [] (journalText s) = s.allEntries.map entryToLine := by
  have pieces : ∀ line ∈ s.allEntries.map entryToLine, 10 ∉ line := by
    intro line member
    obtain ⟨e,listed,rfl⟩ := List.mem_map.mp member
    exact entryToLine_newline e (lined e listed)
  have text : journalText s = (s.allEntries.map entryToLine).flatMap (fun line => line ++ [10]) := by
    rw [journalText,List.flatMap_map]
  rw [text,getlines_ended pieces]

theorem filter_lines (entries : List FileEntry) :
    (entries.map entryToLine).filter (· ≠ []) = entries.map entryToLine := by
  rw [List.filter_eq_self]
  intro line member
  obtain ⟨e,_,rfl⟩ := List.mem_map.mp member
  simpa using entryToLine_ne_nil e

theorem foldlM_loadLine (entries : List FileEntry) (reads : ∀ e ∈ entries, lineToEntry (entryToLine e) = .ok e) (s : CrdtStore) :
    (entries.map entryToLine).foldlM loadLine s = .ok (entries.foldl CrdtStore.loadEntry s) := by
  induction entries generalizing s with
  | nil => rfl
  | cons e rest ih =>
    rw [List.map_cons,List.foldlM_cons,loadLine,reads e List.mem_cons_self]
    exact ih (fun e member => reads e (List.mem_cons_of_mem _ member)) _

theorem entries_foldl (entries : List FileEntry) (s : CrdtStore) : (entries.foldl CrdtStore.loadEntry s).entries =
    (entries.map (fun e => (e.path,e))).foldl (fun acc pair => acc.insert pair.1 pair.2) s.entries ∧
      (entries.foldl CrdtStore.loadEntry s).nodeId = s.nodeId := by
  induction entries generalizing s with
  | nil => exact ⟨rfl,rfl⟩
  | cons e rest ih => exact ih (s.loadEntry e)

-- The journal restores the store it was written from, where its lines read back.
theorem loadJournal_lines {s : CrdtStore} (lined : ∀ e ∈ s.allEntries, LinedEntry e)
    (reads : ∀ e ∈ s.allEntries, lineToEntry (entryToLine e) = .ok e) :
    loadJournal (.new s.nodeId) (journalText s) = .ok s := by
  have loaded := entries_foldl s.allEntries (.new s.nodeId)
  rw [← CrdtStore.pairs_eq] at loaded
  rw [loadJournal,lines_journalText lined,filter_lines,foldlM_loadLine _ reads]
  congr 1
  apply CrdtStore.ext
  · exact loaded.2
  · intro path
    rw [CrdtStore.get,loaded.1,CrdtStore.new,OrdMap.foldl_insert_pairs]
    rfl

theorem loadJournal_journalText {s : CrdtStore} (plain : ∀ e ∈ s.allEntries, PlainEntry e) :
    loadJournal (.new s.nodeId) (journalText s) = .ok s :=
  loadJournal_lines (fun e listed => (plain e listed).lined) (fun e listed => lineToEntry_entryToLine e (plain e listed))

-- Whatever the journal holds, what is loaded came from its lines.
theorem loadJournal_read {nodeId text : Bytes} {s : CrdtStore} (read : loadJournal (.new nodeId) text = .ok s) :
    s.nodeId = nodeId ∧ ∀ path e, s.get path = some e → ∃ line ∈ getlines 10 [] text, lineToEntry line = .ok e := by
  refine foldlM_invariant (fun s => s.nodeId = nodeId ∧ ∀ path e, s.get path = some e →
    ∃ line ∈ getlines 10 [] text, lineToEntry line = .ok e) ⟨rfl,nofun⟩ ?_ read
  intro s line next member before step
  have listed := (List.mem_filter.mp member).1
  obtain ⟨e,entry,rfl⟩ := map_ok step
  refine ⟨before.1,fun path held found => ?_⟩
  rw [CrdtStore.loadEntry,CrdtStore.get_store] at found
  split at found
  · cases found
    exact ⟨line,listed,entry⟩
  · exact before.2 path held found

theorem start_read {nodeId : Bytes} {disk : Disk} {e : SyncEngine} (started : start nodeId disk = .ok e) :
    e.disk = disk ∧ e.store.nodeId = nodeId ∧ ∀ path entry, e.store.get path = some entry →
      ∃ text, disk.journal = some text ∧ ∃ line ∈ getlines 10 [] text, lineToEntry line = .ok entry := by
  unfold start at started
  split at started
  · cases started
    exact ⟨rfl,rfl,nofun⟩
  · rename_i text journal
    obtain ⟨s,loaded,rfl⟩ := map_ok started
    obtain ⟨node,lines⟩ := loadJournal_read loaded
    exact ⟨rfl,node,fun path entry held => ⟨text,journal,lines path entry held⟩⟩

theorem start_lined {nodeId : Bytes} {disk : Disk} {e : SyncEngine} (started : start nodeId disk = .ok e)
    (held : e.store.get path = some entry) : LinedEntry entry ∧ ∀ node ∈ entry.clock.counters.keys, Plain node := by
  obtain ⟨_,_,lines⟩ := start_read started
  obtain ⟨text,_,line,member,read⟩ := lines path entry held
  exact lineToEntry_read (mem_getlines List.not_mem_nil member).1 read

end SyncEngine

namespace FileStore

theorem chunkPath_injective {a b : Digest} (same : chunkPath a = chunkPath b) : a = b :=
  toHex_injective (List.append_cancel_right same)

theorem find_putChunk (blobs : FileStore) (c : Chunk) (name : Bytes) : (blobs.putChunk c).chunks.find name =
    if blobs.hasChunk c.hash = false ∧ chunkPath c.hash = name then some c.data else blobs.chunks.find name := by
  unfold putChunk
  cases has : blobs.hasChunk c.hash with
  | true => simp
  | false => simp

theorem hasChunk_iff {blobs : FileStore} {hash : Digest} :
    blobs.hasChunk hash = true ↔ ∃ bytes, blobs.chunks.find (chunkPath hash) = some bytes := by
  rw [hasChunk,OrdMap.contains,Option.isSome_iff_exists]

-- Chunks stored once stay as they are.
def Extends (blobs more : FileStore) : Prop :=
  ∀ name bytes, blobs.chunks.find name = some bytes → more.chunks.find name = some bytes

theorem Extends.refl (blobs : FileStore) : Extends blobs blobs := fun _ _ found => found

theorem Extends.trans {a b c : FileStore} (first : Extends a b) (second : Extends b c) : Extends a c :=
  fun name bytes found => second name bytes (first name bytes found)

theorem extends_putChunk (blobs : FileStore) (c : Chunk) : Extends blobs (blobs.putChunk c) := by
  intro name bytes found
  rw [find_putChunk]
  split
  · rename_i missing
    have has := hasChunk_iff.mpr ⟨bytes,missing.2 ▸ found⟩
    rw [missing.1] at has
    cases has
  · exact found

theorem extends_putChunks (blobs : FileStore) (chunks : List Chunk) : Extends blobs (chunks.foldl putChunk blobs) := by
  induction chunks generalizing blobs with
  | nil => exact .refl blobs
  | cons c rest ih => exact (extends_putChunk blobs c).trans (ih _)

theorem Extends.hasChunk {a b : FileStore} {hash : Digest} (more : Extends a b) (has : a.hasChunk hash = true) : b.hasChunk hash = true := by
  obtain ⟨bytes,found⟩ := hasChunk_iff.mp has
  exact hasChunk_iff.mpr ⟨bytes,more _ _ found⟩

theorem has_putChunk (blobs : FileStore) (c : Chunk) : (blobs.putChunk c).hasChunk c.hash = true := by
  cases has : blobs.hasChunk c.hash with
  | true => exact (extends_putChunk blobs c).hasChunk has
  | false => exact hasChunk_iff.mpr ⟨c.data,by rw [find_putChunk,if_pos ⟨has,rfl⟩]⟩

theorem has_putChunks (blobs : FileStore) (chunks : List Chunk) :
    ∀ c ∈ chunks, (chunks.foldl putChunk blobs).hasChunk c.hash = true := by
  induction chunks generalizing blobs with
  | nil => exact fun _ member => nomatch member
  | cons c rest ih =>
    intro d member
    rcases List.mem_cons.mp member with rfl | later
    · exact (extends_putChunks _ rest).hasChunk (has_putChunk blobs d)
    · exact ih _ d later

-- The chunks that are written: those whose digest has no file yet, and of
-- several with the same digest the first.
def Written (blobs : FileStore) (chunks : List Chunk) (c : Chunk) : Prop :=
  blobs.hasChunk c.hash = false ∧ ∃ before after, chunks = before ++ c :: after ∧ ∀ d ∈ before, d.hash ≠ c.hash

theorem written_tail {blobs : FileStore} {chunks : List Chunk} {c d : Chunk}
    (written : Written (blobs.putChunk c) chunks d) : Written blobs (c :: chunks) d := by
  obtain ⟨missing,before,after,rfl,first⟩ := written
  have absent : blobs.hasChunk d.hash = false := by
    cases has : blobs.hasChunk d.hash with
    | false => rfl
    | true =>
      rw [(extends_putChunk blobs c).hasChunk has] at missing
      cases missing
  refine ⟨absent,c :: before,after,rfl,?_⟩
  intro x member
  rcases List.mem_cons.mp member with rfl | later
  · intro same
    rw [← same,has_putChunk] at missing
    cases missing
  · exact first x later

theorem find_putChunks (blobs : FileStore) (chunks : List Chunk) (name bytes : Bytes)
    (found : (chunks.foldl putChunk blobs).chunks.find name = some bytes) :
    blobs.chunks.find name = some bytes ∨ ∃ c, Written blobs chunks c ∧ chunkPath c.hash = name ∧ c.data = bytes := by
  induction chunks generalizing blobs with
  | nil => exact .inl found
  | cons c rest ih =>
    rcases ih (blobs.putChunk c) found with before | ⟨d,written,named⟩
    · rw [find_putChunk] at before
      split at before
      · rename_i missing
        exact .inr ⟨c,⟨missing.1,[],rest,rfl,by simp⟩,missing.2,Option.some.inj before⟩
      · exact .inl before
    · exact .inr ⟨d,written_tail written,named⟩

theorem reassemble_has {blobs : FileStore} {hashes : List Digest} (has : ∀ hash ∈ hashes, blobs.hasChunk hash = true) :
    ∃ bytes, blobs.reassemble hashes = .ok bytes := by
  induction hashes with
  | nil => exact ⟨[],rfl⟩
  | cons hash rest ih =>
    obtain ⟨piece,found⟩ := hasChunk_iff.mp (has hash List.mem_cons_self)
    obtain ⟨bytes,read⟩ := ih (fun hash member => has hash (List.mem_cons_of_mem _ member))
    exact ⟨piece ++ bytes,by simp [reassemble,getChunk,found,read,Except.map]⟩

theorem has_reassemble {blobs : FileStore} {hashes : List Digest} {bytes : Bytes} (read : blobs.reassemble hashes = .ok bytes) :
    ∀ hash ∈ hashes, blobs.hasChunk hash = true := by
  induction hashes generalizing bytes with
  | nil => exact nofun
  | cons hash rest ih =>
    unfold reassemble getChunk at read
    cases found : blobs.chunks.find (chunkPath hash) with
    | none =>
      rw [found] at read
      cases read
    | some piece =>
      rw [found] at read
      obtain ⟨others,later,_⟩ := map_ok read
      intro other member
      rcases List.mem_cons.mp member with rfl | inside
      · exact hasChunk_iff.mpr ⟨piece,found⟩
      · exact ih later other inside

theorem Extends.reassemble {blobs more : FileStore} {hashes : List Digest} {bytes : Bytes} (extends_ : Extends blobs more)
    (read : blobs.reassemble hashes = .ok bytes) : more.reassemble hashes = .ok bytes := by
  induction hashes generalizing bytes with
  | nil => exact read
  | cons hash rest ih =>
    obtain ⟨piece,found⟩ := hasChunk_iff.mp (has_reassemble read hash List.mem_cons_self)
    have kept := extends_ _ _ found
    obtain ⟨others,later⟩ := reassemble_has (fun other inside => has_reassemble read other (List.mem_cons_of_mem _ inside))
    simp only [FileStore.reassemble,getChunk,found,later] at read
    simp only [FileStore.reassemble,getChunk,kept,ih later]
    exact read

-- Reading back chunks that are stored under their digests.
theorem reassemble_chunks {blobs : FileStore} {chunks : List Chunk}
    (stored : ∀ c ∈ chunks, blobs.chunks.find (chunkPath c.hash) = some c.data) :
    blobs.reassemble (chunks.map Chunk.hash) = .ok (chunks.flatMap Chunk.data) := by
  induction chunks with
  | nil => rfl
  | cons c rest ih =>
    have head := stored c List.mem_cons_self
    have tail := ih (fun c member => stored c (List.mem_cons_of_mem _ member))
    simp [reassemble,getChunk,head,tail,Except.map]

end FileStore

namespace SyncEngine

-- Only the materialized files change.
theorem materialize_files (e : SyncEngine) (path : Bytes) : ∃ files, (e.materialize path).1 = e.withFiles files := by
  unfold materialize
  split
  · exact ⟨e.disk.files,rfl⟩
  · split
    · split
      · exact ⟨e.disk.files,rfl⟩
      · exact ⟨_,rfl⟩
    · exact ⟨e.disk.files,rfl⟩

-- What materialize writes to a path.
def content (e : SyncEngine) (path : Bytes) : Option Bytes :=
  match e.store.get path with
  | none => none
  | some entry => if entry.hasContent then (e.blobs.reassemble entry.chunkHashes).toOption else none

-- What a call of materialize that returns has done: nothing, or written the content.
theorem materialize_cases {e : SyncEngine} (done : e.materialize path = (next,.ok ())) :
    (next = e ∧ e.content path = none ∧ ∀ entry, e.store.get path = some entry → entry.hasContent = false) ∨
    ∃ entry bytes, e.store.get path = some entry ∧ e.blobs.reassemble entry.chunkHashes = .ok bytes ∧
      e.content path = some bytes ∧ next = e.withFiles (e.disk.files.insert path bytes) := by
  unfold materialize at done
  unfold content
  cases held : e.store.get path with
  | none =>
    rw [held] at done
    exact .inl ⟨(congrArg Prod.fst done).symm,rfl,nofun⟩
  | some entry =>
    rw [held] at done
    dsimp only at done ⊢
    cases full : entry.hasContent with
    | false =>
      rw [full] at done
      refine .inl ⟨(congrArg Prod.fst done).symm,rfl,?_⟩
      intro found same
      cases same
      exact full
    | true =>
      rw [full,if_pos rfl] at done
      cases read : e.blobs.reassemble entry.chunkHashes with
      | error x =>
        rw [read] at done
        cases done
      | ok bytes =>
        rw [read] at done
        exact .inr ⟨entry,bytes,rfl,read,rfl,(congrArg Prod.fst done).symm⟩

theorem materialize_content {e : SyncEngine} (done : e.materialize path = (next,.ok ())) :
    (∃ files, next = e.withFiles files ∧ ∀ other, files.find other =
      if other = path then (e.content path).or (e.disk.files.find path) else e.disk.files.find other) ∧
    ∀ entry, e.store.get path = some entry → entry.hasContent = true → ∃ bytes, e.blobs.reassemble entry.chunkHashes = .ok bytes := by
  rcases materialize_cases done with ⟨rfl,nothing,empty⟩ | ⟨entry,bytes,held,read,written,rfl⟩
  · refine ⟨⟨next.disk.files,rfl,?_⟩,?_⟩
    · intro other
      rw [nothing]
      split
      · rename_i here
        rw [here]
        rfl
      · rfl
    · intro entry held full
      rw [empty entry held] at full
      cases full
  · refine ⟨⟨_,rfl,?_⟩,?_⟩
    · intro other
      rw [OrdMap.find_insert,written]
      by_cases here : other = path
      · rw [if_pos here,if_pos here.symm]
        rfl
      · rw [if_neg here,if_neg (Ne.symm here)]
    · intro found same _
      rw [held] at same
      cases same
      exact ⟨bytes,read⟩

-- Every chunk that an entry of the store names is there.
def Whole (e : SyncEngine) : Prop :=
  ∀ path entry, e.store.get path = some entry → ∀ hash ∈ entry.chunkHashes, e.blobs.hasChunk hash = true

-- The same for the entries that count only: those deleted, or those not.
def Keeps (counted : Bool → Prop) (e : SyncEngine) : Prop :=
  ∀ path entry, e.store.get path = some entry → counted entry.deleted → ∀ hash ∈ entry.chunkHashes, e.blobs.hasChunk hash = true

theorem Whole.keeps {e : SyncEngine} (whole : Whole e) : Keeps counted e :=
  fun path entry held _ => whole path entry held

theorem Keeps.whole {e : SyncEngine} (keeps : Keeps (fun _ => True) e) : Whole e :=
  fun path entry held => keeps path entry held trivial

theorem materialize_keeps {e : SyncEngine} (keeps : Keeps (· = false) e) (path : Bytes) :
    ∃ files, e.materialize path = (e.withFiles files,.ok ()) := by
  unfold materialize
  split
  · exact ⟨e.disk.files,rfl⟩
  · rename_i entry held
    split
    · rename_i content
      have live := (FileEntry.hasContent_iff.mp content).1
      obtain ⟨bytes,read⟩ := FileStore.reassemble_has (keeps path entry held live)
      rw [read]
      exact ⟨_,rfl⟩
    · exact ⟨e.disk.files,rfl⟩

-- A store with one entry written keeps its chunks if the entry's are there.
theorem Keeps.write {e after : SyncEngine} (keeps : Keeps counted e) (blobs : FileStore.Extends e.blobs after.blobs)
    (store : after.store = e.store.store entry) (has : ∀ hash ∈ entry.chunkHashes, after.blobs.hasChunk hash = true) :
    Keeps counted after := by
  intro path other held counts hash member
  rw [store,CrdtStore.get_store] at held
  split at held
  · cases held
    exact has hash member
  · exact blobs.hasChunk (keeps path other held counts hash member)

theorem keeps_ingested {e : SyncEngine} (keeps : Keeps counted e) (path bytes : Bytes) : Keeps counted (e.ingested path bytes) := by
  have kept := FileStore.extends_putChunks e.blobs (Chunker.standard.chunk bytes)
  have here := FileStore.has_putChunks e.blobs (Chunker.standard.chunk bytes)
  refine keeps.write kept rfl ?_
  intro hash member
  obtain ⟨c,inside,rfl⟩ := List.mem_map.mp member
  exact here c inside

theorem whole_ingested {e : SyncEngine} (whole : Whole e) (path bytes : Bytes) : Whole (e.ingested path bytes) :=
  (keeps_ingested whole.keeps path bytes).whole

-- Over an engine that has the chunks of its files ingest_file never throws.
theorem ingestFile_keeps {e : SyncEngine} (keeps : Keeps (· = false) e) (path bytes : Bytes) : ∃ files,
    e.ingestFile path bytes =
      (((e.ingested path bytes).withFiles files).saveJournal,.ok ((e.ingested path bytes).store.get path)) := by
  obtain ⟨files,done⟩ := materialize_keeps (keeps_ingested keeps path bytes) path
  refine ⟨files,?_⟩
  unfold ingestFile
  rw [done]
  rfl

-- And it writes the new content of its path, no other file.
theorem ingestFile_content {e : SyncEngine} (keeps : Keeps (· = false) e) (path bytes : Bytes) : ∃ files,
    (e.ingestFile path bytes).1 = ((e.ingested path bytes).withFiles files).saveJournal ∧ ∀ other, files.find other =
      if other = path then ((e.ingested path bytes).content path).or (e.disk.files.find path) else e.disk.files.find other := by
  obtain ⟨files,done⟩ := materialize_keeps (keeps_ingested keeps path bytes) path
  obtain ⟨⟨written,same,wrote⟩,_⟩ := materialize_content done
  refine ⟨written,?_,wrote⟩
  unfold ingestFile
  rw [done,same]

theorem ingestFile_whole {e : SyncEngine} (whole : Whole e) (path bytes : Bytes) : ∃ files,
    e.ingestFile path bytes =
      (((e.ingested path bytes).withFiles files).saveJournal,.ok ((e.ingested path bytes).store.get path)) :=
  ingestFile_keeps whole.keeps path bytes

theorem keeps_deleteFile {e : SyncEngine} (keeps : Keeps counted e) (path : Bytes) : Keeps counted (e.deleteFile path) := by
  refine keeps.write (FileStore.Extends.refl e.blobs) rfl ?_
  intro hash member
  cases member

theorem whole_deleteFile {e : SyncEngine} (whole : Whole e) (path : Bytes) : Whole (e.deleteFile path) :=
  (keeps_deleteFile whole.keeps path).whole

end SyncEngine
end P2PSync
