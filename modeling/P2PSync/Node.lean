import P2PSync.MerkleDiff
import P2PSync.Sockets

namespace P2PSync
open Text EntryCodec Network Sockets

-- VectorClock::to_string
def VectorClock.toText (c : VectorClock) : Bytes :=
  123 :: (ascii ", ").intercalate (c.counters.pairs.map pairToWire) ++ [125]

namespace Node

-- What ingest_file prints before it stores anything.
def ingestReport (e : SyncEngine) (path bytes : Bytes) : Bytes :=
  let chunks := Chunker.standard.chunk bytes
  let fresh := ascii "new file, " ++ decimal chunks.length ++ ascii " chunk(s)\n"
  ascii "[" ++ e.store.nodeId ++ ascii "] " ++ path ++ ascii ": " ++ match e.store.get path with
    | none => fresh
    | some previous =>
      if previous.hasContent then
        if previous.chunkHashes.length = chunks.length then
          decimal (changed previous.chunkHashes chunks) ++ ascii "/" ++ decimal chunks.length ++
            ascii " chunks changed vs. previous version\n"
        else
          ascii "chunk count changed (" ++ decimal previous.chunkHashes.length ++ ascii " -> " ++ decimal chunks.length ++
            ascii "), treating as full re-chunk\n"
      else fresh

-- What a call leaves: the engine, what was printed, and what it returned or threw.
structure Called (α : Type) where
  engine : SyncEngine
  table : Table
  out : Bytes
  result : Except Error α

-- ingest_file, and run_sync_session over a link, where the file system may refuse to
-- make a directory: unmade is what its exception says, for a session with the files
-- that were written before.
def ingest (e : SyncEngine) (path bytes : Bytes) (unmade : Option Bytes) : SyncEngine × Except Error Unit :=
  match unmade with
  | none => ((e.ingestFile path bytes).1,(e.ingestFile path bytes).2.map (fun _ => ()))
  | some text => (e.ingestRefused path bytes,
    if ((e.ingested path bytes).store.get path).any FileEntry.hasContent then .error (.runtimeError text) else .ok ())

def session (e : SyncEngine) (link : Link) (unmade : Option (Bytes × OrdMap Bytes Bytes)) : SyncEngine × Except Error SyncStats :=
  let outcome := (runSyncSession e).run link
  match unmade with
  | none => (outcome.engine,outcome.result)
  | some (text,files) => ({ outcome.engine with disk := ⟨outcome.engine.blobs,e.disk.journal,files⟩ },.error (.runtimeError text))

-- source is what the source file holds, none if it cannot be opened.
def addFile (e : SyncEngine) (logicalPath sourcePath : Bytes) (source unmade : Option Bytes) (t : Table) : Called Unit :=
  match source with
  | none => ⟨e,t,[],.error (.runtimeError (ascii "cannot open source file: " ++ sourcePath))⟩
  | some bytes =>
    let (after,result) := ingest e logicalPath bytes unmade
    ⟨after,t,ingestReport e logicalPath bytes,result⟩

def removeFile (e : SyncEngine) (logicalPath : Bytes) : SyncEngine := e.deleteFile logicalPath

def listLine (e : FileEntry) : Bytes :=
  if e.deleted then ascii "  [deleted]  " ++ e.path ++ ascii "  clock=" ++ e.clock.toText ++ [10]
  else ascii "  " ++ e.path ++ ascii "  (" ++ decimal e.size.toNat ++ ascii " bytes, " ++ decimal e.chunkHashes.length ++
    ascii " chunks)  clock=" ++ e.clock.toText ++ ascii "  last_writer=" ++ e.lastWriter ++ [10]

def listFiles (e : SyncEngine) : Bytes := e.store.allEntries.flatMap listLine

section
variable (k : Kernel) (e : SyncEngine)

-- The socket is a local variable: it is closed whether the session returns or throws.
def syncWith (host : Bytes) (port : ℤ) (resolved : Option (List Address)) (link : Link)
    (unmade : Option (Bytes × OrdMap Bytes Bytes)) (t : Table) : Called SyncStats :=
  match connectTo k host port resolved t with
  | (.error x,t) => ⟨e,t,[],.error x⟩
  | (.ok fd,t) =>
    let (after,result) := session e link unmade
    ⟨after,t.close fd,[],result⟩

def listenAndSync (port : ℤ) (replies : Replies) (link : Link) (unmade : Option (Bytes × OrdMap Bytes Bytes)) (t : Table) :
    Called SyncStats :=
  let listening := ascii "[" ++ e.store.nodeId ++ ascii "] listening on port " ++ toText port ++ ascii " ...\n"
  match acceptOnce k port replies t with
  | (.error x,t) => ⟨e,t,listening,.error x⟩
  | (.ok fd,t) =>
    let (after,result) := session e link unmade
    ⟨after,t.close fd,listening ++ ascii "[" ++ e.store.nodeId ++ ascii "] peer connected, syncing...\n",result⟩

end

-- A visit to a peer: the session over the link, or an error before it. Either way the
-- descriptors are those from before.
inductive Visited (e : SyncEngine) (link : Link) (unmade : Option (Bytes × OrdMap Bytes Bytes)) (t : Table) :
    Bool → Called SyncStats → Prop where
  | unconnected : Visited e link unmade t false ⟨e,t,out,.error x⟩
  | met : Visited e link unmade t true ⟨(session e link unmade).1,t,out,(session e link unmade).2⟩

theorem close_given {t : Table} (fresh : fd ∉ t.opened) : (⟨insert fd t.opened,t.strays⟩ : Table).close fd = t := by
  unfold Table.close
  rw [if_pos (Finset.mem_insert_self _ _),Finset.erase_insert fresh]

theorem syncWith_visited (k : Kernel) (e : SyncEngine) (host : Bytes) (port : ℤ) (resolved : Option (List Address)) (link : Link)
    (unmade : Option (Bytes × OrdMap Bytes Bytes)) (t : Table) :
    Visited e link unmade t (connectTo k host port resolved t).1.isOk (syncWith k e host port resolved link unmade t) := by
  have gives := connectTo_gives k host port resolved t
  unfold syncWith
  generalize connectTo k host port resolved t = given at gives ⊢
  cases gives with
  | fails => exact .unconnected
  | returns fresh =>
    dsimp only
    rw [close_given fresh]
    exact .met

theorem listenAndSync_visited (k : Kernel) (e : SyncEngine) (port : ℤ) (replies : Replies) (link : Link)
    (unmade : Option (Bytes × OrdMap Bytes Bytes)) (t : Table) :
    Visited e link unmade t (acceptOnce k port replies t).1.isOk (listenAndSync k e port replies link unmade t) := by
  have gives := acceptOnce_gives k port replies t
  unfold listenAndSync
  generalize acceptOnce k port replies t = given at gives ⊢
  cases gives with
  | fails => exact .unconnected
  | returns fresh =>
    dsimp only
    rw [close_given fresh]
    exact .met

end Node
end P2PSync
