import P2PSync.Crashes

-- A chunk file stays as its first write left it, whoever made that write.
namespace P2PSync.WriteOnce
open SyncEngine Commands Crashes

def held (disk : Disk) (hash : Digest) : Option Bytes := disk.blobs.chunks.find (FileStore.chunkPath hash)

def given (hash : Digest) : Write → Option Bytes
  | .chunk c => if c.hash = hash then some c.data else none
  | .file _ _ => none
  | .journal _ => none

-- The writes of a process, and of processes one after another.
def made (disk : Disk) (p : Process × Fate) : List Write :=
  match SyncEngine.start p.1.nodeId disk with
  | .error _ => []
  | .ok e => p.2.done (writes e p.1.command)

def trace (disk : Disk) : List (Process × Fate) → List Write
  | [] => []
  | p :: rest => made disk p ++ trace (crash disk p) rest

def after (disk : Disk) (processes : List (Process × Fate)) : Disk := processes.foldl crash disk

theorem crash_made (disk : Disk) (p : Process × Fate) : crash disk p = (made disk p).foldl Write.apply disk := by
  unfold crash made
  cases SyncEngine.start p.1.nodeId disk with
  | error x => rfl
  | ok e => rfl

theorem after_trace (disk : Disk) (processes : List (Process × Fate)) :
    after disk processes = (trace disk processes).foldl Write.apply disk := by
  induction processes generalizing disk with
  | nil => rfl
  | cons p rest ih =>
    have later : after disk (p :: rest) = after (crash disk p) rest := rfl
    rw [later,ih,trace,List.foldl_append,← crash_made]

theorem held_apply (disk : Disk) (w : Write) (hash : Digest) : held (w.apply disk) hash = (held disk hash).or (given hash w) := by
  cases w with
  | file path bytes => exact (Option.or_none).symm
  | journal text => exact (Option.or_none).symm
  | chunk c =>
    have found : held (Write.apply disk (.chunk c)) hash = (disk.blobs.putChunk c).chunks.find (FileStore.chunkPath hash) := rfl
    rw [found,FileStore.find_putChunk,given]
    by_cases same : c.hash = hash
    · subst same
      cases has : disk.blobs.hasChunk c.hash with
      | true =>
        obtain ⟨bytes,there⟩ := FileStore.hasChunk_iff.mp has
        simp [held,there]
      | false =>
        have nothing : held disk c.hash = none := by simpa [held,FileStore.hasChunk,OrdMap.contains] using has
        simp [nothing]
    · have apart : FileStore.chunkPath c.hash ≠ FileStore.chunkPath hash := fun named => same (FileStore.chunkPath_injective named)
      simp [same,apart,held]

theorem held_writes (disk : Disk) (listed : List Write) (hash : Digest) :
    held (listed.foldl Write.apply disk) hash = (held disk hash).or (listed.findSome? (given hash)) := by
  induction listed generalizing disk with
  | nil => exact (Option.or_none).symm
  | cons w rest ih =>
    rw [List.foldl_cons,ih,held_apply,Option.or_assoc,List.findSome?_cons]
    cases given hash w with
    | none => rfl
    | some bytes => rfl

-- The first write of the whole trace decides.
theorem held_after (disk : Disk) (processes : List (Process × Fate)) (hash : Digest) :
    held (after disk processes) hash = (held disk hash).or ((trace disk processes).findSome? (given hash)) := by
  rw [after_trace,held_writes]

theorem getChunk_held (disk : Disk) (hash : Digest) (bytes : Bytes) : disk.blobs.getChunk hash = .ok bytes ↔ held disk hash = some bytes := by
  unfold FileStore.getChunk held
  cases disk.blobs.chunks.find (FileStore.chunkPath hash) with
  | none => simp
  | some found => simp

theorem given_chunks {chunks : List Chunk} (apart : ∀ c ∈ chunks, ∀ d ∈ chunks, c.hash = d.hash → c.data = d.data)
    (member : c ∈ chunks) : (chunks.map Write.chunk).findSome? (given c.hash) = some c.data := by
  induction chunks with
  | nil => cases member
  | cons first rest ih =>
    rw [List.map_cons,List.findSome?_cons,given]
    by_cases same : first.hash = c.hash
    · have equal : first.data = c.data := apart first List.mem_cons_self c member same
      simp [same,equal]
    · have later : c ∈ rest := by
        rcases List.mem_cons.mp member with rfl | later
        · exact absurd rfl same
        · exact later
      rw [if_neg same]
      exact ih (fun c inside d other => apart c (List.mem_cons_of_mem _ inside) d (List.mem_cons_of_mem _ other)) later

-- So many writes arrive whole.
def Fate.Passes (n : ℕ) : Fate → Prop
  | .ends => True
  | .killed after => n ≤ after
  | .torn after _ => n ≤ after

theorem done_passes {fate : Fate} {early : List Write} (passes : Fate.Passes early.length fate) (rest : List Write) :
    ∃ more, fate.done (early ++ rest) = early ++ more := by
  cases fate with
  | ends => exact ⟨rest,rfl⟩
  | killed n =>
    have short : early.length ≤ n := passes
    refine ⟨rest.take (n - early.length),?_⟩
    rw [Fate.done,List.take_append,List.take_of_length_le short]
  | torn n size =>
    have short : early.length ≤ n := passes
    refine ⟨rest.take (n - early.length) ++ (((early ++ rest).drop n).head?.map (Write.cut size)).toList,?_⟩
    rw [Fate.done,List.take_append,List.take_of_length_le short,List.append_assoc]

-- The chunks of a file that a process was given to add, as the directory holds them later.
theorem held_added {disk : Disk} {bytes : Bytes} (started : SyncEngine.start nodeId disk = .ok e) (path : Bytes) (refused : Bool)
    (passes : Fate.Passes (Chunker.standard.chunk bytes).length fate) (later : List (Process × Fate))
    (apart : ∀ c ∈ Chunker.standard.chunk bytes, ∀ d ∈ Chunker.standard.chunk bytes, c.hash = d.hash → c.data = d.data)
    (member : c ∈ Chunker.standard.chunk bytes) :
    held (after disk ((⟨nodeId,.add path (some bytes) refused⟩,fate) :: later)) c.hash = (held disk c.hash).or (some c.data) := by
  have many : Fate.Passes ((Chunker.standard.chunk bytes).map Write.chunk).length fate := by
    rw [List.length_map]
    exact passes
  obtain ⟨more,wrote⟩ := done_passes many (commitWrites (e.ingested path bytes) [path])
  have begins : made disk (⟨nodeId,.add path (some bytes) refused⟩,fate) = (Chunker.standard.chunk bytes).map Write.chunk ++ more := by
    unfold made
    rw [started]
    exact wrote
  rw [held_after,trace,begins,List.append_assoc,List.findSome?_append,given_chunks apart member]
  rfl

-- A version that reads back, and every process that shows it writes it out.
structure ReadsBack (disk : Disk) (hashes : List Digest) (bytes : Bytes) : Prop where
  read : disk.blobs.reassemble hashes = .ok bytes
  shown : ∀ nodeId e path entry, SyncEngine.start nodeId disk = .ok e → e.store.get path = some entry → entry.hasContent = true →
    entry.chunkHashes = hashes → e.materialize path = (e.withFiles (e.disk.files.insert path bytes),.ok ())

theorem reads_back {disk : Disk} (read : disk.blobs.reassemble hashes = .ok bytes) : ReadsBack disk hashes bytes := by
  refine ⟨read,?_⟩
  intro nodeId e path entry started held full same
  obtain ⟨rfl,_,_⟩ := start_read started
  subst same
  unfold materialize
  rw [held]
  dsimp only
  rw [if_pos full]
  have found : e.blobs.reassemble entry.chunkHashes = .ok bytes := read
  rw [found]
  rfl

-- A chunk file that a kill cut short is never made whole.
theorem torn_chunk_stays (disk : Disk) (e : SyncEngine) (p : Process) (n size : ℕ) (c : Chunk) (later : List (Process × Fate))
    (started : SyncEngine.start p.nodeId disk = .ok e) (torn : (writes e p.command)[n]? = some (.chunk c))
    (absent : disk.blobs.hasChunk c.hash = false) (first : ∀ d, .chunk d ∈ (writes e p.command).take n → d.hash ≠ c.hash) :
    (after disk ((p,.torn n size) :: later)).blobs.getChunk c.hash = .ok (c.data.take size) := by
  have nothing : held disk c.hash = none := by simpa [held,FileStore.hasChunk,OrdMap.contains] using absent
  have none_before : ((writes e p.command).take n).findSome? (given c.hash) = none := by
    rw [List.findSome?_eq_none_iff]
    intro w member
    cases w with
    | chunk d => exact if_neg (first d member)
    | file path bytes => rfl
    | journal text => rfl
  have next : ((writes e p.command).drop n).head? = some (.chunk c) := by
    rw [List.head?_drop]
    exact torn
  have wrote : made disk (p,.torn n size) = (writes e p.command).take n ++ [.chunk ⟨c.offset,c.data.take size,c.hash⟩] := by
    unfold made
    rw [started]
    dsimp only
    rw [Fate.done,next]
    rfl
  rw [getChunk_held,held_after,trace,wrote,nothing,List.findSome?_append,List.findSome?_append,none_before]
  simp [given]

-- One byte is added by a process that dies in its journal; then it is removed.
def interrupted : Process × Fate := (⟨ascii "A",.add (ascii "a.txt") (some [7]) false⟩,.torn 2 1)

-- The same byte, where the kill comes inside the chunk file: adding it again does not help.
theorem torn_chunk_stays_again : ∃ c ∈ Chunker.standard.chunk [7], (after ⟨.empty,none,.empty⟩
    [(⟨ascii "A",.add (ascii "a.txt") (some [7]) false⟩,.torn 0 0),
      (⟨ascii "A",.add (ascii "a.txt") (some [7]) false⟩,.ends)]).blobs.getChunk c.hash = .ok [] := by
  have one : (Chunker.standard.chunk [7]).length = 1 := by decide +kernel
  obtain ⟨only,single⟩ := List.length_eq_one_iff.mp one
  have torn : (writes (fresh (ascii "A")) (.add (ascii "a.txt") (some [7]) false))[0]? = some (.chunk only) := by
    simp [writes,ingestWrites,single]
  refine ⟨only,by simp [single],?_⟩
  exact torn_chunk_stays ⟨.empty,none,.empty⟩ (fresh (ascii "A")) ⟨ascii "A",.add (ascii "a.txt") (some [7]) false⟩ 0 0 only
    [(⟨ascii "A",.add (ascii "a.txt") (some [7]) false⟩,.ends)] rfl torn rfl (fun d member => by simp at member)

end P2PSync.WriteOnce
