import P2PSync.Confinement

-- Where the files of a data directory lie. A path that is materialized can lead to
-- a file of the engine's own, or make a directory where one belongs. Places are
-- taken by their text, as if nothing on the way were a symbolic link.
namespace P2PSync.Layout
open Network SyncEngine Paths Confinement EntryCodec

-- The working directory of a process, by its names from the root, and the data
-- directory as it was given.
structure Site where
  cwd : List Bytes
  dataDir : Bytes
  named : 0 ∉ dataDir

-- What a system call gets of a path: the text up to the first NUL.
def cString (path : Bytes) : Bytes := path.takeWhile (· ≠ 0)

-- path.parent_path(), as far as it tells where a path leads.
def parentPath (path : Bytes) : Bytes := (path.reverse.dropWhile (· ≠ 47)).reverse

namespace Site

def start (site : Site) (path : Bytes) : Place Bytes := if path.head? = some 47 then .root else Place.root.enter site.cwd

def place (site : Site) (path : Bytes) : Place Bytes := (site.start (cString path)).walk (moves (cString path))

-- The places that a path leads through, one after the other.
def trail (site : Site) (path : Bytes) : List (Place Bytes) :=
  (moves (cString path)).scanl Place.go (site.start (cString path))

-- journal_path() and FileStore::chunk_path()
def journalPlace (site : Site) : Place Bytes := site.place (site.dataDir ++ ascii "/store.meta")

def chunkPlace (site : Site) (hash : Digest) : Place Bytes :=
  site.place (site.dataDir ++ ascii "/blobstore/chunks" ++ 47 :: FileStore.chunkPath hash)

-- The digest whose chunk file a place is.
def chunkAt (site : Site) (p : Place Bytes) : Option Digest :=
  match hexToDigest ((p.names.getLast?.getD []).take 64) with
  | .error _ => none
  | .ok hash => if site.chunkPlace hash = p then some hash else none

-- What FileStore::materialize opens for a path, and the directories it makes first.
def full (site : Site) (path : Bytes) : Bytes := joinPath (materializedDir site.dataDir) path

def target (site : Site) (path : Bytes) : Place Bytes := site.place (site.full path)

def through (site : Site) (path : Bytes) : List (Place Bytes) := site.trail (parentPath (site.full path))

-- No chunk file is where the path leads or where it needs a directory.
def Clear (site : Site) (path : Bytes) : Prop :=
  ∀ hash, site.chunkPlace hash ∉ site.through path ∧ site.chunkPlace hash ≠ site.target path

-- The path needs a directory where the journal belongs.
def Burrows (site : Site) (path : Bytes) : Prop := site.journalPlace ∈ site.through path

instance (site : Site) (path : Bytes) : Decidable (site.Burrows path) := inferInstanceAs (Decidable (_ ∈ _))

-- The path has nothing to do with the engine's own files.
structure Apart (site : Site) (path : Bytes) : Prop where
  clear : site.Clear path
  level : ¬ site.Burrows path
  aside : site.target path ≠ site.journalPlace

end Site

theorem cString_free {path : Bytes} (free : 0 ∉ path) : cString path = path := by
  rw [cString,List.takeWhile_eq_self_iff]
  intro c member
  simpa using fun zero : c = 0 => free (zero ▸ member)

theorem mem_chunkPath {hash : Digest} (member : c ∈ FileStore.chunkPath hash) : c ≠ 0 ∧ c ≠ 47 := by
  rcases List.mem_append.mp member with hex | suffix
  · have digit := toHex_ge hex
    constructor
    · rintro rfl
      exact absurd digit (by decide)
    · rintro rfl
      exact absurd digit (by decide)
  · have letters : ascii ".chunk" = [46,99,104,117,110,107] := by decide +kernel
    rw [letters] at suffix
    simp only [List.mem_cons,List.not_mem_nil,or_false] at suffix
    rcases suffix with rfl | rfl | rfl | rfl | rfl | rfl <;> decide

-- A piece of a path that is a name and nothing else.
theorem moves_name {name : Bytes} (solid : 47 ∉ name) (long : 2 < name.length) : moves name = [.down name] := by
  have whole : Text.pieces 47 name = [name] := Text.pieces_free solid
  have other : ∀ short : Bytes, short.length ≤ 2 → name ≠ short := by
    rintro short le rfl
    omega
  rw [moves,whole,List.map_singleton,move,if_neg (not_or.mpr ⟨other [] (by decide),other (ascii ".") (by decide)⟩),
    if_neg (other (ascii "..") (by decide))]

-- A chunk file stands under its own name in the chunk directory.
theorem chunkPlace_names (site : Site) (hash : Digest) :
    (site.chunkPlace hash).names.getLast? = some (FileStore.chunkPath hash) := by
  have free : 0 ∉ site.dataDir ++ ascii "/blobstore/chunks" ++ 47 :: FileStore.chunkPath hash := by
    have const : 0 ∉ ascii "/blobstore/chunks" := by decide
    have name : 0 ∉ FileStore.chunkPath hash := fun zero => (mem_chunkPath zero).1 rfl
    simp [site.named,const,name]
  have size : 2 < (FileStore.chunkPath hash).length := by
    rw [FileStore.chunkPath,List.length_append,toHex_length]
    omega
  rw [Site.chunkPlace,Site.place,cString_free free,moves_join,moves_name (fun slash => (mem_chunkPath slash).2 rfl) size,
    Place.walk,List.foldl_append]
  exact List.getLast?_concat

theorem chunkAt_iff {hash : Digest} {p : Place Bytes} (site : Site) : site.chunkAt p = some hash ↔ site.chunkPlace hash = p := by
  constructor
  · intro found
    unfold Site.chunkAt at found
    split at found
    · cases found
    · split at found
      · rename_i here
        cases found
        exact here
      · cases found
  · rintro rfl
    have digits : (FileStore.chunkPath hash).take 64 = Sha256.toHex hash := by
      rw [FileStore.chunkPath,List.take_left' (toHex_length hash)]
    unfold Site.chunkAt
    rw [chunkPlace_names,Option.getD_some,digits,hexToDigest_toHex]
    exact if_pos rfl

theorem clear_iff (site : Site) (path : Bytes) :
    site.Clear path ↔ ∀ p ∈ site.target path :: site.through path, site.chunkAt p = none := by
  constructor
  · intro clear p member
    by_contra taken
    obtain ⟨hash,found⟩ := Option.ne_none_iff_exists'.mp taken
    obtain rfl := (chunkAt_iff site).mp found
    rcases List.mem_cons.mp member with here | inside
    · exact (clear hash).2 here
    · exact (clear hash).1 inside
  · intro free hash
    have found := (chunkAt_iff site).mpr (Eq.refl (site.chunkPlace hash))
    constructor
    · intro inside
      rw [free _ (List.mem_cons_of_mem _ inside)] at found
      cases found
    · intro here
      rw [free _ (here ▸ List.mem_cons_self)] at found
      cases found

instance (site : Site) (path : Bytes) : Decidable (site.Clear path) := decidable_of_iff _ (clear_iff site path).symm

-- A process at /home that was given the directory data.
def home : Site := ⟨[ascii "home"],ascii "data",by decide⟩

example : ¬ home.Clear (ascii "../blobstore/chunks/" ++ FileStore.chunkPath (.filled 1)) := by decide +kernel

example : home.Burrows (ascii "../store.meta/x") := by decide +kernel

-- What the surroundings do during one call: the paths for which the file system
-- throws before anything is opened; what is left, and whether it throws, where a
-- directory and one of the engine's own files are at odds; and what is stored of a
-- record that runs past the end of its payload, none if the process dies there.
structure Fate where
  refuses : Bytes → Option Error
  wreck : Disk
  thrown : Except Error Unit
  overread : Option Chunk

def Fate.calm : Fate := ⟨fun _ => none,⟨.empty,none,.empty⟩,.ok (),none⟩

section
variable (site : Site) (fate : Fate)

-- std::ofstream out(full): the file may be the journal or a chunk.
def write (e : SyncEngine) (path bytes : Bytes) : Disk :=
  if site.target path = site.journalPlace then { e.disk with journal := some bytes }
  else match site.chunkAt (site.target path) with
    | some hash => { e.disk with blobs := ⟨e.blobs.chunks.insert (FileStore.chunkPath hash) bytes⟩ }
    | none => { e.disk with files := e.disk.files.insert path bytes }

-- The path needs a directory where a file of the engine belongs.
def Digs (path : Bytes) : Prop := site.Burrows path ∨ ∃ p ∈ site.through path, (site.chunkAt p).isSome

instance (path : Bytes) : Decidable (Digs site path) := inferInstanceAs (Decidable (_ ∨ _))

-- Only the files that the path leads to or through are in danger.
def wrecked (e : SyncEngine) (path : Bytes) : Disk where
  blobs := if site.Clear path then e.blobs else fate.wreck.blobs
  journal := if site.Burrows path ∨ site.target path = site.journalPlace then fate.wreck.journal else e.disk.journal
  files := fate.wreck.files

def materializeAt (e : SyncEngine) (path : Bytes) : SyncEngine × Except Error Unit :=
  match e.store.get path with
  | none => (e,.ok ())
  | some entry =>
    if entry.hasContent then
      if Digs site path then (⟨wrecked site fate e path,e.store⟩,fate.thrown)
      else match fate.refuses path with
        | some x => (e,.error x)
        | none => match e.blobs.reassemble entry.chunkHashes with
          | .error x => (e,.error x)
          | .ok bytes => (⟨write site e path bytes,e.store⟩,.ok ())
    else (e,.ok ())

def ingestAt (e : SyncEngine) (path bytes : Bytes) : SyncEngine :=
  match materializeAt site fate (e.ingested path bytes) path with
  | (e,.error _) => e
  | (e,.ok _) => e.saveJournal

def materializeAllAt (e : SyncEngine) : List Bytes → SyncEngine × Except Error Unit
  | [] => (e,.ok ())
  | path :: rest => match materializeAt site fate e path with
    | (e,.error x) => (e,.error x)
    | (e,.ok _) => materializeAllAt e rest

def finishAt (e : SyncEngine) (paths : List Bytes) (stats : SyncStats) (payload : Bytes) : Session :=
  let (chunks,past) := decodeChunks payload
  let chunks := if past then chunks ++ fate.overread.toList else chunks
  let e := e.withBlobs (chunks.foldl FileStore.putChunk e.blobs)
  let stats := { stats with chunksFetched := stats.chunksFetched + chunks.length }
  if past = true ∧ fate.overread = none then .stop e (.error .pastPayload)
  else match materializeAllAt site fate e paths with
    | (e,.error x) => .stop e (.error x)
    | (e,.ok _) =>
      let e := e.saveJournal
      .send e ⟨frameDone,[]⟩ (.recv e (fun _ => .stop e (.ok stats)))

def sessionAt (e : SyncEngine) (link : Link) : Outcome := (runSyncSessionWith (finishAt site fate) e).run link

end

section
variable {site : Site} {fate : Fate}

-- The paths of a list that have something to write are as wanted.
def Written (wanted : Bytes → Prop) (e : SyncEngine) (path : Bytes) : Prop :=
  ∀ entry, e.store.get path = some entry → entry.hasContent = true → wanted path

-- A path that is clear of the chunk files leaves them as they are.
theorem materializeAt_frame (fate : Fate) {e : SyncEngine} (clear : Written site.Clear e path) :
    (materializeAt site fate e path).1.blobs = e.blobs ∧ (materializeAt site fate e path).1.store = e.store := by
  unfold materializeAt
  split
  · exact ⟨rfl,rfl⟩
  · rename_i entry held
    split
    · rename_i content
      have free := clear entry held content
      split
      · exact ⟨if_pos free,rfl⟩
      · split
        · exact ⟨rfl,rfl⟩
        · split
          · exact ⟨rfl,rfl⟩
          · refine ⟨?_,rfl⟩
            unfold write
            split
            · rfl
            · rw [(clear_iff site path).mp free _ List.mem_cons_self]
              rfl
    · exact ⟨rfl,rfl⟩

theorem materializeAllAt_frame (fate : Fate) (e : SyncEngine) (paths : List Bytes) (clear : ∀ path ∈ paths, Written site.Clear e path) :
    (materializeAllAt site fate e paths).1.blobs = e.blobs ∧ (materializeAllAt site fate e paths).1.store = e.store := by
  induction paths generalizing e with
  | nil => exact ⟨rfl,rfl⟩
  | cons path rest ih =>
    obtain ⟨blobs,store⟩ := materializeAt_frame fate (clear path List.mem_cons_self)
    unfold materializeAllAt
    split
    · rename_i next x failed
      rw [failed] at blobs store
      exact ⟨blobs,store⟩
    · rename_i next _ done
      rw [done] at blobs store
      have later : ∀ path ∈ rest, Written site.Clear next path := by
        intro path member
        rw [Written,store]
        exact clear path (List.mem_cons_of_mem _ member)
      obtain ⟨more,kept⟩ := ih next later
      exact ⟨more.trans blobs,kept.trans store⟩

-- The last steps, where no record runs past the end of the payload.
theorem finishAt_whole {payload : Bytes} (whole : (decodeChunks payload).2 = false) (e : SyncEngine) (paths : List Bytes)
    (stats : SyncStats) : finishAt site fate e paths stats payload =
      match materializeAllAt site fate (stored e payload) paths with
      | (now,.error x) => .stop now (.error x)
      | (now,.ok _) => .send now.saveJournal ⟨frameDone,[]⟩
        (.recv now.saveJournal (fun _ => .stop now.saveJournal (.ok (tally stats payload)))) := by
  rcases decoded : decodeChunks payload with ⟨chunks,past⟩
  rw [decoded] at whole
  cases whole
  rw [stored,tally,decoded,finishAt,decoded]
  dsimp only
  rw [if_neg Bool.false_ne_true,if_neg (fun past => Bool.false_ne_true past.1)]

-- The blobs at the end of a session that writes over none of them.
theorem finishAt_blobs {e : SyncEngine} {paths : List Bytes} (clear : ∀ path ∈ paths, Written site.Clear e path)
    (whole : (decodeChunks payload).2 = false) (stats : SyncStats) (link : Link) :
    ((finishAt site fate e paths stats payload).run link).engine.blobs = (stored e payload).blobs := by
  have frame := (materializeAllAt_frame fate (stored e payload) paths clear).1
  rw [finishAt_whole whole]
  split
  · rename_i next x failed
    rw [failed] at frame
    exact frame
  · rename_i next _ settled
    rw [settled] at frame
    rcases run_done next.saveJournal (tally stats payload) link with ⟨x,sent,failed⟩ | ⟨received,done⟩
    · rw [failed]
      exact frame
    · rw [done]
      exact frame

-- Away from the engine's own files, with a file system that does not refuse, this
-- is materialize.
def Smooth (site : Site) (fate : Fate) (path : Bytes) : Prop := site.Apart path ∧ fate.refuses path = none

theorem materializeAt_smooth {e : SyncEngine} (smooth : Written (Smooth site fate) e path) :
    materializeAt site fate e path = e.materialize path := by
  unfold materializeAt materialize
  cases held : e.store.get path with
  | none => rfl
  | some entry =>
    dsimp only
    split
    · rename_i content
      obtain ⟨apart,calm⟩ := smooth entry held content
      have free := (clear_iff site path).mp apart.clear
      have undug : ¬ Digs site path := by
        rintro (burrows | ⟨p,inside,taken⟩)
        · exact apart.level burrows
        · rw [free p (List.mem_cons_of_mem _ inside)] at taken
          cases taken
      rw [if_neg undug,calm]
      dsimp only
      cases read : e.blobs.reassemble entry.chunkHashes with
      | error x => rfl
      | ok bytes =>
        dsimp only
        unfold write
        rw [if_neg apart.aside,free _ List.mem_cons_self]
    · rfl

theorem materializeAllAt_smooth (e : SyncEngine) (paths : List Bytes) (smooth : ∀ path ∈ paths, Written (Smooth site fate) e path) :
    materializeAllAt site fate e paths = materializeAll e paths := by
  induction paths generalizing e with
  | nil => rfl
  | cons path rest ih =>
    unfold materializeAllAt materializeAll
    rw [materializeAt_smooth (smooth path List.mem_cons_self)]
    obtain ⟨files,kept⟩ := e.materialize_files path
    rcases done : e.materialize path with ⟨next,result⟩
    rw [done] at kept
    cases kept
    cases result with
    | error x => rfl
    | ok _ => exact ih _ (fun later member => smooth later (List.mem_cons_of_mem _ member))

theorem finishAt_smooth {e : SyncEngine} {paths : List Bytes} (smooth : ∀ path ∈ paths, Written (Smooth site fate) e path)
    (whole : (decodeChunks payload).2 = false) (stats : SyncStats) :
    finishAt site fate e paths stats payload = finishSession e paths stats payload := by
  rw [finishAt_whole whole,materializeAllAt_smooth (stored e payload) paths smooth,stored,tally]
  rcases decoded : decodeChunks payload with ⟨chunks,past⟩
  rw [decoded] at whole
  cases whole
  rw [finishSession,decoded]
  rfl

theorem ingestAt_smooth {e : SyncEngine} (smooth : Smooth site fate path) (bytes : Bytes) :
    ingestAt site fate e path bytes = (e.ingestFile path bytes).1 := by
  unfold ingestAt ingestFile
  rw [materializeAt_smooth (fun _ _ _ => smooth)]
  rcases (e.ingested path bytes).materialize path with ⟨next,result⟩
  cases result with
  | error x => rfl
  | ok _ => rfl

-- A session over this link stays inside its payload and writes to wanted paths alone.
def Tidy (wanted : Bytes → Prop) (s : CrdtStore) (link : Link) : Prop :=
  ∀ entries data, link.Reaches entries data → (decodeChunks data).2 = false ∧ ∀ path, Content s entries path → wanted path

theorem Tidy.written {e : SyncEngine} {link : Link} (tidy : Tidy wanted e.store link) (reaches : link.Reaches entries data) :
    (decodeChunks data).2 = false ∧ ∀ path ∈ (merging e entries).paths, Written wanted (afterMerge e entries) path := by
  obtain ⟨whole,content⟩ := tidy entries data reaches
  refine ⟨whole,fun path member entry held full => content path ⟨?_,entry,?_,full⟩⟩
  · rw [← paths_merging]
    exact member
  · rw [← FailedSession.store_afterMerge]
    exact held

theorem sessionAt_smooth {e : SyncEngine} {link : Link} (tidy : Tidy (Smooth site fate) e.store link) :
    sessionAt site fate e link = (runSyncSession e).run link := by
  refine run_session_congr ?_
  intro entries data reaches
  obtain ⟨whole,smooth⟩ := tidy.written reaches
  exact finishAt_smooth smooth whole _

-- Such a session adds the records of its payload to the chunks, or none.
theorem sessionAt_blobs (fate : Fate) {e : SyncEngine} {link : Link} (tidy : Tidy site.Clear e.store link) :
    (sessionAt site fate e link).engine.blobs = e.blobs ∨ ∃ entries data, link.Reaches entries data ∧
      (sessionAt site fate e link).engine.blobs = (decodeChunks data).1.foldl FileStore.putChunk e.blobs := by
  have ended := run_endedWith (finishAt site fate) e link
  have sends := run_takes (runSyncSessionWith (finishAt site fate) e) link
  rw [← sessionAt] at ended sends
  generalize sessionAt site fate e link = o at ended sends ⊢
  cases ended with
  | unread _ => exact .inl rfl
  | merged _ => exact .inl rfl
  | fetched hello asks arrived listed asking asked later finished =>
    have takes : 3 ≤ link.takes := by
      simp [script] at sends
      omega
    have reaches : link.Reaches _ _ := ⟨takes,_,_,_,_,_,hello,asks,arrived,listed,_,asked⟩
    obtain ⟨whole,clear⟩ := tidy.written reaches
    exact .inr ⟨_,_,reaches,finished ▸ finishAt_blobs clear whole _ later⟩

end

end P2PSync.Layout
