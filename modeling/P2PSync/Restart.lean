import P2PSync.Layout

namespace P2PSync.Restart
open SyncEngine EntryCodec Layout

-- refused: materialize throws, at the latest when it has made its directories.
-- dug: by then it had made the one, if any, where the journal belongs.
inductive Call where
  | ingest (path bytes : Bytes) (refused dug : Bool)
  | delete (path : Bytes)

def Call.path : Call → Bytes
  | .ingest path _ _ _ => path
  | .delete path => path

-- An engine at its data directory. Where store.meta is a directory, a journal is
-- neither written nor read.
structure Desk where
  engine : SyncEngine
  blocked : Bool
  unwritten : blocked = true → engine.disk.journal = none

def settle (e : SyncEngine) : Bool → Desk
  | false => ⟨e,false,nofun⟩
  | true => ⟨{ e with disk := { e.disk with journal := none } },true,fun _ => rfl⟩

section
variable (site : Site)

-- The constructor makes the directories of the blob store and finds nothing to read.
def initial (nodeId : Bytes) : Desk :=
  settle (fresh nodeId) (site.journalPlace ∈ site.trail (site.dataDir ++ ascii "/blobstore/chunks"))

-- A path that needs a directory where the journal stands is refused; where it
-- belongs but does not stand yet, a directory is made in its place. A file without
-- content is not materialized.
def perform (d : Desk) : Call → Desk
  | .ingest path bytes refused dug =>
    let hindered := site.Burrows path ∧ d.engine.disk.journal ≠ none
    let digs := site.Burrows path ∧ bytes ≠ [] ∧ d.engine.disk.journal = none ∧ (refused = false ∨ dug = true)
    settle (if refused = true ∨ hindered then d.engine.ingestRefused path bytes else (d.engine.ingestFile path bytes).1)
      (d.blocked || decide digs)
  | .delete path => settle (d.engine.deleteFile path) d.blocked

def desk (nodeId : Bytes) (calls : List Call) : Desk := calls.foldl (perform site) (initial site nodeId)

namespace Call

-- The calls that come to save_journal.
def Saves : Call → Prop
  | .ingest path bytes refused _ => bytes = [] ∨ (refused = false ∧ ¬ site.Burrows path)
  | .delete _ => True

-- The calls that make a directory where the journal belongs, unless it stands there.
def Digs : Call → Prop
  | .ingest path bytes refused dug => site.Burrows path ∧ bytes ≠ [] ∧ (refused = false ∨ dug = true)
  | .delete _ => False

end Call

-- Nothing makes store.meta a directory: the data directory does not lead through it,
-- and before a call that would there is one that saves.
def Undug (calls : List Call) : Prop :=
  site.journalPlace ∉ site.trail (site.dataDir ++ ascii "/blobstore/chunks") ∧
    ∀ front call back, calls = front ++ call :: back → call.Digs site → ∃ earlier ∈ front, earlier.Saves site

def Undisturbed (nodeId : Bytes) (calls : List Call) : Prop :=
  calls = [] ∨ (Plain nodeId ∧ (∀ call ∈ calls, Lined call.path) ∧ Undug site calls ∧ ∀ call ∈ calls.getLast?, call.Saves site)

-- A new engine over the same directory comes up with the same entries.
def Restored (nodeId : Bytes) (d : Desk) : Prop :=
  ∃ again, start nodeId d.engine.disk = .ok again ∧ again.store.allEntries = d.engine.store.allEntries

structure Performed (d : Desk) (call : Call) (after : Desk) : Prop where
  stored : ∃ entry, after.engine.store = d.engine.store.store entry ∧ entry.path = call.path ∧
    entry.lastWriter = d.engine.store.nodeId ∧ entry.clock = (d.engine.store.clockAt call.path).increment d.engine.store.nodeId
  whole : after.engine.Whole
  blocked : after.blocked = true ↔ d.blocked = true ∨ (call.Digs site ∧ d.engine.disk.journal = none)
  saved : after.blocked = false → call.Saves site → after.engine.disk.journal = some (journalText after.engine.store)
  unsaved : after.blocked = false → ¬ call.Saves site → after.engine.disk.journal = d.engine.disk.journal

end

theorem settle_store (e : SyncEngine) (blocked : Bool) : (settle e blocked).engine.store = e.store := by
  cases blocked <;> rfl

theorem settle_blocked (e : SyncEngine) (blocked : Bool) : (settle e blocked).blocked = blocked := by
  cases blocked <;> rfl

theorem settle_whole {e : SyncEngine} (whole : e.Whole) (blocked : Bool) : (settle e blocked).engine.Whole := by
  cases blocked <;> exact whole

theorem settle_journal {e : SyncEngine} {blocked : Bool} (free : (settle e blocked).blocked = false) :
    (settle e blocked).engine.disk.journal = e.disk.journal := by
  cases blocked with
  | false => rfl
  | true => cases free

theorem ingestRefused_exact (e : SyncEngine) (path bytes : Bytes) :
    e.ingestRefused path bytes = if bytes = [] then (e.ingestFile path bytes).1 else e.ingested path bytes := by
  have held : (e.ingested path bytes).store.get path = some (e.store.putEntry path ((Chunker.standard.chunk bytes).map Chunk.hash)
      ((MerkleTree.build (Chunker.standard.chunk bytes)).root.getD .zero)
      ((Chunker.standard.chunk bytes).foldl (fun total c => total + UInt64.ofNat c.data.length) 0)) := by
    change (e.store.store _).get path = _
    rw [CrdtStore.get_store]
    exact if_pos rfl
  unfold ingestRefused
  rw [held]
  cases bytes with
  | nil => rfl
  | cons b rest =>
    have chunks := Chunker.standard.chunk_ne_nil (List.cons_ne_nil b rest)
    have content : FileEntry.hasContent (e.store.putEntry path ((Chunker.standard.chunk (b :: rest)).map Chunk.hash)
        ((MerkleTree.build (Chunker.standard.chunk (b :: rest))).root.getD .zero)
        ((Chunker.standard.chunk (b :: rest)).foldl (fun total c => total + UInt64.ofNat c.data.length) 0)) = true := by
      simp [FileEntry.hasContent,CrdtStore.putEntry,chunks]
    dsimp only
    rw [if_pos content,if_neg (List.cons_ne_nil b rest)]

theorem performed_ingest (site : Site) {d : Desk} (whole : d.engine.Whole) (path bytes : Bytes) (refused dug : Bool) :
    Performed site d (.ingest path bytes refused dug) (perform site d (.ingest path bytes refused dug)) := by
  obtain ⟨files,done⟩ := ingestFile_whole whole path bytes
  have completes : (d.engine.ingestFile path bytes).1 = ((d.engine.ingested path bytes).withFiles files).saveJournal := by rw [done]
  have still := whole_ingested whole path bytes
  unfold perform
  dsimp only
  rw [ingestRefused_exact,completes]
  generalize dugs : (d.blocked || decide (site.Burrows path ∧ bytes ≠ [] ∧ d.engine.disk.journal = none ∧
    (refused = false ∨ dug = true))) = blocked
  have blocks : blocked = true ↔ d.blocked = true ∨ ((Call.ingest path bytes refused dug).Digs site ∧ d.engine.disk.journal = none) := by
    rw [← dugs,Bool.or_eq_true,decide_eq_true_iff,Call.Digs]
    tauto
  by_cases stops : (refused = true ∨ (site.Burrows path ∧ d.engine.disk.journal ≠ none)) ∧ bytes ≠ []
  · obtain ⟨barred,some⟩ := stops
    rw [if_pos barred,if_neg some]
    refine ⟨⟨_,settle_store _ _,rfl,rfl,rfl⟩,settle_whole still _,by rw [settle_blocked]; exact blocks,?_,fun free _ => settle_journal free⟩
    intro free saves
    rcases saves with never | ⟨granted,level⟩
    · exact absurd never some
    · rcases barred with never | ⟨burrows,_⟩
      · rw [granted] at never
        cases never
      · exact absurd burrows level
  · have runs : (if refused = true ∨ (site.Burrows path ∧ d.engine.disk.journal ≠ none) then
        if bytes = [] then ((d.engine.ingested path bytes).withFiles files).saveJournal else d.engine.ingested path bytes
      else ((d.engine.ingested path bytes).withFiles files).saveJournal) = ((d.engine.ingested path bytes).withFiles files).saveJournal := by
      split
      · rename_i barred
        rw [if_pos (not_not.mp (fun some => stops ⟨barred,some⟩))]
      · rfl
    rw [runs]
    refine ⟨⟨_,settle_store _ _,rfl,rfl,rfl⟩,settle_whole (e := ((d.engine.ingested path bytes).withFiles files).saveJournal) still _,
      by rw [settle_blocked]; exact blocks,fun free _ => (settle_journal free).trans (by rw [settle_store]; rfl),?_⟩
    intro free unsaved
    -- What is neither saved nor stopped is a path that makes a directory.
    have content : bytes ≠ [] := fun empty => unsaved (.inl empty)
    have granted : refused = false := Bool.eq_false_iff.mpr (fun barred => stops ⟨.inl barred,content⟩)
    have burrows : site.Burrows path := not_not.mp (fun level => unsaved (.inr ⟨granted,level⟩))
    have nothing : d.engine.disk.journal = none := not_not.mp (fun stands => stops ⟨.inr ⟨burrows,stands⟩,content⟩)
    rw [settle_blocked] at free
    rw [blocks.mpr (.inr ⟨⟨burrows,content,.inl granted⟩,nothing⟩)] at free
    cases free

theorem performed (site : Site) {d : Desk} (whole : d.engine.Whole) (call : Call) : Performed site d call (perform site d call) := by
  cases call with
  | ingest path bytes refused dug => exact performed_ingest site whole path bytes refused dug
  | delete path =>
    have kept : (settle (d.engine.deleteFile path) d.blocked).blocked = true ↔
        d.blocked = true ∨ ((Call.delete path).Digs site ∧ d.engine.disk.journal = none) := by
      rw [settle_blocked]
      exact ⟨.inl,fun either => either.resolve_right (fun never => never.1)⟩
    refine ⟨⟨_,settle_store _ _,rfl,rfl,CrdtStore.deleteEntry_clock d.engine.store path⟩,settle_whole (whole_deleteFile whole path) _,
      kept,fun free _ => ?_,fun _ never => absurd trivial never⟩
    change (settle _ _).engine.disk.journal = some (journalText (settle _ _).engine.store)
    rw [settle_journal free,settle_store]
    rfl

-- Every entry is of this node alone, and its counter says how often its path was called.
structure Standing (nodeId : Bytes) (calls : List Call) (e : SyncEngine) : Prop where
  node : e.store.nodeId = nodeId
  whole : e.Whole
  own : ∀ path entry, e.store.get path = some entry → entry.lastWriter = nodeId ∧
    (∀ node ∈ entry.clock.counters.keys, node = nodeId) ∧ ∃ call ∈ calls, call.path = path
  present : ∀ call ∈ calls, ∃ entry, e.store.get call.path = some entry ∧ nodeId ∈ entry.clock.counters.keys
  counted : ∀ path, (e.store.clockAt path).get nodeId = UInt64.ofNat (calls.countP (·.path = path))

theorem clockAt_store (s : CrdtStore) (entry : FileEntry) (path : Bytes) :
    (s.store entry).clockAt path = if entry.path = path then entry.clock else s.clockAt path := by
  unfold CrdtStore.clockAt
  rw [CrdtStore.get_store]
  split
  · rfl
  · rfl

theorem standing_fresh (nodeId : Bytes) : Standing nodeId [] (fresh nodeId) := ⟨rfl,nofun,nofun,nofun,fun _ => rfl⟩

theorem standing_performed {site : Site} {d after : Desk} (standing : Standing nodeId calls d.engine)
    (done : Performed site d call after) : Standing nodeId (calls ++ [call]) after.engine := by
  obtain ⟨entry,stored,path,writer,clock⟩ := done.stored
  rw [standing.node] at writer clock
  have keys : nodeId ∈ entry.clock.counters.keys := by
    rw [clock]
    exact OrdMap.mem_keys_insert.mpr (.inl rfl)
  refine ⟨by rw [stored]; exact standing.node,done.whole,?_,?_,?_⟩
  · intro at_path held found
    rw [stored,CrdtStore.get_store] at found
    split at found
    · rename_i here
      cases found
      refine ⟨writer,?_,call,by simp,path ▸ here⟩
      intro node member
      rw [clock] at member
      rcases OrdMap.mem_keys_insert.mp member with same | before
      · exact same
      · cases old : d.engine.store.get call.path with
        | none =>
          rw [CrdtStore.clockAt_absent old] at before
          cases before
        | some earlier =>
          rw [CrdtStore.clockAt_held old] at before
          exact (standing.own _ earlier old).2.1 node before
    · obtain ⟨last,nodes,made,member,same⟩ := standing.own at_path held found
      exact ⟨last,nodes,made,List.mem_append_left _ member,same⟩
  · intro made member
    rw [stored,CrdtStore.get_store]
    split
    · exact ⟨entry,rfl,keys⟩
    · rename_i away
      rcases List.mem_append.mp member with before | now
      · exact standing.present made before
      · cases List.mem_singleton.mp now
        exact absurd path away
  · intro at_path
    rw [stored,clockAt_store,path,List.countP_append,UInt64.ofNat_add,← standing.counted]
    split
    · rename_i here
      subst here
      rw [clock,VectorClock.get_increment,if_pos rfl]
      simp
    · rename_i away
      simp [away]

theorem desk_snoc (site : Site) (nodeId : Bytes) (calls : List Call) (call : Call) :
    desk site nodeId (calls ++ [call]) = perform site (desk site nodeId calls) call := by
  rw [desk,List.foldl_append]
  rfl

theorem standing (site : Site) (nodeId : Bytes) (calls : List Call) : Standing nodeId calls (desk site nodeId calls).engine := by
  induction calls using List.reverseRecOn with
  | nil =>
    change Standing nodeId [] (settle (fresh nodeId) _).engine
    exact ⟨by rw [settle_store]; rfl,settle_whole (standing_fresh nodeId).whole _,by rw [settle_store]; exact nofun,nofun,
      by rw [settle_store]; exact fun _ => rfl⟩
  | append_singleton calls call ih =>
    rw [desk_snoc]
    exact standing_performed ih (performed site ih.whole call)

section
variable (site : Site) (nodeId : Bytes)

-- What a journal holds: the store as it was after the calls of front.
def Journals (front : List Call) (e : SyncEngine) : Prop :=
  e.disk.journal = some (journalText (desk site nodeId front).engine.store) ∨ (e.disk.journal = none ∧ front = [])

-- The journal lags behind by the calls since the last that was saved.
structure Lags (calls : List Call) (d : Desk) (front back : List Call) : Prop where
  split : calls = front ++ back
  journals : Journals site nodeId front d.engine
  complete : back = [] ↔ ∀ call ∈ calls.getLast?, call.Saves site
  unsaved : d.engine.disk.journal = none ↔ ∀ call ∈ calls, ¬ call.Saves site

theorem undug_snoc {site : Site} {calls : List Call} {call : Call} : Undug site (calls ++ [call]) ↔
    Undug site calls ∧ (call.Digs site → ∃ earlier ∈ calls, earlier.Saves site) := by
  constructor
  · rintro ⟨outside,guarded⟩
    refine ⟨⟨outside,?_⟩,guarded calls call [] rfl⟩
    rintro front made back rfl digs
    exact guarded front made (back ++ [call]) (by simp) digs
  · rintro ⟨⟨outside,guarded⟩,now⟩
    refine ⟨outside,?_⟩
    intro front made back split digs
    rcases List.eq_nil_or_concat' back with rfl | ⟨rest,last,rfl⟩
    · obtain ⟨rfl,same⟩ := List.append_inj' split rfl
      cases same
      exact now digs
    · obtain ⟨rfl,_⟩ := List.append_inj' (split.trans (List.append_assoc front (made :: rest) [last]).symm) rfl
      exact guarded front made rest rfl digs

theorem journal_lags (calls : List Call) : ((desk site nodeId calls).blocked = false ↔ Undug site calls) ∧
    ((desk site nodeId calls).blocked = false → ∃ front back, Lags site nodeId calls (desk site nodeId calls) front back) := by
  induction calls using List.reverseRecOn with
  | nil =>
    change ((initial site nodeId).blocked = false ↔ _) ∧ ((initial site nodeId).blocked = false → _)
    have nothing : (initial site nodeId).blocked = false → (initial site nodeId).engine.disk.journal = none := settle_journal
    refine ⟨?_,fun free => ⟨[],[],rfl,.inr ⟨nothing free,rfl⟩,by simp,fun _ => nofun,fun _ => nothing free⟩⟩
    rw [initial,settle_blocked,decide_eq_false_iff_not]
    exact ⟨fun outside => ⟨outside,by simp⟩,And.left⟩
  | append_singleton calls call ih =>
    obtain ⟨undug,lags⟩ := ih
    have done := performed site (standing site nodeId calls).whole call
    rw [← desk_snoc] at done
    have blocked : (desk site nodeId (calls ++ [call])).blocked = false ↔ (desk site nodeId calls).blocked = false ∧
        ¬ (call.Digs site ∧ (desk site nodeId calls).engine.disk.journal = none) := by
      rw [← Bool.not_eq_true,done.blocked,not_or,Bool.not_eq_true]
    constructor
    · rw [undug_snoc,← undug,blocked]
      refine and_congr_right (fun free => ?_)
      obtain ⟨front,back,lag⟩ := lags free
      rw [lag.unsaved,not_and]
      simp only [not_forall,not_not,exists_prop]
    · intro free
      obtain ⟨front,back,lag⟩ := lags (blocked.mp free).1
      by_cases saves : call.Saves site
      · refine ⟨calls ++ [call],[],by simp,.inl (done.saved free saves),by simpa using saves,?_⟩
        rw [done.saved free saves]
        exact ⟨nofun,fun never => absurd saves (never call (by simp))⟩
      · refine ⟨front,back ++ [call],by rw [lag.split,List.append_assoc],?_,by simpa using saves,?_⟩
        · unfold Journals
          rw [done.unsaved free saves]
          exact lag.journals
        · rw [done.unsaved free saves,lag.unsaved,List.forall_mem_append,List.forall_mem_singleton]
          exact ⟨fun never => ⟨never,saves⟩,And.left⟩

theorem start_journals {front : List Call} {e : SyncEngine} (plain : Plain nodeId) (lined : ∀ call ∈ front, Lined call.path)
    (journal : Journals site nodeId front e) :
    start nodeId e.disk = .ok ⟨e.disk,(desk site nodeId front).engine.store⟩ := by
  have stands := standing site nodeId front
  have entries : ∀ entry ∈ (desk site nodeId front).engine.store.allEntries,
      LinedEntry entry ∧ ∀ node ∈ entry.clock.counters.keys, Plain node := by
    intro entry listed
    obtain ⟨writer,nodes,call,member,path⟩ := stands.own _ entry (CrdtStore.mem_allEntries.mp listed)
    have clean : ∀ node ∈ entry.clock.counters.keys, Plain node := by
      intro node inside
      rw [nodes node inside]
      exact plain
    refine ⟨⟨?_,?_,fun node inside => (clean node inside).lined⟩,clean⟩
    · rw [← path]
      exact lined call member
    · rw [writer]
      exact plain.lined
  unfold start
  rcases journal with saved | ⟨unsaved,rfl⟩
  · have loaded := loadJournal_lines (fun entry listed => (entries entry listed).1)
      (fun entry listed => lineToEntry_nodes entry (entries entry listed).1 (entries entry listed).2)
    rw [stands.node] at loaded
    rw [saved]
    dsimp only
    rw [loaded]
    rfl
  · rw [unsaved]
    change _ = Except.ok (SyncEngine.mk e.disk (settle (fresh nodeId) _).engine.store)
    rw [settle_store]
    rfl

end

section
variable {site : Site}

theorem restored_undisturbed (undisturbed : Undisturbed site nodeId calls) : Restored nodeId (desk site nodeId calls) := by
  rcases undisturbed with rfl | ⟨plain,lined,undug,saves⟩
  · change Restored nodeId (settle (fresh nodeId) _)
    generalize decide (site.journalPlace ∈ site.trail (site.dataDir ++ ascii "/blobstore/chunks")) = blocked
    cases blocked <;> exact ⟨_,rfl,rfl⟩
  · obtain ⟨frees,lags⟩ := journal_lags site nodeId calls
    obtain ⟨front,back,lag⟩ := lags (frees.mpr undug)
    have split := lag.split
    rw [lag.complete.mpr saves,List.append_nil] at split
    subst split
    exact ⟨_,start_journals site nodeId plain lined lag.journals,rfl⟩

-- Names with separators in them never come back.
theorem restored_names (restored : Restored nodeId (desk site nodeId calls)) (member : call ∈ calls) :
    Plain nodeId ∧ Lined call.path := by
  obtain ⟨again,started,same⟩ := restored
  obtain ⟨entry,held,inside⟩ := (standing site nodeId calls).present call member
  have path := CrdtStore.get_path held
  have listed : entry ∈ again.store.allEntries := by
    rw [same]
    exact CrdtStore.mem_allEntries.mpr (path.symm ▸ held)
  obtain ⟨lined,nodes⟩ := start_lined started (CrdtStore.mem_allEntries.mp listed)
  exact ⟨nodes nodeId inside,path ▸ lined.path⟩

-- Nor does anything come back from a directory.
theorem restored_undug (restored : Restored nodeId (desk site nodeId calls)) (member : call ∈ calls) : Undug site calls := by
  rw [← (journal_lags site nodeId calls).1]
  by_contra blocked
  obtain ⟨again,started,same⟩ := restored
  obtain ⟨entry,held,_⟩ := (standing site nodeId calls).present call member
  have path := CrdtStore.get_path held
  have listed : entry ∈ again.store.allEntries := by
    rw [same]
    exact CrdtStore.mem_allEntries.mpr (path.symm ▸ held)
  rw [start,(desk site nodeId calls).unwritten (Bool.not_eq_false _ ▸ blocked)] at started
  cases started
  exact absurd listed List.not_mem_nil

example : ¬ Undug home [.ingest (ascii "../store.meta/x") [7] false false] := by
  intro undug
  obtain ⟨_,earlier,_⟩ := undug.2 [] _ [] rfl ⟨by decide +kernel,by decide,.inl rfl⟩
  cases earlier

theorem get_of_allEntries {s t : CrdtStore} (same : s.allEntries = t.allEntries) (path : Bytes) : s.get path = t.get path := by
  have kept : ∀ {u v : CrdtStore}, u.allEntries = v.allEntries → ∀ {entry}, u.get path = some entry → v.get path = some entry := by
    intro u v equal entry held
    have at_path := CrdtStore.get_path held
    subst at_path
    rw [← CrdtStore.mem_allEntries,← equal]
    exact CrdtStore.mem_allEntries.mpr held
  exact Option.ext (fun entry => ⟨fun held => kept same held,fun held => kept same.symm held⟩)

-- Calls that were not saved are missed, unless a counter has come round.
theorem restored_saves (few : calls.length < 2^64) (restored : Restored nodeId (desk site nodeId calls)) (plain : Plain nodeId)
    (lined : ∀ call ∈ calls, Lined call.path) (undug : Undug site calls) : ∀ call ∈ calls.getLast?, call.Saves site := by
  obtain ⟨frees,lags⟩ := journal_lags site nodeId calls
  obtain ⟨front,back,lag⟩ := lags (frees.mpr undug)
  rw [← lag.complete]
  by_contra missed
  have early : ∀ call ∈ front, Lined call.path := fun call member => lined call (by rw [lag.split]; exact List.mem_append_left _ member)
  obtain ⟨again,started,same⟩ := restored
  rw [start_journals site nodeId plain early lag.journals] at started
  cases started
  have clock : ∀ path, (desk site nodeId front).engine.store.clockAt path = (desk site nodeId calls).engine.store.clockAt path := by
    intro path
    unfold CrdtStore.clockAt
    rw [get_of_allEntries same path]
  obtain ⟨call,rest,rfl⟩ := List.exists_cons_of_ne_nil missed
  have counts := congrArg (fun c => (VectorClock.get c nodeId).toNat) (clock call.path)
  rw [(standing site nodeId front).counted,(standing site nodeId calls).counted,lag.split,List.countP_append] at counts
  have all : (front ++ call :: rest).countP (fun made => decide (made.path = call.path)) ≤ _ := List.countP_le_length
  rw [List.countP_append] at all
  rw [lag.split] at few
  have once : (call :: rest).countP (fun made => decide (made.path = call.path)) = _ := List.countP_cons_of_pos (by simp)
  simp only [UInt64.toNat_ofNat'] at counts
  rw [Nat.mod_eq_of_lt (by omega),Nat.mod_eq_of_lt (by omega)] at counts
  omega

end

theorem restart_transparent_iff (site : Site) (nodeId : Bytes) (calls : List Call) :
    (Undisturbed site nodeId calls → Restored nodeId (desk site nodeId calls)) ∧
    (calls.length < 2^64 → Restored nodeId (desk site nodeId calls) → Undisturbed site nodeId calls) := by
  refine ⟨restored_undisturbed,?_⟩
  intro few restored
  cases calls with
  | nil => exact .inl rfl
  | cons call rest =>
    have plain := (restored_names restored List.mem_cons_self).1
    have lined : ∀ made ∈ call :: rest, Lined made.path := fun made member => (restored_names restored member).2
    have undug := restored_undug restored List.mem_cons_self
    exact .inr ⟨plain,lined,undug,restored_saves few restored plain lined undug⟩

-- A file whose name has a tab in it.
theorem restart_loses_tab : ¬ Restored (ascii "A") (desk home (ascii "A") [.ingest (ascii "a\tb") [7] false false]) := by
  intro restored
  obtain ⟨_,lined⟩ := restored_names restored List.mem_cons_self
  exact absurd lined.tab (by decide)

end P2PSync.Restart
