import P2PSync.VectorClock
import P2PSync.Sha256

namespace P2PSync

theorem Digest.filled_size (byte : UInt8) : (List.replicate 32 byte).length = 32 := List.length_replicate

def Digest.filled (byte : UInt8) : Digest := ⟨List.replicate 32 byte,filled_size byte⟩

def Digest.zero : Digest := .filled 0

structure FileEntry where
  path : Bytes
  chunkHashes : List Digest
  merkleRoot : Digest
  clock : VectorClock
  lastWriter : Bytes
  deleted : Bool
  size : UInt64
  deriving DecidableEq

namespace FileEntry

-- A default-constructed FileEntry.
def blank : FileEntry := ⟨[],[],.zero,.empty,[],false,0⟩

def hasContent (e : FileEntry) : Bool := !e.deleted && !e.chunkHashes.isEmpty

theorem hasContent_iff {e : FileEntry} : e.hasContent = true ↔ e.deleted = false ∧ e.chunkHashes ≠ [] := by
  simp [hasContent]

end FileEntry

def SameContent (a b : FileEntry) : Prop := a.chunkHashes = b.chunkHashes ∧ a.deleted = b.deleted

instance (a b : FileEntry) : Decidable (SameContent a b) := inferInstanceAs (Decidable (_ ∧ _))

inductive MergeOutcome where
  | appliedRemote
  | keptLocal
  | noChange
  | conflictForked
  deriving DecidableEq,Repr

-- conflictPath is filled only when the outcome is conflictForked.
structure MergeResult where
  outcome : MergeOutcome
  path : Bytes
  conflictPath : Bytes
  deriving DecidableEq

-- Where the remote version lies after the merge, if it was taken.
def MergeResult.landing (r : MergeResult) : Option Bytes :=
  match r.outcome with
  | .appliedRemote => some r.path
  | .conflictForked => some r.conflictPath
  | .keptLocal => none
  | .noChange => none

-- path.find_last_of(c)
def findLastOf (c : UInt8) : Bytes → Option ℕ
  | [] => none
  | b :: rest => match findLastOf c rest with
    | some i => some (i+1)
    | none => if b = c then some 0 else none

def makeConflictPath (path otherNode : Bytes) : Bytes :=
  match findLastOf 46 path with
  | none => path ++ ascii ".conflict-" ++ otherNode
  | some dot => path.take dot ++ ascii ".conflict-" ++ otherNode ++ path.drop dot

theorem makeConflictPath_length (path otherNode : Bytes) :
    (makeConflictPath path otherNode).length = path.length + 10 + otherNode.length := by
  have infixed : (ascii ".conflict-").length = 10 := by decide
  unfold makeConflictPath
  split
  · simp only [List.length_append,infixed]
  · simp only [List.length_append,List.length_take,List.length_drop,infixed]
    omega

theorem makeConflictPath_ne (path otherNode : Bytes) : makeConflictPath path otherNode ≠ path := by
  intro same
  have lengths := congrArg List.length same
  rw [makeConflictPath_length] at lengths
  omega

theorem mem_makeConflictPath {path otherNode : Bytes} (member : b ∈ makeConflictPath path otherNode) :
    b ∈ path ∨ b ∈ ascii ".conflict-" ∨ b ∈ otherNode := by
  unfold makeConflictPath at member
  split at member
  · simp only [List.mem_append] at member
    tauto
  · simp only [List.mem_append] at member
    rcases member with ((front | middle) | node) | back
    · exact .inl (List.mem_of_mem_take front)
    · exact .inr (.inl middle)
    · exact .inr (.inr node)
    · exact .inl (List.mem_of_mem_drop back)

-- Entries are only ever stored under their own path.
structure CrdtStore where
  nodeId : Bytes
  entries : OrdMap Bytes FileEntry
  keyed : ∀ p e, entries.find p = some e → e.path = p

namespace CrdtStore

def new (nodeId : Bytes) : CrdtStore := ⟨nodeId,.empty,by simp⟩

-- entries_[e.path] = e, as put_local, delete_local, merge_remote and load_entry
-- all end.
def store (s : CrdtStore) (e : FileEntry) : CrdtStore :=
  ⟨s.nodeId,s.entries.insert e.path e,by
    intro p found stored
    rw [OrdMap.find_insert] at stored
    split at stored
    · rename_i same
      cases stored
      exact same
    · exact s.keyed p found stored⟩

def get (s : CrdtStore) (path : Bytes) : Option FileEntry := s.entries.find path

def allEntries (s : CrdtStore) : List FileEntry := s.entries.values

def loadEntry (s : CrdtStore) (e : FileEntry) : CrdtStore := s.store e

-- The clock a local edit starts from.
def clockAt (s : CrdtStore) (path : Bytes) : VectorClock := ((s.get path).map FileEntry.clock).getD .empty

def putEntry (s : CrdtStore) (path : Bytes) (chunkHashes : List Digest) (merkleRoot : Digest) (size : UInt64) : FileEntry :=
  { path,chunkHashes,merkleRoot,size,deleted := false,lastWriter := s.nodeId
    clock := (s.clockAt path).increment s.nodeId }

def putLocal (s : CrdtStore) (path : Bytes) (chunkHashes : List Digest) (merkleRoot : Digest) (size : UInt64) : CrdtStore :=
  s.store (s.putEntry path chunkHashes merkleRoot size)

-- A tombstone keeps the root and size of the version it deletes.
def deleteEntry (s : CrdtStore) (path : Bytes) : FileEntry :=
  let entry := (s.get path).getD .blank
  { entry with path,deleted := true,chunkHashes := [],lastWriter := s.nodeId,clock := entry.clock.increment s.nodeId }

def deleteLocal (s : CrdtStore) (path : Bytes) : CrdtStore := s.store (s.deleteEntry path)

def forkOf (remote : FileEntry) : FileEntry :=
  { remote with path := makeConflictPath remote.path remote.lastWriter }

def mergeRemote (s : CrdtStore) (remote : FileEntry) : MergeResult × CrdtStore :=
  match s.get remote.path with
  | none => (⟨.appliedRemote,remote.path,[]⟩,s.store remote)
  | some loc => match VectorClock.compare loc.clock remote.clock with
    | .equal => (⟨.noChange,remote.path,[]⟩,s)
    | .before => (⟨.appliedRemote,remote.path,[]⟩,s.store remote)
    | .after => (⟨.keptLocal,remote.path,[]⟩,s)
    | .concurrent =>
      (⟨.conflictForked,remote.path,(forkOf remote).path⟩,
        (s.store (forkOf remote)).store { loc with clock := loc.clock.merge remote.clock })

@[simp] theorem get_new (nodeId path : Bytes) : (new nodeId).get path = none := rfl

@[simp] theorem get_store (s : CrdtStore) (e : FileEntry) (path : Bytes) :
    (s.store e).get path = if e.path = path then some e else s.get path :=
  OrdMap.find_insert ..

theorem entries_store {s : CrdtStore} {fits : FileEntry → Prop} (held : ∀ path e, s.get path = some e → fits e) (new : fits entry) :
    ∀ path e, (s.store entry).get path = some e → fits e := by
  intro path e found
  rw [get_store] at found
  split at found
  · cases found
    exact new
  · exact held path e found

@[simp] theorem nodeId_store (s : CrdtStore) (e : FileEntry) : (s.store e).nodeId = s.nodeId := rfl

theorem get_path {s : CrdtStore} (held : s.get path = some e) : e.path = path := s.keyed path e held

theorem mem_allEntries {s : CrdtStore} : e ∈ s.allEntries ↔ s.get e.path = some e := by
  rw [allEntries,OrdMap.mem_values]
  constructor
  · rintro ⟨path,held⟩
    rw [s.keyed path e held]
    exact held
  · exact fun held => ⟨e.path,held⟩

theorem ext {s t : CrdtStore} (node : s.nodeId = t.nodeId) (same : ∀ path, s.get path = t.get path) : s = t := by
  obtain ⟨n,es,_⟩ := s
  obtain ⟨n',es',_⟩ := t
  simp only [mk.injEq]
  exact ⟨node,OrdMap.ext same⟩

theorem pairs_eq (s : CrdtStore) : s.entries.pairs = s.allEntries.map (fun e => (e.path,e)) := by
  unfold allEntries OrdMap.values
  rw [List.map_map]
  refine (List.map_id s.entries.pairs).symm.trans (List.map_congr_left ?_)
  rintro ⟨path,e⟩ member
  simp [s.keyed path e (OrdMap.mem_pairs.mp member)]

theorem clockAt_held {s : CrdtStore} (held : s.get path = some e) : s.clockAt path = e.clock := by
  simp [clockAt,held]

theorem clockAt_absent {s : CrdtStore} (absent : s.get path = none) : s.clockAt path = .empty := by
  simp [clockAt,absent]

theorem deleteEntry_clock (s : CrdtStore) (path : Bytes) :
    (s.deleteEntry path).clock = (s.clockAt path).increment s.nodeId := by
  unfold deleteEntry clockAt
  cases s.get path <;> rfl

-- Everything a merge can do, with the reason for it.
inductive Merged (s : CrdtStore) (remote : FileEntry) : MergeResult → CrdtStore → Prop where
  | unseen (absent : s.get remote.path = none) :
      Merged s remote ⟨.appliedRemote,remote.path,[]⟩ (s.store remote)
  | newer (held : s.get remote.path = some loc) (order : loc.clock.counts < remote.clock.counts) :
      Merged s remote ⟨.appliedRemote,remote.path,[]⟩ (s.store remote)
  | synced (held : s.get remote.path = some loc) (order : loc.clock.counts = remote.clock.counts) :
      Merged s remote ⟨.noChange,remote.path,[]⟩ s
  | older (held : s.get remote.path = some loc) (order : remote.clock.counts < loc.clock.counts) :
      Merged s remote ⟨.keptLocal,remote.path,[]⟩ s
  | conflict (held : s.get remote.path = some loc)
      (left : ¬ loc.clock.counts ≤ remote.clock.counts) (right : ¬ remote.clock.counts ≤ loc.clock.counts) :
      Merged s remote ⟨.conflictForked,remote.path,(forkOf remote).path⟩
        ((s.store (forkOf remote)).store { loc with clock := loc.clock.merge remote.clock })

theorem mergeRemote_merged (s : CrdtStore) (remote : FileEntry) :
    Merged s remote (s.mergeRemote remote).1 (s.mergeRemote remote).2 := by
  cases held : s.get remote.path with
  | none =>
    simp only [mergeRemote,held]
    exact .unseen held
  | some loc =>
    cases order : VectorClock.compare loc.clock remote.clock <;> simp only [mergeRemote,held,order]
    case equal => exact .synced held (VectorClock.compare_equal.mp order)
    case before => exact .newer held (VectorClock.compare_before.mp order)
    case after => exact .older held (VectorClock.compare_after.mp order)
    case concurrent =>
      obtain ⟨left,right⟩ := VectorClock.compare_concurrent.mp order
      exact .conflict held left right

-- Where every entry of the merged store comes from.
theorem get_mergeRemote {s : CrdtStore} {remote : FileEntry} (held : (s.mergeRemote remote).2.get path = some e) :
    ((s.mergeRemote remote).1.landing = some path ∧ (e = remote ∨ e = forkOf remote)) ∨
    ((s.mergeRemote remote).1.landing ≠ some path ∧ ∃ old, s.get path = some old ∧
      (e = old ∨ e = { old with clock := old.clock.merge remote.clock })) := by
  have merged := mergeRemote_merged s remote
  generalize (s.mergeRemote remote).1 = result at merged ⊢
  generalize (s.mergeRemote remote).2 = after at merged held
  have taken : (s.store remote).get path = some e → (remote.path = path ∧ e = remote) ∨
      (remote.path ≠ path ∧ s.get path = some e) := by
    intro found
    rw [get_store] at found
    split at found
    · rename_i here
      exact .inl ⟨here,(Option.some.inj found).symm⟩
    · rename_i away
      exact .inr ⟨away,found⟩
  cases merged with
  | unseen absent =>
    rcases taken held with ⟨here,same⟩ | ⟨away,found⟩
    · exact .inl ⟨congrArg some here,.inl same⟩
    · exact .inr ⟨fun same => away (Option.some.inj same),e,found,.inl rfl⟩
  | newer old order =>
    rcases taken held with ⟨here,same⟩ | ⟨away,found⟩
    · exact .inl ⟨congrArg some here,.inl same⟩
    · exact .inr ⟨fun same => away (Option.some.inj same),e,found,.inl rfl⟩
  | synced old order => exact .inr ⟨nofun,e,held,.inl rfl⟩
  | older old order => exact .inr ⟨nofun,e,held,.inl rfl⟩
  | @conflict loc old left right =>
    have apart : (forkOf remote).path ≠ remote.path := makeConflictPath_ne _ _
    rw [get_store,get_store] at held
    have place : loc.path = remote.path := get_path old
    dsimp only at held
    split at held
    · rename_i here
      cases held
      refine .inr ⟨?_,loc,?_,.inr rfl⟩
      · intro same
        exact apart ((Option.some.inj same).trans (here.symm.trans place))
      · rw [← here,place]
        exact old
    · split at held
      · rename_i here
        cases held
        exact .inl ⟨congrArg some here,.inr rfl⟩
      · rename_i away
        exact .inr ⟨fun same => away (Option.some.inj same),e,held,.inl rfl⟩

-- What a fork says about the store before and after it.
theorem mergeRemote_forked {s : CrdtStore} {remote : FileEntry} (forked : (s.mergeRemote remote).1.outcome = .conflictForked) :
    ∃ loc, s.get remote.path = some loc ∧ ¬ loc.clock.counts ≤ remote.clock.counts ∧
      ¬ remote.clock.counts ≤ loc.clock.counts ∧
      s.mergeRemote remote = (⟨.conflictForked,remote.path,(forkOf remote).path⟩,
        (s.store (forkOf remote)).store { loc with clock := loc.clock.merge remote.clock }) := by
  have merged := mergeRemote_merged s remote
  generalize s.mergeRemote remote = pair at merged forked ⊢
  obtain ⟨result,after⟩ := pair
  dsimp only at merged forked
  cases merged with
  | unseen absent => cases forked
  | newer old order => cases forked
  | synced old order => cases forked
  | older old order => cases forked
  | conflict old left right => exact ⟨_,old,left,right,rfl⟩

theorem fork_path {s : CrdtStore} {remote : FileEntry} (forked : (s.mergeRemote remote).1.outcome = .conflictForked) :
    (s.mergeRemote remote).1.conflictPath = makeConflictPath remote.path remote.lastWriter := by
  obtain ⟨loc,_,_,_,same⟩ := mergeRemote_forked forked
  rw [same]
  rfl

theorem get_fork {s : CrdtStore} {remote : FileEntry} (forked : (s.mergeRemote remote).1.outcome = .conflictForked) :
    (s.mergeRemote remote).2.get (s.mergeRemote remote).1.conflictPath = some (forkOf remote) := by
  obtain ⟨loc,held,_,_,same⟩ := mergeRemote_forked forked
  have place := get_path held
  rw [same,get_store,get_store,if_neg,if_pos rfl]
  intro here
  exact makeConflictPath_ne _ _ (here.symm.trans place)

theorem nodeId_mergeRemote (s : CrdtStore) (remote : FileEntry) : (s.mergeRemote remote).2.nodeId = s.nodeId := by
  have merged := mergeRemote_merged s remote
  generalize (s.mergeRemote remote).1 = result at merged
  generalize (s.mergeRemote remote).2 = after at merged ⊢
  cases merged <;> rfl

theorem path_mergeRemote (s : CrdtStore) (remote : FileEntry) : (s.mergeRemote remote).1.path = remote.path := by
  have merged := mergeRemote_merged s remote
  generalize (s.mergeRemote remote).1 = result at merged ⊢
  generalize (s.mergeRemote remote).2 = after at merged
  cases merged <;> rfl

end CrdtStore
end P2PSync
