import P2PSync.Lib.Runs
import P2PSync.EntryCodec

namespace P2PSync.LocalWrites
open CrdtStore EntryCodec

inductive Action where
  | put (path : Bytes) (chunkHashes : List Digest) (merkleRoot : Digest) (size : UInt64)
  | delete (path : Bytes)
  -- The line of a journal or of a peer's manifest.
  | merge (line : Bytes)

def step (s : CrdtStore) : Action → CrdtStore
  | .put path chunkHashes merkleRoot size => s.putLocal path chunkHashes merkleRoot size
  | .delete path => s.deleteLocal path
  | .merge line => match lineToEntry line with
    | .error _ => s
    | .ok remote => (s.mergeRemote remote).2

-- From one version of a path to the next: the clock grows, and whoever has the old
-- version, or none where there was none, takes the new one.
def Advances (path : Bytes) (old new : CrdtStore) : Prop :=
  VectorClock.compare (old.clockAt path) (new.clockAt path) = .before ∧
  ∀ peer : CrdtStore, peer.get path = old.get path → ∀ entry, new.get path = some entry →
    (peer.mergeRemote entry).1.outcome = .appliedRemote ∧ (peer.mergeRemote entry).2.get path = some entry

def WritesAdvance (s : CrdtStore) (path : Bytes) : Prop :=
  (∀ chunkHashes merkleRoot size, Advances path s (s.putLocal path chunkHashes merkleRoot size)) ∧
    Advances path s (s.deleteLocal path)

-- The node's own counter in the clock of the path is not the last of 64 bits.
def Room (s : CrdtStore) (path : Bytes) : Prop := (s.clockAt path).counts s.nodeId ≠ 2^64 - 1

-- No step brings a counter of the node to the last value, by an edit or from a line.
def Roomy (s : CrdtStore) : Action → Prop
  | .put path _ _ _ => (s.clockAt path).counts s.nodeId ≠ 2^64 - 2
  | .delete path => (s.clockAt path).counts s.nodeId ≠ 2^64 - 2
  | .merge line => ∀ remote, lineToEntry line = .ok remote → remote.clock.counts s.nodeId ≠ 2^64 - 1

theorem counts_lt (c : VectorClock) (node : Bytes) : c.counts node < 2^64 := (c.get node).toNat_lt

-- The increment wraps at the last value and nowhere else.
theorem increment_before (c : VectorClock) (node : Bytes) :
    VectorClock.compare c (c.increment node) = .before ↔ c.counts node ≠ 2^64 - 1 := by
  have bound := counts_lt c node
  rw [VectorClock.compare_before]
  constructor
  · intro less last
    have zero : (c.increment node).counts node = 0 := by
      have value : (c.get node).toNat = 2^64 - 1 := last
      rw [VectorClock.counts,VectorClock.get_increment,if_pos rfl,UInt64.toNat_add,value]
      rfl
    have grows : c.counts node ≤ (c.increment node).counts node := less.le node
    omega
  · intro room
    rw [VectorClock.counts_increment c node (by omega),lt_iff_le_not_ge,Pi.le_def,Pi.le_def]
    constructor
    · intro other
      by_cases same : other = node
      · subst same
        rw [Function.update_self]
        omega
      · rw [Function.update_of_ne same]
    · intro back
      have grown := back node
      rw [Function.update_self] at grown
      omega

-- A peer with the old version adopts any newer one.
theorem adopts {old peer : CrdtStore} {entry : FileEntry} (place : entry.path = path) (holds : peer.get path = old.get path)
    (newer : VectorClock.compare (old.clockAt path) entry.clock = .before) :
    (peer.mergeRemote entry).1.outcome = .appliedRemote ∧ (peer.mergeRemote entry).2.get path = some entry := by
  subst place
  cases held : old.get entry.path with
  | none =>
    rw [held] at holds
    simp [mergeRemote,holds]
  | some loc =>
    rw [held] at holds
    rw [clockAt_held held] at newer
    simp [mergeRemote,holds,newer]

theorem advances_store {s : CrdtStore} {entry : FileEntry} (place : entry.path = path)
    (clock : entry.clock = (s.clockAt path).increment s.nodeId) : Advances path s (s.store entry) ↔ Room s path := by
  have here : (s.store entry).get path = some entry := by rw [get_store,if_pos place]
  have grows := increment_before (s.clockAt path) s.nodeId
  rw [Advances,clockAt_held here,clock,grows]
  constructor
  · exact And.left
  · intro room
    refine ⟨room,?_⟩
    intro peer holds found same
    rw [here] at same
    cases same
    refine adopts place holds ?_
    rw [clock]
    exact grows.mpr room

theorem writesAdvance_iff (s : CrdtStore) (path : Bytes) : WritesAdvance s path ↔ Room s path := by
  have put : ∀ chunkHashes merkleRoot size, Advances path s (s.putLocal path chunkHashes merkleRoot size) ↔ Room s path :=
    fun _ _ _ => advances_store rfl rfl
  have delete : Advances path s (s.deleteLocal path) ↔ Room s path := advances_store rfl (deleteEntry_clock s path)
  constructor
  · exact fun advance => delete.mp advance.2
  · exact fun room => ⟨fun chunkHashes merkleRoot size => (put chunkHashes merkleRoot size).mpr room,delete.mpr room⟩

-- What the steps of a roomy run keep.
def Spared (nodeId : Bytes) (s : CrdtStore) : Prop :=
  s.nodeId = nodeId ∧ ∀ path entry, s.get path = some entry → entry.clock.counts nodeId ≠ 2^64 - 1

section
variable {nodeId : Bytes} {s : CrdtStore}

theorem Spared.room (spared : Spared nodeId s) (path : Bytes) : Room s path := by
  obtain ⟨named,spared⟩ := spared
  rw [Room,named]
  cases held : s.get path with
  | none =>
    rw [clockAt_absent held,VectorClock.counts_empty,Pi.zero_apply]
    decide
  | some entry =>
    rw [clockAt_held held]
    exact spared path entry held

theorem spared_store {entry : FileEntry} (spared : Spared nodeId s) (new : entry.clock.counts nodeId ≠ 2^64 - 1) :
    Spared nodeId (s.store entry) := ⟨spared.1,entries_store spared.2 new⟩

theorem spared_edit {entry : FileEntry} (spared : Spared nodeId s) (clock : entry.clock = (s.clockAt path).increment s.nodeId)
    (roomy : (s.clockAt path).counts s.nodeId ≠ 2^64 - 2) : Spared nodeId (s.store entry) := by
  have room := spared.room path
  have bound := counts_lt (s.clockAt path) s.nodeId
  apply spared_store spared
  rw [Room] at room
  rw [clock,← spared.1,VectorClock.counts_increment _ _ (by omega),Function.update_self]
  omega

theorem spared_merge {remote : FileEntry} (spared : Spared nodeId s) (roomy : remote.clock.counts nodeId ≠ 2^64 - 1) :
    Spared nodeId (s.mergeRemote remote).2 := by
  refine ⟨(nodeId_mergeRemote s remote).trans spared.1,?_⟩
  intro path entry held
  rcases get_mergeRemote held with ⟨_,from_remote⟩ | ⟨_,old,before,from_old⟩
  · rcases from_remote with rfl | rfl
    · exact roomy
    · exact roomy
  · have kept := spared.2 path old before
    rcases from_old with rfl | rfl
    · exact kept
    · -- The absorbed counter is one of the two.
      rw [VectorClock.counts_merge,Pi.sup_apply]
      rcases max_choice (old.clock.counts nodeId) (remote.clock.counts nodeId) with left | right
      · rw [left]
        exact kept
      · rw [right]
        exact roomy

theorem spared_step (action : Action) (spared : Spared nodeId s) (roomy : Roomy s action) :
    Spared nodeId (step s action) := by
  cases action with
  | put path chunkHashes merkleRoot size => exact spared_edit spared rfl roomy
  | delete path => exact spared_edit spared (deleteEntry_clock s path) roomy
  | merge line =>
    cases read : lineToEntry line with
    | error x =>
      simp only [step,read]
      exact spared
    | ok remote =>
      simp only [step,read]
      have room := roomy remote read
      rw [spared.1] at room
      exact spared_merge spared room

end

-- A local write advances the version exactly where its counter has room, and so in
-- every state of a run that never uses up the last value.
theorem local_writes_advance (nodeId : Bytes) :
    (∀ actions s, Runs step Roomy (.new nodeId) actions s → ∀ path, WritesAdvance s path) ∧
    ∀ actions s, Runs step (fun _ _ => True) (.new nodeId) actions s → ∀ path, WritesAdvance s path ↔ Room s path := by
  constructor
  · intro actions s run path
    have initially : Spared nodeId (.new nodeId) := by
      refine ⟨rfl,?_⟩
      intro path entry held
      cases held
    have spared : Spared nodeId s := run.invariant initially (fun _ => spared_step)
    exact (writesAdvance_iff s path).mpr (spared.room path)
  · exact fun actions s _ path => writesAdvance_iff s path

-- A peer's line with the last value, written as -1, for the node A.
def lastCounter : Bytes := ascii "a.txt" ++ 9 :: ascii "0" ++ 9 :: ascii "0" ++ 9 :: 9 :: ascii "A:-1" ++ 9 :: ascii "B"

theorem lastCounter_falls_back :
    Runs step (fun _ _ => True) (.new (ascii "A")) [.merge lastCounter] (step (.new (ascii "A")) (.merge lastCounter)) ∧
    ¬ WritesAdvance (step (.new (ascii "A")) (.merge lastCounter)) (ascii "a.txt") := by
  have last : ((step (.new (ascii "A")) (.merge lastCounter)).clockAt (ascii "a.txt")).counts (ascii "A") = 2^64 - 1 := by
    decide +kernel
  have named : (step (.new (ascii "A")) (.merge lastCounter)).nodeId = ascii "A" := by decide +kernel
  refine ⟨Runs.free (CrdtStore.new (ascii "A")) [Action.merge lastCounter],?_⟩
  intro advance
  have room := (writesAdvance_iff _ _).mp advance
  rw [Room,named] at room
  exact room last

end P2PSync.LocalWrites
