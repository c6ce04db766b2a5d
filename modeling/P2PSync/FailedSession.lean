import P2PSync.Exchange
import P2PSync.MergeOrder

namespace P2PSync.FailedSession
open Network SyncEngine MergeOrder

theorem store_foldl (blobs : FileStore) (entries : List FileEntry) (m : Merging) :
    (entries.foldl (mergeEntry blobs) m).store = mergeAll m.store entries := by
  induction entries generalizing m with
  | nil => rfl
  | cons re rest ih =>
    rw [List.foldl_cons,ih,mergeEntry_store]
    rfl

-- The merge loop is merge_remote over the entries, whatever else it collects.
theorem store_afterMerge (e : SyncEngine) (entries : List FileEntry) :
    (afterMerge e entries).store = mergeAll e.store entries := store_foldl e.blobs entries _

-- How the store stands after a session that threw: as it was if the peer's
-- manifest was not read, else the manifest is merged as a whole.
structure AllOrNothing (e : SyncEngine) (o : Outcome) : Prop where
  unread : (∀ payload entries, o.received[0]? = some ⟨frameManifest,payload⟩ → parseManifest payload ≠ .ok entries) →
    o.engine.store = e.store
  read : ∀ payload entries, o.received[0]? = some ⟨frameManifest,payload⟩ → parseManifest payload = .ok entries →
    o.engine.store = mergeAll e.store entries

def author : SyncEngine :=
  (fresh (ascii "A")).withStore ((CrdtStore.new (ascii "A")).putLocal (ascii "a.txt") [.filled 1] .zero 4)

-- The peer sends its manifest and goes away.
def cutOff : Link := ⟨sendFrame ⟨frameManifest,serializeManifest author⟩,false,4⟩

theorem cutOff_throws : ∃ x, ((runSyncSession (fresh (ascii "B"))).run cutOff).result = .error x := by
  have thrown : ((runSyncSession (fresh (ascii "B"))).run cutOff).result.isOk = false := by decide +kernel
  cases ended : ((runSyncSession (fresh (ascii "B"))).run cutOff).result with
  | error x => exact ⟨x,rfl⟩
  | ok stats =>
    rw [ended] at thrown
    cases thrown

end P2PSync.FailedSession
