import P2PSync.Fidelity
import P2PSync.FailedSession
import P2PSync.Sessions

namespace P2PSync.Settled
open SyncEngine Network EntryCodec CrdtStore MergeOrder Sessions

def left (e : SyncEngine) (link : Link) : SyncEngine := ((runSyncSession e).run link).engine

-- A session that moved nothing: no chunk is asked for, none comes, and the
-- engine only saves its journal once more.
structure Silent (e peer : SyncEngine) (o : Outcome) : Prop where
  asked : o.sent[1]? = some ⟨frameChunkRequest,[]⟩
  got : o.received[2]? = some ⟨frameChunkData,[]⟩
  counted : o.result = .ok ⟨e.store.allEntries.length,0,0,peer.store.allEntries.length,0,0⟩
  saved : o.engine = e.saveJournal

-- The merge loop over entries that are all known under equal clocks.
theorem merging_known (blobs : FileStore) (entries : List FileEntry) (m : Merging)
    (known : ∀ re ∈ entries, m.store.mergeRemote re = (⟨.noChange,re.path,[]⟩,m.store)) :
    entries.foldl (mergeEntry blobs) m = ⟨m.store,m.needed,m.paths,
      { m.stats with entriesNoChange := m.stats.entriesNoChange + entries.length }⟩ := by
  induction entries generalizing m with
  | nil => rfl
  | cons re rest ih =>
    have step : mergeEntry blobs m re = ⟨m.store,m.needed,m.paths,
        { m.stats with entriesNoChange := m.stats.entriesNoChange + 1 }⟩ := by
      simp [mergeEntry,known re List.mem_cons_self]
    rw [List.foldl_cons,step,ih]
    · simp [Nat.add_assoc,Nat.add_comm 1]
    · exact fun re member => known re (List.mem_cons_of_mem _ member)

theorem merging_synced {a b : SyncEngine} (synced : Synced a.store b.store) : merging a b.store.allEntries =
    ⟨a.store,.empty,[],⟨a.store.allEntries.length,0,0,b.store.allEntries.length,0,0⟩⟩ := by
  unfold merging
  rw [merging_known]
  · simp
  · exact fun re member => mergeRemote_synced synced member

theorem silent_synced {a b : SyncEngine} (complete : Complete a b forA forB) (readable : Readable b)
    (synced : Synced a.store b.store) : Silent a b ((runSyncSession a).run forA) := by
  obtain ⟨needed,theirs,exchanged⟩ := complete.exchanged readable
  have quiet := merging_synced synced
  have nothing : needed = [] := by
    have asking := exchanged.asking
    rw [quiet] at asking
    cases asking
    rfl
  subst nothing
  have unmoved : fetched a b [] = a := by
    unfold fetched merged
    rw [quiet]
    rfl
  obtain ⟨next,settled,saved⟩ := exchanged.settled
  rw [quiet,unmoved] at settled
  cases settled
  refine ⟨?_,exchanged.received,?_,saved⟩
  · rw [exchanged.said]
    rfl
  · rw [exchanged.counted,quiet]
    have empty : decodeChunks [] = ([],false) := decodeChunks_short (by decide)
    simp [tally,answer,empty]

theorem store_left {a b : SyncEngine} (complete : Complete a b forA forB) (readable : Readable b) :
    (left a forA).store = mergeAll a.store b.store.allEntries := by
  obtain ⟨needed,files,_,done⟩ := complete.left readable
  rw [left,done]
  exact FailedSession.store_afterMerge a b.store.allEntries

-- An engine whose manifest reads back as it was, and that names itself on one line.
structure Spoken (e : SyncEngine) : Prop where
  node : 10 ∉ e.store.nodeId
  readable : Readable e

theorem spoken_left {a b : SyncEngine} (complete : Complete a b forA forB) (spokenA : Spoken a) (readableB : Readable b) :
    Spoken (left a forA) := by
  obtain ⟨needed,files,_,done⟩ := complete.left readableB
  have fits : ∀ path e, (merging a b.store.allEntries).store.get path = some e → LinedEntry e ∧ PlainNodes e := by
    refine merging_entries (fun e => LinedEntry e ∧ PlainNodes e) ?_ ?_ a.blobs b.store.allEntries _ ?_
      (parseManifest_clean readableB)
    · exact fun e clean => ⟨lined_forkOf clean.1,clean.2⟩
    · exact fun e re clean theirs => ⟨lined_absorbed clean.1 theirs.1,plain_joined e re clean.2 theirs.2⟩
    · intro path e held
      exact parseManifest_clean spokenA.readable e (mem_allEntries.mpr (by rw [get_path held]; exact held))
  have named : (left a forA).store.nodeId = a.store.nodeId := by
    rw [left,done]
    exact Fidelity.nodeId_merging _ _ _
  have node : 10 ∉ (left a forA).store.nodeId := named ▸ spokenA.node
  refine ⟨node,parseManifest_serializeManifest node ?_⟩
  intro e listed
  rw [left,done] at listed
  exact fits e.path e (mem_allEntries.mp listed)

-- Two engines with a session between them, and what they are after it.
structure Meeting (a b : SyncEngine) (forA forB : Link) : Prop where
  complete : Complete a b forA forB
  spokenA : Spoken a
  spokenB : Spoken b

theorem Meeting.stores (meeting : Meeting a b forA forB) :
    ((left a forA).store,(left b forB).store) = session (a.store,b.store) :=
  Prod.ext (store_left meeting.complete meeting.spokenB.readable) (store_left meeting.complete.symm meeting.spokenA.readable)

theorem Meeting.next (meeting : Meeting a b forA forB) (complete : Complete (left a forA) (left b forB) nextA nextB) :
    Meeting (left a forA) (left b forB) nextA nextB :=
  ⟨complete,spoken_left meeting.complete meeting.spokenA meeting.spokenB.readable,
    spoken_left meeting.complete.symm meeting.spokenB meeting.spokenA.readable⟩

-- The first session resolves the conflicts, the second spreads the joined clocks.
theorem third_session_silent (a b : SyncEngine) (spokenA : Spoken a) (spokenB : Spoken b) (tame : Tame a.store b.store)
    (forA forB nextA nextB lastA lastB : Link) (first : Complete a b forA forB)
    (second : Complete (left a forA) (left b forB) nextA nextB)
    (third : Complete (left (left a forA) nextA) (left (left b forB) nextB) lastA lastB) :
    Silent (left (left a forA) nextA) (left (left b forB) nextB)
        ((runSyncSession (left (left a forA) nextA)).run lastA) ∧
      Silent (left (left b forB) nextB) (left (left a forA) nextA)
        ((runSyncSession (left (left b forB) nextB)).run lastB) := by
  have one : Meeting a b forA forB := ⟨first,spokenA,spokenB⟩
  have two := one.next second
  have three := two.next third
  have resolved : ∀ path l r, ¬ Contested (left a forA).store (left b forB).store path l r := by
    have stores := one.stores
    intro path l r contested
    apply uncontested_session (a.store,b.store) tame path l r
    rw [← stores]
    exact contested
  have synced : Synced (left (left a forA) nextA).store (left (left b forB) nextB).store := by
    have stores := two.stores
    have level := synced_session ((left a forA).store,(left b forB).store) resolved
    rw [← stores] at level
    exact level
  exact ⟨silent_synced third three.spokenB.readable synced,silent_synced third.symm three.spokenA.readable synced.symm⟩

-- Both ends of a session in one run of each.
def bothEnd (a b : SyncEngine) (forA forB : Link) : Bool :=
  let one := (runSyncSession a).run forA
  let two := (runSyncSession b).run forB
  one.result.isOk && two.result.isOk && decide (forA.inbound = wire two.sent ∧ forB.inbound = wire one.sent ∧
    ∀ frame ∈ one.sent ++ two.sent, frame.payload.length < 2^32)

theorem complete_check {a b : SyncEngine} {forA forB : Link} (ends : bothEnd a b forA forB = true) :
    Complete a b forA forB := by
  simp only [bothEnd,Bool.and_eq_true,decide_eq_true_eq] at ends
  obtain ⟨⟨okA,okB⟩,heardA,heardB,small⟩ := ends
  have returns : ∀ result : Except Error SyncStats, result.isOk = true → ∃ stats, result = .ok stats := by
    intro result ok
    cases result with
    | ok stats => exact ⟨stats,rfl⟩
    | error x => cases ok
  exact ⟨returns _ okA,returns _ okB,heardA,heardB,fun frame member => small frame (List.mem_append_left _ member),
    fun frame member => small frame (List.mem_append_right _ member)⟩

-- Two first drafts of one file with one chunk each.
def drafted (node : Bytes) (fill : UInt8) : SyncEngine :=
  ⟨⟨⟨OrdMap.empty.insert (FileStore.chunkPath (.filled fill)) [fill]⟩,none,OrdMap.empty.insert (ascii "notes.txt") [fill]⟩,
    (CrdtStore.new node).putLocal (ascii "notes.txt") [.filled fill] .zero 1⟩

def forFirst : Link := ⟨wire (script (drafted (ascii "B") 2) [.filled 1] [.filled 2]),false,4⟩

def forSecond : Link := ⟨wire (script (drafted (ascii "A") 1) [.filled 2] [.filled 1]),false,4⟩

def firstMet : SyncEngine := left (drafted (ascii "A") 1) forFirst

def secondMet : SyncEngine := left (drafted (ascii "B") 2) forSecond

def toFirstMet : Link := ⟨wire (script secondMet [] []),false,4⟩

def toSecondMet : Link := ⟨wire (script firstMet [] []),false,4⟩

def firstAgain : SyncEngine := left firstMet toFirstMet

def secondAgain : SyncEngine := left secondMet toSecondMet

def toFirstAgain : Link := ⟨wire (script secondAgain [] []),false,4⟩

def toSecondAgain : Link := ⟨wire (script firstAgain [] []),false,4⟩

-- Each node ends with both drafts, its own in place and the other's beside it.
theorem third_session_silent_drafts :
    firstMet.disk.files.keys = [ascii "notes.conflict-B.txt",ascii "notes.txt"] ∧
    firstAgain.store.allEntries.length = 3 ∧
    Silent firstAgain secondAgain ((runSyncSession firstAgain).run toFirstAgain) ∧
    Silent secondAgain firstAgain ((runSyncSession secondAgain).run toSecondAgain) := by
  have first : Complete (drafted (ascii "A") 1) (drafted (ascii "B") 2) forFirst forSecond :=
    complete_check (by decide +kernel)
  have second : Complete firstMet secondMet toFirstMet toSecondMet :=
    complete_check (by decide +kernel)
  have third : Complete firstAgain secondAgain toFirstAgain toSecondAgain :=
    complete_check (by decide +kernel)
  have spokenA : Spoken (drafted (ascii "A") 1) := by
    refine ⟨by decide,?_⟩
    unfold Readable
    decide +kernel
  have spokenB : Spoken (drafted (ascii "B") 2) := by
    refine ⟨by decide,?_⟩
    unfold Readable
    decide +kernel
  have tame : Tame (drafted (ascii "A") 1).store (drafted (ascii "B") 2).store := by decide +kernel
  have silent := third_session_silent (drafted (ascii "A") 1) (drafted (ascii "B") 2) spokenA spokenB tame forFirst forSecond
    toFirstMet toSecondMet toFirstAgain toSecondAgain first second third
  have files : firstMet.disk.files.keys = [ascii "notes.conflict-B.txt",ascii "notes.txt"] := by decide +kernel
  have entries : firstAgain.store.allEntries.length = 3 := by decide +kernel
  exact ⟨files,entries,silent⟩

end P2PSync.Settled
