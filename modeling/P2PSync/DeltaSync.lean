import P2PSync.Chunking
import P2PSync.Ancestry
import P2PSync.Deliveries
import P2PSync.Settled
import P2PSync.Transfer

-- What a session transfers of a file that was edited in one place.
namespace P2PSync.DeltaSync
open Chunker

section
variable {c : Chunker} {data : Bytes} {start : ℕ}

def stop (piece : Chunk) : ℕ := piece.offset + piece.data.length

-- A chunk starts here, or the data ends here.
def Boundary (c : Chunker) (data : Bytes) (here : ℕ) : Prop := here = data.length ∨ ∃ piece ∈ c.chunk data, piece.offset = here

-- The chunks that reach behind left or end the data, and start before right.
def touched (c : Chunker) (data : Bytes) (left right : ℕ) : List Chunk :=
  (c.chunk data).filter (fun piece => (left < stop piece ∨ stop piece = data.length) ∧ piece.offset < right)

theorem first_of_mem (member : piece ∈ c.chunk data) : ∃ i, (c.chunk data)[i]? = some piece ∧
    First c data piece.offset piece ((c.chunk data).drop (i+1)) := by
  obtain ⟨i,found⟩ := List.mem_iff_getElem?.mp member
  exact ⟨i,found,(chunk_at found).1⟩

theorem stop_inside (member : piece ∈ c.chunk data) : piece.offset < stop piece ∧ stop piece ≤ data.length := by
  obtain ⟨i,_,first⟩ := first_of_mem member
  have some := List.length_pos_of_ne_nil first.nonempty
  have fits := first.inside
  unfold stop
  omega

-- The chunks of a loop start behind those before them.
theorem offset_loop (member : piece ∈ c.chunkLoop data start) : start ≤ piece.offset := by
  fun_induction chunkLoop c data start with
  | case1 start inside window found ih =>
    rcases List.mem_cons.mp member with rfl | later
    · exact le_refl _
    · have behind := ih later
      omega
  | case2 start inside nothing =>
    cases List.mem_singleton.mp member
    exact le_refl _
  | case3 start outside => cases member

theorem stop_le_start (first : First c data start piece rest) (member : next ∈ rest) : start + piece.data.length ≤ next.offset := by
  cases first with
  | cut found fits some =>
    rw [makeChunk_length fits,Nat.add_sub_cancel_left]
    exact offset_loop member
  | last nothing inside => cases member

theorem mem_drop {chunks : List Chunk} (found : chunks[j]? = some piece) (behind : i ≤ j) : piece ∈ chunks.drop i := by
  apply List.mem_of_getElem? (i := j - i)
  rw [List.getElem?_drop,Nat.add_sub_cancel' behind]
  exact found

-- Of two chunks the one that starts first ends before the other starts.
theorem stop_le_offset (member : piece ∈ c.chunk data) (other : next ∈ c.chunk data) (before : piece.offset < next.offset) :
    stop piece ≤ next.offset := by
  obtain ⟨i,here,first⟩ := first_of_mem member
  obtain ⟨j,there,second⟩ := first_of_mem other
  rcases lt_trichotomy i j with earlier | same | later
  · exact stop_le_start first (mem_drop there earlier)
  · subst same
    rw [here] at there
    cases there
    exact absurd before (lt_irrefl _)
  · have back : stop next ≤ piece.offset := stop_le_start second (mem_drop here later)
    have some := (stop_inside other).1
    omega

theorem stop_le_boundary (member : piece ∈ c.chunk data) (boundary : Boundary c data here) (before : piece.offset < here) :
    stop piece ≤ here := by
  rcases boundary with rfl | ⟨next,listed,rfl⟩
  · exact (stop_inside member).2
  · exact stop_le_offset member listed before

-- Chunks of a loop that lie between two places are no longer together than these are apart.
theorem sum_between (chosen : Chunk → Bool) (left right : ℕ)
    (between : ∀ piece ∈ c.chunkLoop data start, chosen piece = true → left ≤ piece.offset ∧ stop piece ≤ right) :
    (((c.chunkLoop data start).filter chosen).map (fun piece => piece.data.length)).sum ≤ right - max left start := by
  fun_induction chunkLoop c data start with
  | case1 start inside window found ih =>
    have bounds := scan_bounds found
    rw [List.length_drop] at bounds
    have length : (makeChunk data start (start + window)).data.length = start + window - start := makeChunk_length (by omega)
    have later := ih (fun piece member => between piece (List.mem_cons_of_mem _ member))
    have here := between _ List.mem_cons_self
    have offset : (makeChunk data start (start + window)).offset = start := rfl
    rw [stop,offset,length] at here
    rw [List.filter_cons]
    split
    · rename_i taken
      have placed := here taken
      rw [List.map_cons,List.sum_cons,length]
      omega
    · omega
  | case2 start inside nothing =>
    have length : (makeChunk data start data.length).data.length = data.length - start := makeChunk_length (le_refl _)
    have here := between _ List.mem_cons_self
    have offset : (makeChunk data start data.length).offset = start := rfl
    rw [stop,offset,length] at here
    rw [List.filter_cons]
    split
    · rename_i taken
      have placed := here taken
      simp only [List.filter_nil,List.map_cons,List.map_nil,List.sum_cons,List.sum_nil,length]
      omega
    · simp
  | case3 start outside => simp

-- The touched chunks fill the place of the edit, and on its left less than one chunk.
theorem touched_bytes {left right : ℕ} (masked : c.Masked) (behind : left ≤ right) (inside : left ≤ data.length) (boundary : Boundary c data right) :
    ((touched c data left right).map (fun piece => piece.data.length)).sum ≤ right - left + max c.maxSize.toNat 1 := by
  have between : ∀ piece ∈ c.chunk data, decide ((left < stop piece ∨ stop piece = data.length) ∧ piece.offset < right) = true →
      left - max c.maxSize.toNat 1 ≤ piece.offset ∧ stop piece ≤ right := by
    intro piece member chosen
    obtain ⟨reaches,before⟩ := of_decide_eq_true chosen
    obtain ⟨i,_,first⟩ := first_of_mem member
    have short := first.bounded masked
    refine ⟨?_,stop_le_boundary member boundary before⟩
    unfold stop at reaches
    omega
  rw [touched,chunk_loop]
  rw [chunk_loop] at between
  have total := sum_between _ _ _ between
  omega

variable {P X X' S : Bytes} {t : ℕ}

theorem drop_shared (P X S : Bytes) (t : ℕ) : (P ++ X ++ S).drop (P.length + X.length + t) = S.drop t := by
  rw [← List.length_append,← List.drop_drop,List.drop_left]

-- A chunk that the edit does not touch was there before it.
theorem untouched_known (shared : Boundary c (P ++ X ++ S) (P.length + X.length + t))
    (shared' : Boundary c (P ++ X' ++ S) (P.length + X'.length + t)) (member : piece ∈ c.chunk (P ++ X' ++ S))
    (apart : piece ∉ touched c (P ++ X' ++ S) P.length (P.length + X'.length + t)) :
    piece.hash ∈ (c.chunk (P ++ X ++ S)).map Chunk.hash := by
  obtain ⟨i,found,first⟩ := first_of_mem member
  have fits := stop_inside member
  have outside : ¬ ((P.length < stop piece ∨ stop piece = (P ++ X' ++ S).length) ∧ piece.offset < P.length + X'.length + t) := by
    intro inside
    exact apart (List.mem_filter.mpr ⟨member,decide_eq_true inside⟩)
  by_cases early : stop piece ≤ P.length ∧ stop piece < (P ++ X' ++ S).length
  · -- It ends before the edit.
    rw [chunk_loop,List.append_assoc] at found
    rw [List.append_assoc] at early
    have kept := chunkLoop_early (X ++ S) found early.1 early.2
    rw [← List.append_assoc,← chunk_loop] at kept
    exact List.mem_map_of_mem (List.mem_of_getElem? kept)
  · -- It starts behind the common boundary.
    have late : P.length + X'.length + t ≤ piece.offset := by omega
    have lengths : (P ++ X ++ S).length = P.length + X.length + S.length := by simp [Nat.add_assoc]
    have lengths' : (P ++ X' ++ S).length = P.length + X'.length + S.length := by simp [Nat.add_assoc]
    obtain same | ⟨there,listed,offset'⟩ := shared'
    · omega
    obtain same | ⟨here,held,offset⟩ := shared
    · omega
    obtain ⟨j,foundHere,_⟩ := first_of_mem held
    obtain ⟨k,foundThere,_⟩ := first_of_mem listed
    have loop := (chunk_at foundHere).2.1
    have loop' := (chunk_at foundThere).2.1
    have moved := chunkLoop_moved c (show (P ++ X ++ S).drop here.offset = (P ++ X' ++ S).drop there.offset by
      rw [offset,offset',drop_shared,drop_shared])
    rw [← loop,← loop'] at moved
    have behind : k ≤ i := by
      by_contra before
      have order : stop piece ≤ there.offset := stop_le_start (chunk_at found).1 (mem_drop foundThere (by omega))
      omega
    have inside : piece ∈ (c.chunk (P ++ X' ++ S)).drop k := mem_drop found behind
    have digests : ((c.chunk (P ++ X ++ S)).drop j).map Chunk.hash = ((c.chunk (P ++ X' ++ S)).drop k).map Chunk.hash := by
      rw [← List.forall₂_eq_eq_eq,List.forall₂_map_left_iff,List.forall₂_map_right_iff]
      exact moved.imp (fun _ _ same => same.2.1)
    have known : piece.hash ∈ ((c.chunk (P ++ X ++ S)).drop j).map Chunk.hash := by
      rw [digests]
      exact List.mem_map_of_mem inside
    rw [List.map_drop] at known
    exact List.mem_of_mem_drop known

end

section
open CrdtStore MergeOrder Sessions Transfer

theorem Synced.counterpart {a b : CrdtStore} (synced : Synced a b) (held : b.get path = some r) :
    ∃ l, a.get path = some l ∧ l.clock.counts = r.clock.counts := by
  have same := synced path
  rw [view_held held] at same
  obtain ⟨_,viewed,equal⟩ := Option.map_eq_some_iff.mp same
  obtain ⟨l,held,rfl⟩ := Option.map_eq_some_iff.mp viewed
  exact ⟨l,held,equal⟩

-- What a store hears from a peer that is ahead of it by one entry only.
structure Ahead (s : CrdtStore) (new : FileEntry) (entries : List FileEntry) : Prop where
  known : ∀ re ∈ entries, re.path ≠ new.path → ∃ loc, s.get re.path = some loc ∧ loc.clock.counts = re.clock.counts
  alone : ∀ re ∈ entries, re.path = new.path → re = new
  older : ∃ loc, s.get new.path = some loc ∧ (loc = new ∨ loc.clock.counts < new.clock.counts)

variable {s : CrdtStore} {new re : FileEntry} {entries : List FileEntry}

theorem landing_covered (held : s.get re.path = some loc) (covered : re.clock.counts ≤ loc.clock.counts) :
    (s.mergeRemote re).1.landing = none ∧ (s.mergeRemote re).2 = s := by
  obtain ⟨quiet,same⟩ := Deliveries.mergeRemote_covered held covered
  refine ⟨?_,same⟩
  rcases quiet with unchanged | kept
  · simp [MergeResult.landing,unchanged]
  · simp [MergeResult.landing,kept]

theorem taken_covered (covered : ∀ re ∈ entries, ∃ loc, s.get re.path = some loc ∧ re.clock.counts ≤ loc.clock.counts) :
    taken s entries = [] := by
  induction entries with
  | nil => rfl
  | cons re rest ih =>
    obtain ⟨loc,held,below⟩ := covered re List.mem_cons_self
    obtain ⟨nowhere,same⟩ := landing_covered held below
    have none := ih (fun re member => covered re (List.mem_cons_of_mem _ member))
    apply List.eq_nil_iff_forall_not_mem.mpr
    intro x member
    rcases mem_taken_cons.mp member with ⟨lands,_⟩ | later
    · exact lands nowhere
    · rw [same,none] at later
      cases later

-- One entry of the peer: it is the new one and becomes ours, or we have its like.
theorem Ahead.step (ahead : Ahead s new (re :: rest)) : Ahead (s.mergeRemote re).2 new rest ∧
    ((s.mergeRemote re).1.landing ≠ none → re = new) ∧ (re = new → (s.mergeRemote re).2.get new.path = some new) := by
  obtain ⟨known,alone,loc,held,older⟩ := ahead
  have later : ∀ x ∈ rest, x ∈ re :: rest := fun x member => List.mem_cons_of_mem _ member
  by_cases here : re.path = new.path
  · have same := alone re List.mem_cons_self here
    subst same
    rcases older with rfl | order
    · obtain ⟨nowhere,same⟩ := landing_covered held (le_refl _)
      rw [same]
      exact ⟨⟨fun x member => known x (later x member),fun x member => alone x (later x member),loc,held,.inl rfl⟩,
        fun _ => rfl,fun _ => held⟩
    · have before := VectorClock.compare_before.mpr order
      have stored : (s.mergeRemote re).2 = s.store re := by simp only [mergeRemote,held,before]
      have there : (s.store re).get re.path = some re := by simp
      rw [stored]
      refine ⟨⟨?_,fun x member => alone x (later x member),re,there,.inl rfl⟩,fun _ => rfl,fun _ => there⟩
      intro x member away
      rw [get_store,if_neg (Ne.symm away)]
      exact known x (later x member) away
  · obtain ⟨like,found,equal⟩ := known re List.mem_cons_self here
    obtain ⟨nowhere,same⟩ := landing_covered found equal.ge
    rw [same]
    refine ⟨⟨fun x member => known x (later x member),fun x member => alone x (later x member),loc,held,older⟩,?_,?_⟩
    · exact fun lands => absurd nowhere lands
    · exact fun equal => absurd (congrArg FileEntry.path equal) here

theorem Ahead.taken (ahead : Ahead s new entries) : ∀ x ∈ taken s entries, x = new := by
  induction entries generalizing s with
  | nil => exact nofun
  | cons re rest ih =>
    obtain ⟨next,lands,_⟩ := ahead.step
    intro x member
    rcases mem_taken_cons.mp member with ⟨landed,rfl⟩ | later
    · exact lands landed
    · exact ih next x later

theorem Ahead.adopts (ahead : Ahead s new entries) (listed : new ∈ entries ∨ s.get new.path = some new) :
    (mergeAll s entries).get new.path = some new := by
  induction entries generalizing s with
  | nil => exact listed.resolve_left List.not_mem_nil
  | cons re rest ih =>
    obtain ⟨next,_,takes⟩ := ahead.step
    apply ih next
    rcases listed with member | held
    · rcases List.mem_cons.mp member with same | later
      · exact .inr (takes same.symm)
      · exact .inl later
    · by_cases same : re = new
      · exact .inr (takes same)
      · -- Any other entry leaves the path alone.
        have away : re.path ≠ new.path := fun here => same (ahead.alone re List.mem_cons_self here)
        obtain ⟨like,found,equal⟩ := ahead.known re List.mem_cons_self away
        rw [(landing_covered found equal.ge).2]
        exact .inr held

end

section
open SyncEngine Network CrdtStore MergeOrder Sessions Transfer Settled

def edited (b : SyncEngine) (path bytes : Bytes) : SyncEngine := (b.ingestFile path bytes).1

-- What ingest_file adds to the store.
structure Entered (b after : SyncEngine) (path bytes : Bytes) (new : FileEntry) : Prop where
  store : after.store = b.store.store new
  here : new.path = path
  hashes : new.chunkHashes = (standard.chunk bytes).map Chunk.hash
  clock : new.clock = (b.store.clockAt path).increment b.store.nodeId
  has : ∀ hash ∈ new.chunkHashes, after.blobs.hasChunk hash = true

theorem edited_entered {b : SyncEngine} (keeps : b.Keeps (· = false)) (path bytes : Bytes) :
    ∃ new, Entered b (edited b path bytes) path bytes new := by
  obtain ⟨files,done⟩ := ingestFile_keeps keeps path bytes
  rw [edited,done]
  refine ⟨_,rfl,rfl,rfl,rfl,?_⟩
  intro hash member
  obtain ⟨piece,inside,rfl⟩ := List.mem_map.mp member
  exact FileStore.has_putChunks b.blobs _ piece inside

variable {a b after : SyncEngine} {path bytes : Bytes} {new : FileEntry}

theorem Entered.listed (entered : Entered b after path bytes new) (member : re ∈ after.store.allEntries) :
    re = new ∨ (re.path ≠ new.path ∧ b.store.get re.path = some re) := by
  have found := mem_allEntries.mp member
  rw [entered.store,get_store] at found
  split at found
  · exact .inl (Option.some.inj found).symm
  · rename_i away
    exact .inr ⟨Ne.symm away,found⟩

theorem Entered.held (entered : Entered b after path bytes new) : after.store.get path = some new := by
  rw [entered.store,get_store,if_pos entered.here]

-- A version of the path that both sides agree on is older than the new one.
theorem Entered.newer (entered : Entered b after path bytes new) (synced : Synced a.store b.store)
    (held : a.store.get path = some entry) (room : (b.store.clockAt path).counts b.store.nodeId + 1 < 2^64) :
    entry.clock.counts < new.clock.counts := by
  obtain ⟨r,there,equal⟩ := Synced.counterpart synced.symm held
  rw [entered.clock,clockAt_held there,← equal]
  rw [clockAt_held there] at room
  rw [VectorClock.counts_increment _ _ room]
  exact lt_update_self_iff.mpr (Nat.lt_succ_self _)

theorem Entered.ahead (entered : Entered b after path bytes new) (synced : Synced a.store b.store)
    (held : a.store.get path = some entry) (room : (b.store.clockAt path).counts b.store.nodeId + 1 < 2^64) :
    Ahead a.store new after.store.allEntries := by
  refine ⟨?_,?_,entry,?_,.inr (entered.newer synced held room)⟩
  · intro re member away
    rcases entered.listed member with rfl | ⟨_,found⟩
    · exact absurd rfl away
    · exact Synced.counterpart synced found
  · intro re member here
    rcases entered.listed member with same | ⟨away,_⟩
    · exact same
    · exact absurd here away
  · rw [entered.here]
    exact held

-- The other way there is nothing to take.
theorem Entered.ahead_nothing (entered : Entered b after path bytes new) (synced : Synced a.store b.store)
    (room : (b.store.clockAt path).counts b.store.nodeId + 1 < 2^64) : taken after.store a.store.allEntries = [] := by
  apply taken_covered
  intro re member
  have mine := mem_allEntries.mp member
  by_cases here : re.path = path
  · rw [here] at mine ⊢
    exact ⟨new,entered.held,(entered.newer synced mine room).le⟩
  · obtain ⟨r,there,equal⟩ := Synced.counterpart synced.symm mine
    refine ⟨r,?_,equal.ge⟩
    rw [entered.store,get_store,entered.here,if_neg (Ne.symm here)]
    exact there

-- A has an empty file and B a copy of its directory; then A fills the file.
def emptied : SyncEngine := ((fresh (ascii "A")).ingestFile (ascii "a.txt") []).1

def copied : SyncEngine := ⟨emptied.disk,⟨ascii "B",emptied.store.entries,emptied.store.keyed⟩⟩

end

end P2PSync.DeltaSync
