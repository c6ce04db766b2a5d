import P2PSync.Sessions

namespace P2PSync.Deliveries
open CrdtStore MergeOrder Sessions

-- Whatever a merge does to the version at the path, it joins the clocks there.
theorem clock_mergeRemote (s : CrdtStore) (remote : FileEntry) : ∃ e, (s.mergeRemote remote).2.get remote.path = some e ∧
    e.clock.counts = (s.clockAt remote.path).counts ⊔ remote.clock.counts := by
  have merged := mergeRemote_merged s remote
  generalize (s.mergeRemote remote).1 = result at merged
  generalize (s.mergeRemote remote).2 = after at merged ⊢
  cases merged with
  | unseen absent =>
    refine ⟨remote,by simp,?_⟩
    rw [clockAt_absent absent,VectorClock.counts_empty]
    exact (bot_sup_eq _).symm
  | newer held order =>
    refine ⟨remote,by simp,?_⟩
    rw [clockAt_held held]
    exact (sup_eq_right.mpr order.le).symm
  | @synced loc held order =>
    refine ⟨loc,held,?_⟩
    rw [clockAt_held held]
    exact (sup_eq_left.mpr order.ge).symm
  | @older loc held order =>
    refine ⟨loc,held,?_⟩
    rw [clockAt_held held]
    exact (sup_eq_left.mpr order.le).symm
  | @conflict loc held left right =>
    have place : loc.path = remote.path := get_path held
    refine ⟨{ loc with clock := loc.clock.merge remote.clock },?_,?_⟩
    · rw [get_store,if_pos place]
    · rw [clockAt_held held]
      exact VectorClock.counts_merge _ _

theorem mergeRemote_covered {s : CrdtStore} {remote : FileEntry} (held : s.get remote.path = some loc)
    (covered : remote.clock.counts ≤ loc.clock.counts) :
    ((s.mergeRemote remote).1.outcome = .noChange ∨ (s.mergeRemote remote).1.outcome = .keptLocal) ∧
      (s.mergeRemote remote).2 = s := by
  have merged := mergeRemote_merged s remote
  generalize (s.mergeRemote remote).1 = result at merged ⊢
  generalize (s.mergeRemote remote).2 = after at merged ⊢
  cases merged with
  | unseen absent =>
    rw [held] at absent
    cases absent
  | newer other order =>
    rw [held] at other
    cases other
    exact absurd covered order.not_ge
  | synced other order => exact ⟨.inl rfl,rfl⟩
  | older other order => exact ⟨.inr rfl,rfl⟩
  | conflict other left right =>
    rw [held] at other
    cases other
    exact absurd covered right

-- The counters at the path, delivery by delivery.
theorem clock_mergeAll (s : CrdtStore) (incoming : List FileEntry) (path : Bytes) (e : FileEntry)
    (held : s.get path = some e) (here : ∀ r ∈ incoming, r.path = path) :
    ∃ final, (mergeAll s incoming).get path = some final ∧
      final.clock.counts = incoming.foldl (fun top r => top ⊔ r.clock.counts) e.clock.counts := by
  induction incoming generalizing s e with
  | nil => exact ⟨e,held,rfl⟩
  | cons remote rest ih =>
    obtain ⟨next,at_path,clock⟩ := clock_mergeRemote s remote
    rw [here remote List.mem_cons_self] at at_path clock
    rw [clockAt_held held] at clock
    obtain ⟨final,found,top⟩ := ih _ next at_path (fun r member => here r (List.mem_cons_of_mem _ member))
    refine ⟨final,found,?_⟩
    rw [top,clock]
    rfl

theorem foldl_sup_counts (incoming : List FileEntry) (top : Bytes → ℕ) (node : Bytes) :
    IsGreatest {v | v = top node ∨ ∃ r ∈ incoming, v = r.clock.counts node}
      (incoming.foldl (fun top r => top ⊔ r.clock.counts) top node) := by
  induction incoming generalizing top with
  | nil =>
    refine ⟨.inl rfl,?_⟩
    rintro v (rfl | ⟨r,member,_⟩)
    · exact le_refl _
    · cases member
  | cons remote rest ih =>
    obtain ⟨attained,bound⟩ := ih (top ⊔ remote.clock.counts)
    rw [List.foldl_cons]
    constructor
    · rcases attained with same | ⟨r,member,same⟩
      · rcases max_choice (top node) (remote.clock.counts node) with left | right
        · exact .inl (same.trans left)
        · exact .inr ⟨remote,List.mem_cons_self,same.trans right⟩
      · exact .inr ⟨r,List.mem_cons_of_mem _ member,same⟩
    · have joined := bound (.inl rfl)
      rintro v (rfl | ⟨r,member,rfl⟩)
      · exact (le_max_left _ _).trans joined
      · rcases List.mem_cons.mp member with rfl | later
        · exact (le_max_right _ _).trans joined
        · exact bound (.inr ⟨r,later,rfl⟩)

theorem counts_mergeAll (s : CrdtStore) (incoming : List FileEntry) (path : Bytes) (some : incoming ≠ [])
    (here : ∀ r ∈ incoming, r.path = path) : ∃ e, (mergeAll s incoming).get path = .some e ∧
      e.clock.counts = incoming.foldl (fun top r => top ⊔ r.clock.counts) (s.clockAt path).counts := by
  cases incoming with
  | nil => exact absurd rfl some
  | cons first rest =>
    obtain ⟨next,at_path,clock⟩ := clock_mergeRemote s first
    rw [here first List.mem_cons_self] at at_path clock
    obtain ⟨final,found,top⟩ := clock_mergeAll _ rest path next at_path
      (fun r member => here r (List.mem_cons_of_mem _ member))
    refine ⟨final,found,?_⟩
    rw [top,clock]
    rfl

-- A counter of the stored version comes from one of the versions it was made of.
theorem top_attained {s : CrdtStore} {path : Bytes} {incoming : List FileEntry} (some : incoming ≠ [])
    (greatest : IsGreatest {v | v = (s.clockAt path).counts node ∨ ∃ r ∈ incoming, v = r.clock.counts node} v) :
    (∃ old, s.get path = .some old ∧ v = old.clock.counts node) ∨ ∃ r ∈ incoming, v = r.clock.counts node := by
  obtain ⟨attained,bound⟩ := greatest
  rcases attained with same | delivered
  · cases held : s.get path with
    | some old =>
      rw [clockAt_held held] at same
      exact .inl ⟨old,rfl,same⟩
    | none =>
      -- Nothing was stored, so the counter is 0, and so is that of any delivery.
      rw [clockAt_absent held] at same
      obtain ⟨first,member⟩ := List.exists_mem_of_ne_nil incoming some
      have below : first.clock.counts node ≤ v := bound (.inr ⟨first,member,rfl⟩)
      have zero : v = 0 := same
      exact .inr ⟨first,member,by omega⟩
  · exact .inr delivered

theorem clock_is_join (s : CrdtStore) (path : Bytes) (incoming : List FileEntry) (some : incoming ≠ [])
    (here : ∀ r ∈ incoming, r.path = path) :
    (∃ e, (mergeAll s incoming).get path = .some e ∧ ∀ node, IsGreatest
      {v | (∃ old, s.get path = .some old ∧ v = old.clock.get node) ∨ ∃ r ∈ incoming, v = r.clock.get node}
      (e.clock.get node)) ∧
    ∀ r ∈ incoming, (((mergeAll s incoming).mergeRemote r).1.outcome = .noChange ∨
        ((mergeAll s incoming).mergeRemote r).1.outcome = .keptLocal) ∧
      ((mergeAll s incoming).mergeRemote r).2 = mergeAll s incoming := by
  obtain ⟨e,held,clock⟩ := counts_mergeAll s incoming path some here
  have greatest : ∀ node, IsGreatest {v | v = (s.clockAt path).counts node ∨ ∃ r ∈ incoming, v = r.clock.counts node}
      (e.clock.counts node) := fun node => by
    rw [clock]
    exact foldl_sup_counts incoming _ node
  constructor
  · refine ⟨e,held,fun node => ⟨?_,?_⟩⟩
    · rcases top_attained some (greatest node) with ⟨old,before,same⟩ | ⟨r,member,same⟩
      · exact .inl ⟨old,before,UInt64.toNat_inj.mp same⟩
      · exact .inr ⟨r,member,UInt64.toNat_inj.mp same⟩
    · rintro v (⟨old,before,rfl⟩ | ⟨r,member,rfl⟩)
      · apply UInt64.le_iff_toNat_le.mpr
        refine (greatest node).2 (.inl ?_)
        rw [clockAt_held before]
        rfl
      · apply UInt64.le_iff_toNat_le.mpr
        exact (greatest node).2 (.inr ⟨r,member,rfl⟩)
  · intro r member
    rw [← here r member] at held
    exact mergeRemote_covered held (fun node => (greatest node).2 (.inr ⟨r,member,rfl⟩))

-- Two concurrent drafts: the entry left at the path has both behind it.
theorem clock_is_join_drafts : ∃ e, (mergeAll (new (ascii "C")) arrivals).get (ascii "notes.txt") = some e ∧
    1 ≤ e.clock.get (ascii "A") ∧ 1 ≤ e.clock.get (ascii "B") := by
  obtain ⟨⟨e,held,greatest⟩,_⟩ := clock_is_join (new (ascii "C")) (ascii "notes.txt") arrivals (by decide) (by decide)
  exact ⟨e,held,(greatest (ascii "A")).2 (.inr ⟨draft (ascii "A") 1,by decide,by decide⟩),
    (greatest (ascii "B")).2 (.inr ⟨draft (ascii "B") 2,by decide,by decide⟩)⟩

-- Every stored entry is the latest of the deliveries at its path.
structure Latest (s : CrdtStore) (seen : List FileEntry) : Prop where
  latest : ∀ path e, s.get path = some e → e ∈ seen ∧ ∀ x ∈ seen, x.path = path → x.clock.counts ≤ e.clock.counts
  complete : ∀ x ∈ seen, ∃ e, s.get x.path = some e

-- One history at each path, and a clock names one version.
def Causal (history : List FileEntry) : Prop :=
  ∀ a ∈ history, ∀ b ∈ history, a.path = b.path →
    VectorClock.compare a.clock b.clock ≠ .concurrent ∧ (VectorClock.compare a.clock b.clock = .equal → a = b)

-- A delivery stored over something it is not older than.
theorem latest_store {s : CrdtStore} (latest : Latest s seen)
    (newest : ∀ e, s.get remote.path = some e → e.clock.counts ≤ remote.clock.counts) :
    Latest (s.store remote) (seen ++ [remote]) := by
  constructor
  · intro path e held
    rw [get_store] at held
    split at held
    · rename_i here
      cases held
      refine ⟨by simp,?_⟩
      intro x listed at_path
      rcases List.mem_append.mp listed with before | now
      · obtain ⟨old,stored⟩ := latest.complete x before
        rw [at_path,← here] at stored
        exact ((latest.latest _ old stored).2 x before (at_path.trans here.symm)).trans (newest old stored)
      · rw [List.mem_singleton.mp now]
    · rename_i away
      obtain ⟨listed,top⟩ := latest.latest path e held
      refine ⟨List.mem_append_left _ listed,?_⟩
      intro x listed at_path
      rcases List.mem_append.mp listed with before | now
      · exact top x before at_path
      · rw [List.mem_singleton.mp now] at at_path
        exact absurd at_path away
  · intro x listed
    rw [get_store]
    split
    · exact ⟨remote,rfl⟩
    · rename_i away
      rcases List.mem_append.mp listed with before | now
      · exact latest.complete x before
      · rw [List.mem_singleton.mp now] at away
        exact absurd rfl away

theorem latest_keep {s : CrdtStore} (latest : Latest s seen) (held : s.get remote.path = some loc)
    (covered : remote.clock.counts ≤ loc.clock.counts) : Latest s (seen ++ [remote]) := by
  constructor
  · intro path e stored
    obtain ⟨listed,top⟩ := latest.latest path e stored
    refine ⟨List.mem_append_left _ listed,?_⟩
    intro x listed at_path
    rcases List.mem_append.mp listed with before | now
    · exact top x before at_path
    · rw [List.mem_singleton.mp now] at at_path ⊢
      rw [at_path,stored] at held
      cases held
      exact covered
  · intro x listed
    rcases List.mem_append.mp listed with before | now
    · exact latest.complete x before
    · rw [List.mem_singleton.mp now]
      exact ⟨loc,held⟩

theorem latest_mergeRemote {s : CrdtStore} (causal : Causal history) (latest : Latest s seen)
    (known : ∀ x ∈ seen, x ∈ history) (member : remote ∈ history) :
    (s.mergeRemote remote).1.outcome ≠ .conflictForked ∧ Latest (s.mergeRemote remote).2 (seen ++ [remote]) := by
  have merged := mergeRemote_merged s remote
  generalize (s.mergeRemote remote).1 = result at merged ⊢
  generalize (s.mergeRemote remote).2 = after at merged ⊢
  cases merged with
  | unseen absent =>
    refine ⟨nofun,latest_store latest ?_⟩
    intro e held
    rw [absent] at held
    cases held
  | newer held order =>
    refine ⟨nofun,latest_store latest ?_⟩
    intro e other
    rw [held] at other
    cases other
    exact order.le
  | synced held order => exact ⟨nofun,latest_keep latest held order.ge⟩
  | older held order => exact ⟨nofun,latest_keep latest held order.le⟩
  | @conflict loc held left right =>
    obtain ⟨listed,_⟩ := latest.latest _ loc held
    have apart := (causal loc (known loc listed) remote member (get_path held)).1
    exact absurd (VectorClock.compare_concurrent.mpr ⟨left,right⟩) apart

theorem latest_mergeAll {s : CrdtStore} (causal : Causal history) (latest : Latest s seen)
    (known : ∀ x ∈ seen, x ∈ history) (incoming : List FileEntry) (members : ∀ r ∈ incoming, r ∈ history) :
    (∀ result ∈ reports s incoming, result.outcome ≠ .conflictForked) ∧ Latest (mergeAll s incoming) (seen ++ incoming) := by
  induction incoming generalizing s seen with
  | nil =>
    rw [List.append_nil]
    exact ⟨nofun,latest⟩
  | cons remote rest ih =>
    obtain ⟨quiet,next⟩ := latest_mergeRemote causal latest known (members remote List.mem_cons_self)
    have still : ∀ x ∈ seen ++ [remote], x ∈ history := by
      intro x listed
      rcases List.mem_append.mp listed with before | now
      · exact known x before
      · rw [List.mem_singleton.mp now]
        exact members remote List.mem_cons_self
    obtain ⟨others,final⟩ := ih next still (fun r member => members r (List.mem_cons_of_mem _ member))
    rw [List.append_assoc,List.singleton_append] at final
    refine ⟨?_,final⟩
    intro result reported
    rcases List.mem_cons.mp reported with rfl | later
    · exact quiet
    · exact others result later

theorem causal_history_converges (node : Bytes) (history incoming : List FileEntry) (causal : Causal history)
    (same : ∀ e, e ∈ incoming ↔ e ∈ history) :
    (∀ result ∈ reports (new node) incoming, result.outcome ≠ .conflictForked) ∧
    (∀ path, (∃ e, (mergeAll (new node) incoming).get path = some e) ↔ ∃ x ∈ history, x.path = path) ∧
    ∀ path e, (mergeAll (new node) incoming).get path = some e ↔ e ∈ history ∧ e.path = path ∧
      ∀ x ∈ history, x.path = path → x = e ∨ VectorClock.compare x.clock e.clock = .before := by
  have initially : Latest (new node) [] := ⟨nofun,nofun⟩
  obtain ⟨quiet,final⟩ := latest_mergeAll causal initially nofun incoming (fun r member => (same r).mp member)
  rw [List.nil_append] at final
  have stored : ∀ path e, (mergeAll (new node) incoming).get path = some e → e ∈ history ∧ e.path = path ∧
      ∀ x ∈ history, x.path = path → x = e ∨ VectorClock.compare x.clock e.clock = .before := by
    intro path e held
    obtain ⟨listed,top⟩ := final.latest path e held
    refine ⟨(same e).mp listed,get_path held,?_⟩
    intro x member at_path
    have below := top x ((same x).mpr member) at_path
    rcases below.eq_or_lt with equal | less
    · exact .inl ((causal x member e ((same e).mp listed) (at_path.trans (get_path held).symm)).2
        (VectorClock.compare_equal.mpr equal))
    · exact .inr (VectorClock.compare_before.mpr less)
  refine ⟨quiet,?_,?_⟩
  · intro path
    constructor
    · rintro ⟨e,held⟩
      exact ⟨e,(stored path e held).1,get_path held⟩
    · rintro ⟨x,member,rfl⟩
      exact final.complete x ((same x).mpr member)
  · intro path e
    refine ⟨stored path e,?_⟩
    rintro ⟨member,rfl,greatest⟩
    obtain ⟨other,held⟩ := final.complete e ((same e).mpr member)
    obtain ⟨listed,place,top⟩ := stored _ other held
    rcases greatest other listed place with rfl | later
    · exact held
    · rcases top e member rfl with rfl | sooner
      · exact held
      · exact absurd ((VectorClock.compare_before.mp later).trans (VectorClock.compare_before.mp sooner)) (lt_irrefl _)

def editor : CrdtStore := (new (ascii "A")).store (draft (ascii "A") 1)

-- A put and the delete that follows it, delivered newest first and twice over.
def versions : List FileEntry := [draft (ascii "A") 1,editor.deleteEntry (ascii "notes.txt")]

theorem causal_history_tombstone :
    ((mergeAll (new (ascii "B")) (versions.reverse ++ versions)).get (ascii "notes.txt")).map FileEntry.deleted = some true := by
  have causal : Causal versions := by
    unfold Causal versions
    decide +kernel
  have members : ∀ e, e ∈ versions.reverse ++ versions ↔ e ∈ versions := fun e => by simp
  obtain ⟨_,_,exactly⟩ := causal_history_converges (ascii "B") versions (versions.reverse ++ versions) causal members
  have held := (exactly (ascii "notes.txt") (editor.deleteEntry (ascii "notes.txt"))).mpr
    ⟨by simp [versions],rfl,by unfold versions; decide +kernel⟩
  rw [held]
  rfl

end P2PSync.Deliveries
