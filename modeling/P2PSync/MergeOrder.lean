import P2PSync.Lib.ForkMap
import P2PSync.CrdtStore

namespace P2PSync

abbrev Version := ForkMap.Version (List Digest × Bool) Bytes (Bytes → ℕ)

def FileEntry.version (e : FileEntry) : Version := ⟨(e.chunkHashes,e.deleted),e.lastWriter,e.clock.counts⟩

namespace MergeOrder
open CrdtStore

def view (s : CrdtStore) : ForkMap.Held Bytes (List Digest × Bool) Bytes (Bytes → ℕ) := fun path =>
  (s.get path).map FileEntry.version

def mergeAll (s : CrdtStore) (incoming : List FileEntry) : CrdtStore :=
  incoming.foldl (fun s remote => (s.mergeRemote remote).2) s

-- The results of merging a list of entries one by one, in its order.
def reports (s : CrdtStore) : List FileEntry → List MergeResult
  | [] => []
  | remote :: rest => (s.mergeRemote remote).1 :: reports (s.mergeRemote remote).2 rest

def delivery (e : FileEntry) : Bytes × Version := (e.path,e.version)

theorem view_held {s : CrdtStore} (held : s.get path = some e) : view s path = some e.version := by
  simp [view,held]

theorem clash_iff {a b : FileEntry} : ForkMap.Clash a.version.clock b.version.clock ↔
    VectorClock.compare a.clock b.clock = .concurrent := by
  rw [VectorClock.compare_concurrent]
  exact and_comm

theorem clashes_iff {s : CrdtStore} {remote : FileEntry} : ForkMap.Clashes (view s) remote.path remote.version ↔
    ∃ loc, s.get remote.path = some loc ∧ VectorClock.compare loc.clock remote.clock = .concurrent := by
  constructor
  · rintro ⟨l,viewed,clash⟩
    obtain ⟨loc,held,rfl⟩ := Option.map_eq_some_iff.mp viewed
    exact ⟨loc,held,clash_iff.mp clash⟩
  · rintro ⟨loc,held,concurrent⟩
    exact ⟨loc.version,view_held held,clash_iff.mpr concurrent⟩

theorem view_store (s : CrdtStore) (e : FileEntry) (path : Bytes) :
    view (s.store e) path = if e.path = path then some e.version else view s path := by
  unfold view
  rw [get_store]
  split <;> rfl

-- Where no version is forked, a merge stores at most the remote one under its path.
theorem view_quiet {s t : CrdtStore} {remote : FileEntry}
    (quiet : ¬ ForkMap.Clashes (view s) remote.path remote.version)
    (here : view t remote.path = some (ForkMap.settleAt (view s remote.path) remote.version))
    (elsewhere : ∀ path, path ≠ remote.path → view t path = view s path) :
    view t = ForkMap.deliver makeConflictPath (view s) remote.path remote.version := by
  funext path
  by_cases own : path = remote.path
  · subst own
    rw [here,ForkMap.deliver_here]
  · rw [elsewhere path own,ForkMap.deliver_away own (fun both => quiet both.1)]

-- merge_remote is the delivery of the abstract map.
theorem view_mergeRemote (s : CrdtStore) (remote : FileEntry) :
    view (s.mergeRemote remote).2 = ForkMap.deliver makeConflictPath (view s) remote.path remote.version := by
  have merged := mergeRemote_merged s remote
  generalize (s.mergeRemote remote).1 = result at merged
  generalize (s.mergeRemote remote).2 = after at merged ⊢
  have noClash : ∀ {loc}, s.get remote.path = some loc → (loc.clock.counts ≤ remote.clock.counts ∨
      remote.clock.counts ≤ loc.clock.counts) → ¬ ForkMap.Clashes (view s) remote.path remote.version := by
    rintro loc held ordered ⟨l,viewed,clash⟩
    rw [view_held held] at viewed
    cases viewed
    exact ordered.elim clash.2 clash.1
  have other : ∀ path, path ≠ remote.path → view (s.store remote) path = view s path := by
    intro path differs
    rw [view_store,if_neg (Ne.symm differs)]
  cases merged with
  | unseen absent =>
    have unseen : view s remote.path = none := by simp [view,absent]
    refine view_quiet ?_ ?_ other
    · rintro ⟨l,viewed,_⟩
      rw [unseen] at viewed
      cases viewed
    · rw [view_store,if_pos rfl,unseen,ForkMap.settleAt]
  | newer held order =>
    refine view_quiet (noClash held (.inl order.le)) ?_ other
    rw [view_store,if_pos rfl,view_held held,ForkMap.settleAt,ForkMap.settle_newer order.not_ge order.le]
  | synced held order =>
    refine view_quiet (noClash held (.inl order.le)) ?_ (fun _ _ => rfl)
    rw [view_held held,ForkMap.settleAt,ForkMap.settle_covered order.ge]
  | older held order =>
    refine view_quiet (noClash held (.inr order.le)) ?_ (fun _ _ => rfl)
    rw [view_held held,ForkMap.settleAt,ForkMap.settle_covered order.le]
  | @conflict loc held left right =>
    have locPath : loc.path = remote.path := get_path held
    have clash : ForkMap.Clash loc.version.clock remote.version.clock := ⟨right,left⟩
    have clashes : ForkMap.Clashes (view s) remote.path remote.version := ⟨_,view_held held,clash⟩
    funext path
    rw [view_store,view_store]
    by_cases own : path = remote.path
    · subst own
      rw [if_pos locPath,ForkMap.deliver_here,view_held held,ForkMap.settleAt,ForkMap.settle_clash clash]
      simp [FileEntry.version]
    · rw [if_neg (by rw [locPath]; exact Ne.symm own)]
      by_cases forked : path = (forkOf remote).path
      · subst forked
        rw [if_pos rfl]
        exact (ForkMap.deliver_fork clashes own).symm
      · rw [if_neg (Ne.symm forked)]
        exact (ForkMap.deliver_away own (fun both => forked both.2)).symm

theorem view_mergeAll (s : CrdtStore) (incoming : List FileEntry) :
    view (mergeAll s incoming) =
      ForkMap.deliverAll makeConflictPath (view s) (incoming.map delivery) := by
  induction incoming generalizing s with
  | nil => rfl
  | cons remote rest ih =>
    have tail := ih (s.mergeRemote remote).2
    rw [view_mergeRemote] at tail
    exact tail

-- What all_entries() shows of two entries is the same.
structure SameEntry (a b : FileEntry) : Prop where
  path : a.path = b.path
  chunkHashes : a.chunkHashes = b.chunkHashes
  deleted : a.deleted = b.deleted
  lastWriter : a.lastWriter = b.lastWriter
  clock : ∀ node, a.clock.get node = b.clock.get node

def SameEntries (s t : CrdtStore) : Prop := List.Forall₂ SameEntry s.allEntries t.allEntries

def OrderFree (s : CrdtStore) (incoming : List FileEntry) : Prop :=
  ∀ reordered, incoming.Perm reordered → SameEntries (mergeAll s incoming) (mergeAll s reordered)

theorem sameEntry_iff {a b : FileEntry} : SameEntry a b ↔ a.path = b.path ∧ a.version = b.version := by
  constructor
  · intro same
    refine ⟨same.path,?_⟩
    have counts : a.clock.counts = b.clock.counts := by
      funext node
      exact congrArg UInt64.toNat (same.clock node)
    simp [FileEntry.version,same.chunkHashes,same.deleted,same.lastWriter,counts]
  · rintro ⟨path,version⟩
    simp only [FileEntry.version,ForkMap.Version.mk.injEq,Prod.mk.injEq] at version
    obtain ⟨⟨hashes,deleted⟩,writer,counts⟩ := version
    exact ⟨path,hashes,deleted,writer,fun node => UInt64.toNat_inj.mp (congrFun counts node)⟩

theorem sameEntries_iff {s t : CrdtStore} : SameEntries s t ↔ view s = view t := by
  have pairwise : SameEntries s t ↔ List.Forall₂ (fun a b : Bytes × FileEntry => a.1 = b.1 ∧ a.2.version = b.2.version)
      s.entries.pairs t.entries.pairs := by
    rw [pairs_eq,pairs_eq,List.forall₂_map_left_iff,List.forall₂_map_right_iff,SameEntries]
    simp only [← sameEntry_iff]
  rw [pairwise]
  constructor
  · intro related
    funext path
    have found := OrdMap.find_of_forall₂ (R := fun a b : FileEntry => a.version = b.version) related path
    change (s.entries.find path).map _ = (t.entries.find path).map _
    generalize s.entries.find path = one at found ⊢
    generalize t.entries.find path = two at found ⊢
    cases found with
    | none => rfl
    | some same => exact congrArg some same
  · intro same
    apply OrdMap.forall₂_of_find (R := fun a b : FileEntry => a.version = b.version)
    intro path
    have here : (s.entries.find path).map FileEntry.version = (t.entries.find path).map FileEntry.version :=
      congrFun same path
    cases one : s.entries.find path with
    | none =>
      rw [one] at here
      cases two : t.entries.find path with
      | none => exact .none
      | some e => simp [two] at here
    | some e =>
      rw [one] at here
      cases two : t.entries.find path with
      | none => simp [two] at here
      | some e' =>
        rw [two] at here
        exact .some (Option.some.inj here)

-- The local entry, if there is one, does not already cover the remote one.
def Uncovered (s : CrdtStore) (remote : FileEntry) : Prop :=
  ∀ loc, s.get remote.path = some loc →
    VectorClock.compare loc.clock remote.clock ≠ .equal ∧ VectorClock.compare loc.clock remote.clock ≠ .after

def Conflicts (s : CrdtStore) (remote : FileEntry) : Prop :=
  ∃ loc, s.get remote.path = some loc ∧ VectorClock.compare loc.clock remote.clock = .concurrent

instance (s : CrdtStore) (remote : FileEntry) : Decidable (Conflicts s remote) :=
  match held : s.get remote.path with
  | none => .isFalse (by simp [Conflicts,held])
  | some loc => decidable_of_iff (VectorClock.compare loc.clock remote.clock = .concurrent) (by simp [Conflicts,held])

-- An entry that some order of arrival can fork.
def Rival (s : CrdtStore) (incoming : List FileEntry) (r : FileEntry) : Prop :=
  r ∈ incoming ∧ Uncovered s r ∧ (Conflicts s r ∨
    ∃ y ∈ incoming, y.path = r.path ∧ Uncovered s y ∧ VectorClock.compare y.clock r.clock = .concurrent)

-- An entry that some order of arrival can fork to this path.
def Aims (s : CrdtStore) (incoming : List FileEntry) (path : Bytes) (r : FileEntry) : Prop :=
  Rival s incoming r ∧ (forkOf r).path = path

-- Some component of r is above that of the store and of every entry that does not cover r.
def Fresh (s : CrdtStore) (incoming : List FileEntry) (r : FileEntry) : Prop :=
  ∃ node, 0 < r.clock.get node ∧ (∀ loc, s.get r.path = some loc → loc.clock.get node < r.clock.get node) ∧
    ∀ y ∈ incoming, y.path = r.path → VectorClock.compare r.clock y.clock = .after ∨
      VectorClock.compare r.clock y.clock = .concurrent → y.clock.get node < r.clock.get node

-- The store's entry meets nothing but conflicts.
def Kept (s : CrdtStore) (incoming : List FileEntry) (path : Bytes) : Prop :=
  (∃ loc, s.get path = some loc) ∧ ∀ r ∈ incoming, r.path = path → Uncovered s r → Conflicts s r

-- One entry is after the store's and after all others of its path.
def Overruled (s : CrdtStore) (incoming : List FileEntry) (path : Bytes) : Prop :=
  ∃ g ∈ incoming, g.path = path ∧ (∀ loc, s.get path = some loc → VectorClock.AtMost loc.clock g.clock) ∧
    Fresh s incoming g ∧ ∀ y ∈ incoming, y.path = path → Uncovered s y →
      VectorClock.compare y.clock g.clock = .before ∨ y.version = g.version

-- In every order the last version of its line is forked to this path, all other
-- forks to it are earlier versions of the same file, and no entry that arrives
-- under this path is after a fork.
structure Firm (s : CrdtStore) (incoming : List FileEntry) (path : Bytes) (g : FileEntry) : Prop where
  member : g ∈ incoming
  target : (forkOf g).path = path
  kept : Kept s incoming g.path
  fresh : Fresh s incoming g
  last : ∀ y ∈ incoming, y.path = g.path → VectorClock.AtMost g.clock y.clock → y.version = g.version
  line : ∀ r, Aims s incoming path r → r.path = g.path ∧ VectorClock.AtMost r.clock g.clock
  room : ∀ r, Aims s incoming path r → ∀ x ∈ incoming, x.path = path → VectorClock.AtMost x.clock r.clock

-- The version a path without rivals ends with.
def Ends (s : CrdtStore) (incoming : List FileEntry) (path : Bytes) (v : Version) : Prop :=
  ((∀ x ∈ incoming, x.path = path → ¬ Uncovered s x) ∧ ∃ loc, s.get path = some loc ∧ loc.version = v) ∨
  ∃ g ∈ incoming, g.path = path ∧ Uncovered s g ∧ g.version = v ∧
    ∀ x ∈ incoming, x.path = path → Uncovered s x → VectorClock.AtMost x.clock g.clock

def Single (s : CrdtStore) (incoming : List FileEntry) (path : Bytes) : Prop :=
  ∀ r ∈ incoming, ∀ r' ∈ incoming, r.path = path → r'.path = path → Uncovered s r →
    VectorClock.compare r.clock r'.clock = .equal →
    (∀ x ∈ incoming, x.path = path → Uncovered s x → VectorClock.AtMost x.clock r.clock) → r.version = r'.version

def SettledAt (s : CrdtStore) (incoming : List FileEntry) (path : Bytes) : Prop :=
  ((∀ r, Rival s incoming r → r.path ≠ path) ∧ ((∃ g, Firm s incoming path g) ∨
    Single s incoming path ∧ ∀ r, Aims s incoming path r → Ends s incoming path r.version)) ∨
  ((∀ r, ¬ Aims s incoming path r) ∧ (Kept s incoming path ∨ Overruled s incoming path))

def Settled (s : CrdtStore) (incoming : List FileEntry) : Prop := ∀ path, SettledAt s incoming path

theorem live_iff {s : CrdtStore} {r : FileEntry} : ForkMap.Live (view s) r.path r.version ↔ Uncovered s r := by
  have order : ∀ loc : FileEntry, ¬ r.version.clock ≤ loc.version.clock ↔
      VectorClock.compare loc.clock r.clock ≠ .equal ∧ VectorClock.compare loc.clock r.clock ≠ .after := by
    intro loc
    rw [ne_eq,ne_eq,VectorClock.compare_equal,VectorClock.compare_after,← not_or,eq_comm,or_comm,← le_iff_lt_or_eq]
    rfl
  constructor
  · intro live loc held
    exact (order loc).mp (live _ (view_held held))
  · intro uncovered l viewed
    obtain ⟨loc,held,rfl⟩ := Option.map_eq_some_iff.mp viewed
    exact (order loc).mpr (uncovered loc held)

theorem mem_delivery {incoming : List FileEntry} {v : Version} :
    (path,v) ∈ incoming.map delivery ↔ ∃ r ∈ incoming, r.path = path ∧ r.version = v := by
  simp [delivery]

section
variable {s : CrdtStore} {incoming : List FileEntry} {path : Bytes} {g r : FileEntry}

theorem atMost_version {a b : FileEntry} : a.version.clock ≤ b.version.clock ↔ VectorClock.AtMost a.clock b.clock :=
  VectorClock.atMost_iff.symm

theorem rival_view {v : Version} : ForkMap.Rival (view s) (incoming.map delivery) path v ↔
    ∃ r, Rival s incoming r ∧ r.path = path ∧ r.version = v := by
  constructor
  · rintro ⟨member,live,cause⟩
    obtain ⟨r,inside,rfl,rfl⟩ := mem_delivery.mp member
    refine ⟨r,⟨inside,live_iff.mp live,?_⟩,rfl,rfl⟩
    rcases cause with clashes | ⟨w,memberW,liveW,clash⟩
    · exact .inl (clashes_iff.mp clashes)
    · obtain ⟨y,insideY,same,rfl⟩ := mem_delivery.mp memberW
      exact .inr ⟨y,insideY,same,live_iff.mp (same ▸ liveW),clash_iff.mp clash⟩
  · rintro ⟨r,⟨inside,uncovered,cause⟩,rfl,rfl⟩
    refine ⟨mem_delivery.mpr ⟨r,inside,rfl,rfl⟩,live_iff.mpr uncovered,?_⟩
    rcases cause with conflicts | ⟨y,insideY,same,uncoveredY,concurrent⟩
    · exact .inl (clashes_iff.mpr conflicts)
    · exact .inr ⟨y.version,mem_delivery.mpr ⟨y,insideY,same,rfl⟩,same ▸ live_iff.mpr uncoveredY,
        clash_iff.mpr concurrent⟩

theorem aims_view {v : Version} : ForkMap.Aims makeConflictPath (view s) (incoming.map delivery) path v ↔
    ∃ r, Aims s incoming path r ∧ r.version = v := by
  constructor
  · rintro ⟨p,rival,target⟩
    obtain ⟨r,rivalR,rfl,rfl⟩ := rival_view.mp rival
    exact ⟨r,⟨rivalR,target⟩,rfl⟩
  · rintro ⟨r,⟨rival,target⟩,rfl⟩
    exact ⟨r.path,rival_view.mpr ⟨r,rival,rfl,rfl⟩,target⟩

theorem counts_lt (c : VectorClock) (node : Bytes) : c.counts node < 2^64 := (c.get node).toNat_lt

theorem fresh_view (fresh : Fresh s incoming r) : ForkMap.Fresh (view s) (incoming.map delivery) r.path r.version := by
  obtain ⟨node,positive,localLess,othersLess⟩ := fresh
  let u : Bytes → ℕ := fun n => if n = node then r.clock.counts node - 1 else 2^64
  have below : ∀ c : VectorClock, c.get node < r.clock.get node → c.counts ≤ u := by
    intro c less n
    rw [VectorClock.get_lt] at less
    by_cases here : n = node
    · subst here
      simp only [u,if_true]
      omega
    · simp only [u,if_neg here]
      exact (counts_lt c n).le
  refine ⟨u,?_,?_,?_⟩
  · intro l viewed
    obtain ⟨loc,held,rfl⟩ := Option.map_eq_some_iff.mp viewed
    exact below _ (localLess loc held)
  · intro v member apart
    obtain ⟨y,inside,same,rfl⟩ := mem_delivery.mp member
    refine below _ (othersLess y inside same ?_)
    by_cases le : y.clock.counts ≤ r.clock.counts
    · exact .inl (VectorClock.compare_after.mpr (lt_of_le_not_ge le apart))
    · exact .inr (VectorClock.compare_concurrent.mpr ⟨apart,le⟩)
  · intro le
    have here : r.clock.counts node ≤ u node := le node
    rw [UInt64.lt_iff_toNat_lt] at positive
    have positive' : 0 < r.clock.counts node := positive
    simp only [u,if_true] at here
    omega

theorem kept_view (kept : Kept s incoming path) : ∃ l, ForkMap.Kept (view s) (incoming.map delivery) path l := by
  obtain ⟨⟨loc,held⟩,conflicts⟩ := kept
  refine ⟨loc.version,view_held held,?_⟩
  intro v member live
  obtain ⟨r,inside,rfl,rfl⟩ := mem_delivery.mp member
  obtain ⟨loc',held',concurrent⟩ := conflicts r inside rfl (live_iff.mp live)
  cases held.symm.trans held'
  exact clash_iff.mpr concurrent

theorem overruled_view (rules : Overruled s incoming path) :
    ∃ v, ForkMap.Overruled (view s) (incoming.map delivery) path v := by
  obtain ⟨g,inside,rfl,above,fresh,top⟩ := rules
  refine ⟨g.version,mem_delivery.mpr ⟨g,inside,rfl,rfl⟩,?_,?_,fresh_view fresh⟩
  · intro l viewed
    obtain ⟨loc,held,rfl⟩ := Option.map_eq_some_iff.mp viewed
    exact atMost_version.mpr (above loc held)
  · intro v member live
    obtain ⟨y,insideY,same,rfl⟩ := mem_delivery.mp member
    rcases top y insideY same (live_iff.mp (same ▸ live)) with before | equal
    · have less : y.version.clock < g.version.clock := VectorClock.compare_before.mp before
      exact ⟨less.le,fun ge => absurd ge less.not_ge⟩
    · exact ⟨(congrArg ForkMap.Version.clock equal).le,fun _ => equal⟩

theorem firm_view (firm : Firm s incoming path g) :
    ForkMap.Firm makeConflictPath (view s) (incoming.map delivery) path g.path g.version := by
  refine ⟨mem_delivery.mpr ⟨g,firm.member,rfl,rfl⟩,firm.target,kept_view firm.kept,fresh_view firm.fresh,?_,?_,?_⟩
  · intro v member le
    obtain ⟨y,inside,same,rfl⟩ := mem_delivery.mp member
    exact firm.last y inside same (atMost_version.mp le)
  · intro k v rival target
    obtain ⟨r,rivalR,rfl,rfl⟩ := rival_view.mp rival
    obtain ⟨same,le⟩ := firm.line r ⟨rivalR,target⟩
    exact ⟨same,atMost_version.mpr le⟩
  · intro v aims w member
    obtain ⟨r,aimsR,rfl⟩ := aims_view.mp aims
    obtain ⟨x,inside,same,rfl⟩ := mem_delivery.mp member
    exact atMost_version.mpr (firm.room r aimsR x inside same)

theorem ends_view {v : Version} (ends : Ends s incoming path v) :
    ForkMap.Latest (view s) (incoming.map delivery) path (some v) := by
  rcases ends with ⟨idle,loc,held,rfl⟩ | ⟨g,inside,rfl,uncovered,rfl,above⟩
  · rw [← view_held held]
    refine .kept ?_
    intro w member live
    obtain ⟨x,insideX,same,rfl⟩ := mem_delivery.mp member
    exact idle x insideX same (live_iff.mp (same ▸ live))
  · refine .moved (mem_delivery.mpr ⟨g,inside,rfl,rfl⟩) (live_iff.mpr uncovered) ?_
    intro w member live
    obtain ⟨x,insideX,same,rfl⟩ := mem_delivery.mp member
    exact atMost_version.mpr (above x insideX same (live_iff.mp (same ▸ live)))

theorem single_view (single : Single s incoming path) : ForkMap.Single (view s) (incoming.map delivery) path := by
  intro h h' one two
  cases one with
  | kept idle =>
    cases two with
    | kept => rfl
    | moved member live => exact absurd live (idle _ member)
  | @moved v member live above =>
    cases two with
    | kept idle => exact absurd live (idle _ member)
    | @moved w memberW liveW aboveW =>
      have equal : v.clock = w.clock := le_antisymm (aboveW v member live) (above w memberW liveW)
      obtain ⟨r,inside,rfl,rfl⟩ := mem_delivery.mp member
      obtain ⟨r',inside',same,rfl⟩ := mem_delivery.mp memberW
      refine congrArg some (single r inside r' inside' rfl same (live_iff.mp live) (VectorClock.compare_equal.mpr equal) ?_)
      intro x insideX sameX uncovered
      exact atMost_version.mp (above x.version (mem_delivery.mpr ⟨x,insideX,sameX,rfl⟩) (sameX ▸ live_iff.mpr uncovered))

theorem Settled.arranged (settled : Settled s incoming) :
    ForkMap.Arranged makeConflictPath (view s) (incoming.map delivery) := by
  intro path
  rcases settled path with ⟨calm,ends⟩ | ⟨free,kinds⟩
  · refine .inl ⟨?_,?_⟩
    · intro v rival
      obtain ⟨r,rivalR,same,_⟩ := rival_view.mp rival
      exact calm r rivalR same
    · rcases ends with ⟨g,firm⟩ | ⟨single,repeats⟩
      · exact .inl ⟨g.path,g.version,firm_view firm⟩
      · refine .inr ⟨single_view single,?_⟩
        intro v aims
        obtain ⟨r,aimsR,rfl⟩ := aims_view.mp aims
        exact ends_view (repeats r aimsR)
  · refine .inr ⟨?_,?_⟩
    · intro v aims
      obtain ⟨r,aimsR,_⟩ := aims_view.mp aims
      exact free r aimsR
    · exact kinds.imp kept_view overruled_view

end

-- Whatever the order, no merge takes the CONCURRENT branch.
def Unforked (s : CrdtStore) (incoming : List FileEntry) : Prop :=
  ∀ reordered, incoming.Perm reordered → ∀ result ∈ reports s reordered, result.outcome ≠ .conflictForked

theorem mergeRemote_conflicts {s : CrdtStore} (conflicts : Conflicts s r) :
    (s.mergeRemote r).1.outcome = .conflictForked := by
  obtain ⟨loc,held,concurrent⟩ := conflicts
  simp only [mergeRemote,held,concurrent]

theorem mergeRemote_takes {s : CrdtStore} (uncovered : Uncovered s r) (calm : ¬ Conflicts s r) :
    (s.mergeRemote r).2 = s.store r := by
  cases held : s.get r.path with
  | none => simp only [mergeRemote,held]
  | some loc =>
    obtain ⟨notEqual,notAfter⟩ := uncovered loc held
    have order : VectorClock.compare loc.clock r.clock = .before := by
      cases shown : VectorClock.compare loc.clock r.clock with
      | before => rfl
      | equal => exact absurd shown notEqual
      | after => exact absurd shown notAfter
      | concurrent => exact absurd ⟨loc,held,shown⟩ calm
    simp only [mergeRemote,held,order]

theorem not_conflicts_of_unforked {s : CrdtStore} (unforked : Unforked s incoming) (inside : r ∈ incoming) :
    ¬ Conflicts s r := by
  classical
  intro conflicts
  exact unforked _ (List.perm_cons_erase inside) _ List.mem_cons_self (mergeRemote_conflicts conflicts)

-- Two uncovered concurrent entries of one path: the second one to arrive is forked.
theorem not_rival_of_unforked {s : CrdtStore} (unforked : Unforked s incoming) (r : FileEntry) :
    ¬ Rival s incoming r := by
  classical
  rintro ⟨inside,_,conflicts | ⟨y,insideY,same,uncovered,concurrent⟩⟩
  · exact not_conflicts_of_unforked unforked inside conflicts
  · have differ : r ≠ y := by
      rintro rfl
      exact (VectorClock.compare_concurrent.mp concurrent).1 (le_refl _)
    have order : incoming.Perm (y :: r :: (incoming.erase y).erase r) :=
      (List.perm_cons_erase insideY).trans ((List.perm_cons_erase ((List.mem_erase_of_ne differ).mpr inside)).cons y)
    have second : Conflicts (s.mergeRemote y).2 r := by
      rw [mergeRemote_takes uncovered (not_conflicts_of_unforked unforked insideY)]
      exact ⟨y,by rw [get_store,if_pos same],concurrent⟩
    exact unforked _ order _ (List.mem_cons_of_mem _ List.mem_cons_self) (mergeRemote_conflicts second)

theorem stays_on_top {s : CrdtStore} (held : s.get path = some e)
    (above : ∀ x ∈ incoming, x.path = path → VectorClock.AtMost x.clock e.clock)
    (calm : ∀ result ∈ reports s incoming, result.outcome ≠ .conflictForked) :
    (mergeAll s incoming).get path = some e := by
  induction incoming generalizing s with
  | nil => exact held
  | cons x rest ih =>
    have stored : ¬ (x.path = path ∧ ¬ VectorClock.AtMost x.clock e.clock) :=
      fun both => both.2 (above x List.mem_cons_self both.1)
    have next : (s.mergeRemote x).2.get path = some e := by
      have silent := calm _ List.mem_cons_self
      have merged := mergeRemote_merged s x
      generalize (s.mergeRemote x).1 = result at merged silent
      generalize (s.mergeRemote x).2 = after at merged ⊢
      cases merged with
      | unseen absent =>
        have other : x.path ≠ path := by
          rintro rfl
          cases absent.symm.trans held
        rw [get_store,if_neg other,held]
      | newer known order =>
        have other : x.path ≠ path := by
          rintro rfl
          cases known.symm.trans held
          exact stored ⟨rfl,fun le => order.not_ge (VectorClock.atMost_iff.mp le)⟩
        rw [get_store,if_neg other,held]
      | synced => exact held
      | older => exact held
      | conflict => exact absurd rfl silent
    exact ih next (fun y member => above y (List.mem_cons_of_mem _ member))
      (fun result member => calm result (List.mem_cons_of_mem _ member))

-- The first one to arrive of the versions that nothing dominates is the one that stays.
theorem first_stays {s : CrdtStore} (unforked : Unforked s incoming) (inside : r ∈ incoming) (uncovered : Uncovered s r)
    (top : ∀ x ∈ incoming, x.path = r.path → Uncovered s x → VectorClock.AtMost x.clock r.clock)
    (free : OrderFree s incoming) : view (mergeAll s incoming) r.path = some r.version := by
  classical
  have order := List.perm_cons_erase inside
  have takes : (s.mergeRemote r).2 = s.store r :=
    mergeRemote_takes uncovered (not_conflicts_of_unforked unforked inside)
  have covers : ∀ x ∈ incoming.erase r, x.path = r.path → VectorClock.AtMost x.clock r.clock := by
    intro x member same
    have insideX := List.mem_of_mem_erase member
    by_cases open_ : Uncovered s x
    · exact top x insideX same open_
    · -- The store covers x, and r is after the store's entry.
      rw [← live_iff] at open_
      obtain ⟨l,viewed,below⟩ := ForkMap.not_live open_
      rw [same] at viewed
      refine atMost_version.mp (below.trans ?_)
      by_contra above
      have clashes : ForkMap.Clashes (view s) r.path r.version := ⟨l,viewed,live_iff.mpr uncovered l viewed,above⟩
      exact not_conflicts_of_unforked unforked inside (clashes_iff.mp clashes)
  have stays : (mergeAll s (r :: incoming.erase r)).get r.path = some r := by
    refine stays_on_top (s := (s.mergeRemote r).2) ?_ covers
      (fun result member => unforked _ order result (List.mem_cons_of_mem _ member))
    rw [takes,get_store,if_pos rfl]
  rw [sameEntries_iff.mp (free _ order),view_held stays]

theorem single_of_free {s : CrdtStore} (unforked : Unforked s incoming) (free : OrderFree s incoming) (path : Bytes) :
    Single s incoming path := by
  intro r inside r' inside' here here' uncovered equal top
  have clocks : r.version.clock = r'.version.clock := VectorClock.compare_equal.mp equal
  have first : view (mergeAll s incoming) path = some r.version := by
    rw [← here] at top ⊢
    exact first_stays unforked inside uncovered top free
  have second : view (mergeAll s incoming) path = some r'.version := by
    have uncovered' : Uncovered s r' := by
      rw [← live_iff] at uncovered ⊢
      rw [here'.trans here.symm]
      exact uncovered.mono clocks.le
    rw [← here'] at top ⊢
    refine first_stays unforked inside' uncovered' ?_ free
    intro x member same open_
    exact atMost_version.mp ((atMost_version.mpr (top x member same open_)).trans clocks.le)
  exact Option.some.inj (first.symm.trans second)

theorem order_free (s : CrdtStore) (incoming : List FileEntry) :
    (Settled s incoming → OrderFree s incoming) ∧
    (Unforked s incoming → OrderFree s incoming → Settled s incoming) := by
  constructor
  · intro settled reordered perm
    rw [sameEntries_iff,view_mergeAll,view_mergeAll]
    exact settled.arranged.deliverAll_perm makeConflictPath_ne (perm.map delivery)
  · intro unforked free path
    have calm := not_rival_of_unforked unforked
    exact .inl ⟨fun r rival => absurd rival (calm r),
      .inr ⟨single_of_free unforked free path,fun r aims => absurd aims.1 (calm r)⟩⟩

theorem not_behind_self (c : VectorClock) : ¬ (VectorClock.compare c c = .after ∨ VectorClock.compare c c = .concurrent) := by
  rw [VectorClock.compare_after,VectorClock.compare_concurrent]
  exact not_or.mpr ⟨lt_irrefl _,fun both => both.1 le_rfl⟩

-- A path that no entry has and that no fork can reach.
theorem settledAt_unnamed {s : CrdtStore} {incoming : List FileEntry} (unnamed : ∀ r ∈ incoming, r.path ≠ path)
    (free : ∀ r, ¬ Aims s incoming path r) : SettledAt s incoming path :=
  .inl ⟨fun r rival => unnamed r rival.1,
    .inr ⟨fun r inside _ _ here => absurd here (unnamed r inside),fun r aims => absurd aims (free r)⟩⟩

def draft (node : Bytes) (fill : UInt8) : FileEntry := (new node).putEntry (ascii "notes.txt") [.filled fill] .zero 4

-- Two nodes' drafts reach a third one that has a draft of its own.
def arrivals : List FileEntry := [draft (ascii "A") 1,draft (ascii "B") 2]

def editor : CrdtStore := (new (ascii "C")).store (draft (ascii "C") 3)

theorem arrivals_settled : Settled editor arrivals := by
  have local_ : ∀ r ∈ arrivals, editor.get r.path = some (draft (ascii "C") 3) ∧
      VectorClock.compare (draft (ascii "C") 3).clock r.clock = .concurrent := by decide +kernel
  have fresher : ∀ r ∈ arrivals, (draft (ascii "C") 3).clock.get r.lastWriter < r.clock.get r.lastWriter ∧
      ∀ y ∈ arrivals, y = r ∨ VectorClock.compare r.clock y.clock = .concurrent ∧
        y.clock.get r.lastWriter < r.clock.get r.lastWriter := by decide +kernel
  have apart : ∀ r ∈ arrivals, ∀ y ∈ arrivals, r.path = y.path ∧ (forkOf r).path ≠ y.path ∧
      ((forkOf r).path = (forkOf y).path → r = y) := by decide +kernel
  have conflicts : ∀ r ∈ arrivals, Conflicts editor r := fun r inside => ⟨_,(local_ r inside).1,(local_ r inside).2⟩
  have fresh : ∀ r ∈ arrivals, Fresh editor arrivals r := by
    intro r inside
    obtain ⟨less,others⟩ := fresher r inside
    refine ⟨r.lastWriter,UInt64.lt_of_le_of_lt UInt64.zero_le less,?_,?_⟩
    · intro loc held
      cases (local_ r inside).1.symm.trans held
      exact less
    · intro y insideY _ order
      rcases others y insideY with rfl | ⟨_,below⟩
      · exact absurd order (not_behind_self _)
      · exact below
  have kept : ∀ r ∈ arrivals, Kept editor arrivals r.path := fun r inside =>
    ⟨⟨_,(local_ r inside).1⟩,fun y insideY _ _ => conflicts y insideY⟩
  intro path
  by_cases target : ∃ g ∈ arrivals, (forkOf g).path = path
  · obtain ⟨g,inside,rfl⟩ := target
    refine .inl ⟨fun r rival same => (apart g inside r rival.1).2.1 same.symm,.inl ⟨g,inside,rfl,kept g inside,
      fresh g inside,?_,?_,?_⟩⟩
    · intro y insideY _ le
      rcases (fresher g inside).2 y insideY with rfl | ⟨concurrent,_⟩
      · rfl
      · exact absurd concurrent le.2
    · intro r aims
      obtain rfl := (apart r aims.1.1 g inside).2.2 aims.2
      exact ⟨rfl,VectorClock.atMost_iff.mpr (le_refl _)⟩
    · intro r _ x insideX same
      exact absurd same.symm (apart g inside x insideX).2.1
  · have free : ∀ r, ¬ Aims editor arrivals path r := fun r aims => target ⟨r,aims.1.1,aims.2⟩
    by_cases named : ∃ r ∈ arrivals, r.path = path
    · obtain ⟨r,inside,rfl⟩ := named
      exact .inr ⟨free,.inl (kept r inside)⟩
    · exact settledAt_unnamed (fun r inside here => named ⟨r,inside,here⟩) free

-- Two contents under one clock, and the edit that made both obsolete.
def rewrites : List FileEntry :=
  [draft (ascii "A") 1,{ draft (ascii "A") 1 with chunkHashes := [.filled 2] },
    ((new (ascii "A")).store (draft (ascii "A") 1)).putEntry (ascii "notes.txt") [.filled 3] .zero 4]

theorem rewrites_settled : Settled (new (ascii "C")) rewrites := by
  have calm : ∀ r ∈ rewrites, ∀ y ∈ rewrites, VectorClock.compare y.clock r.clock ≠ .concurrent := by decide +kernel
  have last : ∃ g ∈ rewrites, ∀ r ∈ rewrites, r = g ∨ VectorClock.compare r.clock g.clock = .before := by decide +kernel
  have samePath : ∀ r ∈ rewrites, r.path = ascii "notes.txt" := by decide +kernel
  have quiet : ∀ r, ¬ Rival (new (ascii "C")) rewrites r := by
    rintro r ⟨inside,_,⟨loc,held,_⟩ | ⟨y,insideY,_,_,concurrent⟩⟩
    · exact nomatch held
    · exact calm r inside y insideY concurrent
  intro path
  refine .inl ⟨fun r rival => absurd rival (quiet r),.inr ⟨?_,fun r aims => absurd aims.1 (quiet r)⟩⟩
  intro r inside r' inside' here here' _ equal top
  obtain ⟨g,insideG,greatest⟩ := last
  have latest : ∀ y ∈ rewrites, VectorClock.AtMost g.clock y.clock → y = g := by
    intro y insideY le
    refine (greatest y insideY).resolve_right (fun before => ?_)
    exact (VectorClock.compare_before.mp before).not_ge (VectorClock.atMost_iff.mp le)
  have above : VectorClock.AtMost g.clock r.clock :=
    top g insideG ((samePath g insideG).trans ((samePath r inside).symm.trans here)) (fun _ held => nomatch held)
  have clocks := VectorClock.compare_equal.mp equal
  rw [latest r inside above,latest r' inside' (VectorClock.atMost_iff.mpr (clocks ▸ VectorClock.atMost_iff.mp above))]

-- A node with C's draft takes A's, goes on from both and sends all it has; A's
-- draft comes once more from A itself.
def resolver : CrdtStore :=
  (((new (ascii "P")).store (draft (ascii "C") 3)).mergeRemote (draft (ascii "A") 1)).2

def resolved : List FileEntry :=
  draft (ascii "A") 1 :: (resolver.putLocal (ascii "notes.txt") [.filled 5] .zero 4).allEntries

theorem resolved_settled : Settled editor resolved := by
  have rivals : ∀ r ∈ resolved, (∀ loc, editor.get r.path = some loc →
      VectorClock.compare loc.clock r.clock = .concurrent → r = draft (ascii "A") 1) ∧
      ∀ y ∈ resolved, y.path = r.path → VectorClock.compare y.clock r.clock ≠ .concurrent := by
    have held : ∀ r ∈ resolved, (editor.get r.path).all (fun loc =>
        VectorClock.compare loc.clock r.clock ≠ .concurrent ∨ r = draft (ascii "A") 1) := by decide +kernel
    have others : ∀ r ∈ resolved, ∀ y ∈ resolved, y.path = r.path →
        VectorClock.compare y.clock r.clock ≠ .concurrent := by decide +kernel
    refine fun r inside => ⟨fun loc found concurrent => ?_,others r inside⟩
    have shown := held r inside
    simpa [found,concurrent] using shown
  have only : ∀ r, Rival editor resolved r → r = draft (ascii "A") 1 := by
    rintro r ⟨inside,_,⟨loc,found,concurrent⟩ | ⟨y,insideY,same,_,concurrent⟩⟩
    · exact (rivals r inside).1 loc found concurrent
    · exact absurd concurrent ((rivals r inside).2 y insideY same)
  have copies : ∀ r ∈ resolved, r.path = (forkOf (draft (ascii "A") 1)).path → r = forkOf (draft (ascii "A") 1) := by
    decide +kernel
  have edits : ∃ g ∈ resolved, g.path = ascii "notes.txt" ∧ 0 < g.clock.get (ascii "P") ∧
      (∀ y ∈ resolved, y.path = g.path → y = g ∨ VectorClock.compare y.clock g.clock = .before ∧
        y.clock.get (ascii "P") < g.clock.get (ascii "P")) ∧
      (editor.get g.path).all (fun loc => VectorClock.compare loc.clock g.clock = .before ∧
        loc.clock.get (ascii "P") < g.clock.get (ascii "P")) := by decide +kernel
  intro path
  by_cases fork : path = (forkOf (draft (ascii "A") 1)).path
  · subst fork
    have uncovered : Uncovered editor (forkOf (draft (ascii "A") 1)) := by
      have absent : editor.get (forkOf (draft (ascii "A") 1)).path = none := by decide +kernel
      intro loc held
      cases absent.symm.trans held
    refine .inl ⟨?_,.inr ⟨?_,?_⟩⟩
    · intro r rival
      rw [only r rival]
      exact (makeConflictPath_ne _ _).symm
    · intro r inside r' inside' here here' _ _ _
      rw [copies r inside here,copies r' inside' here']
    · intro r aims
      rw [only r aims.1]
      refine .inr ⟨forkOf (draft (ascii "A") 1),by decide +kernel,rfl,uncovered,rfl,?_⟩
      intro x inside here _
      rw [copies x inside here]
      exact VectorClock.atMost_iff.mpr (le_refl _)
  · have free : ∀ r, ¬ Aims editor resolved path r := by
      intro r aims
      have target := aims.2
      rw [only r aims.1] at target
      exact fork target.symm
    obtain ⟨g,inside,named,positive,others,local_⟩ := edits
    by_cases here : path = g.path
    · have before : ∀ loc, editor.get g.path = some loc → VectorClock.compare loc.clock g.clock = .before ∧
          loc.clock.get (ascii "P") < g.clock.get (ascii "P") := by
        intro loc held
        simpa [held] using local_
      refine .inr ⟨free,.inr ⟨g,inside,here.symm,?_,⟨ascii "P",positive,fun loc held => (before loc held).2,?_⟩,?_⟩⟩
      · intro loc held
        exact VectorClock.atMost_iff.mpr (VectorClock.compare_before.mp (before loc (here ▸ held)).1).le
      · intro y insideY same order
        rcases others y insideY same with rfl | ⟨_,less⟩
        · exact absurd order (not_behind_self _)
        · exact less
      · intro y insideY same _
        rcases others y insideY (same.trans here) with rfl | ⟨before',_⟩
        · exact .inr rfl
        · exact .inl before'
    · have unnamed : ∀ r ∈ resolved, r.path ≠ path := by
        have places : ∀ r ∈ resolved, r.path = ascii "notes.txt" ∨ r.path = (forkOf (draft (ascii "A") 1)).path := by
          decide +kernel
        rintro r insideR rfl
        exact (places r insideR).elim (fun notes => here (notes.trans named.symm)) fork
      exact settledAt_unnamed unnamed free

theorem order_free_two_conflicts : OrderFree editor arrivals ∧ OrderFree (new (ascii "C")) rewrites ∧
    OrderFree editor resolved :=
  ⟨(order_free editor arrivals).1 arrivals_settled,(order_free (new (ascii "C")) rewrites).1 rewrites_settled,
    (order_free editor resolved).1 resolved_settled⟩

-- The two drafts reach a node that has none: the first one to arrive stays.
theorem arrivals_order_matters : ¬ OrderFree (new (ascii "C")) arrivals := by
  intro free
  have same := sameEntries_iff.mp (free arrivals.reverse (List.reverse_perm arrivals).symm)
  have here := congrArg (Option.map (fun v : Version => v.content)) (congrFun same (ascii "notes.txt"))
  revert here
  decide +kernel

end MergeOrder
end P2PSync
