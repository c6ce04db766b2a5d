import P2PSync.Lib.ForkExchange
import P2PSync.MergeOrder
import P2PSync.Replicas

namespace P2PSync.Sessions
open CrdtStore MergeOrder

-- Both sides take their snapshot first and then merge the other one's.
def session (pair : CrdtStore × CrdtStore) : CrdtStore × CrdtStore :=
  (mergeAll pair.1 pair.2.allEntries,mergeAll pair.2 pair.1.allEntries)

def sessionReports (pair : CrdtStore × CrdtStore) : List MergeResult :=
  reports pair.1 pair.2.allEntries ++ reports pair.2 pair.1.allEntries

def Quiet (pair : CrdtStore × CrdtStore) : Prop :=
  session pair = pair ∧ ∀ result ∈ sessionReports pair,
    result.outcome ≠ .appliedRemote ∧ result.outcome ≠ .conflictForked

def Settles (pair : CrdtStore × CrdtStore) : Prop := ∃ n, Quiet (session^[n] pair)

def Contested (a b : CrdtStore) (path : Bytes) (l r : FileEntry) : Prop :=
  a.get path = some l ∧ b.get path = some r ∧ VectorClock.compare l.clock r.clock = .concurrent

-- A version of b's that a session forks to this path of a.
def Lands (a b : CrdtStore) (target : Bytes) (e : FileEntry) : Prop :=
  ∃ path l, Contested a b path l e ∧ makeConflictPath path e.lastWriter = target

def joined (a b : CrdtStore) (target : Bytes) : Option VectorClock :=
  match a.get target,b.get target with
  | some l,some r => some (l.clock.merge r.clock)
  | some l,none => some l.clock
  | none,held => held.map FileEntry.clock

-- The clocks that a session can leave at this path of a: the join of both
-- entries' clocks, that of a fork, or that of b's entry where it is after a fork.
def MayLeave (a b : CrdtStore) (target : Bytes) (c : VectorClock) : Prop :=
  joined a b target = some c ∨ (∃ e, Lands a b target e ∧ e.clock = c) ∨
    ∃ r e, b.get target = some r ∧ r.clock = c ∧ Lands a b target e ∧ VectorClock.AtMost e.clock c

structure Tame (a b : CrdtStore) : Prop where
  left : ∀ target e r, Lands a b target e → b.get target = some r → VectorClock.compare e.clock r.clock ≠ .concurrent
  right : ∀ target e l, Lands b a target e → a.get target = some l → VectorClock.compare e.clock l.clock ≠ .concurrent
  meet : ∀ target c d, MayLeave a b target c → MayLeave b a target d → VectorClock.compare c d ≠ .concurrent

theorem lists_view (s : CrdtStore) : ForkMap.Lists (view s) (s.allEntries.map delivery) := by
  constructor
  · intro path v
    rw [mem_delivery]
    constructor
    · rintro ⟨e,member,rfl,rfl⟩
      exact view_held (mem_allEntries.mp member)
    · intro viewed
      obtain ⟨e,held,rfl⟩ := Option.map_eq_some_iff.mp viewed
      have path_eq : e.path = path := get_path held
      exact ⟨e,mem_allEntries.mpr (path_eq ▸ held),path_eq,rfl⟩
  · have keys : (s.allEntries.map delivery).map Prod.fst = s.entries.keys := by
      rw [OrdMap.keys,pairs_eq,List.map_map,List.map_map]
      rfl
    rw [keys]
    exact s.entries.keys_nodup

theorem contested_iff {a b : CrdtStore} {path : Bytes} {l r : Version} :
    ForkMap.Contested (view a) (view b) path l r ↔ ∃ e f, Contested a b path e f ∧ e.version = l ∧ f.version = r := by
  constructor
  · rintro ⟨left,right,clash⟩
    obtain ⟨e,heldE,rfl⟩ := Option.map_eq_some_iff.mp left
    obtain ⟨f,heldF,rfl⟩ := Option.map_eq_some_iff.mp right
    exact ⟨e,f,⟨heldE,heldF,clash_iff.mp clash⟩,rfl,rfl⟩
  · rintro ⟨e,f,⟨heldE,heldF,concurrent⟩,rfl,rfl⟩
    exact ⟨view_held heldE,view_held heldF,clash_iff.mpr concurrent⟩

theorem lands_view {a b : CrdtStore} {v : Version} (lands : ForkMap.Lands makeConflictPath (view a) (view b) target v) :
    ∃ e, Lands a b target e ∧ e.version = v := by
  obtain ⟨path,l,viewed,fork⟩ := lands
  obtain ⟨e,f,contested,rfl,rfl⟩ := contested_iff.mp viewed
  exact ⟨f,⟨path,e,contested,fork⟩,rfl⟩

theorem took_joined (a b : CrdtStore) (target : Bytes) :
    (ForkMap.took (view a target) (view b target)).map ForkMap.Version.clock =
      (joined a b target).map VectorClock.counts := by
  unfold joined view
  cases a.get target with
  | none =>
    cases b.get target with
    | none => rfl
    | some r => rfl
  | some l =>
    cases b.get target with
    | none => rfl
    | some r => simp [ForkMap.took,ForkMap.settleAt,ForkMap.settle_clock,FileEntry.version,VectorClock.counts_merge]

theorem mayLeave_view {a b : CrdtStore} {c : Bytes → ℕ}
    (leaves : ForkMap.MayLeave makeConflictPath (view a) (view b) target c) : ∃ d, MayLeave a b target d ∧ d.counts = c := by
  rcases leaves with held | ⟨v,lands,rfl⟩ | ⟨r,v,viewed,rfl,lands,le⟩
  · rw [took_joined] at held
    obtain ⟨d,joins,same⟩ := Option.map_eq_some_iff.mp held
    exact ⟨d,.inl joins,same⟩
  · obtain ⟨e,landsE,rfl⟩ := lands_view lands
    exact ⟨e.clock,.inr (.inl ⟨e,landsE,rfl⟩),rfl⟩
  · obtain ⟨e,landsE,rfl⟩ := lands_view lands
    obtain ⟨f,held,rfl⟩ := Option.map_eq_some_iff.mp viewed
    exact ⟨f.clock,.inr (.inr ⟨f,e,held,rfl,landsE,atMost_version.mp le⟩),rfl⟩

theorem tame_view {a b : CrdtStore} (tame : Tame a b) : ForkMap.Tame makeConflictPath (view a) (view b) := by
  refine ⟨?_,?_,?_⟩
  · intro target v r lands viewed clash
    obtain ⟨e,landsE,rfl⟩ := lands_view lands
    obtain ⟨f,held,rfl⟩ := Option.map_eq_some_iff.mp viewed
    exact tame.left target e f landsE held (clash_iff.mp clash)
  · intro target v l lands viewed clash
    obtain ⟨e,landsE,rfl⟩ := lands_view lands
    obtain ⟨f,held,rfl⟩ := Option.map_eq_some_iff.mp viewed
    exact tame.right target e f landsE held (clash_iff.mp clash)
  · intro target c d leavesC leavesD clash
    obtain ⟨c',mayC,rfl⟩ := mayLeave_view leavesC
    obtain ⟨d',mayD,rfl⟩ := mayLeave_view leavesD
    exact tame.meet target c' d' mayC mayD (VectorClock.compare_concurrent.mpr ⟨clash.2,clash.1⟩)

-- Both stores hold the same paths under equal clocks.
def Synced (a b : CrdtStore) : Prop := ForkMap.Level (view a) (view b)

theorem view_session (pair : CrdtStore × CrdtStore) :
    view (session pair).1 = ForkMap.deliverAll makeConflictPath (view pair.1) (pair.2.allEntries.map delivery) ∧
    view (session pair).2 = ForkMap.deliverAll makeConflictPath (view pair.2) (pair.1.allEntries.map delivery) :=
  ⟨view_mergeAll pair.1 _,view_mergeAll pair.2 _⟩

theorem uncontested_session (pair : CrdtStore × CrdtStore) (tame : Tame pair.1 pair.2) (path : Bytes) (l r : FileEntry) :
    ¬ Contested (session pair).1 (session pair).2 path l r := by
  intro contested
  have viewed := contested_iff.mpr ⟨l,r,contested,rfl,rfl⟩
  rw [(view_session pair).1,(view_session pair).2] at viewed
  exact ForkMap.uncontested_exchange makeConflictPath_ne (tame_view tame) (lists_view _) (lists_view _) path _ _ viewed

theorem synced_session (pair : CrdtStore × CrdtStore) (uncontested : ∀ path l r, ¬ Contested pair.1 pair.2 path l r) :
    Synced (session pair).1 (session pair).2 := by
  rw [Synced,(view_session pair).1,(view_session pair).2]
  refine ForkMap.level_exchange makeConflictPath_ne ?_ (lists_view _) (lists_view _)
  intro path l r viewed
  obtain ⟨e,f,contested,_⟩ := contested_iff.mp viewed
  exact uncontested path e f contested

theorem Synced.symm {a b : CrdtStore} (synced : Synced a b) : Synced b a := fun path => (synced path).symm

-- The step of a quiet session: the entry is known under an equal clock.
theorem mergeRemote_synced {a b : CrdtStore} (synced : Synced a b) (member : remote ∈ b.allEntries) :
    a.mergeRemote remote = (⟨.noChange,remote.path,[]⟩,a) := by
  have same := synced remote.path
  rw [view_held (mem_allEntries.mp member)] at same
  obtain ⟨l,viewed,equal⟩ := Option.map_eq_some_iff.mp same
  obtain ⟨loc,held,rfl⟩ := Option.map_eq_some_iff.mp viewed
  have order : VectorClock.compare loc.clock remote.clock = .equal := VectorClock.compare_equal.mpr equal
  simp only [mergeRemote,held,order]

theorem merge_synced {a : CrdtStore} (known : ∀ remote ∈ incoming, a.mergeRemote remote = (⟨.noChange,remote.path,[]⟩,a)) :
    mergeAll a incoming = a ∧ ∀ result ∈ reports a incoming, result.outcome = .noChange := by
  induction incoming with
  | nil => exact ⟨rfl,fun _ member => nomatch member⟩
  | cons remote rest ih =>
    have head := known remote List.mem_cons_self
    obtain ⟨same,quiet⟩ := ih (fun r member => known r (List.mem_cons_of_mem _ member))
    have steps : mergeAll a (remote :: rest) = mergeAll (a.mergeRemote remote).2 rest := rfl
    refine ⟨by rw [steps,head,same],?_⟩
    intro result member
    rw [reports,head] at member
    rcases List.mem_cons.mp member with rfl | later
    · rfl
    · exact quiet result later

theorem quiet_of_synced {pair : CrdtStore × CrdtStore} (synced : Synced pair.1 pair.2) : Quiet pair := by
  obtain ⟨sameA,quietA⟩ := merge_synced (fun _ member => mergeRemote_synced synced member)
  obtain ⟨sameB,quietB⟩ := merge_synced (fun _ member => mergeRemote_synced synced.symm member)
  refine ⟨Prod.ext sameA sameB,?_⟩
  intro result member
  have unchanged : result.outcome = .noChange := (List.mem_append.mp member).elim (quietA result) (quietB result)
  rw [unchanged]
  exact ⟨nofun,nofun⟩

-- The abstract twin at one path: the next session doubles it at a longer one.
def Twin (pair : CrdtStore × CrdtStore) (path writer : Bytes) : Prop :=
  ForkMap.Twin makeConflictPath List.length (view pair.1) (view pair.2) path writer

theorem twin_session {pair : CrdtStore × CrdtStore} (twin : Twin pair path writer) :
    Twin (session pair) (makeConflictPath path writer) writer := by
  have grows : ∀ p w : Bytes, p.length < (makeConflictPath p w).length := by
    intro p w
    rw [makeConflictPath_length]
    omega
  rw [Twin,(view_session pair).1,(view_session pair).2]
  exact ForkMap.Twin.exchange makeConflictPath_ne grows twin (lists_view _) (lists_view _)

theorem twin_sessions {pair : CrdtStore × CrdtStore} (twin : Twin pair path writer) (n : ℕ) :
    ∃ deeper, Twin (session^[n] pair) deeper writer := by
  induction n with
  | zero => exact ⟨path,twin⟩
  | succ n ih =>
    obtain ⟨deeper,twin⟩ := ih
    rw [Function.iterate_succ_apply']
    exact ⟨_,twin_session twin⟩

theorem twin_not_quiet {pair : CrdtStore × CrdtStore} (twin : Twin pair path writer) : ¬ Quiet pair := by
  rintro ⟨same,_⟩
  obtain ⟨x,y,⟨_,heldY,_⟩,_⟩ := twin.meets
  have landed := twin.lands makeConflictPath_ne (lists_view pair.2)
  rw [← (view_session pair).1,same,heldY] at landed
  exact (twin.small _ (.inl (by simp [landed]))).1 rfl

theorem twin_never_settles {pair : CrdtStore × CrdtStore} (twin : Twin pair path writer) : ¬ Settles pair := by
  rintro ⟨n,quiet⟩
  obtain ⟨deeper,twin⟩ := twin_sessions twin n
  exact twin_not_quiet twin quiet

-- The two stores' only conflict is between two versions of one last writer, and
-- no path is as long as the conflict path that both forks get.
structure Doubled (a b : CrdtStore) (path writer : Bytes) : Prop where
  meets : ∃ l r, Contested a b path l r ∧ l.lastWriter = writer ∧ r.lastWriter = writer
  alone : ∀ other l r, Contested a b other l r → other = path
  small : ∀ e, e ∈ a.allEntries ∨ e ∈ b.allEntries → e.path ≠ makeConflictPath path writer ∧
    e.path.length ≤ (makeConflictPath path writer).length

theorem doubled_twin {a b : CrdtStore} (doubled : Doubled a b path writer) : Twin (a,b) path writer := by
  have listed : ∀ {s : CrdtStore} {k : Bytes}, view s k ≠ none → ∃ e ∈ s.allEntries, e.path = k := by
    intro s k present
    obtain ⟨v,viewed⟩ := Option.ne_none_iff_exists'.mp present
    obtain ⟨e,member,same,_⟩ := mem_delivery.mp (((lists_view s).mem_iff k v).mpr viewed)
    exact ⟨e,member,same⟩
  refine ⟨?_,?_,?_⟩
  · obtain ⟨l,r,contested,writerL,writerR⟩ := doubled.meets
    exact ⟨l.version,r.version,contested_iff.mpr ⟨l,r,contested,rfl,rfl⟩,writerL,writerR⟩
  · intro other v w viewed
    obtain ⟨l,r,contested,_⟩ := contested_iff.mp viewed
    exact doubled.alone other l r contested
  · intro k held
    rcases held with left | right
    · obtain ⟨e,member,rfl⟩ := listed left
      exact doubled.small e (.inl member)
    · obtain ⟨e,member,rfl⟩ := listed right
      exact doubled.small e (.inr member)

-- The first session resolves every conflict, the second makes all clocks equal.
theorem sessions_settle (a b : CrdtStore) : (Tame a b → Settles (a,b)) ∧
    ∀ path writer, Doubled a b path writer → ¬ Settles (a,b) := by
  refine ⟨fun tame => ⟨2,quiet_of_synced ?_⟩,fun path writer doubled => twin_never_settles (doubled_twin doubled)⟩
  exact synced_session _ (uncontested_session (a,b) tame)

-- The condition can be checked on the entries.
def landings (a b : CrdtStore) : List FileEntry := b.allEntries.filter (fun r => decide (Conflicts a r))

theorem lands_iff {a b : CrdtStore} : Lands a b target e ↔ e ∈ landings a b ∧ (forkOf e).path = target := by
  rw [landings,List.mem_filter,decide_eq_true_iff,mem_allEntries]
  constructor
  · rintro ⟨path,l,⟨heldA,heldB,concurrent⟩,fork⟩
    obtain rfl := get_path heldB
    exact ⟨⟨heldB,l,heldA,concurrent⟩,fork⟩
  · rintro ⟨⟨heldB,l,heldA,concurrent⟩,fork⟩
    exact ⟨e.path,l,⟨heldA,heldB,concurrent⟩,fork⟩

def leavings (a b : CrdtStore) (target : Bytes) : List VectorClock :=
  (joined a b target).toList ++ ((landings a b).filter (fun e => (forkOf e).path = target)).flatMap (fun e =>
    e.clock :: ((b.get target).toList.map FileEntry.clock).filter (fun c => decide (VectorClock.AtMost e.clock c)))

theorem mayLeave_iff {a b : CrdtStore} : MayLeave a b target c ↔ c ∈ leavings a b target := by
  simp only [MayLeave,lands_iff,leavings,List.mem_append,Option.mem_toList,List.mem_flatMap,List.mem_filter,
    List.mem_cons,List.mem_map,decide_eq_true_eq]
  refine or_congr Iff.rfl ⟨?_,?_⟩
  · rintro (⟨e,lands,rfl⟩ | ⟨r,e,held,rfl,lands,le⟩)
    · exact ⟨e,lands,.inl rfl⟩
    · exact ⟨e,lands,.inr ⟨⟨r,held,rfl⟩,le⟩⟩
  · rintro ⟨e,lands,rfl | ⟨⟨r,held,rfl⟩,le⟩⟩
    · exact .inl ⟨e,lands,rfl⟩
    · exact .inr ⟨r,e,held,rfl,lands,le⟩

theorem joined_comm (a b : CrdtStore) (target : Bytes) : (joined a b target).map VectorClock.counts =
    (joined b a target).map VectorClock.counts := by
  rw [← took_joined,← took_joined]
  exact ForkMap.took_clock _ _

-- Without a fork to the path both sides are left with the join.
theorem meet_elsewhere {a b : CrdtStore} (free : ∀ e, ¬ Lands a b target e) (free' : ∀ e, ¬ Lands b a target e)
    (one : MayLeave a b target c) (two : MayLeave b a target d) : VectorClock.compare c d ≠ .concurrent := by
  have left : joined a b target = some c := one.resolve_right (by rintro (⟨e,lands,_⟩ | ⟨_,e,_,_,lands,_⟩) <;> exact free e lands)
  have right : joined b a target = some d := two.resolve_right (by rintro (⟨e,lands,_⟩ | ⟨_,e,_,_,lands,_⟩) <;> exact free' e lands)
  have same := joined_comm a b target
  rw [left,right] at same
  have equal : c.counts = d.counts := Option.some.inj same
  rw [ne_eq,VectorClock.compare_concurrent]
  exact fun both => both.1 equal.le

abbrev checkTame (a b : CrdtStore) : Prop :=
  (∀ e ∈ landings a b, ∀ r ∈ b.get (forkOf e).path, VectorClock.compare e.clock r.clock ≠ .concurrent) ∧
  (∀ e ∈ landings b a, ∀ l ∈ a.get (forkOf e).path, VectorClock.compare e.clock l.clock ≠ .concurrent) ∧
  ∀ e ∈ landings a b ++ landings b a, ∀ c ∈ leavings a b (forkOf e).path, ∀ d ∈ leavings b a (forkOf e).path,
    VectorClock.compare c d ≠ .concurrent

theorem tame_iff {a b : CrdtStore} : checkTame a b ↔ Tame a b := by
  constructor
  · rintro ⟨left,right,meet⟩
    refine ⟨?_,?_,?_⟩
    · intro target e r lands held
      obtain ⟨inside,rfl⟩ := lands_iff.mp lands
      exact left e inside r held
    · intro target e l lands held
      obtain ⟨inside,rfl⟩ := lands_iff.mp lands
      exact right e inside l held
    · intro target c d one two
      by_cases taken : ∃ e ∈ landings a b ++ landings b a, (forkOf e).path = target
      · obtain ⟨e,inside,rfl⟩ := taken
        exact meet e inside c (mayLeave_iff.mp one) d (mayLeave_iff.mp two)
      · refine meet_elsewhere (fun e lands => taken ?_) (fun e lands => taken ?_) one two
        · obtain ⟨inside,path⟩ := lands_iff.mp lands
          exact ⟨e,List.mem_append_left _ inside,path⟩
        · obtain ⟨inside,path⟩ := lands_iff.mp lands
          exact ⟨e,List.mem_append_right _ inside,path⟩
  · intro tame
    refine ⟨?_,?_,?_⟩
    · exact fun e inside r held => tame.left _ e r (lands_iff.mpr ⟨inside,rfl⟩) held
    · exact fun e inside l held => tame.right _ e l (lands_iff.mpr ⟨inside,rfl⟩) held
    · exact fun e _ c one d two => tame.meet _ c d (mayLeave_iff.mpr one) (mayLeave_iff.mpr two)

instance (a b : CrdtStore) : Decidable (Tame a b) := decidable_of_iff (checkTame a b) tame_iff

-- Two first drafts of one file, each side about to meet the other's.
def draftPair : CrdtStore × CrdtStore :=
  ((new (ascii "A")).store (draft (ascii "A") 1),(new (ascii "B")).store (draft (ascii "B") 2))

-- Both sides edit B's draft and each has a file of its own at the conflict path of A's version.
def occupied : CrdtStore × CrdtStore :=
  (((((new (ascii "A")).store (draft (ascii "B") 2)).putLocal (ascii "notes.txt") [.filled 3] .zero 4).putLocal
      (ascii "notes.txt") [.filled 4] .zero 4).putLocal (ascii "notes.conflict-A.txt") [.filled 5] .zero 4,
    (((new (ascii "B")).store (draft (ascii "B") 2)).putLocal (ascii "notes.txt") [.filled 6] .zero 4).putLocal
      (ascii "notes.conflict-A.txt") [.filled 7] .zero 4)

theorem sessions_settle_drafts : Tame draftPair.1 draftPair.2 ∧ Settles draftPair ∧
    Tame occupied.1 occupied.2 ∧ Settles occupied := by
  have tame : Tame draftPair.1 draftPair.2 := by decide +kernel
  have tame' : Tame occupied.1 occupied.2 := by decide +kernel
  exact ⟨tame,(sessions_settle _ _).1 tame,tame',(sessions_settle _ _).1 tame'⟩

inductive Move (ι : Type) where
  | put (i : ι) (path : Bytes) (chunkHashes : List Digest) (merkleRoot : Digest) (size : UInt64)
  | delete (i : ι) (path : Bytes)
  | session (i j : ι)

def move {ι : Type} [DecidableEq ι] (net : Replicas.Network ι) : Move ι → Replicas.Network ι
  | .put i path chunkHashes merkleRoot size => Function.update net i ((net i).putLocal path chunkHashes merkleRoot size)
  | .delete i path => Function.update net i ((net i).deleteLocal path)
  | .session i j =>
    let after := session (net i,net j)
    Function.update (Function.update net i after.1) j after.2

-- W and A have the same draft by W, each with the clock of a conflict that the
-- other has not met: W resolved one with D, A one with C.
def nodes : Fin 4 → Bytes
  | 0 => ascii "W"
  | 1 => ascii "A"
  | 2 => ascii "C"
  | 3 => ascii "D"

def write (i : Fin 4) (fill : UInt8) : Move (Fin 4) := .put i (ascii "notes.txt") [.filled fill] .zero 4

def crossing : List (Move (Fin 4)) := [write 0 1,.session 0 1,write 2 2,.session 1 2,write 3 3,.session 0 3]

def crossed : Replicas.Network (Fin 4) := crossing.foldl move (Replicas.initial nodes)

theorem crossed_doubled : Doubled (crossed 1) (crossed 0) (ascii "notes.txt") (ascii "W") := by
  have meets : ∃ e ∈ (crossed 1).allEntries, ∃ f ∈ (crossed 0).allEntries, e.path = ascii "notes.txt" ∧
      f.path = ascii "notes.txt" ∧ VectorClock.compare e.clock f.clock = .concurrent ∧ e.lastWriter = ascii "W" ∧
      f.lastWriter = ascii "W" := by
    decide +kernel
  have alone : ∀ e ∈ (crossed 1).allEntries, ∀ f ∈ (crossed 0).allEntries, e.path = f.path →
      VectorClock.compare e.clock f.clock = .concurrent → e.path = ascii "notes.txt" := by
    decide +kernel
  have small : ∀ e ∈ (crossed 1).allEntries ++ (crossed 0).allEntries,
      e.path ≠ makeConflictPath (ascii "notes.txt") (ascii "W") ∧
        e.path.length ≤ (makeConflictPath (ascii "notes.txt") (ascii "W")).length := by
    decide +kernel
  refine ⟨?_,?_,fun e held => small e (List.mem_append.mpr held)⟩
  · obtain ⟨e,memberE,f,memberF,pathE,pathF,concurrent,writerE,writerF⟩ := meets
    have heldE := mem_allEntries.mp memberE
    have heldF := mem_allEntries.mp memberF
    rw [pathE] at heldE
    rw [pathF] at heldF
    exact ⟨e,f,⟨heldE,heldF,concurrent⟩,writerE,writerF⟩
  · rintro path l r ⟨heldL,heldR,concurrent⟩
    have pathL := get_path heldL
    have pathR := get_path heldR
    rw [← pathL]
    refine alone l (mem_allEntries.mpr ?_) r (mem_allEntries.mpr ?_) (pathL.trans pathR.symm) concurrent
    · rw [pathL]
      exact heldL
    · rw [pathR]
      exact heldR

theorem crossed_never_settles : Function.Injective nodes ∧
    Runs move (fun _ _ => True) (Replicas.initial nodes) crossing crossed ∧ ¬ Settles (crossed 1,crossed 0) :=
  ⟨by decide,.free _ _,twin_never_settles (doubled_twin crossed_doubled)⟩

end P2PSync.Sessions
