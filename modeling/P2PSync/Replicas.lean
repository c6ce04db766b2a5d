import P2PSync.Lib.Runs
import P2PSync.CrdtStore

namespace P2PSync.Replicas
open CrdtStore

variable {ι : Type} [DecidableEq ι]

abbrev Network (ι : Type) := ι → CrdtStore

def initial (ids : ι → Bytes) : Network ι := fun i => .new (ids i)

inductive Action (ι : Type) where
  | put (i : ι) (path : Bytes) (chunkHashes : List Digest) (merkleRoot : Digest) (size : UInt64)
  | delete (i : ι) (path : Bytes)
  -- i merges the entry that j holds at the path.
  | merge (i j : ι) (path : Bytes)

def apply (net : Network ι) : Action ι → Network ι
  | .put i path chunkHashes merkleRoot size => Function.update net i ((net i).putLocal path chunkHashes merkleRoot size)
  | .delete i path => Function.update net i ((net i).deleteLocal path)
  | .merge i j path => match (net j).get path with
    | none => net
    | some remote => Function.update net i ((net i).mergeRemote remote).2

def after (ids : ι → Bytes) (actions : List (Action ι)) : Network ι := actions.foldl apply (initial ids)

-- What k holds at the path after an action that changed it, and why.
inductive Becomes (net : Network ι) (k : ι) (path : Bytes) : Action ι → FileEntry → Prop where
  | put : Becomes net k path (.put k path chunkHashes merkleRoot size)
      ((net k).putEntry path chunkHashes merkleRoot size)
  | delete : Becomes net k path (.delete k path) ((net k).deleteEntry path)
  | adopted (held : (net j).get path = some remote)
      (older : ∀ loc, (net k).get path = some loc → loc.clock.counts < remote.clock.counts) :
      Becomes net k path (.merge k j path) remote
  | absorbed (held : (net j).get path = some remote) (own : (net k).get path = some loc)
      (concurrent : VectorClock.compare loc.clock remote.clock = .concurrent) :
      Becomes net k path (.merge k j path) { loc with clock := loc.clock.merge remote.clock }
  | forked (held : (net j).get source = some remote) (own : (net k).get source = some loc)
      (concurrent : VectorClock.compare loc.clock remote.clock = .concurrent) (target : (forkOf remote).path = path) :
      Becomes net k path (.merge k j source) (forkOf remote)

omit [DecidableEq ι] in
theorem get_merge (net : Network ι) (k j : ι) (source path : Bytes) (held : (net j).get source = some remote) :
    ((net k).mergeRemote remote).2.get path = (net k).get path ∨
      ∃ e, ((net k).mergeRemote remote).2.get path = some e ∧ Becomes net k path (.merge k j source) e := by
  have remotePath : remote.path = source := get_path held
  subst remotePath
  have merged := mergeRemote_merged (net k) remote
  generalize ((net k).mergeRemote remote).1 = result at merged
  generalize ((net k).mergeRemote remote).2 = after at merged ⊢
  have stored : ∀ (older : ∀ loc, (net k).get remote.path = some loc → loc.clock.counts < remote.clock.counts),
      ((net k).store remote).get path = (net k).get path ∨ ∃ e, ((net k).store remote).get path = some e ∧
        Becomes net k path (.merge k j remote.path) e := by
    intro older
    by_cases here : remote.path = path
    · subst here
      exact .inr ⟨remote,by simp,.adopted held older⟩
    · exact .inl (by simp [here])
  cases merged with
  | unseen absent =>
    apply stored
    intro loc own
    rw [absent] at own
    cases own
  | newer own order =>
    apply stored
    intro loc own'
    rw [own] at own'
    cases own'
    exact order
  | synced _ _ => exact .inl rfl
  | older _ _ => exact .inl rfl
  | @conflict loc own left right =>
    have locPath : loc.path = remote.path := get_path own
    have concurrent := VectorClock.compare_concurrent.mpr ⟨left,right⟩
    by_cases here : remote.path = path
    · subst here
      exact .inr ⟨_,by simp [locPath],.absorbed held own concurrent⟩
    · by_cases fork : (forkOf remote).path = path
      · exact .inr ⟨forkOf remote,by simp [locPath,here,fork],.forked held own concurrent fork⟩
      · exact .inl (by simp [locPath,here,fork])

theorem get_apply (net : Network ι) (action : Action ι) (k : ι) (path : Bytes) :
    (apply net action k).get path = (net k).get path ∨
      ∃ e, (apply net action k).get path = some e ∧ Becomes net k path action e := by
  cases action with
  | put i edited chunkHashes merkleRoot size =>
    by_cases actor : k = i
    · subst actor
      by_cases here : edited = path
      · subst here
        exact .inr ⟨_,by simp [apply,putLocal,putEntry],.put⟩
      · exact .inl (by simp [apply,putLocal,putEntry,here])
    · exact .inl (by simp [apply,actor])
  | delete i edited =>
    by_cases actor : k = i
    · subst actor
      by_cases here : edited = path
      · subst here
        exact .inr ⟨_,by simp [apply,deleteLocal,deleteEntry],.delete⟩
      · exact .inl (by simp [apply,deleteLocal,deleteEntry,here])
    · exact .inl (by simp [apply,actor])
  | merge i j source =>
    cases held : (net j).get source with
    | none => exact .inl (by simp [apply,held])
    | some remote =>
      by_cases actor : k = i
      · subst actor
        simpa [apply,held] using get_merge net k j source path held
      · exact .inl (by simp [apply,held,actor])

def actor : Action ι → ι
  | .put i _ _ _ _ => i
  | .delete i _ => i
  | .merge i _ _ => i

theorem apply_other (net : Network ι) (action : Action ι) (other : k ≠ actor action) :
    apply net action k = net k := by
  cases action with
  | put i path chunkHashes merkleRoot size => exact Function.update_of_ne other ..
  | delete i path => exact Function.update_of_ne other ..
  | merge i j path =>
    have differs : k ≠ i := other
    cases held : (net j).get path with
    | none => simp [apply,held]
    | some remote => simp [apply,held,differs]

def Named (ids : ι → Bytes) (net : Network ι) : Prop := ∀ k, (net k).nodeId = ids k

theorem named_apply (named : Named ids net) (action : Action ι) : Named ids (apply net action) := by
  intro k
  rw [← named k]
  by_cases own : k = actor action
  · subst own
    cases action with
    | put i path chunkHashes merkleRoot size => simp [apply,actor,putLocal]
    | delete i path => simp [apply,actor,deleteLocal]
    | merge i j path =>
      cases held : (net j).get path with
      | none => simp [apply,held]
      | some remote => simp [apply,actor,held,nodeId_mergeRemote]
  · rw [apply_other net action own]

theorem named_run {ids : ι → Bytes} (run : Runs apply fair (initial ids) actions net) : Named ids net :=
  run.invariant (fun _ => rfl) (fun _ action named _ => named_apply named action)

-- What k's entry at the path says of each node's edits; nothing without an entry.
def known (net : Network ι) (path : Bytes) (k : ι) : Bytes → ℕ := ((net k).clockAt path).counts

omit [DecidableEq ι] in
theorem known_held {net : Network ι} (held : (net k).get path = some e) : known net path k = e.clock.counts := by
  rw [known,clockAt_held held]

def Edits (action : Action ι) (k : ι) (path : Bytes) : Prop :=
  (∃ chunkHashes merkleRoot size, action = .put k path chunkHashes merkleRoot size) ∨ action = .delete k path

def Forks (net : Network ι) (action : Action ι) (k : ι) (path : Bytes) (remote : FileEntry) : Prop :=
  ∃ j source loc, action = .merge k j source ∧ (net j).get source = some remote ∧ (net k).get source = some loc ∧
    VectorClock.compare loc.clock remote.clock = .concurrent ∧ (forkOf remote).path = path

omit [DecidableEq ι] in
theorem not_forks_here (net : Network ι) (i j k : ι) (path : Bytes) (remote : FileEntry) :
    ¬ Forks net (.merge i j path) k path remote := by
  rintro ⟨j',source,loc,action,held,_,_,target⟩
  cases action
  rw [← get_path held] at target
  exact makeConflictPath_ne _ _ target

-- The four things an action can do to a clock.
inductive Ticks (net : Network ι) (action : Action ι) (k : ι) (path : Bytes) : (Bytes → ℕ) → Prop where
  | same : Ticks net action k path (known net path k)
  | edit (edits : Edits action k path) :
      Ticks net action k path (((net k).clockAt path).increment (net k).nodeId).counts
  | join (j : ι) : Ticks net action k path (known net path k ⊔ known net path j)
  | fork {remote : FileEntry} (forks : Forks net action k path remote) : Ticks net action k path remote.clock.counts

theorem ticks_apply (net : Network ι) (action : Action ι) (k : ι) (path : Bytes) :
    Ticks net action k path (known (apply net action) path k) := by
  rcases get_apply net action k path with same | ⟨e,now,becomes⟩
  · have still : known (apply net action) path k = known net path k := by rw [known,known,clockAt,clockAt,same]
    rw [still]
    exact .same
  · rw [known_held now]
    cases becomes with
    | put => exact .edit (.inl ⟨_,_,_,rfl⟩)
    | delete =>
      rw [deleteEntry_clock]
      exact .edit (.inr rfl)
    | @adopted j _ held older =>
      have joined : e.clock.counts = known net path k ⊔ known net path j := by
        rw [known_held held]
        refine (sup_eq_right.mpr ?_).symm
        cases own : (net k).get path with
        | none => simp [known,clockAt_absent own]
        | some loc =>
          rw [known_held own]
          exact (older loc own).le
      rw [joined]
      exact .join j
    | @absorbed j remote loc held own concurrent =>
      rw [VectorClock.counts_merge,← known_held held,← known_held own]
      exact .join j
    | @forked _ _ remote _ held own concurrent target =>
      have forks : Forks net _ k path remote := ⟨_,_,_,rfl,held,own,concurrent,target⟩
      have ticks : Ticks net _ k path remote.clock.counts := .fork forks
      exact ticks

-- Nobody knows more of a node's edits at the path than the node's own entry there.
def Lead (ids : ι → Bytes) (path : Bytes) (net : Network ι) : Prop :=
  ∀ x y, known net path y (ids x) ≤ known net path x (ids x)

-- A fork written at the path brings a clock earned elsewhere. It keeps pace when
-- it counts no edit of another node that is not in that node's own entry, and
-- takes none back from the node that writes it.
def Paced (ids : ι → Bytes) (path : Bytes) (net : Network ι) (action : Action ι) : Prop :=
  ∀ k remote, Forks net action k path remote →
    (∀ z, z ≠ k → remote.clock.counts (ids z) ≤ known net path z (ids z)) ∧
      known net path k (ids k) ≤ remote.clock.counts (ids k)

def Room (ids : ι → Bytes) (path : Bytes) (net : Network ι) (action : Action ι) : Prop :=
  ∀ k, Edits action k path → known net path k (ids k) + 1 < 2^64

section
variable {ids : ι → Bytes} {path : Bytes} {net : Network ι} {action : Action ι}

omit [DecidableEq ι] in
theorem lead_initial : Lead ids path (initial ids) := fun _ _ => le_refl _

theorem lead_apply (distinct : Function.Injective ids) (named : Named ids net) (room : Room ids path net action)
    (paced : Paced ids path net action) (lead : Lead ids path net) : Lead ids path (apply net action) := by
  have still : ∀ k, k ≠ actor action → known (apply net action) path k = known net path k := by
    intro k other
    rw [known,known,apply_other net action other]
  -- Only the actor's clock moves: its own count must not fall, and its counts of
  -- the others must stay within theirs.
  have moved : known net path (actor action) (ids (actor action)) ≤
        known (apply net action) path (actor action) (ids (actor action)) ∧
      ∀ x, x ≠ actor action → known (apply net action) path (actor action) (ids x) ≤ known net path x (ids x) := by
    have ticks := ticks_apply net action (actor action) path
    generalize known (apply net action) path (actor action) = now at ticks
    cases ticks with
    | same => exact ⟨le_refl _,fun x _ => lead x _⟩
    | edit edits =>
      rw [named]
      have counted := VectorClock.counts_increment _ _ (room _ edits)
      rw [counted]
      constructor
      · rw [Function.update_self]
        exact Nat.le_succ _
      · intro x other
        rw [Function.update_of_ne (distinct.ne other)]
        exact lead x _
    | join j => exact ⟨le_sup_left,fun x _ => sup_le (lead x _) (lead x _)⟩
    | fork forks => exact ⟨(paced _ _ forks).2,(paced _ _ forks).1⟩
  intro x y
  by_cases own : x = actor action
  · subst own
    by_cases self : y = actor action
    · rw [self]
    · rw [still y self]
      exact (lead _ y).trans moved.1
  · rw [still x own]
    by_cases self : y = actor action
    · rw [self]
      exact moved.2 x own
    · rw [still y self]
      exact lead x y

end

def notes : Bytes := ascii "notes.txt"

instance threeNodes : NeZero (3 : ℕ) := ⟨by decide⟩

def letters : Fin 3 → Bytes
  | 0 => ascii "A"
  | 1 => ascii "B"
  | 2 => ascii "C"

theorem letters_injective : Function.Injective letters := by decide

def write (i : Fin 3) (path : Bytes) (fill : UInt8) : Action (Fin 3) := .put i path [.filled fill] .zero 4

end P2PSync.Replicas
