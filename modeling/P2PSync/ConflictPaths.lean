import P2PSync.Confinement

-- The names that forks get: which of them are the same, and which lie in the directory
-- of the file they were forked from.
namespace P2PSync.ConflictPaths
open CrdtStore Confinement

theorem findLastOf_none {c : UInt8} {text : Bytes} : findLastOf c text = none ↔ c ∉ text := by
  induction text with
  | nil => simp [findLastOf]
  | cons b rest ih =>
    simp only [findLastOf,List.mem_cons,not_or]
    cases found : findLastOf c rest with
    | none =>
      have free := ih.mp found
      by_cases here : b = c
      · simp [here]
      · simp [here,Ne.symm here,free]
    | some i =>
      have member : c ∈ rest := by
        by_contra free
        rw [ih.mpr free] at found
        cases found
      simp [member]

theorem findLastOf_append (c : UInt8) (front back : Bytes) : findLastOf c (front ++ back) =
    ((findLastOf c back).map (front.length + ·)).or (findLastOf c front) := by
  induction front with
  | nil => cases found : findLastOf c back <;> simp [findLastOf,found]
  | cons b rest ih =>
    rw [List.cons_append,findLastOf,findLastOf,ih]
    cases findLastOf c back with
    | none => simp
    | some i => simp [Nat.add_right_comm]

theorem findLastOf_free {c : UInt8} {back : Bytes} (free : c ∉ back) (front : Bytes) :
    findLastOf c (front ++ back) = findLastOf c front := by
  simp [findLastOf_append,findLastOf_none.mpr free]

theorem findLastOf_mark {c : UInt8} {back : Bytes} (free : c ∉ back) (front : Bytes) :
    findLastOf c (front ++ c :: back) = some front.length := by
  simp [findLastOf_append,findLastOf,findLastOf_none.mpr free]

theorem findLastOf_lt {c : UInt8} {text : Bytes} (found : findLastOf c text = some i) : i < text.length := by
  induction text generalizing i with
  | nil => cases found
  | cons b rest ih =>
    rw [findLastOf] at found
    split at found
    · rename_i later
      cases found
      simpa using ih later
    · split at found
      · cases found
        simp
      · cases found

-- Every text with a mark in it is cut by its last one.
theorem exists_last {c : UInt8} {text : Bytes} (member : c ∈ text) : ∃ front back, text = front ++ c :: back ∧ c ∉ back := by
  induction text with
  | nil => cases member
  | cons b rest ih =>
    by_cases later : c ∈ rest
    · obtain ⟨front,back,cut,free⟩ := ih later
      exact ⟨b :: front,back,by rw [cut,List.cons_append],free⟩
    · have here : c = b := by simpa [later] using member
      exact ⟨[],rest,by rw [here,List.nil_append],later⟩

-- A path before its last dot, and from there on.
def stem (path : Bytes) : Bytes :=
  match findLastOf 46 path with
  | none => path
  | some dot => path.take dot

def extension (path : Bytes) : Bytes :=
  match findLastOf 46 path with
  | none => []
  | some dot => path.drop dot

theorem plain_parts {path : Bytes} (dotless : 46 ∉ path) : stem path = path ∧ extension path = [] := by
  simp [stem,extension,findLastOf_none.mpr dotless]

theorem dotted_parts {back : Bytes} (free : 46 ∉ back) (front : Bytes) :
    stem (front ++ 46 :: back) = front ∧ extension (front ++ 46 :: back) = 46 :: back := by
  simp [stem,extension,findLastOf_mark free]

theorem stem_extension (path : Bytes) : stem path ++ extension path = path := by
  unfold stem extension
  cases findLastOf 46 path with
  | none => exact List.append_nil path
  | some dot => exact List.take_append_drop dot path

theorem makeConflictPath_parts (path node : Bytes) :
    makeConflictPath path node = stem path ++ (ascii ".conflict-" ++ (node ++ extension path)) := by
  unfold makeConflictPath stem extension
  cases findLastOf 46 path <;> simp

theorem separator_word : ascii ".conflict-" = 46 :: ascii "conflict-" := by decide

-- How the name of one fork can be read as the name of another: the node id, behind the
-- separator, has in it what is a part of the other path. A path without extension and
-- a node id that ends like the other path's extension; a node id with the separator in
-- it and a path that is itself a conflict name; or both.
inductive Shadows (p n p' n' : Bytes) : Prop where
  | extension (back : Bytes) (plain : 46 ∉ p) (free : 46 ∉ back) (path : p' = p ++ 46 :: back) (node : n = n' ++ 46 :: back)
  | nested (front between back : Bytes) (free : 46 ∉ back) (own : p = front ++ 46 :: back)
      (path : p' = (front ++ (ascii ".conflict-" ++ between)) ++ 46 :: back) (node : n = between ++ (ascii ".conflict-" ++ n'))
  | both (between back : Bytes) (plain : 46 ∉ p) (free : 46 ∉ back)
      (path : p' = (p ++ (ascii ".conflict-" ++ between)) ++ 46 :: back)
      (node : n = between ++ (ascii ".conflict-" ++ (n' ++ 46 :: back)))

theorem Shadows.same {p n p' n' : Bytes} (shadows : Shadows p n p' n') : makeConflictPath p n = makeConflictPath p' n' := by
  rw [makeConflictPath_parts,makeConflictPath_parts]
  cases shadows with
  | extension back plain free path node =>
    subst path node
    simp [plain_parts plain,dotted_parts free]
  | nested front between back free own path node =>
    subst own path node
    simp only [dotted_parts free]
    simp only [List.append_assoc]
  | both between back plain free path node =>
    subst path node
    simp only [plain_parts plain,dotted_parts free]
    simp only [List.append_assoc,List.append_nil]

theorem Shadows.apart {p n p' n' : Bytes} (shadows : Shadows p n p' n') : p ≠ p' := by
  intro same
  have lengths := congrArg List.length same
  cases shadows with
  | extension back plain free path node =>
    simp [path] at lengths
  | nested front between back free own path node =>
    simp [own,path,separator_word] at lengths
    omega
  | both between back plain free path node =>
    simp [path,separator_word] at lengths

-- Only a node id with a dot in it can do that.
theorem Shadows.dotted {p n p' n' : Bytes} (shadows : Shadows p n p' n') : 46 ∈ n := by
  cases shadows with
  | extension back plain free path node => simp [node]
  | nested front between back free own path node => simp [node,separator_word]
  | both between back plain free path node => simp [node]

theorem same_stem {p n p' n' : Bytes} (stems : stem p = stem p') (tails : n ++ extension p = n' ++ extension p') :
    (p = p' ∧ n = n') ∨ Shadows p n p' n' ∨ Shadows p' n' p n := by
  by_cases dot : 46 ∈ p <;> by_cases dot' : 46 ∈ p'
  · obtain ⟨front,back,rfl,free⟩ := exists_last dot
    obtain ⟨front',back',rfl,free'⟩ := exists_last dot'
    simp only [dotted_parts free,dotted_parts free'] at stems tails
    obtain ⟨nodes,backs⟩ := Text.last_mark free free' tails
    exact .inl ⟨by rw [stems,backs],nodes⟩
  · obtain ⟨front,back,rfl,free⟩ := exists_last dot
    simp only [dotted_parts free,plain_parts dot',List.append_nil] at stems tails
    exact .inr (.inr (.extension back dot' free (by rw [stems]) tails.symm))
  · obtain ⟨front',back',rfl,free'⟩ := exists_last dot'
    simp only [plain_parts dot,dotted_parts free',List.append_nil] at stems tails
    exact .inr (.inl (.extension back' dot free' (by rw [stems]) tails))
  · simp only [plain_parts dot,plain_parts dot',List.append_nil] at stems tails
    exact .inl ⟨stems,tails⟩

theorem longer_stem {p n p' n' between : Bytes} (stems : stem p' = stem p ++ (ascii ".conflict-" ++ between))
    (tails : n ++ extension p = between ++ (ascii ".conflict-" ++ (n' ++ extension p'))) : Shadows p n p' n' := by
  have dot' : 46 ∈ p' := by
    rw [← stem_extension p',stems]
    simp [separator_word]
  obtain ⟨front',back',rfl,free'⟩ := exists_last dot'
  by_cases dot : 46 ∈ p
  · obtain ⟨front,back,rfl,free⟩ := exists_last dot
    simp only [dotted_parts free,dotted_parts free'] at stems tails
    have tails' : n ++ 46 :: back = (between ++ (ascii ".conflict-" ++ n')) ++ 46 :: back' := by
      rw [tails]
      simp only [List.append_assoc]
    obtain ⟨nodes,rfl⟩ := Text.last_mark free free' tails'
    exact .nested front between back free rfl (by rw [stems]) nodes
  · simp only [plain_parts dot,dotted_parts free',List.append_nil] at stems tails
    exact .both between back' dot free' (by rw [stems]) tails

-- Two forks have the same name only where one shadows the other.
theorem conflict_names {p n p' n' : Bytes} : makeConflictPath p n = makeConflictPath p' n' ↔
    (p = p' ∧ n = n') ∨ Shadows p n p' n' ∨ Shadows p' n' p n := by
  constructor
  · intro same
    rw [makeConflictPath_parts,makeConflictPath_parts,separator_word] at same
    rcases Text.word_split (by decide) same with ⟨stems,tails⟩ | ⟨between,stems,tails⟩ | ⟨between,stems,tails⟩
    · exact same_stem stems tails
    · exact .inr (.inl (longer_stem (separator_word ▸ stems) (separator_word ▸ tails)))
    · exact .inr (.inr (longer_stem (separator_word ▸ stems) (separator_word ▸ tails)))
  · rintro (⟨rfl,rfl⟩ | shadows | shadows)
    · rfl
    · exact shadows.same
    · exact shadows.same.symm

theorem names_apart (clear : ¬ Shadows p n p' n') (clear' : ¬ Shadows p' n' p n) (apart : (p,n) ≠ (p',n')) :
    makeConflictPath p n ≠ makeConflictPath p' n' := by
  intro same
  rcases conflict_names.mp same with ⟨rfl,rfl⟩ | shadows | shadows
  · exact apart rfl
  · exact clear shadows
  · exact clear' shadows

theorem dotless_nodes_apart {n n' : Bytes} (plain : 46 ∉ n) (plain' : 46 ∉ n') (apart : (p,n) ≠ (p',n')) :
    makeConflictPath p n ≠ makeConflictPath p' n' :=
  names_apart (fun shadows => plain shadows.dotted) (fun shadows => plain' shadows.dotted) apart

-- Different files, or different writers, get different names for their forks, in
-- whatever stores merge_remote makes them.
def ForksApart (p n p' n' : Bytes) : Prop :=
  (p,n) ≠ (p',n') → makeConflictPath p n ≠ makeConflictPath p' n' ∧
    ∀ (s s' : CrdtStore) (r r' : FileEntry), (r.path,r.lastWriter) = (p,n) → (r'.path,r'.lastWriter) = (p',n') →
      (s.mergeRemote r).1.outcome = .conflictForked → (s'.mergeRemote r').1.outcome = .conflictForked →
      (s.mergeRemote r).1.conflictPath ≠ (s'.mergeRemote r').1.conflictPath

theorem forks_apart_iff (p n p' n' : Bytes) : ForksApart p n p' n' ↔ ¬ Shadows p n p' n' ∧ ¬ Shadows p' n' p n := by
  constructor
  · intro apart
    constructor
    · intro shadows
      exact (apart (fun same => shadows.apart (congrArg Prod.fst same))).1 shadows.same
    · intro shadows
      exact (apart (fun same => shadows.apart (congrArg Prod.fst same.symm))).1 shadows.same.symm
  · intro clear distinct
    have names := names_apart clear.1 clear.2 distinct
    refine ⟨names,?_⟩
    intro s s' r r' own own' forked forked'
    obtain ⟨rfl,rfl⟩ := Prod.mk.inj own
    obtain ⟨rfl,rfl⟩ := Prod.mk.inj own'
    rw [fork_path forked,fork_path forked']
    exact names

-- Node A has files notes and notes.home of its own; the nodes laptop.home and laptop
-- have edited one of them each.
def twoNotes : CrdtStore :=
  ((new (ascii "A")).putLocal (ascii "notes") [.filled 1] .zero 4).putLocal (ascii "notes.home") [.filled 2] .zero 4

def homeEdit : FileEntry := (new (ascii "laptop.home")).putEntry (ascii "notes") [.filled 3] .zero 4

def laptopEdit : FileEntry := (new (ascii "laptop")).putEntry (ascii "notes.home") [.filled 4] .zero 4

-- The second fork replaces the first.
theorem second_fork_replaces_first :
    ¬ ForksApart (ascii "notes") (ascii "laptop.home") (ascii "notes.home") (ascii "laptop") ∧
    (twoNotes.mergeRemote homeEdit).2.get (ascii "notes.conflict-laptop.home") = some (forkOf homeEdit) ∧
    ((twoNotes.mergeRemote homeEdit).2.mergeRemote laptopEdit).2.get (ascii "notes.conflict-laptop.home") =
      some (forkOf laptopEdit) := by
  refine ⟨?_,by decide +kernel,by decide +kernel⟩
  intro apart
  exact (apart (by decide)).1 (by decide)

-- Everything up to and including the last slash.
def dirPart (path : Bytes) : Bytes :=
  match findLastOf 47 path with
  | none => []
  | some slash => path.take (slash + 1)

theorem dirPart_mark {name : Bytes} (clean : 47 ∉ name) (top : Bytes) : dirPart (top ++ 47 :: name) = top ++ [47] := by
  simp [dirPart,findLastOf_mark clean,List.take_append]

theorem dirPart_free {back : Bytes} (free : 47 ∉ back) (front : Bytes) : dirPart (front ++ back) = dirPart front := by
  simp only [dirPart,findLastOf_free free]
  cases found : findLastOf 47 front with
  | none => rfl
  | some slash =>
    have inside : slash < front.length := findLastOf_lt found
    exact List.take_append_of_le_length inside

theorem dirPart_behind {back : Bytes} (slash : 47 ∈ back) (front : Bytes) : dirPart (front ++ back) = front ++ dirPart back := by
  obtain ⟨top,name,rfl,clean⟩ := exists_last slash
  rw [← List.append_assoc,dirPart_mark clean,dirPart_mark clean,List.append_assoc]

theorem dirPart_conflict {path node : Bytes} (plain : 47 ∉ node) :
    dirPart (makeConflictPath path node) = dirPart path ↔ 47 ∉ extension path := by
  have separator : 47 ∉ ascii ".conflict-" := by decide
  have whole : dirPart path = dirPart (stem path ++ extension path) := by rw [stem_extension]
  rw [makeConflictPath_parts,whole]
  by_cases slash : 47 ∈ extension path
  · refine iff_of_false ?_ (not_not.mpr slash)
    have longer : stem path ++ (ascii ".conflict-" ++ (node ++ extension path)) =
        (stem path ++ (ascii ".conflict-" ++ node)) ++ extension path := by simp
    rw [longer,dirPart_behind slash,dirPart_behind slash]
    intro same
    have lengths := congrArg List.length same
    simp [separator_word] at lengths
    omega
  · refine iff_of_true ?_ slash
    rw [dirPart_free slash,dirPart_free]
    simp [separator,plain,slash]

-- A path begins with a slash if and only if the names of its forks do.
theorem head_conflict (path node : Bytes) : (makeConflictPath path node).head? = some 47 ↔ path.head? = some 47 := by
  rw [makeConflictPath_parts]
  by_cases dot : 46 ∈ path
  · obtain ⟨front,back,rfl,free⟩ := exists_last dot
    simp only [dotted_parts free]
    cases front <;> simp [separator_word]
  · simp only [plain_parts dot]
    cases path <;> simp [separator_word]

theorem dirPart_join (dataDir path : Bytes) : dirPart (joinPath (materializedDir dataDir) path) =
    if path.head? = some 47 then dirPart path else (materializedDir dataDir ++ [47]) ++ dirPart path := by
  rw [joinPath,if_neg (not_or.mpr ⟨materializedDir_filled dataDir,materializedDir_named dataDir⟩)]
  split
  · rfl
  · by_cases slash : 47 ∈ path
    · rw [← dirPart_behind slash,List.append_assoc,List.singleton_append]
    · have flat : dirPart path = [] := by simp [dirPart,findLastOf_none.mpr slash]
      rw [dirPart_mark slash,flat,List.append_nil]

-- The fork of a file lies in the directory of the file, in the store's own paths and on
-- disk, whatever store and version it comes from.
def Sibling (path node : Bytes) : Prop :=
  ∀ (s : CrdtStore) (remote : FileEntry), remote.path = path → remote.lastWriter = node →
    (s.mergeRemote remote).1.outcome = .conflictForked →
    dirPart (s.mergeRemote remote).1.conflictPath = dirPart path ∧
    ∀ dataDir, dirPart (joinPath (materializedDir dataDir) (s.mergeRemote remote).1.conflictPath) =
      dirPart (joinPath (materializedDir dataDir) path)

-- Some store forks any path by any writer.
theorem exists_fork (path node : Bytes) : ∃ (s : CrdtStore) (remote : FileEntry), remote.path = path ∧ remote.lastWriter = node ∧
    (s.mergeRemote remote).1.outcome = .conflictForked := by
  have order : VectorClock.compare (VectorClock.empty.increment (ascii "A")) (VectorClock.empty.increment (ascii "B")) =
      .concurrent := by decide +kernel
  have owner : (new (ascii "A")).nodeId = ascii "A" := rfl
  refine ⟨(new (ascii "A")).putLocal path [] .zero 0,⟨path,[],.zero,VectorClock.empty.increment (ascii "B"),node,false,0⟩,rfl,rfl,?_⟩
  simp [mergeRemote,putLocal,putEntry,clockAt,owner,order]

theorem sibling_conflict {path node : Bytes} : Sibling path node ↔ dirPart (makeConflictPath path node) = dirPart path := by
  constructor
  · intro sibling
    obtain ⟨s,remote,rfl,rfl,forked⟩ := exists_fork path node
    rw [← fork_path forked]
    exact (sibling s remote rfl rfl forked).1
  · intro same s remote own writer forked
    subst own writer
    rw [fork_path forked]
    refine ⟨same,?_⟩
    intro dataDir
    simp only [dirPart_join,head_conflict,same]

-- The cut is made at the last dot of the whole path, which may be one of a directory.
theorem sibling_iff (path node : Bytes) (plain : 47 ∉ node) : Sibling path node ↔ 47 ∉ extension path :=
  sibling_conflict.trans (dirPart_conflict plain)

theorem notes_sibling : 47 ∉ ascii "B" ∧ Sibling (ascii "v1.2/notes.txt") (ascii "B") :=
  ⟨by decide,(sibling_iff (ascii "v1.2/notes.txt") (ascii "B") (by decide)).mpr (by decide)⟩

theorem fork_leaves_directory : ¬ Sibling (ascii "v1.2/notes") (ascii "B") ∧
    makeConflictPath (ascii "v1.2/notes") (ascii "B") = ascii "v1.conflict-B.2/notes" := by
  refine ⟨?_,by decide⟩
  intro sibling
  have same := sibling_conflict.mp sibling
  exact absurd same (by decide)

end P2PSync.ConflictPaths
