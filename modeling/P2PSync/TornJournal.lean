import P2PSync.Crashes

namespace P2PSync.TornJournal
open SyncEngine EntryCodec Text Crashes

-- The store that the first lines of a journal restore.
def restored (nodeId : Bytes) (kept : List FileEntry) : CrdtStore := kept.foldl CrdtStore.loadEntry (.new nodeId)

theorem get_loaded (entries : List FileEntry) (once : (entries.map FileEntry.path).Nodup) (s : CrdtStore) (path : Bytes) :
    (∀ e ∈ entries, e.path = path → (entries.foldl CrdtStore.loadEntry s).get path = some e) ∧
      ((∀ e ∈ entries, e.path ≠ path) → (entries.foldl CrdtStore.loadEntry s).get path = s.get path) := by
  induction entries generalizing s with
  | nil => exact ⟨nofun,fun _ => rfl⟩
  | cons first rest ih =>
    simp only [List.map_cons,List.nodup_cons] at once
    obtain ⟨here,away⟩ := ih once.2 (s.loadEntry first)
    constructor
    · intro e member at_path
      rcases List.mem_cons.mp member with rfl | later
      · have elsewhere : ∀ x ∈ rest, x.path ≠ path := by
          rintro x inside rfl
          exact once.1 (at_path ▸ List.mem_map_of_mem inside)
        rw [List.foldl_cons,away elsewhere,CrdtStore.loadEntry,CrdtStore.get_store,if_pos at_path]
      · exact here e later at_path
    · intro elsewhere
      rw [List.foldl_cons,away (fun e member => elsewhere e (List.mem_cons_of_mem _ member)),CrdtStore.loadEntry,
        CrdtStore.get_store,if_neg (elsewhere first List.mem_cons_self)]

-- What the constructor makes of a journal whose last write was cut: the entries of
-- the whole lines as they were, and what line_to_entry reads from the cut one.
inductive Torn (nodeId : Bytes) (disk : Disk) (kept lost : List FileEntry) : Except Error SyncEngine → Prop where
  | between : Torn nodeId disk kept lost (.ok ⟨disk,restored nodeId kept⟩)
  | inside (next : lost = e :: rest) (some : line ≠ []) (cut : line <+: entryToLine e)
      (named : ∀ entry, lineToEntry line = .ok entry → entry.path <+: e.path) :
      Torn nodeId disk kept lost ((lineToEntry line).map (fun entry => ⟨disk,(restored nodeId kept).loadEntry entry⟩))

-- The path of a cut line is cut as well, or whole.
theorem cut_path {e entry : FileEntry} {line : Bytes} (lined : LinedEntry e) (cut : line <+: entryToLine e)
    (read : lineToEntry line = .ok entry) : entry.path <+: e.path := by
  have field := (lineToEntry_fields read).1
  rcases Nat.lt_or_ge e.path.length line.length with behind | inside
  · have tab : e.path ++ [9] <+: line := by
      refine List.prefix_of_prefix_length_le ?_ cut (by simpa using behind)
      exact (List.prefix_append_right_inj e.path).mpr (List.prefix_append [9] _)
    obtain ⟨more,rfl⟩ := tab
    rw [List.append_assoc,List.singleton_append,getlines_cons lined.path.tab] at field
    rw [field]
    exact List.prefix_rfl
  · have short : line <+: e.path := List.prefix_of_prefix_length_le cut (List.prefix_append _ _) inside
    rw [getlines_last (fun tab => lined.path.tab (short.subset tab))] at field
    rw [field]
    split
    · exact List.nil_prefix
    · exact short

theorem load_unfinished {kept : List FileEntry} {line : Bytes} (lined : ∀ e ∈ kept, LinedEntry e) (plain : ∀ e ∈ kept, PlainNodes e)
    (newline : 10 ∉ line) (nodeId : Bytes) :
    loadJournal (.new nodeId) (kept.flatMap (fun e => entryToLine e ++ [10]) ++ line) =
      if line = [] then .ok (restored nodeId kept) else (lineToEntry line).map (restored nodeId kept).loadEntry := by
  have pieces : ∀ piece ∈ kept.map entryToLine, 10 ∉ piece := by
    intro piece member
    obtain ⟨e,listed,rfl⟩ := List.mem_map.mp member
    exact entryToLine_newline e (lined e listed)
  have lines := getlines_unfinished pieces newline
  rw [List.flatMap_map] at lines
  have whole := foldlM_loadLine kept (fun e member => lineToEntry_nodes e (lined e member) (plain e member)) (.new nodeId)
  unfold loadJournal
  rw [lines,List.filter_append,filter_lines,List.foldlM_append,whole]
  split
  · rfl
  · rename_i some
    have alone : [line].filter (· ≠ []) = [line] := by simp [some]
    rw [alone]
    change [line].foldlM loadLine (restored nodeId kept) = _
    rw [List.foldlM_cons,loadLine]
    cases lineToEntry line <;> rfl

def saved : CrdtStore := (CrdtStore.new (ascii "A")).putLocal (ascii "a.txt") [] .zero 0

end P2PSync.TornJournal
