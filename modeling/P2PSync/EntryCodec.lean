import P2PSync.Lib.Text
import P2PSync.CrdtStore

namespace P2PSync
open Text

-- The exceptions of the program with their what(), and running past the end of
-- a received payload, which no check prevents.
inductive Error where
  | runtimeError (what : Bytes)
  | invalidArgument (what : Bytes)
  | outOfRange (what : Bytes)
  | pastPayload
  deriving DecidableEq

namespace EntryCodec

def isSpace (c : UInt8) : Bool := c = 32 ∨ (9 ≤ c ∧ c ≤ 13)

def signed : Bytes → Bool × Bytes
  | 45 :: rest => (true,rest)
  | 43 :: rest => (false,rest)
  | text => (false,text)

-- strtol skips 0x only where a hexadecimal digit follows.
def hexPrefixed : Bytes → Bytes
  | 48 :: x :: c :: rest =>
    if (x = 120 ∨ x = 88) ∧ (digitIn 16 c).isSome then c :: rest else 48 :: x :: c :: rest
  | text => text

def stoull (text : Bytes) : Except Error UInt64 :=
  let (negative,rest) := signed (text.dropWhile isSpace)
  match digits 10 rest with
  | [] => .error (.invalidArgument (ascii "stoull"))
  | ds =>
    if value 10 ds < 2^64 then .ok (if negative then 0 - UInt64.ofNat (value 10 ds) else UInt64.ofNat (value 10 ds))
    else .error (.outOfRange (ascii "stoull"))

-- static_cast<uint8_t>(std::stoi(text, nullptr, 16))
def stoiHex (text : Bytes) : Except Error UInt8 :=
  let (negative,rest) := signed (text.dropWhile isSpace)
  match digits 16 (hexPrefixed rest) with
  | [] => .error (.invalidArgument (ascii "stoi"))
  | ds =>
    let n : ℤ := if negative then -(value 16 ds) else value 16 ds
    if -2^31 ≤ n ∧ n < 2^31 then .ok (UInt8.ofNat (n % 256).toNat) else .error (.outOfRange (ascii "stoi"))

-- The bytes that the text has no two characters for are left 0.
def hexBytes : (n : ℕ) → Bytes → Except Error { bytes : Bytes // bytes.length = n }
  | 0,_ => .ok ⟨[],rfl⟩
  | n+1,a :: b :: rest => match stoiHex [a,b] with
    | .error e => .error e
    | .ok byte => match hexBytes n rest with
      | .error e => .error e
      | .ok ⟨bytes,size⟩ => .ok ⟨byte :: bytes,by rw [List.length_cons,size]⟩
  | n+1,_ => .ok ⟨List.replicate (n+1) 0,List.length_replicate⟩

def hexToDigest (hex : Bytes) : Except Error Digest := (hexBytes 32 hex).map (fun bytes => ⟨bytes.1,bytes.2⟩)

def pairToWire (pair : Bytes × UInt64) : Bytes := pair.1 ++ 58 :: decimal pair.2.toNat

def clockToWire (c : VectorClock) : Bytes := joined 44 (c.counters.pairs.map pairToWire)

def setFromWire (c : VectorClock) (pair : Bytes) : Except Error VectorClock :=
  match pair.dropWhile (· ≠ 58) with
  | [] => .ok c
  | _ :: number => (stoull number).map (c.set (pair.takeWhile (· ≠ 58)))

def clockFromWire (s : Bytes) : Except Error VectorClock := (getlines 44 [] s).foldlM setFromWire .empty

def entryToLine (e : FileEntry) : Bytes :=
  e.path ++ 9 :: ((if e.deleted then ascii "1" else ascii "0") ++ 9 :: (decimal e.size.toNat ++ 9 ::
    (Sha256.toHex e.merkleRoot ++ 9 :: (clockToWire e.clock ++ 9 :: (e.lastWriter ++ 9 ::
      joined 44 (e.chunkHashes.map Sha256.toHex))))))

def lineToEntry (line : Bytes) : Except Error FileEntry := do
  let fields := getlines 9 [] line
  let field := fun i : ℕ => fields.getD i []
  let size ← if field 2 = [] then pure 0 else stoull (field 2)
  let merkleRoot ← hexToDigest (field 3)
  let clock ← clockFromWire (field 4)
  let chunkHashes ← ((getlines 44 [] (field 6)).filter (· ≠ [])).mapM hexToDigest
  return ⟨field 0,chunkHashes,merkleRoot,clock,field 5,field 1 = ascii "1",size⟩

theorem signed_digits {text : Bytes} (digits : ∀ c ∈ text, isSpace c = false ∧ c ≠ 45 ∧ c ≠ 43) :
    signed (text.dropWhile isSpace) = (false,text) := by
  cases text with
  | nil => rfl
  | cons c rest =>
    obtain ⟨solid,notMinus,notPlus⟩ := digits c List.mem_cons_self
    rw [List.dropWhile_cons_of_neg (by simp [solid])]
    unfold signed
    split
    · rename_i same
      cases same
      exact absurd rfl notMinus
    · rename_i same
      cases same
      exact absurd rfl notPlus
    · rfl

theorem stoull_decimal (n : UInt64) : stoull (decimal n.toNat) = .ok n := by
  have clean : ∀ c : UInt8, 48 ≤ c ∧ c ≤ 57 → isSpace c = false ∧ c ≠ 45 ∧ c ≠ 43 := by decide +kernel
  have front : signed ((decimal n.toNat).dropWhile isSpace) = (false,decimal n.toNat) :=
    signed_digits (fun c member => clean c (decimal_digits c member))
  have read := read_decimal n.toNat
  unfold stoull
  rw [front]
  cases found : digits 10 (decimal n.toNat) with
  | nil => exact absurd found (digits_decimal_ne_nil _)
  | cons d ds =>
    rw [found] at read
    simp only [found,read,if_pos n.toNat_lt]
    simp

theorem hexDigit_read : ∀ d : UInt8, d < 16 → digitIn 16 (Sha256.hexDigit d) = some d.toNat ∧
    isSpace (Sha256.hexDigit d) = false ∧ Sha256.hexDigit d ≠ 45 ∧ Sha256.hexDigit d ≠ 43 := by decide +kernel

theorem nibbles : ∀ b : UInt8, b >>> 4 < 16 ∧ b &&& 15 < 16 ∧ (b >>> 4).toNat * 16 + (b &&& 15).toNat = b.toNat := by
  decide +kernel

theorem stoiHex_pair (b : UInt8) : stoiHex [Sha256.hexDigit (b >>> 4),Sha256.hexDigit (b &&& 15)] = .ok b := by
  obtain ⟨smallHigh,smallLow,joins⟩ := nibbles b
  obtain ⟨readHigh,cleanHigh⟩ := hexDigit_read _ smallHigh
  obtain ⟨readLow,cleanLow⟩ := hexDigit_read _ smallLow
  have front : signed ([Sha256.hexDigit (b >>> 4),Sha256.hexDigit (b &&& 15)].dropWhile isSpace) =
      (false,[Sha256.hexDigit (b >>> 4),Sha256.hexDigit (b &&& 15)]) := by
    apply signed_digits
    intro c member
    rcases List.mem_cons.mp member with rfl | member
    · exact cleanHigh
    · rcases List.mem_singleton.mp member with rfl
      exact cleanLow
  have short : ∀ x y : UInt8, hexPrefixed [x,y] = [x,y] := by
    intro x y
    unfold hexPrefixed
    split
    · rename_i same
      cases same
    · rfl
  have found : digits 16 [Sha256.hexDigit (b >>> 4),Sha256.hexDigit (b &&& 15)] = [(b >>> 4).toNat,(b &&& 15).toNat] := by
    simp only [digits,readHigh,readLow]
  have number : value 16 [(b >>> 4).toNat,(b &&& 15).toNat] = b.toNat := by
    simp only [value,List.foldl_cons,List.foldl_nil,Nat.zero_mul,Nat.zero_add,joins]
  have bound := b.toNat_lt
  unfold stoiHex
  rw [front]
  simp only [short,found,number]
  rw [if_pos (by simp; omega)]
  congr 1
  apply UInt8.toNat_inj.mp
  rw [UInt8.toNat_ofNat']
  simp
  omega

theorem hexBytes_toHex (bytes : Bytes) (size : bytes.length = n) :
    hexBytes n (bytes.flatMap (fun b : UInt8 => [Sha256.hexDigit (b >>> 4),Sha256.hexDigit (b &&& 15)])) =
      .ok ⟨bytes,size⟩ := by
  subst size
  induction bytes with
  | nil => rfl
  | cons b rest ih =>
    rw [List.flatMap_cons,List.cons_append,List.singleton_append]
    simp only [List.length_cons,hexBytes,stoiHex_pair,ih]

theorem hexToDigest_toHex (d : Digest) : hexToDigest (Sha256.toHex d) = .ok d := by
  rw [hexToDigest,Sha256.toHex,hexBytes_toHex d.bytes d.size]
  rfl

theorem toHex_injective {a b : Digest} (same : Sha256.toHex a = Sha256.toHex b) : a = b := by
  have read := congrArg hexToDigest same
  rw [hexToDigest_toHex,hexToDigest_toHex] at read
  exact Except.ok.inj read

theorem toHex_length (d : Digest) : (Sha256.toHex d).length = 64 := by
  rw [Sha256.toHex,List.length_flatMap]
  simp [d.size]

theorem toHex_ge {d : Digest} (member : c ∈ Sha256.toHex d) : 48 ≤ c := by
  have hexadecimal : ∀ n : UInt8, n < 16 → 48 ≤ Sha256.hexDigit n := by decide +kernel
  obtain ⟨b,_,inside⟩ := List.mem_flatMap.mp member
  rcases List.mem_cons.mp inside with rfl | low
  · exact hexadecimal _ (nibbles b).1
  · rcases List.mem_singleton.mp low with rfl
    exact hexadecimal _ (nibbles b).2.1

theorem mem_toHex {d : Digest} (member : c ∈ Sha256.toHex d) : c ≠ 9 ∧ c ≠ 10 ∧ c ≠ 44 := by
  have digit := toHex_ge member
  refine ⟨?_,?_,?_⟩ <;> rintro rfl <;> exact absurd digit (by decide)

theorem toHex_ne_nil (d : Digest) : Sha256.toHex d ≠ [] := by
  obtain ⟨bytes,size⟩ := d
  cases bytes with
  | nil => cases size
  | cons b rest => simp [Sha256.toHex]

theorem decimal_free (n : ℕ) : 9 ∉ decimal n ∧ 10 ∉ decimal n ∧ 44 ∉ decimal n := by
  have outside : ∀ c : UInt8, c = 9 ∨ c = 10 ∨ c = 44 → ¬ (48 ≤ c ∧ c ≤ 57) := by decide +kernel
  exact ⟨fun member => outside 9 (.inl rfl) (decimal_digits 9 member),
    fun member => outside 10 (.inr (.inl rfl)) (decimal_digits 10 member),
    fun member => outside 44 (.inr (.inr rfl)) (decimal_digits 44 member)⟩

-- Free of the separators of the text formats: tab, newline, comma and colon.
structure Plain (text : Bytes) : Prop where
  tab : 9 ∉ text
  newline : 10 ∉ text
  comma : 44 ∉ text
  colon : 58 ∉ text

structure PlainEntry (e : FileEntry) : Prop where
  path : Plain e.path
  lastWriter : Plain e.lastWriter
  nodes : ∀ node ∈ e.clock.counters.keys, Plain node

-- Free of what ends a field or a line; commas and colons matter in a clock only.
structure Lined (text : Bytes) : Prop where
  tab : 9 ∉ text
  newline : 10 ∉ text

structure LinedEntry (e : FileEntry) : Prop where
  path : Lined e.path
  lastWriter : Lined e.lastWriter
  nodes : ∀ node ∈ e.clock.counters.keys, Lined node

def PlainNodes (e : FileEntry) : Prop := ∀ node ∈ e.clock.counters.keys, Plain node

theorem Plain.lined {text : Bytes} (plain : Plain text) : Lined text := ⟨plain.tab,plain.newline⟩

theorem PlainEntry.lined (plain : PlainEntry e) : LinedEntry e :=
  ⟨plain.path.lined,plain.lastWriter.lined,fun node member => (plain.nodes node member).lined⟩

theorem makeConflictPath_free {path node : Bytes} (separator : b ∉ ascii ".conflict-") (left : b ∉ path) (right : b ∉ node) :
    b ∉ makeConflictPath path node := by
  intro member
  rcases mem_makeConflictPath member with here | middle | there
  · exact left here
  · exact separator middle
  · exact right there

theorem plain_forkOf {e : FileEntry} (plain : PlainEntry e) : PlainEntry (CrdtStore.forkOf e) := by
  obtain ⟨path,writer,nodes⟩ := plain
  refine ⟨⟨?_,?_,?_,?_⟩,writer,nodes⟩
  · exact makeConflictPath_free (by decide) path.tab writer.tab
  · exact makeConflictPath_free (by decide) path.newline writer.newline
  · exact makeConflictPath_free (by decide) path.comma writer.comma
  · exact makeConflictPath_free (by decide) path.colon writer.colon

theorem lined_forkOf {e : FileEntry} (lined : LinedEntry e) : LinedEntry (CrdtStore.forkOf e) := by
  obtain ⟨path,writer,nodes⟩ := lined
  refine ⟨⟨?_,?_⟩,writer,nodes⟩
  · exact makeConflictPath_free (by decide) path.tab writer.tab
  · exact makeConflictPath_free (by decide) path.newline writer.newline

theorem plain_absorbed {e re : FileEntry} (plain : PlainEntry e) (theirs : PlainEntry re) :
    PlainEntry { e with clock := e.clock.merge re.clock } := by
  refine ⟨plain.path,plain.lastWriter,?_⟩
  intro node member
  exact (VectorClock.mem_keys_merge member).elim (plain.nodes node) (theirs.nodes node)

theorem lined_absorbed {e re : FileEntry} (lined : LinedEntry e) (theirs : LinedEntry re) :
    LinedEntry { e with clock := e.clock.merge re.clock } := by
  refine ⟨lined.path,lined.lastWriter,?_⟩
  intro node member
  exact (VectorClock.mem_keys_merge member).elim (lined.nodes node) (theirs.nodes node)

theorem plain_joined (e re : FileEntry) (plain : PlainNodes e) (theirs : PlainNodes re) :
    PlainNodes { e with clock := e.clock.merge re.clock } := by
  intro node member
  rcases VectorClock.mem_keys_merge member with mine | other
  · exact plain node mine
  · exact theirs node other

-- The clock that a local edit records.
theorem nodes_increment {s : CrdtStore} {fits : Bytes → Prop}
    (nodes : ∀ path e, s.get path = some e → ∀ node ∈ e.clock.counters.keys, fits node) (own : fits s.nodeId) (path : Bytes) :
    ∀ node ∈ ((s.clockAt path).increment s.nodeId).counters.keys, fits node := by
  intro node member
  rcases OrdMap.mem_keys_insert.mp member with rfl | before
  · exact own
  · cases held : s.get path with
    | none =>
      rw [CrdtStore.clockAt_absent held] at before
      cases before
    | some e =>
      rw [CrdtStore.clockAt_held held] at before
      exact nodes path e held node before

theorem setFromWire_pair (c : VectorClock) (pair : Bytes × UInt64) (free : 58 ∉ pair.1) :
    setFromWire c (pairToWire pair) = .ok (c.set pair.1 pair.2) := by
  have solid : ∀ b ∈ pair.1, decide (b ≠ 58) = true := by
    intro b member
    rw [decide_eq_true_eq]
    intro colon
    exact free (colon ▸ member)
  have front : (pairToWire pair).takeWhile (· ≠ 58) = pair.1 := by
    rw [pairToWire,List.takeWhile_append_of_pos solid,List.takeWhile_cons_of_neg (by simp),List.append_nil]
  have back : (pairToWire pair).dropWhile (· ≠ 58) = 58 :: decimal pair.2.toNat := by
    rw [pairToWire,List.dropWhile_append_of_pos solid,List.dropWhile_cons_of_neg (by simp)]
  rw [setFromWire,back,front]
  simp only [stoull_decimal]
  rfl

theorem foldlM_setFromWire (pairs : List (Bytes × UInt64)) (free : ∀ pair ∈ pairs, 58 ∉ pair.1) (c : VectorClock) :
    (pairs.map pairToWire).foldlM setFromWire c = .ok (pairs.foldl (fun c pair => c.set pair.1 pair.2) c) := by
  induction pairs generalizing c with
  | nil => rfl
  | cons pair rest ih =>
    rw [List.map_cons,List.foldlM_cons,setFromWire_pair c pair (free pair List.mem_cons_self)]
    exact ih (fun pair member => free pair (List.mem_cons_of_mem _ member)) _

theorem foldl_set (pairs : List (Bytes × UInt64)) (m : OrdMap Bytes UInt64) :
    pairs.foldl (fun c pair => VectorClock.set c pair.1 pair.2) ⟨m⟩ =
      ⟨pairs.foldl (fun acc pair => acc.insert pair.1 pair.2) m⟩ := by
  induction pairs generalizing m with
  | nil => rfl
  | cons pair rest ih => exact ih _

theorem pairToWire_free {pair : Bytes × UInt64} (separator : b ≠ 58) (digits : ∀ n, b ∉ decimal n) (free : b ∉ pair.1) :
    b ∉ pairToWire pair := by
  simp [pairToWire,free,separator,digits]

theorem clockFromWire_clockToWire (c : VectorClock) (nodes : ∀ node ∈ c.counters.keys, 44 ∉ node ∧ 58 ∉ node) :
    clockFromWire (clockToWire c) = .ok c := by
  have free : ∀ pair ∈ c.counters.pairs, 44 ∉ pair.1 ∧ 58 ∉ pair.1 := fun pair member =>
    nodes pair.1 (List.mem_map_of_mem member)
  have pieces : ∀ piece ∈ c.counters.pairs.map pairToWire, 44 ∉ piece ∧ piece ≠ [] := by
    intro piece member
    obtain ⟨pair,inside,rfl⟩ := List.mem_map.mp member
    exact ⟨pairToWire_free (by decide) (fun n => (decimal_free n).2.2) (free pair inside).1,by simp [pairToWire]⟩
  rw [clockFromWire,clockToWire,getlines_joined pieces,foldlM_setFromWire _ (fun pair member => (free pair member).2),
    VectorClock.empty,foldl_set,OrdMap.foldl_insert_pairs]

-- What the nodes are free of, the clock's text is free of.
theorem clockToWire_free {c : VectorClock} (comma : b ≠ 44) (colon : b ≠ 58) (digits : ∀ n, b ∉ decimal n)
    (nodes : ∀ node ∈ c.counters.keys, b ∉ node) : b ∉ clockToWire c := by
  intro member
  rcases mem_joined member with same | ⟨piece,found,within⟩
  · exact comma same
  · obtain ⟨pair,listed,rfl⟩ := List.mem_map.mp found
    exact pairToWire_free colon digits (nodes pair.1 (List.mem_map_of_mem listed)) within

theorem hashes_free (hashes : List Digest) : 9 ∉ joined 44 (hashes.map Sha256.toHex) ∧
    10 ∉ joined 44 (hashes.map Sha256.toHex) := by
  have solid : ∀ b ∈ joined 44 (hashes.map Sha256.toHex), b ≠ 9 ∧ b ≠ 10 := by
    intro b member
    rcases mem_joined member with rfl | ⟨piece,found,within⟩
    · decide
    · obtain ⟨d,_,rfl⟩ := List.mem_map.mp found
      exact (mem_toHex within).imp id And.left
  exact ⟨fun tab => (solid 9 tab).1 rfl,fun newline => (solid 10 newline).2 rfl⟩

theorem mapM_hexToDigest (hashes : List Digest) : (hashes.map Sha256.toHex).mapM hexToDigest = .ok hashes :=
  mapM_encoded Sha256.toHex hexToDigest hashes (fun d _ => hexToDigest_toHex d)

theorem getlines_hashes (hashes : List Digest) :
    (getlines 44 [] (joined 44 (hashes.map Sha256.toHex))).filter (· ≠ []) = hashes.map Sha256.toHex := by
  have pieces : ∀ piece ∈ hashes.map Sha256.toHex, 44 ∉ piece ∧ piece ≠ [] := by
    intro piece member
    obtain ⟨d,_,rfl⟩ := List.mem_map.mp member
    exact ⟨fun comma => (mem_toHex comma).2.2 rfl,toHex_ne_nil d⟩
  rw [getlines_joined pieces,List.filter_eq_self]
  intro piece member
  simpa using (pieces piece member).2

-- What the fields of a line can carry: all but a tab.
structure TabFree (e : FileEntry) : Prop where
  path : 9 ∉ e.path
  lastWriter : 9 ∉ e.lastWriter
  nodes : ∀ node ∈ e.clock.counters.keys, 9 ∉ node

theorem LinedEntry.tabFree (lined : LinedEntry e) : TabFree e :=
  ⟨lined.path.tab,lined.lastWriter.tab,fun node member => (lined.nodes node member).tab⟩

theorem getlines_entry (e : FileEntry) (free : TabFree e) : getlines 9 [] (entryToLine e) =
    [e.path,if e.deleted then ascii "1" else ascii "0",decimal e.size.toNat,Sha256.toHex e.merkleRoot,
      clockToWire e.clock,e.lastWriter] ++
      if joined 44 (e.chunkHashes.map Sha256.toHex) = [] then [] else [joined 44 (e.chunkHashes.map Sha256.toHex)] := by
  have flag : 9 ∉ (if e.deleted then ascii "1" else ascii "0") := by
    cases e.deleted <;> decide
  have root : 9 ∉ Sha256.toHex e.merkleRoot := fun tab => (mem_toHex tab).1 rfl
  have clock := clockToWire_free (by decide) (by decide) (fun n => (decimal_free n).1) free.nodes
  rw [entryToLine,getlines_cons free.path,getlines_cons flag,getlines_cons (decimal_free _).1,getlines_cons root,
    getlines_cons clock,getlines_cons free.lastWriter,getlines_last (hashes_free e.chunkHashes).1]
  rfl

-- Everything but the clock reads back as it was, whatever the nodes are called.
theorem lineToEntry_tabFree (e : FileEntry) (free : TabFree e) : lineToEntry (entryToLine e) =
    (clockFromWire (clockToWire e.clock)).map (fun clock => { e with clock }) := by
  have last : ∀ text : Bytes, ([e.path,if e.deleted then ascii "1" else ascii "0",decimal e.size.toNat,
      Sha256.toHex e.merkleRoot,clockToWire e.clock,e.lastWriter] ++ if text = [] then [] else [text]).getD 6 [] = text := by
    intro text
    by_cases none : text = []
    · simp [none]
    · simp [none]
  have flag : decide ((if e.deleted then ascii "1" else ascii "0") = ascii "1") = e.deleted := by
    cases e.deleted <;> decide
  unfold lineToEntry
  rw [getlines_entry e free]
  simp only [last,getlines_hashes,mapM_hexToDigest]
  simp only [List.cons_append,List.getD_cons_zero,List.getD_cons_succ,decimal_ne_nil,if_false,stoull_decimal,
    hexToDigest_toHex,flag]
  cases clockFromWire (clockToWire e.clock) with
  | error x => rfl
  | ok clock => rfl

theorem lineToEntry_free (e : FileEntry) (free : TabFree e) (nodes : ∀ node ∈ e.clock.counters.keys, 44 ∉ node ∧ 58 ∉ node) :
    lineToEntry (entryToLine e) = .ok e := by
  rw [lineToEntry_tabFree e free,clockFromWire_clockToWire e.clock nodes]
  rfl

theorem lineToEntry_nodes (e : FileEntry) (lined : LinedEntry e) (nodes : PlainNodes e) :
    lineToEntry (entryToLine e) = .ok e :=
  lineToEntry_free e lined.tabFree (fun node member => ⟨(nodes node member).comma,(nodes node member).colon⟩)

-- What is saved or sent reads back as it was.
theorem lineToEntry_entryToLine (e : FileEntry) (plain : PlainEntry e) : lineToEntry (entryToLine e) = .ok e :=
  lineToEntry_nodes e plain.lined plain.nodes

theorem entryToLine_newline (e : FileEntry) (lined : LinedEntry e) : 10 ∉ entryToLine e := by
  have flag : 10 ∉ (if e.deleted then ascii "1" else ascii "0") := by
    cases e.deleted <;> decide
  have root : 10 ∉ Sha256.toHex e.merkleRoot := fun newline => (mem_toHex newline).2.1 rfl
  have clock := clockToWire_free (by decide) (by decide) (fun n => (decimal_free n).2.1)
    (fun node member => (lined.nodes node member).newline)
  simp [entryToLine,lined.path.newline,flag,(decimal_free _).2.1,root,clock,
    lined.lastWriter.newline,(hashes_free e.chunkHashes).2]

theorem entryToLine_ne_nil (e : FileEntry) : entryToLine e ≠ [] := by simp [entryToLine]

-- A clock that was read has no separators of its own in its nodes.
theorem setFromWire_nodes {c next : VectorClock} {pair : Bytes} (read : setFromWire c pair = .ok next) :
    ∀ node ∈ next.counters.keys, node ∈ c.counters.keys ∨ (58 ∉ node ∧ ∀ b ∈ node, b ∈ pair) := by
  intro node member
  unfold setFromWire at read
  split at read
  · cases read
    exact .inl member
  · obtain ⟨n,_,rfl⟩ := map_ok read
    rcases OrdMap.mem_keys_insert.mp member with rfl | before
    · refine .inr ⟨?_,fun b inside => (List.takeWhile_sublist _).subset inside⟩
      intro colon
      have solid := List.mem_takeWhile_imp colon
      simp at solid
    · exact .inl before

theorem clockFromWire_nodes {text : Bytes} {c : VectorClock} (read : clockFromWire text = .ok c) :
    ∀ node ∈ c.counters.keys, 44 ∉ node ∧ 58 ∉ node ∧ ∀ b ∈ node, b ∈ text := by
  refine foldlM_invariant (fun c => ∀ node ∈ c.counters.keys, 44 ∉ node ∧ 58 ∉ node ∧ ∀ b ∈ node, b ∈ text) ?_ ?_ read
  · exact fun _ member => nomatch member
  · intro c pair next member before step node inside
    obtain ⟨comma,within⟩ := mem_getlines (by simp) member
    rcases setFromWire_nodes step node inside with old | ⟨colon,part⟩
    · exact before node old
    · refine ⟨fun found => comma (part _ found),colon,?_⟩
      intro b found
      rcases within b (part b found) with never | here
      · cases never
      · exact here

theorem lineToEntry_fields {line : Bytes} {e : FileEntry} (read : lineToEntry line = .ok e) :
    e.path = (getlines 9 [] line).getD 0 [] ∧ e.lastWriter = (getlines 9 [] line).getD 5 [] ∧
      clockFromWire ((getlines 9 [] line).getD 4 []) = .ok e.clock := by
  unfold lineToEntry at read
  dsimp only at read
  split at read
  all_goals
    obtain ⟨_,_,read⟩ := bind_ok read
    obtain ⟨_,_,read⟩ := bind_ok read
    obtain ⟨clock,clockRead,read⟩ := bind_ok read
    obtain ⟨_,_,read⟩ := bind_ok read
    cases read
    exact ⟨rfl,rfl,clockRead⟩

theorem mem_field {line : Bytes} {i : ℕ} (member : b ∈ (getlines 9 [] line).getD i []) : b ≠ 9 ∧ b ∈ line := by
  rw [List.getD_eq_getElem?_getD] at member
  cases found : (getlines 9 [] line)[i]? with
  | none =>
    rw [found] at member
    cases member
  | some field =>
    rw [found] at member
    obtain ⟨tab,within⟩ := mem_getlines List.not_mem_nil (List.mem_of_getElem? found)
    refine ⟨fun same => tab (same ▸ member),?_⟩
    rcases within b member with never | here
    · cases never
    · exact here

-- What a line that was read can have in its names.
theorem lineToEntry_names {line : Bytes} {e : FileEntry} (read : lineToEntry line = .ok e) :
    (∀ b ∈ e.path, b ≠ 9 ∧ b ∈ line) ∧ (∀ b ∈ e.lastWriter, b ≠ 9 ∧ b ∈ line) ∧
      ∀ node ∈ e.clock.counters.keys, 44 ∉ node ∧ 58 ∉ node ∧ ∀ b ∈ node, b ≠ 9 ∧ b ∈ line := by
  obtain ⟨path,lastWriter,clockRead⟩ := lineToEntry_fields read
  refine ⟨?_,?_,?_⟩
  · intro b member
    rw [path] at member
    exact mem_field member
  · intro b member
    rw [lastWriter] at member
    exact mem_field member
  · intro node member
    obtain ⟨comma,colon,within⟩ := clockFromWire_nodes clockRead node member
    exact ⟨comma,colon,fun b inside => mem_field (within b inside)⟩

-- A line that was read gives an entry that can be written again.
theorem lineToEntry_read {line : Bytes} {e : FileEntry} (newline : 10 ∉ line) (read : lineToEntry line = .ok e) :
    LinedEntry e ∧ PlainNodes e := by
  obtain ⟨path,lastWriter,nodes⟩ := lineToEntry_names read
  have lined : ∀ text : Bytes, (∀ b ∈ text, b ≠ 9 ∧ b ∈ line) → Lined text := fun text clean =>
    ⟨fun tab => (clean 9 tab).1 rfl,fun inside => newline (clean 10 inside).2⟩
  have plain : ∀ node ∈ e.clock.counters.keys, Plain node := by
    intro node member
    obtain ⟨comma,colon,clean⟩ := nodes node member
    exact ⟨(lined node clean).tab,(lined node clean).newline,comma,colon⟩
  exact ⟨⟨lined e.path path,lined e.lastWriter lastWriter,fun node member => (plain node member).lined⟩,plain⟩

-- The entries that survive the codec. Newlines do: a line is all the text there is.
theorem lineToEntry_exact (e : FileEntry) : lineToEntry (entryToLine e) = .ok e ↔
    9 ∉ e.path ∧ 9 ∉ e.lastWriter ∧ ∀ node ∈ e.clock.counters.keys, 9 ∉ node ∧ 44 ∉ node ∧ 58 ∉ node := by
  constructor
  · intro read
    obtain ⟨path,lastWriter,nodes⟩ := lineToEntry_names read
    refine ⟨fun tab => (path 9 tab).1 rfl,fun tab => (lastWriter 9 tab).1 rfl,?_⟩
    intro node member
    obtain ⟨comma,colon,clean⟩ := nodes node member
    exact ⟨fun tab => (clean 9 tab).1 rfl,comma,colon⟩
  · rintro ⟨path,lastWriter,nodes⟩
    exact lineToEntry_free e ⟨path,lastWriter,fun node member => (nodes node member).1⟩
      (fun node member => (nodes node member).2)

end EntryCodec
end P2PSync
