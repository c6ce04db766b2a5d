import P2PSync.Chunker

namespace P2PSync.Chunker

-- The hash of a reset RollingHash after the bytes.
def gear (bytes : Bytes) : UInt64 := bytes.foldl roll 0

-- The bytes since the chunk's start may end there: too many of them, or enough
-- of them and a hash whose low bits are zero.
def Ends (c : Chunker) (bytes : Bytes) : Prop :=
  c.maxSize.toNat ≤ bytes.length ∨ (c.minSize.toNat ≤ bytes.length ∧ (gear bytes).toNat % 2^c.maskBits = 0)

-- The places behind start where the chunk that begins there may end.
def cuts (c : Chunker) (data : Bytes) (start : ℕ) : Set ℕ :=
  { stop | start < stop ∧ stop ≤ data.length ∧ c.Ends ((data.drop start).take (stop - start)) }

-- The mask is that of its bits.
def Masked (c : Chunker) : Prop := ∀ hash : UInt64, hash &&& c.mask = 0 ↔ hash.toNat % 2^c.maskBits = 0

theorem maskLoop_log (v bits : ℕ) : maskLoop v bits = bits + Nat.log 2 v := by
  fun_induction maskLoop v bits with
  | case1 v bits more ih =>
    have positive := Nat.log_pos (b := 2) (by decide) more
    rw [ih,Nat.log_div_base]
    omega
  | case2 v bits done =>
    rw [Nat.log_of_lt (by omega),Nat.add_zero]

theorem maskBits_lt (minSize avgSize maxSize : UInt64) : (new minSize avgSize maxSize).maskBits < 64 := by
  change maskLoop avgSize.toNat 0 < 64
  rw [maskLoop_log,Nat.zero_add]
  exact Nat.log_lt_of_lt_pow' (by decide) avgSize.toNat_lt

theorem mask_toNat (minSize avgSize maxSize : UInt64) :
    (new minSize avgSize maxSize).mask.toNat = 2^(new minSize avgSize maxSize).maskBits - 1 := by
  have few := maskBits_lt minSize avgSize maxSize
  have power : 2^(new minSize avgSize maxSize).maskBits < 2^64 := Nat.pow_lt_pow_right (by decide) few
  have positive : 0 < 2^(new minSize avgSize maxSize).maskBits := Nat.two_pow_pos _
  have mask : (new minSize avgSize maxSize).mask = (1 <<< UInt64.ofNat (new minSize avgSize maxSize).maskBits) - 1 := by
    change (if (new minSize avgSize maxSize).maskBits ≥ 64 then ~~~0 else _) = _
    rw [if_neg (by omega)]
    rfl
  have shifted : ((1 : UInt64) <<< UInt64.ofNat (new minSize avgSize maxSize).maskBits).toNat =
      2^(new minSize avgSize maxSize).maskBits := by
    rw [UInt64.toNat_shiftLeft,UInt64.toNat_ofNat',Nat.mod_eq_of_lt (a := (new minSize avgSize maxSize).maskBits) (by omega),
      Nat.mod_eq_of_lt few,UInt64.toNat_one,Nat.one_shiftLeft,Nat.mod_eq_of_lt power]
  rw [mask,UInt64.toNat_sub_of_le,shifted]
  · rfl
  · rw [UInt64.le_iff_toNat_le,shifted]
    exact positive

theorem mask_and (minSize avgSize maxSize hash : UInt64) :
    (hash &&& (new minSize avgSize maxSize).mask).toNat = hash.toNat % 2^(new minSize avgSize maxSize).maskBits := by
  rw [UInt64.toNat_and,mask_toNat,Nat.and_two_pow_sub_one_eq_mod]

theorem masked_new (minSize avgSize maxSize : UInt64) : (new minSize avgSize maxSize).Masked := by
  intro hash
  rw [← UInt64.toNat_inj,mask_and]
  rfl

theorem gear_snoc (front : Bytes) (byte : UInt8) : roll (gear front) byte = gear (front ++ [byte]) := by
  rw [gear,gear,List.foldl_append]
  rfl

def endings (c : Chunker) (whole : Bytes) (window : ℕ) : Set ℕ :=
  { stop | window < stop ∧ stop ≤ whole.length ∧ c.Ends (whole.take stop) }

-- One byte further: it ends the chunk, or nothing is lost by passing it.
theorem endings_here {c : Chunker} {front rest : Bytes} {byte : UInt8} (ends : c.Ends (front ++ [byte])) :
    IsLeast (c.endings (front ++ byte :: rest) front.length) (front.length + 1) := by
  refine ⟨⟨Nat.lt_succ_self _,?_,?_⟩,fun stop later => later.1⟩
  · simp
  · have front' : (front ++ byte :: rest).take (front.length + 1) = front ++ [byte] := by simp [List.take_append]
    rw [front']
    exact ends

theorem endings_later {c : Chunker} {front rest : Bytes} {byte : UInt8} (goes_on : ¬ c.Ends (front ++ [byte])) :
    c.endings (front ++ byte :: rest) front.length = c.endings ((front ++ [byte]) ++ rest) (front ++ [byte]).length := by
  have front' : (front ++ byte :: rest).take (front.length + 1) = front ++ [byte] := by simp [List.take_append]
  have whole : (front ++ [byte]) ++ rest = front ++ byte :: rest := by simp
  ext stop
  rw [whole]
  simp only [endings,Set.mem_ofPred_eq,List.length_append,List.length_singleton]
  constructor
  · rintro ⟨behind,inside,ends⟩
    refine ⟨?_,inside,ends⟩
    by_contra next
    have same : stop = front.length + 1 := by omega
    rw [same,front'] at ends
    exact goes_on ends
  · rintro ⟨behind,inside,ends⟩
    exact ⟨by omega,inside,ends⟩

theorem ends_iff {c : Chunker} (masked : c.Masked) (front : Bytes) (byte : UInt8) :
    c.Ends (front ++ [byte]) ↔ (front.length + 1 ≥ c.minSize.toNat ∧ roll (gear front) byte &&& c.mask = 0) ∨
      front.length + 1 ≥ c.maxSize.toNat := by
  rw [Ends,gear_snoc,masked,List.length_append,List.length_singleton,or_comm]

-- The inner loop stops at the first place where the chunk may end.
theorem scan_exact {c : Chunker} (masked : c.Masked) (front rest : Bytes) :
    (∀ stop, c.scan (gear front) front.length rest = some stop → IsLeast (c.endings (front ++ rest) front.length) stop) ∧
    (c.scan (gear front) front.length rest = none → c.endings (front ++ rest) front.length = ∅) := by
  induction rest generalizing front with
  | nil =>
    constructor
    · intro stop found
      cases found
    · intro _
      rw [List.append_nil,Set.eq_empty_iff_forall_notMem]
      rintro stop ⟨behind,inside,_⟩
      omega
  | cons byte rest ih =>
    have test := ends_iff masked front byte
    simp only [scan]
    by_cases ends : c.Ends (front ++ [byte])
    · rw [if_pos (test.mp ends)]
      constructor
      · intro stop same
        cases same
        exact endings_here ends
      · intro nothing
        cases nothing
    · have length : front.length + 1 = (front ++ [byte]).length := by simp
      rw [if_neg (fun condition => ends (test.mpr condition)),gear_snoc,length,endings_later ends]
      exact ih (front ++ [byte])

theorem cuts_endings (c : Chunker) (data : Bytes) (start : ℕ) :
    c.cuts data start = (start + ·) '' c.endings (data.drop start) 0 := by
  ext stop
  simp only [cuts,endings,Set.mem_ofPred_eq,Set.mem_image,List.length_drop]
  constructor
  · rintro ⟨behind,inside,ends⟩
    exact ⟨stop - start,⟨by omega,by omega,ends⟩,by omega⟩
  · rintro ⟨window,⟨some,inside,ends⟩,rfl⟩
    rw [Nat.add_sub_cancel_left]
    exact ⟨by omega,by omega,ends⟩

theorem scan_cut {c : Chunker} (masked : c.Masked) {data : Bytes} (found : c.scan 0 0 (data.drop start) = some window) :
    IsLeast (c.cuts data start) (start + window) := by
  have least := (scan_exact masked [] (data.drop start)).1 window found
  rw [cuts_endings]
  exact (add_right_strictMono.monotone).map_isLeast least

theorem scan_none {c : Chunker} (masked : c.Masked) {data : Bytes} (nothing : c.scan 0 0 (data.drop start) = none) :
    c.cuts data start = ∅ := by
  have empty := (scan_exact masked [] (data.drop start)).2 nothing
  rw [cuts_endings]
  exact Set.image_eq_empty.mpr empty

theorem chunkLoop_last {c : Chunker} {data : Bytes} (inside : start < data.length)
    (nothing : c.scan 0 0 (data.drop start) = none) : c.chunkLoop data start = [makeChunk data start data.length] := by
  rw [chunkLoop,if_pos inside]
  split
  · rename_i found
    rw [nothing] at found
    cases found
  · rfl

theorem makeChunk_length {data : Bytes} (fits : stop ≤ data.length) : (makeChunk data start stop).data.length = stop - start := by
  simp only [makeChunk,List.length_take,List.length_drop]
  omega

-- The loop starts anew at every chunk: from the chunk at index i on it yields what
-- it yields when started at that chunk's offset.
theorem chunkLoop_drop {c : Chunker} {data : Bytes} (found : (c.chunkLoop data start)[i]? = some piece) :
    (c.chunkLoop data start).drop i = c.chunkLoop data piece.offset ∧ piece.offset < data.length ∧
      piece.offset = start + (((c.chunkLoop data start).take i).map (fun before => before.data.length)).sum := by
  fun_induction chunkLoop c data start generalizing i with
  | case1 start inside window cut ih =>
    have bounds := scan_bounds cut
    rw [List.length_drop] at bounds
    cases i with
    | zero =>
      cases found
      exact ⟨(chunkLoop_cut cut).symm,inside,rfl⟩
    | succ i =>
      obtain ⟨same,within,offset⟩ := ih found
      refine ⟨same,within,?_⟩
      rw [offset,List.take_succ_cons,List.map_cons,List.sum_cons,makeChunk_length (by omega)]
      omega
  | case2 start inside nothing =>
    cases i with
    | zero =>
      cases found
      exact ⟨(chunkLoop_last inside nothing).symm,inside,rfl⟩
    | succ i => cases found
  | case3 start outside => cases found

-- What there is to know about the chunk that the loop yields first.
inductive First (c : Chunker) (data : Bytes) (start : ℕ) : Chunk → List Chunk → Prop where
  | cut (found : c.scan 0 0 (data.drop start) = some window) (fits : start + window ≤ data.length) (some : 0 < window) :
      First c data start (makeChunk data start (start + window)) (c.chunkLoop data (start + window))
  | last (nothing : c.scan 0 0 (data.drop start) = none) (inside : start < data.length) :
      First c data start (makeChunk data start data.length) []

theorem chunkLoop_first {c : Chunker} {data : Bytes} (yields : c.chunkLoop data start = piece :: rest) :
    First c data start piece rest := by
  have inside : start < data.length := by
    by_contra outside
    rw [chunkLoop,if_neg outside] at yields
    cases yields
  cases found : c.scan 0 0 (data.drop start) with
  | some window =>
    have bounds := scan_bounds found
    rw [List.length_drop] at bounds
    rw [chunkLoop_cut found] at yields
    cases yields
    exact .cut found (by omega) bounds.1
  | none =>
    rw [chunkLoop_last inside found] at yields
    cases yields
    exact .last found inside

theorem chunk_loop (c : Chunker) (data : Bytes) : c.chunk data = c.chunkLoop data 0 := by
  unfold chunk
  split
  · rename_i nothing
    subst nothing
    exact (chunkLoop_done c []).symm
  · rfl

-- Every chunk by its index: where it starts, and that it is the first of the rest.
theorem chunk_at {c : Chunker} {data : Bytes} (found : (c.chunk data)[i]? = some piece) :
    First c data piece.offset piece ((c.chunk data).drop (i+1)) ∧ (c.chunk data).drop i = c.chunkLoop data piece.offset ∧
      piece.offset = (((c.chunk data).take i).map (fun before => before.data.length)).sum := by
  rw [chunk_loop] at found ⊢
  obtain ⟨same,_,offset⟩ := chunkLoop_drop found
  obtain ⟨inside,value⟩ := List.getElem?_eq_some_iff.mp found
  have split := List.drop_eq_getElem_cons inside
  rw [value,same] at split
  rw [Nat.zero_add] at offset
  exact ⟨chunkLoop_first split,same,offset⟩

theorem First.nonempty (first : First c data start piece rest) : piece.data ≠ [] := by
  intro nothing
  have length := congrArg List.length nothing
  cases first with
  | cut found fits some =>
    rw [makeChunk_length fits,List.length_nil] at length
    omega
  | last nothing inside =>
    rw [makeChunk_length (le_refl _),List.length_nil] at length
    omega

theorem length_le_flatMap {chunks : List Chunk} (some : ∀ piece ∈ chunks, piece.data ≠ []) :
    chunks.length ≤ (chunks.flatMap Chunk.data).length := by
  induction chunks with
  | nil => exact le_refl _
  | cons piece rest ih =>
    have here := List.length_pos_of_ne_nil (some piece List.mem_cons_self)
    have there := ih (fun piece member => some piece (List.mem_cons_of_mem _ member))
    rw [List.flatMap_cons,List.length_append,List.length_cons]
    omega

-- The chunks tile the file, and there are no more of them than it has bytes.
theorem chunk_partition (minSize avgSize maxSize : UInt64) (data : Bytes) :
    ((new minSize avgSize maxSize).chunk data).length ≤ data.length ∧
    (∀ piece ∈ (new minSize avgSize maxSize).chunk data, piece.data ≠ []) ∧
    ((new minSize avgSize maxSize).chunk data).flatMap Chunk.data = data ∧
    (∀ i piece, ((new minSize avgSize maxSize).chunk data)[i]? = some piece →
      piece.offset = ((((new minSize avgSize maxSize).chunk data).take i).map (fun before => before.data.length)).sum) ∧
    ∀ piece ∈ (new minSize avgSize maxSize).chunk data, piece.hash = Sha256.hash piece.data := by
  generalize new minSize avgSize maxSize = c
  have some : ∀ piece ∈ c.chunk data, piece.data ≠ [] := by
    intro piece member
    obtain ⟨i,found⟩ := List.mem_iff_getElem?.mp member
    exact (chunk_at found).1.nonempty
  have bound := length_le_flatMap some
  rw [chunk_data] at bound
  exact ⟨bound,some,chunk_data c data,fun i piece found => (chunk_at found).2.2,chunk_hash c data⟩

-- The chunk ends at the first cut, or with the file where there is none.
theorem First.ends (first : First c data start piece rest) (masked : c.Masked) :
    IsLeast (c.cuts data start) (start + piece.data.length) ∨
      (c.cuts data start = ∅ ∧ start + piece.data.length = data.length) := by
  cases first with
  | cut found fits some =>
    rw [makeChunk_length fits,Nat.add_sub_cancel_left]
    exact .inl (scan_cut masked found)
  | last nothing inside =>
    rw [makeChunk_length (le_refl _)]
    exact .inr ⟨scan_none masked nothing,by omega⟩

theorem First.inside (first : First c data start piece rest) : start + piece.data.length ≤ data.length := by
  cases first with
  | cut found fits some =>
    rw [makeChunk_length fits]
    omega
  | last nothing inside =>
    rw [makeChunk_length (le_refl _)]
    omega

-- Where the file is long enough, the maximal size is a cut.
theorem First.bounded (first : First c data start piece rest) (masked : c.Masked) :
    piece.data.length ≤ max c.maxSize.toNat 1 := by
  by_contra long
  have inside := first.inside
  have cut : start + max c.maxSize.toNat 1 ∈ c.cuts data start := by
    refine ⟨by omega,by omega,.inl ?_⟩
    rw [List.length_take,List.length_drop]
    omega
  rcases first.ends masked with least | ⟨empty,_⟩
  · have early := least.2 cut
    omega
  · rw [empty] at cut
    exact cut

theorem First.filled (first : First c data start piece rest) (masked : c.Masked) (more : rest ≠ []) :
    min c.minSize.toNat c.maxSize.toNat ≤ piece.data.length := by
  cases first with
  | cut found fits some =>
    obtain ⟨⟨_,_,ends⟩,_⟩ := scan_cut masked found
    rw [makeChunk_length fits]
    rw [Ends,List.length_take,List.length_drop] at ends
    omega
  | last nothing inside => exact absurd rfl more

theorem chunk_cut_exact (minSize avgSize maxSize : UInt64) (data : Bytes) (i : ℕ) (piece : Chunk)
    (found : ((new minSize avgSize maxSize).chunk data)[i]? = some piece) :
    (IsLeast ((new minSize avgSize maxSize).cuts data piece.offset) (piece.offset + piece.data.length) ∨
      ((new minSize avgSize maxSize).cuts data piece.offset = ∅ ∧ piece.offset + piece.data.length = data.length)) ∧
    piece.data.length ≤ max maxSize.toNat 1 ∧
    (i + 1 < ((new minSize avgSize maxSize).chunk data).length → min minSize.toNat maxSize.toNat ≤ piece.data.length) := by
  have masked := masked_new minSize avgSize maxSize
  have first := (chunk_at found).1
  refine ⟨first.ends masked,first.bounded masked,?_⟩
  intro more
  refine first.filled masked ?_
  intro nothing
  have length := congrArg List.length nothing
  rw [List.length_drop,List.length_nil] at length
  omega

theorem chunk_cut_exact_full : min 2 1024 ≤ (makeChunk [7,7,7] 0 2).data.length ∧ (makeChunk [7,7,7] 0 2).data.length ≤ 2 := by
  have cut : (new 2 1024 2).scan 0 0 ([7,7,7].drop 0) = some 2 := by decide +kernel
  have rest : (new 2 1024 2).scan 0 0 ([7,7,7].drop (0 + 2)) = none := by decide +kernel
  have found : ((new 2 1024 2).chunk [7,7,7])[0]? = some (makeChunk [7,7,7] 0 2) := by
    rw [chunk_loop,chunkLoop_cut cut]
    rfl
  have more : 0 + 1 < ((new 2 1024 2).chunk [7,7,7]).length := by
    rw [chunk_loop,chunkLoop_cut cut,chunkLoop_last (by decide) rest]
    decide
  obtain ⟨_,bounded,filled⟩ := chunk_cut_exact 2 1024 2 [7,7,7] 0 _ found
  exact ⟨filled more,bounded⟩

-- The bytes behind a cut have no part in it.
theorem scan_early {c : Chunker} {hash : UInt64} {front rest : Bytes} (found : c.scan hash window (front ++ rest) = some stop)
    (early : stop ≤ window + front.length) (rest' : Bytes) : c.scan hash window (front ++ rest') = some stop := by
  induction front generalizing hash window with
  | nil =>
    have bounds := scan_bounds found
    simp only [List.length_nil] at early
    omega
  | cons byte front ih =>
    simp only [List.cons_append,scan] at found ⊢
    split at found
    · rename_i ends
      rw [if_pos ends]
      exact found
    · rename_i goes_on
      rw [if_neg goes_on]
      simp only [List.length_cons] at early
      exact ih found (by omega)

theorem drop_front {front : Bytes} (inside : start ≤ front.length) (rest : Bytes) :
    (front ++ rest).drop start = front.drop start ++ rest := List.drop_append_of_le_length inside

theorem makeChunk_early {front : Bytes} (early : start + window ≤ front.length) (rest rest' : Bytes) :
    makeChunk (front ++ rest) start (start + window) = makeChunk (front ++ rest') start (start + window) := by
  have slice : ∀ rest : Bytes, ((front ++ rest).drop start).take window = (front.drop start).take window := by
    intro rest
    rw [drop_front (by omega),List.take_append_of_le_length (by rw [List.length_drop]; omega)]
  simp only [makeChunk,Nat.add_sub_cancel_left,slice]

theorem chunkLoop_early {c : Chunker} {front rest : Bytes} {i : ℕ} {piece : Chunk} (rest' : Bytes)
    (found : (c.chunkLoop (front ++ rest) start)[i]? = some piece) (early : piece.offset + piece.data.length ≤ front.length)
    (before : piece.offset + piece.data.length < (front ++ rest).length) :
    (c.chunkLoop (front ++ rest') start)[i]? = some piece := by
  generalize whole : front ++ rest = data at found before
  fun_induction chunkLoop c data start generalizing i with
  | case1 start inside window cut ih =>
    subst whole
    have bounds := scan_bounds cut
    rw [List.length_drop] at bounds
    have short : start + window ≤ front.length := by
      cases i with
      | zero =>
        cases found
        have length : (makeChunk (front ++ rest) start (start + window)).data.length = start + window - start :=
          makeChunk_length (by omega)
        rw [length] at early
        have offset : (makeChunk (front ++ rest) start (start + window)).offset = start := rfl
        omega
      | succ i =>
        obtain ⟨_,_,offset⟩ := chunkLoop_drop found
        omega
    rw [drop_front (by omega)] at cut
    have same := scan_early cut (by rw [List.length_drop]; omega) rest'
    rw [← drop_front (by omega)] at same
    rw [chunkLoop_cut same]
    cases i with
    | zero =>
      cases found
      exact congrArg some (makeChunk_early short rest' rest)
    | succ i => exact ih found
  | case2 start inside nothing =>
    cases i with
    | zero =>
      cases found
      rw [makeChunk_length (le_refl _)] at before
      have offset : (makeChunk data start data.length).offset = start := rfl
      omega
    | succ i => cases found
  | case3 start outside => cases found

-- The same bytes, with offsets moved.
def Moved (start start' : ℕ) (a b : Chunk) : Prop := a.data = b.data ∧ a.hash = b.hash ∧ b.offset + start = a.offset + start'

theorem moved_makeChunk {data data' : Bytes} (same : data.drop start = data'.drop start') (window : ℕ) :
    Moved start start' (makeChunk data start (start + window)) (makeChunk data' start' (start' + window)) := by
  simp only [Moved,makeChunk,Nat.add_sub_cancel_left,same,Nat.add_comm,and_self]

theorem chunkLoop_moved (c : Chunker) {data data' : Bytes} (same : data.drop start = data'.drop start') :
    List.Forall₂ (Moved start start') (c.chunkLoop data start) (c.chunkLoop data' start') := by
  have lengths := congrArg List.length same
  rw [List.length_drop,List.length_drop] at lengths
  fun_induction chunkLoop c data start generalizing start' with
  | case1 start inside window cut ih =>
    have cut' := cut
    rw [same] at cut'
    rw [chunkLoop_cut cut']
    refine .cons (moved_makeChunk same window) ?_
    have later : data.drop (start + window) = data'.drop (start' + window) := by
      rw [← List.drop_drop,same,List.drop_drop]
    refine (ih later (by omega)).imp ?_
    rintro a b ⟨bytes,hash,offset⟩
    exact ⟨bytes,hash,by omega⟩
  | case2 start inside nothing =>
    have nothing' := nothing
    rw [same] at nothing'
    rw [chunkLoop_last (by omega) nothing']
    have moved := moved_makeChunk same (data.length - start)
    have stop : start + (data.length - start) = data.length := by omega
    have stop' : start' + (data.length - start) = data'.length := by omega
    rw [stop,stop'] at moved
    exact .cons moved .nil
  | case3 start outside =>
    rw [chunkLoop,if_neg (by omega)]
    exact .nil

-- An edit leaves the chunks before it, and once the two files have a chunk start in
-- common behind it, all chunks from there on.
theorem edit_local (minSize avgSize maxSize : UInt64) (P X X' S : Bytes) :
    (∀ (i : ℕ) (piece : Chunk), ((new minSize avgSize maxSize).chunk (P ++ X ++ S))[i]? = some piece →
      piece.offset + piece.data.length ≤ P.length → piece.offset + piece.data.length < (P ++ X ++ S).length →
      ((new minSize avgSize maxSize).chunk (P ++ X' ++ S))[i]? = some piece) ∧
    ∀ (i j : ℕ) (piece piece' : Chunk), ((new minSize avgSize maxSize).chunk (P ++ X ++ S))[i]? = some piece →
      ((new minSize avgSize maxSize).chunk (P ++ X' ++ S))[j]? = some piece' →
      P.length + X.length ≤ piece.offset → P.length + X'.length ≤ piece'.offset →
      (P ++ X ++ S).length - piece.offset = (P ++ X' ++ S).length - piece'.offset →
      List.Forall₂ (fun a b => a.data = b.data ∧ a.hash = b.hash ∧ b.offset + piece.offset = a.offset + piece'.offset)
        (((new minSize avgSize maxSize).chunk (P ++ X ++ S)).drop i)
        (((new minSize avgSize maxSize).chunk (P ++ X' ++ S)).drop j) := by
  generalize new minSize avgSize maxSize = c
  constructor
  · intro i piece found early before
    rw [List.append_assoc] at found before ⊢
    rw [chunk_loop] at found ⊢
    exact chunkLoop_early _ found early before
  · intro i j piece piece' found found' behind behind' left
    obtain ⟨first,same,_⟩ := chunk_at found
    obtain ⟨first',same',_⟩ := chunk_at found'
    rw [same,same']
    apply chunkLoop_moved
    have inside := first.inside
    have inside' := first'.inside
    simp only [List.length_append] at left inside inside'
    have suffix : (P ++ X ++ S).drop piece.offset = S.drop (piece.offset - (P ++ X).length) := by
      rw [List.drop_append,List.drop_eq_nil_of_le (by rw [List.length_append]; exact behind),List.nil_append]
    have suffix' : (P ++ X' ++ S).drop piece'.offset = S.drop (piece'.offset - (P ++ X').length) := by
      rw [List.drop_append,List.drop_eq_nil_of_le (by rw [List.length_append]; exact behind'),List.nil_append]
    rw [suffix,suffix',List.length_append,List.length_append]
    congr 1
    omega

-- The bits of an older hash are shifted out: each byte rolled in fixes one more low bit
-- of the result, whatever the hash was before.
theorem roll_agrees {h h' : UInt64} (agree : h.toNat ≡ h'.toNat [MOD 2^k]) (few : k + 1 ≤ 64) (byte : UInt8) :
    (roll h byte).toNat ≡ (roll h' byte).toNat [MOD 2^(k+1)] := by
  have divides : 2^(k+1) ∣ 2^64 := Nat.pow_dvd_pow 2 few
  have rolled : ∀ h : UInt64, (roll h byte).toNat ≡ 2 * h.toNat + (gearTable.getD byte.toNat 0).toNat [MOD 2^(k+1)] := by
    intro h
    have shifted : (h <<< 1).toNat = 2 * h.toNat % 2^64 := by
      rw [UInt64.toNat_shiftLeft]
      simp [Nat.shiftLeft_eq,Nat.mul_comm]
    have sum : (roll h byte).toNat = (2 * h.toNat + (gearTable.getD byte.toNat 0).toNat) % 2^64 := by
      rw [roll,UInt64.toNat_add,shifted,Nat.mod_add_mod]
    rw [sum]
    exact (Nat.mod_modEq _ _).of_dvd divides
  have doubled : 2 * h.toNat ≡ 2 * h'.toNat [MOD 2^(k+1)] := by
    rw [Nat.pow_succ']
    exact agree.mul_left' 2
  exact (rolled h).trans ((doubled.add_right _).trans (rolled h').symm)

theorem rolls_agree {h h' : UInt64} (agree : h.toNat ≡ h'.toNat [MOD 2^k]) (bytes : Bytes) (few : k + bytes.length ≤ 64) :
    (bytes.foldl roll h).toNat ≡ (bytes.foldl roll h').toNat [MOD 2^(k + bytes.length)] := by
  induction bytes generalizing h h' k with
  | nil => exact agree
  | cons byte rest ih =>
    have length : k + (byte :: rest).length = k + 1 + rest.length := by
      rw [List.length_cons]
      omega
    rw [length] at few ⊢
    exact ih (roll_agrees agree (by omega) byte) few

theorem gear_window (bytes : Bytes) (n : ℕ) : gear bytes = (bytes.drop n).foldl roll (gear (bytes.take n)) := by
  rw [gear,gear,← List.foldl_append,List.take_append_drop]

theorem gear_agrees {u v : Bytes} (few : m ≤ 64) (long : m ≤ v.length)
    (same : u.drop (u.length - m) = v.drop (v.length - m)) : (gear u).toNat % 2^m = (gear v).toNat % 2^m := by
  have length : (v.drop (v.length - m)).length = m := by
    rw [List.length_drop]
    omega
  have start : (gear (u.take (u.length - m))).toNat ≡ (gear (v.take (v.length - m))).toNat [MOD 2^0] := Nat.modEq_one
  have agree := rolls_agree start (v.drop (v.length - m)) (by omega)
  rw [Nat.zero_add,length] at agree
  rw [gear_window u (u.length - m),gear_window v (v.length - m),same]
  exact agree

-- The hash after the bytes of a chunk so far has its low bits clear.
def HashBoundary (c : Chunker) (window : Bytes) : Prop := gear window &&& c.mask = 0

-- In the turn for byte the inner loop ends the chunk for a hash boundary or its size.
theorem scan_here (c : Chunker) (front rest : Bytes) (byte : UInt8) :
    c.scan (gear front) front.length (byte :: rest) = some (front.length + 1) ↔
      (front.length + 1 ≥ c.minSize.toNat ∧ c.HashBoundary (front ++ [byte])) ∨ front.length + 1 ≥ c.maxSize.toNat := by
  rw [HashBoundary,← gear_snoc]
  constructor
  · intro found
    by_contra goes_on
    simp only [scan] at found
    rw [if_neg goes_on] at found
    have bounds := scan_bounds found
    omega
  · intro ends
    simp only [scan]
    rw [if_pos ends]

-- Where the bytes of data from start to stop are a chunk so far, the last m of them.
theorem window_end {data : Bytes} (fits : stop ≤ data.length) (deep : start + m ≤ stop) :
    ((data.drop start).take (stop - start)).length = stop - start ∧
      ((data.drop start).take (stop - start)).drop (stop - start - m) = (data.drop (stop - m)).take m := by
  have length : ((data.drop start).take (stop - start)).length = stop - start := by
    rw [List.length_take,List.length_drop]
    omega
  have back : start + (stop - start - m) = stop - m := by omega
  have left : stop - start - (stop - start - m) = m := by omega
  refine ⟨length,?_⟩
  rw [List.drop_take,List.drop_drop,back,left]

-- What makes the boundary test a rolling one: the mask of the low bits, and that these
-- depend on as many of the last bytes and on nothing before them.
structure Rolling (c : Chunker) (avgSize : UInt64) : Prop where
  bits : c.maskBits = Nat.log 2 avgSize.toNat
  few : c.maskBits ≤ 63
  mask : c.mask.toNat = 2^c.maskBits - 1
  agrees (u v : Bytes) : c.maskBits ≤ u.length → c.maskBits ≤ v.length →
    u.drop (u.length - c.maskBits) = v.drop (v.length - c.maskBits) → gear u &&& c.mask = gear v &&& c.mask
  boundary (data data' : Bytes) (start stop start' stop' : ℕ) : stop ≤ data.length → stop' ≤ data'.length →
    start + c.maskBits ≤ stop → start' + c.maskBits ≤ stop' →
    (data.drop (stop - c.maskBits)).take c.maskBits = (data'.drop (stop' - c.maskBits)).take c.maskBits →
    (c.HashBoundary ((data.drop start).take (stop - start)) ↔ c.HashBoundary ((data'.drop start').take (stop' - start')))
  tested (front rest : Bytes) (byte : UInt8) : c.scan (gear front) front.length (byte :: rest) = some (front.length + 1) ↔
    (front.length + 1 ≥ c.minSize.toNat ∧ c.HashBoundary (front ++ [byte])) ∨ front.length + 1 ≥ c.maxSize.toNat

theorem new_rolling (minSize avgSize maxSize : UInt64) : (new minSize avgSize maxSize).Rolling avgSize := by
  have few := maskBits_lt minSize avgSize maxSize
  have agrees : ∀ u v : Bytes, (new minSize avgSize maxSize).maskBits ≤ v.length →
      u.drop (u.length - (new minSize avgSize maxSize).maskBits) = v.drop (v.length - (new minSize avgSize maxSize).maskBits) →
      gear u &&& (new minSize avgSize maxSize).mask = gear v &&& (new minSize avgSize maxSize).mask := by
    intro u v long same
    rw [← UInt64.toNat_inj,mask_and,mask_and]
    exact gear_agrees few.le long same
  refine ⟨?_,Nat.le_of_lt_succ few,mask_toNat minSize avgSize maxSize,fun u v _ => agrees u v,?_,scan_here _⟩
  · change maskLoop avgSize.toNat 0 = _
    rw [maskLoop_log,Nat.zero_add]
  · intro data data' start stop start' stop' fits fits' deep deep' same
    obtain ⟨length,back⟩ := window_end fits deep
    obtain ⟨length',back'⟩ := window_end fits' deep'
    rw [HashBoundary,HashBoundary,agrees _ _ (by rw [length']; omega) (by rw [length,length',back,back',same])]

end P2PSync.Chunker
