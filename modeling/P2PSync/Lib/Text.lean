import Mathlib

-- Delimited text and decimal numbers over byte lists.
namespace Text
variable {α : Type} [DecidableEq α]

-- Repeated std::getline: pieces end at a delimiter, and what follows the last
-- delimiter is a piece only if there is something.
def getlines (delimiter : α) : List α → List α → List (List α)
  | piece,[] => if piece = [] then [] else [piece]
  | piece,c :: rest => if c = delimiter then piece :: getlines delimiter [] rest else getlines delimiter (piece ++ [c]) rest

def joined (delimiter : α) : List (List α) → List α
  | [] => []
  | [piece] => piece
  | piece :: next :: rest => piece ++ delimiter :: joined delimiter (next :: rest)

theorem getlines_free {delimiter : α} {text : List α} (free : delimiter ∉ text) (piece rest : List α) :
    getlines delimiter piece (text ++ rest) = getlines delimiter (piece ++ text) rest := by
  induction text generalizing piece with
  | nil => rw [List.nil_append,List.append_nil]
  | cons c text ih =>
    obtain ⟨differs,free⟩ := not_or.mp (fun either => free (List.mem_cons.mpr either))
    rw [List.cons_append,getlines,if_neg (Ne.symm differs),ih free,List.append_assoc,List.singleton_append]

theorem getlines_cons {delimiter : α} {text : List α} (free : delimiter ∉ text) (rest : List α) :
    getlines delimiter [] (text ++ delimiter :: rest) = text :: getlines delimiter [] rest := by
  rw [getlines_free free,List.nil_append,getlines,if_pos rfl]

theorem getlines_last {delimiter : α} {text : List α} (free : delimiter ∉ text) :
    getlines delimiter [] text = if text = [] then [] else [text] := by
  have whole := getlines_free free [] []
  rw [List.append_nil,List.nil_append] at whole
  rw [whole,getlines]

-- Every line ended by its delimiter reads back.
theorem getlines_ended {delimiter : α} {pieces : List (List α)} (free : ∀ piece ∈ pieces, delimiter ∉ piece) :
    getlines delimiter [] (pieces.flatMap (fun piece => piece ++ [delimiter])) = pieces := by
  induction pieces with
  | nil => rfl
  | cons piece rest ih =>
    have step := getlines_cons (free piece List.mem_cons_self) (rest.flatMap (fun piece => piece ++ [delimiter]))
    rw [List.flatMap_cons,List.append_assoc,List.singleton_append,step,
      ih (fun piece member => free piece (List.mem_cons_of_mem _ member))]

-- A text of whole lines and an unfinished one.
theorem getlines_unfinished {delimiter : α} {pieces : List (List α)} {last : List α} (free : ∀ piece ∈ pieces, delimiter ∉ piece)
    (open_end : delimiter ∉ last) : getlines delimiter [] (pieces.flatMap (fun piece => piece ++ [delimiter]) ++ last) =
      pieces ++ if last = [] then [] else [last] := by
  induction pieces with
  | nil => exact getlines_last open_end
  | cons piece rest ih =>
    have step := getlines_cons (free piece List.mem_cons_self) (rest.flatMap (fun piece => piece ++ [delimiter]) ++ last)
    rw [ih (fun piece member => free piece (List.mem_cons_of_mem _ member))] at step
    simpa using step

-- Where a text of lines may be cut: behind some of them, or inside the next one.
omit [DecidableEq α] in
theorem take_lines (delimiter : α) (pieces : List (List α)) (n : ℕ) : ∃ front back last, pieces = front ++ back ∧
    (pieces.flatMap (fun piece => piece ++ [delimiter])).take n = front.flatMap (fun piece => piece ++ [delimiter]) ++ last ∧
    (last = [] ∨ ∃ piece rest, back = piece :: rest ∧ last <+: piece) := by
  induction pieces generalizing n with
  | nil => exact ⟨[],[],[],rfl,by simp,.inl rfl⟩
  | cons piece rest ih =>
    rcases Nat.lt_or_ge piece.length n with behind | inside
    · obtain ⟨front,back,last,split,cut,ends⟩ := ih (n - (piece.length + 1))
      refine ⟨piece :: front,back,last,by rw [split,List.cons_append],?_,ends⟩
      rw [List.flatMap_cons,List.take_append,List.take_of_length_le (by simp; omega),List.length_append,List.length_singleton,cut]
      simp
    · refine ⟨[],piece :: rest,piece.take n,rfl,?_,.inr ⟨piece,rest,rfl,List.take_prefix n piece⟩⟩
      rw [List.flatMap_cons,List.append_assoc,List.take_append_of_le_length inside]
      rfl

theorem getlines_joined {delimiter : α} {pieces : List (List α)}
    (clean : ∀ piece ∈ pieces, delimiter ∉ piece ∧ piece ≠ []) : getlines delimiter [] (joined delimiter pieces) = pieces := by
  induction pieces with
  | nil => rfl
  | cons piece rest ih =>
    obtain ⟨free,some⟩ := clean piece List.mem_cons_self
    cases rest with
    | nil => rw [joined,getlines_last free,if_neg some]
    | cons next rest =>
      rw [joined,getlines_cons free,ih (fun piece member => clean piece (List.mem_cons_of_mem _ member))]

-- The pieces between the delimiters, empty ones too.
def pieces (delimiter : α) : List α → List (List α)
  | [] => [[]]
  | c :: rest =>
    if c = delimiter then [] :: pieces delimiter rest
    else match pieces delimiter rest with
      | [] => [[c]]
      | piece :: more => (c :: piece) :: more

theorem pieces_ne_nil (delimiter : α) (text : List α) : pieces delimiter text ≠ [] := by
  cases text with
  | nil => exact nofun
  | cons c rest =>
    rw [pieces]
    split
    · exact nofun
    · split <;> exact nofun

theorem pieces_free {delimiter : α} {text : List α} (free : delimiter ∉ text) : pieces delimiter text = [text] := by
  induction text with
  | nil => rfl
  | cons c rest ih =>
    obtain ⟨differs,free⟩ := not_or.mp (fun either => free (List.mem_cons.mpr either))
    rw [pieces,if_neg (Ne.symm differs),ih free]

theorem pieces_append (delimiter : α) (front back : List α) :
    pieces delimiter (front ++ delimiter :: back) = pieces delimiter front ++ pieces delimiter back := by
  induction front with
  | nil => simp [pieces]
  | cons c front ih =>
    rw [List.cons_append,pieces,pieces,ih]
    split
    · rfl
    · cases found : pieces delimiter front with
      | nil => exact absurd found (pieces_ne_nil delimiter front)
      | cons piece more => rfl

omit [DecidableEq α] in
theorem mark_ahead {mark : α} {back back' : List α} (free : mark ∉ back) (gap : List α)
    (same : mark :: back = gap ++ mark :: back') : gap = [] ∧ back = back' := by
  cases gap with
  | nil => exact ⟨rfl,(List.cons.inj same).2⟩
  | cons c gap =>
    obtain ⟨_,later⟩ := List.cons.inj same
    exact absurd (later ▸ List.mem_append_right gap List.mem_cons_self) free

omit [DecidableEq α] in
-- There is one way to cut a text at its last mark.
theorem last_mark {mark : α} {front front' back back' : List α} (free : mark ∉ back) (free' : mark ∉ back')
    (same : front ++ mark :: back = front' ++ mark :: back') : front = front' ∧ back = back' := by
  rcases List.append_eq_append_iff.mp same with ⟨gap,longer,rest⟩ | ⟨gap,longer,rest⟩
  · obtain ⟨rfl,equal⟩ := mark_ahead free gap rest
    exact ⟨by rw [longer,List.append_nil],equal⟩
  · obtain ⟨rfl,equal⟩ := mark_ahead free' gap rest
    exact ⟨by rw [longer,List.append_nil],equal.symm⟩

omit [DecidableEq α] in
-- A word that holds its first letter only once overlaps itself nowhere: it starts where
-- the other occurrence starts, or the other one lies behind it.
theorem word_ahead {mark : α} {tail rest rest' : List α} (free : mark ∉ tail) (gap : List α)
    (same : (mark :: tail) ++ rest = gap ++ ((mark :: tail) ++ rest')) :
    (gap = [] ∧ rest = rest') ∨ ∃ between, gap = (mark :: tail) ++ between ∧ rest = between ++ ((mark :: tail) ++ rest') := by
  rcases List.append_eq_append_iff.mp same with ⟨between,longer,behind⟩ | ⟨overlap,word,behind⟩
  · exact .inr ⟨between,longer,behind⟩
  · cases gap with
    | nil => exact .inl ⟨rfl,List.append_cancel_left same⟩
    | cons c gap =>
      cases overlap with
      | nil =>
        rw [List.append_nil] at word
        refine .inr ⟨[],by rw [word,List.append_nil],?_⟩
        exact behind.symm
      | cons d overlap =>
        obtain ⟨rfl,_⟩ := List.cons.inj behind
        obtain ⟨_,tail'⟩ := List.cons.inj word
        exact absurd (tail' ▸ List.mem_append_right _ List.mem_cons_self) free

omit [DecidableEq α] in
theorem word_split {mark : α} {tail front front' rest rest' : List α} (free : mark ∉ tail)
    (same : front ++ ((mark :: tail) ++ rest) = front' ++ ((mark :: tail) ++ rest')) :
    (front = front' ∧ rest = rest') ∨
    (∃ between, front' = front ++ ((mark :: tail) ++ between) ∧ rest = between ++ ((mark :: tail) ++ rest')) ∨
    ∃ between, front = front' ++ ((mark :: tail) ++ between) ∧ rest' = between ++ ((mark :: tail) ++ rest) := by
  rcases List.append_eq_append_iff.mp same with ⟨gap,longer,behind⟩ | ⟨gap,longer,behind⟩
  · rcases word_ahead free gap behind with ⟨rfl,rfl⟩ | ⟨between,rfl,later⟩
    · exact .inl ⟨by rw [longer,List.append_nil],rfl⟩
    · exact .inr (.inl ⟨between,longer,later⟩)
  · rcases word_ahead free gap behind with ⟨rfl,rfl⟩ | ⟨between,rfl,later⟩
    · exact .inl ⟨by rw [longer,List.append_nil],rfl⟩
    · exact .inr (.inr ⟨between,longer,later⟩)

-- What getlines yields comes from the text and holds no delimiter.
theorem mem_getlines {delimiter : α} {piece text line : List α} (free : delimiter ∉ piece)
    (member : line ∈ getlines delimiter piece text) : delimiter ∉ line ∧ ∀ c ∈ line, c ∈ piece ∨ c ∈ text := by
  induction text generalizing piece with
  | nil =>
    rw [getlines] at member
    split at member
    · cases member
    · cases List.mem_singleton.mp member
      exact ⟨free,fun _ inside => .inl inside⟩
  | cons c rest ih =>
    rw [getlines] at member
    split at member
    · rcases List.mem_cons.mp member with rfl | later
      · exact ⟨free,fun _ inside => .inl inside⟩
      · obtain ⟨clean,within⟩ := ih List.not_mem_nil later
        refine ⟨clean,fun x inside => ?_⟩
        rcases within x inside with never | here
        · cases never
        · exact .inr (List.mem_cons_of_mem _ here)
    · rename_i differs
      have longer : delimiter ∉ piece ++ [c] := by
        intro found
        rcases List.mem_append.mp found with early | last
        · exact free early
        · exact differs (List.mem_singleton.mp last).symm
      obtain ⟨clean,within⟩ := ih longer member
      refine ⟨clean,fun x inside => ?_⟩
      rcases within x inside with early | here
      · rcases List.mem_append.mp early with before | last
        · exact .inl before
        · exact .inr (List.mem_singleton.mp last ▸ List.mem_cons_self)
      · exact .inr (List.mem_cons_of_mem _ here)

omit [DecidableEq α] in
theorem mem_joined {delimiter c : α} {pieces : List (List α)} (member : c ∈ joined delimiter pieces) :
    c = delimiter ∨ ∃ piece ∈ pieces, c ∈ piece := by
  induction pieces with
  | nil => cases member
  | cons piece rest ih =>
    cases rest with
    | nil => exact .inr ⟨piece,List.mem_cons_self,member⟩
    | cons next rest =>
      rw [joined] at member
      rcases List.mem_append.mp member with here | there
      · exact .inr ⟨piece,List.mem_cons_self,here⟩
      · rcases List.mem_cons.mp there with same | later
        · exact .inl same
        · exact (ih later).imp id (fun ⟨piece,inside,found⟩ => ⟨piece,List.mem_cons_of_mem _ inside,found⟩)

-- Items written one by one are read back one by one.
theorem mapM_encoded {β γ ε : Type} (encode : β → γ) (decode : γ → Except ε β) (items : List β)
    (reads : ∀ item ∈ items, decode (encode item) = .ok item) : (items.map encode).mapM decode = .ok items := by
  induction items with
  | nil => rfl
  | cons item rest ih =>
    rw [List.map_cons,List.mapM_cons,reads item List.mem_cons_self,
      ih (fun item member => reads item (List.mem_cons_of_mem _ member))]
    rfl

theorem bind_ok {β γ ε : Type} {first : Except ε β} {next : β → Except ε γ} {result : γ} (done : first >>= next = .ok result) :
    ∃ middle, first = .ok middle ∧ next middle = .ok result := by
  cases first with
  | error x => cases done
  | ok middle => exact ⟨middle,rfl,done⟩

theorem map_ok {β γ ε : Type} {first : Except ε β} {f : β → γ} {result : γ} (done : first.map f = .ok result) :
    ∃ middle, first = .ok middle ∧ f middle = result := by
  cases first with
  | error x => cases done
  | ok middle => exact ⟨middle,rfl,Except.ok.inj done⟩

-- A loop that may fail keeps what each of its steps keeps.
theorem foldlM_invariant {β σ ε : Type} {step : σ → β → Except ε σ} {items : List β} {s t : σ} (holds : σ → Prop)
    (initially : holds s) (preserved : ∀ s item t, item ∈ items → holds s → step s item = .ok t → holds t)
    (done : items.foldlM step s = .ok t) : holds t := by
  induction items generalizing s with
  | nil =>
    cases done
    exact initially
  | cons item rest ih =>
    rw [List.foldlM_cons] at done
    cases first : step s item with
    | error x =>
      rw [first] at done
      cases done
    | ok next =>
      rw [first] at done
      exact ih (preserved s item next List.mem_cons_self initially first)
        (fun s other t member => preserved s other t (List.mem_cons_of_mem _ member)) done

theorem mapM_cons_ok {β γ ε : Type} {decode : γ → Except ε β} {line : γ} {rest : List γ} {items : List β}
    (read : (line :: rest).mapM decode = .ok items) :
    ∃ item more, decode line = .ok item ∧ rest.mapM decode = .ok more ∧ items = item :: more := by
  rw [List.mapM_cons] at read
  obtain ⟨item,first,read⟩ := bind_ok read
  obtain ⟨more,others,read⟩ := bind_ok read
  cases read
  exact ⟨item,more,first,others,rfl⟩

theorem mem_of_mapM {β γ ε : Type} {decode : γ → Except ε β} {lines : List γ} {items : List β} {line : γ}
    (read : lines.mapM decode = .ok items) (member : line ∈ lines) : ∃ item ∈ items, decode line = .ok item := by
  induction lines generalizing items with
  | nil => cases member
  | cons head rest ih =>
    obtain ⟨found,more,first,others,rfl⟩ := mapM_cons_ok read
    rcases List.mem_cons.mp member with rfl | later
    · exact ⟨found,List.mem_cons_self,first⟩
    · obtain ⟨item,inside,reads⟩ := ih others later
      exact ⟨item,List.mem_cons_of_mem _ inside,reads⟩

theorem mapM_source {β γ ε : Type} {decode : γ → Except ε β} {lines : List γ} {items : List β} {item : β}
    (read : lines.mapM decode = .ok items) (member : item ∈ items) : ∃ line ∈ lines, decode line = .ok item := by
  induction lines generalizing items with
  | nil =>
    cases read
    cases member
  | cons head rest ih =>
    obtain ⟨found,more,first,others,rfl⟩ := mapM_cons_ok read
    rcases List.mem_cons.mp member with rfl | later
    · exact ⟨head,List.mem_cons_self,first⟩
    · obtain ⟨line,inside,reads⟩ := ih others later
      exact ⟨line,List.mem_cons_of_mem _ inside,reads⟩

-- A character read as a digit: 0-9, then letters of either case.
def digit (c : UInt8) : Option ℕ :=
  if 48 ≤ c ∧ c ≤ 57 then some (c.toNat - 48)
  else if 97 ≤ c ∧ c ≤ 122 then some (c.toNat - 87)
  else if 65 ≤ c ∧ c ≤ 90 then some (c.toNat - 55)
  else none

def digitIn (base : ℕ) (c : UInt8) : Option ℕ := (digit c).filter (· < base)

-- The longest run of digits at the front.
def digits (base : ℕ) : List UInt8 → List ℕ
  | [] => []
  | c :: rest => match digitIn base c with
    | none => []
    | some d => d :: digits base rest

def value (base : ℕ) (ds : List ℕ) : ℕ := ds.foldl (fun v d => v * base + d) 0

def decimal (n : ℕ) : List UInt8 :=
  if n = 0 then [48] else (Nat.digits 10 n).reverse.map (fun d => 48 + UInt8.ofNat d)

theorem digitIn_decimal : ∀ d < 10, digitIn 10 (48 + UInt8.ofNat d) = some d := by decide

theorem digits_decimal (ds : List ℕ) (small : ∀ d ∈ ds, d < 10) :
    digits 10 (ds.map (fun d => 48 + UInt8.ofNat d)) = ds := by
  induction ds with
  | nil => rfl
  | cons d rest ih =>
    have head := digitIn_decimal d (small d List.mem_cons_self)
    simp [digits,head,ih (fun d member => small d (List.mem_cons_of_mem _ member))]

theorem value_digits (n : ℕ) : value 10 (Nat.digits 10 n).reverse = n := by
  have folded := Nat.ofDigits_eq_foldr 10 (Nat.digits 10 n)
  rw [Nat.ofDigits_digits] at folded
  rw [value,List.foldl_reverse]
  conv_rhs => rw [folded]
  congr 1
  funext d v
  simp [Nat.add_comm,Nat.mul_comm]

theorem read_decimal (n : ℕ) : value 10 (digits 10 (decimal n)) = n := by
  unfold decimal
  split
  · rename_i zero
    subst zero
    rfl
  · rw [digits_decimal]
    · exact value_digits n
    · intro d member
      exact Nat.digits_lt_base (by decide) (List.mem_reverse.mp member)

theorem decimal_digits {n : ℕ} : ∀ c ∈ decimal n, 48 ≤ c ∧ c ≤ 57 := by
  have small : ∀ d < 10, 48 ≤ 48 + UInt8.ofNat d ∧ 48 + UInt8.ofNat d ≤ 57 := by decide
  intro c member
  unfold decimal at member
  split at member
  · cases List.mem_singleton.mp member
    decide
  · obtain ⟨d,inside,rfl⟩ := List.mem_map.mp member
    exact small d (Nat.digits_lt_base (by decide) (List.mem_reverse.mp inside))

theorem digits_decimal_ne_nil (n : ℕ) : digits 10 (decimal n) ≠ [] := by
  intro none
  unfold decimal at none
  split at none
  · cases none
  · rename_i positive
    rw [digits_decimal _ (fun d member => Nat.digits_lt_base (by decide) (List.mem_reverse.mp member))] at none
    exact Nat.digits_ne_nil_iff_ne_zero.mpr positive (List.reverse_eq_nil_iff.mp none)

theorem decimal_ne_nil (n : ℕ) : decimal n ≠ [] := by
  unfold decimal
  split
  · simp
  · rename_i positive
    simpa using Nat.digits_ne_nil_iff_ne_zero.mpr positive

end Text
