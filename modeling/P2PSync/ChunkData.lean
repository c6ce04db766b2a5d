import P2PSync.Network

namespace P2PSync.ChunkData
open Network

-- [first,stop) of the payload.
structure Range where
  first : ℕ
  stop : ℕ
  deriving DecidableEq

-- A pass of the receive loop: pos at its head and the length it reads.
structure Pass where
  pos : ℕ
  len : ℕ
  deriving DecidableEq

-- What a pass copies: the digest, the length field, the bytes.
def Pass.ranges (pass : Pass) : List Range :=
  [⟨pass.pos,pass.pos + 32⟩,⟨pass.pos + 32,pass.pos + 36⟩,⟨pass.pos + 36,pass.pos + 36 + pass.len⟩]

def lengthAt (payload : Bytes) (pos : ℕ) : ℕ :=
  match payload.drop (pos + 32) with
  | a :: b :: c :: d :: _ => (readLength a b c d).toNat
  | _ => 0

-- while (pos + 36 <= payload.size()), with pos when the loop is over.
def receiveLoop (payload : Bytes) (pos : ℕ) : List Pass × ℕ :=
  if pos + 36 ≤ payload.length then
    let (later,last) := receiveLoop payload (pos + 36 + lengthAt payload pos)
    (⟨pos,lengthAt payload pos⟩ :: later,last)
  else ([],pos)
termination_by payload.length - pos

-- The record a pass stores, while its ranges lie in the payload.
def record (payload : Bytes) (pass : Pass) : Bytes × Bytes :=
  ((payload.drop pass.pos).take 32,(payload.drop (pass.pos + 36)).take pass.len)

def Inside (payload : Bytes) : Prop :=
  ∀ pass ∈ (receiveLoop payload 0).1, ∀ range ∈ pass.ranges, range.stop ≤ payload.length

-- The payload that the answer to a request is built up to.
def payloadOf (records : List (Digest × Bytes)) : Bytes := records.flatMap (fun r => encodeChunk r.1 r.2)

theorem receiveLoop_pass (payload : Bytes) (fits : pos + 36 ≤ payload.length) : receiveLoop payload pos =
    (⟨pos,lengthAt payload pos⟩ :: (receiveLoop payload (pos + 36 + lengthAt payload pos)).1,
      (receiveLoop payload (pos + 36 + lengthAt payload pos)).2) := by
  rw [receiveLoop,if_pos fits]

theorem receiveLoop_over (payload : Bytes) (short : ¬ pos + 36 ≤ payload.length) : receiveLoop payload pos = ([],pos) := by
  rw [receiveLoop,if_neg short]

-- A pass stays inside exactly where its last range does.
theorem ranges_inside {pass : Pass} (fits : pass.pos + 36 ≤ length) :
    (∀ range ∈ pass.ranges, range.stop ≤ length) ↔ pass.pos + 36 + pass.len ≤ length := by
  constructor
  · intro inside
    exact inside ⟨pass.pos + 36,pass.pos + 36 + pass.len⟩ (by simp [Pass.ranges])
  · intro last range member
    simp only [Pass.ranges,List.mem_cons,List.not_mem_nil,or_false] at member
    rcases member with rfl | rfl | rfl
    · change pass.pos + 32 ≤ length
      omega
    · exact fits
    · exact last

theorem drop_header {payload : Bytes} (fits : pos + 36 ≤ payload.length) :
    ∃ a b c d, payload.drop (pos + 32) = a :: b :: c :: d :: payload.drop (pos + 36) := by
  refine ⟨payload.get ⟨pos + 32,by omega⟩,payload.get ⟨pos + 33,by omega⟩,payload.get ⟨pos + 34,by omega⟩,
    payload.get ⟨pos + 35,by omega⟩,?_⟩
  rw [List.drop_eq_getElem_cons (by omega),List.drop_eq_getElem_cons (by omega),List.drop_eq_getElem_cons (by omega),
    List.drop_eq_getElem_cons (by omega)]
  rfl

-- One pass of the loop on the list of what is left.
theorem decodeChunks_pass {payload : Bytes} (fits : pos + 36 ≤ payload.length) : decodeChunks (payload.drop pos) =
    if pos + 36 + lengthAt payload pos ≤ payload.length then
      (⟨0,(record payload ⟨pos,lengthAt payload pos⟩).2,⟨(record payload ⟨pos,lengthAt payload pos⟩).1,by
          simp [record]
          omega⟩⟩ :: (decodeChunks (payload.drop (pos + 36 + lengthAt payload pos))).1,
        (decodeChunks (payload.drop (pos + 36 + lengthAt payload pos))).2)
    else ([],true) := by
  obtain ⟨a,b,c,d,header⟩ := drop_header fits
  have length : lengthAt payload pos = (readLength a b c d).toNat := by rw [lengthAt,header]
  rw [decodeChunks]
  split
  · rename_i a' b' c' d' rest found
    rw [List.drop_drop,header] at found
    simp only [List.cons.injEq] at found
    obtain ⟨rfl,rfl,rfl,rfl,rfl⟩ := found
    rw [← length]
    simp only [List.length_drop,List.drop_drop]
    by_cases inside : pos + 36 + lengthAt payload pos ≤ payload.length
    · rw [if_pos inside,if_pos (by omega)]
      rfl
    · rw [if_neg inside,if_neg (by omega)]
  · rename_i short
    rw [List.drop_drop,header] at short
    exact absurd rfl (short _ _ _ _ _)

theorem wordBytes_readLength (a b c d : UInt8) : Sha256.wordBytes (readLength a b c d) = [a,b,c,d] := by
  have ha := a.toNat_lt
  have hb := b.toNat_lt
  have hc := c.toNat_lt
  have hd := d.toNat_lt
  have shifts : 24 % 2^32 % 32 = 24 ∧ 16 % 2^32 % 32 = 16 ∧ 8 % 2^32 % 32 = 8 := by decide
  rw [readLength,word_exact,Sha256.wordBytes]
  simp only [List.cons.injEq,and_true,← UInt8.toNat_inj,UInt32.toNat_toUInt8,UInt32.toNat_shiftRight,UInt32.toNat_ofNat',
    UInt32.toNat_ofNat,Nat.shiftRight_eq_div_pow,shifts]
  omega

-- Bytes of the payload that are read as a record are those that encode it.
theorem encode_record {payload : Bytes} {hash : Digest} (fits : pos + 36 ≤ payload.length) (size : hash.bytes = (payload.drop pos).take 32)
    (inside : pos + 36 + lengthAt payload pos ≤ payload.length) :
    encodeChunk hash ((payload.drop (pos + 36)).take (lengthAt payload pos)) =
      (payload.drop pos).take (36 + lengthAt payload pos) := by
  obtain ⟨a,b,c,d,header⟩ := drop_header fits
  have length : lengthAt payload pos = (readLength a b c d).toNat := by rw [lengthAt,header]
  have taken : ((payload.drop (pos + 36)).take (lengthAt payload pos)).length = lengthAt payload pos := by
    rw [List.length_take,List.length_drop]
    omega
  have word : UInt32.ofNat (lengthAt payload pos) = readLength a b c d := by rw [length,UInt32.ofNat_toNat]
  have split : 36 + lengthAt payload pos = 32 + (4 + lengthAt payload pos) := by omega
  rw [encodeChunk,taken,word,wordBytes_readLength,size,split,List.take_add,List.drop_drop,header,Nat.add_comm 4]
  rfl

-- What the loop by its cursor and the decoder of the model have in common.
structure Agrees (payload : Bytes) (pos : ℕ) : Prop where
  inside : (decodeChunks (payload.drop pos)).2 = false ↔
    ∀ pass ∈ (receiveLoop payload pos).1, ∀ range ∈ pass.ranges, range.stop ≤ payload.length
  records : (decodeChunks (payload.drop pos)).2 = false →
    (decodeChunks (payload.drop pos)).1.map (fun c => (c.hash.bytes,c.data)) = (receiveLoop payload pos).1.map (record payload)
  small : ∀ c ∈ (decodeChunks (payload.drop pos)).1, c.data.length < 2^32
  consumed : (decodeChunks (payload.drop pos)).2 = false → payload.drop pos =
    (decodeChunks (payload.drop pos)).1.flatMap (fun c => encodeChunk c.hash c.data) ++ payload.drop (receiveLoop payload pos).2
  left : payload.length < (receiveLoop payload pos).2 + 36
  stops : (decodeChunks (payload.drop pos)).2 = false → pos ≤ payload.length → (receiveLoop payload pos).2 ≤ payload.length

theorem agrees_over {payload : Bytes} (short : ¬ pos + 36 ≤ payload.length) : Agrees payload pos := by
  have nothing : decodeChunks (payload.drop pos) = ([],false) := decodeChunks_short (by rw [List.length_drop]; omega)
  have ended : receiveLoop payload pos = ([],pos) := receiveLoop_over payload short
  constructor
  · rw [nothing,ended]
    exact ⟨fun _ => nofun,fun _ => rfl⟩
  · rw [nothing,ended]
    exact fun _ => rfl
  · rw [nothing]
    exact nofun
  · rw [nothing,ended]
    exact fun _ => rfl
  · rw [ended]
    change payload.length < pos + 36
    omega
  · rw [ended]
    exact fun _ before => before

-- A length that points behind the payload: the pass copies what is not there.
theorem agrees_past {payload : Bytes} (fits : pos + 36 ≤ payload.length) (past : ¬ pos + 36 + lengthAt payload pos ≤ payload.length)
    (later : Agrees payload (pos + 36 + lengthAt payload pos)) : Agrees payload pos := by
  have decoded := decodeChunks_pass fits
  rw [if_neg past] at decoded
  have loop := receiveLoop_pass payload fits
  constructor
  · rw [decoded,loop]
    refine ⟨nofun,fun inside => ?_⟩
    have here := inside ⟨pos,lengthAt payload pos⟩ List.mem_cons_self
    exact absurd ((ranges_inside fits).mp here) past
  · rw [decoded]
    exact nofun
  · rw [decoded]
    exact nofun
  · rw [decoded]
    exact nofun
  · rw [loop]
    exact later.left
  · rw [decoded]
    exact nofun

theorem agrees_pass {payload : Bytes} (fits : pos + 36 ≤ payload.length) (inside : pos + 36 + lengthAt payload pos ≤ payload.length)
    (later : Agrees payload (pos + 36 + lengthAt payload pos)) : Agrees payload pos := by
  have decoded := decodeChunks_pass fits
  rw [if_pos inside] at decoded
  have loop := receiveLoop_pass payload fits
  have here : ∀ range ∈ Pass.ranges ⟨pos,lengthAt payload pos⟩, range.stop ≤ payload.length := (ranges_inside fits).mpr inside
  constructor
  · rw [decoded,loop,List.forall_mem_cons,later.inside]
    exact (and_iff_right here).symm
  · rw [decoded,loop]
    intro whole
    exact congrArg _ (later.records whole)
  · rw [decoded,List.forall_mem_cons]
    refine ⟨?_,later.small⟩
    obtain ⟨a,b,c,d,header⟩ := drop_header fits
    have length : lengthAt payload pos = (readLength a b c d).toNat := by rw [lengthAt,header]
    have bound := (readLength a b c d).toNat_lt
    simp only [record,List.length_take]
    omega
  · rw [decoded,loop]
    intro whole
    have rest := later.consumed whole
    rw [List.flatMap_cons,List.append_assoc]
    dsimp only [record]
    rw [← rest,encode_record fits rfl inside,Nat.add_assoc,← List.drop_drop,List.take_append_drop]
  · rw [loop]
    exact later.left
  · rw [decoded,loop]
    exact fun whole _ => later.stops whole inside

theorem agrees (payload : Bytes) (pos : ℕ) : Agrees payload pos := by
  by_cases fits : pos + 36 ≤ payload.length
  · have later := agrees payload (pos + 36 + lengthAt payload pos)
    by_cases inside : pos + 36 + lengthAt payload pos ≤ payload.length
    · exact agrees_pass fits inside later
    · exact agrees_past fits inside later
  · exact agrees_over fits
termination_by payload.length - pos

-- What was encoded is decoded record by record, and the loop ends at the payload's end.
theorem chunk_data_roundtrip (records : List (Digest × Bytes)) (small : ∀ r ∈ records, r.2.length < 2^32) :
    decodeChunks (payloadOf records) = (records.map (fun r => ⟨0,r.2,r.1⟩),false) ∧
    (receiveLoop (payloadOf records) 0).1.map (record (payloadOf records)) = records.map (fun r => (r.1.bytes,r.2)) ∧
    (receiveLoop (payloadOf records) 0).2 = (payloadOf records).length := by
  have decoded := decodeChunks_records records small
  rw [← payloadOf] at decoded
  obtain ⟨_,matched,_,consumed,_,stops⟩ := agrees (payloadOf records) 0
  rw [List.drop_zero,decoded] at matched consumed stops
  refine ⟨decoded,?_,?_⟩
  · rw [← matched rfl,List.map_map]
    rfl
  · have whole := consumed rfl
    rw [List.flatMap_map] at whole
    have nothing := List.self_eq_append_right.mp whole
    have behind := List.drop_eq_nil_iff.mp nothing
    have before := stops rfl (Nat.zero_le _)
    omega

theorem chunk_data_roundtrip_empty_last :
    (receiveLoop (payloadOf [(⟨List.replicate 32 1,rfl⟩,[7,7]),(⟨List.replicate 32 2,rfl⟩,[])]) 0).2 = 74 := by
  have roundtrip := chunk_data_roundtrip [(⟨List.replicate 32 1,rfl⟩,[7,7]),(⟨List.replicate 32 2,rfl⟩,[])] (by decide)
  exact roundtrip.2.2

-- The loop checks for the header only. It stays inside exactly where the payload is
-- made of whole records, with less than a header behind them.
theorem inside_iff (payload : Bytes) : Inside payload ↔
    ∃ records tail, payload = payloadOf records ++ tail ∧ (∀ r ∈ records, r.2.length < 2^32) ∧ tail.length < 36 := by
  have agreed := agrees payload 0
  rw [Inside,← agreed.inside,List.drop_zero]
  constructor
  · intro whole
    have consumed := agreed.consumed
    have small := agreed.small
    rw [List.drop_zero] at consumed small
    refine ⟨(decodeChunks payload).1.map (fun c => (c.hash,c.data)),payload.drop (receiveLoop payload 0).2,?_,?_,?_⟩
    · rw [payloadOf,List.flatMap_map]
      exact consumed whole
    · intro r member
      obtain ⟨c,inside,rfl⟩ := List.mem_map.mp member
      exact small c inside
    · have left := agreed.left
      rw [List.length_drop]
      omega
  · rintro ⟨records,tail,rfl,small,short⟩
    rw [payloadOf,decodeChunks_tail records small short]

-- One record that claims a byte more than there is.
def overlong : Bytes := List.replicate 32 1 ++ [0,0,0,1]

theorem overlong_leaves : ¬ Inside overlong := by
  intro inside
  have passes : (receiveLoop overlong 0).1 = [⟨0,1⟩] := by decide +kernel
  have range := inside ⟨0,1⟩ (by rw [passes]; simp) ⟨36,37⟩ (by decide)
  revert range
  decide

end P2PSync.ChunkData
