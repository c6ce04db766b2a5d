import P2PSync.Streaming
import P2PSync.Fips

-- What a collision of the content hash comes down to: the message with its mark, its
-- zeros and its length field can be read back, so two messages with one digest are
-- told apart by some call of the compression step.
namespace P2PSync.Sha256

-- The message in full, as finish completes it.
def whole (data : Bytes) : Bytes := padded data ++ lenBytes (UInt64.ofNat (padded data).length * 8)

theorem blank_size : (List.replicate 64 0 : Bytes).length = 64 := List.length_replicate

-- The process_block calls of hash.
def hashCalls (data : Bytes) : List (Words × Bytes) :=
  let ctx := Sha256Ctx.fresh (List.replicate 64 0) blank_size
  ctx.updateCalls data ++ (ctx.update data).finishCalls

theorem Sha256Ctx.Absorbed.padLoopCalls {ctx : Sha256Ctx} (absorbed : ctx.Absorbed fed) :
    Blocks.calls 64 processBlock initialHash (fed ++ List.replicate ((120 - ctx.bufLen) % 64) 0) =
      Blocks.calls 64 processBlock initialHash fed ++ ctx.padLoopCalls := by
  fun_induction Sha256Ctx.padLoopCalls ctx generalizing fed with
  | case1 ctx done =>
    have none : (120 - ctx.bufLen) % 64 = 0 := by rw [done]
    rw [none,List.replicate_zero,List.append_nil,List.append_nil]
  | case2 ctx more ih =>
    have rest := ih (absorbed.update [0])
    rw [List.append_assoc,List.singleton_append,← List.replicate_succ,← Sha256Ctx.pad_step more] at rest
    rw [rest,absorbed.calls,List.append_assoc]

-- The last call completes what the padding left in the buffer with the length field.
theorem last_block_length (data : Bytes) (bl : UInt64) : ((body data).2 ++ lenBytes bl).length = 64 := by
  rw [List.length_append,body,Blocks.fold_rest_length,padded_length]
  rfl

theorem whole_calls (data : Bytes) : Blocks.calls 64 processBlock initialHash (whole data) =
    Blocks.calls 64 processBlock initialHash (padded data) ++
      [((body data).1,(body data).2 ++ lenBytes (UInt64.ofNat (padded data).length * 8))] := by
  rw [whole,Blocks.calls_append,← body,Blocks.calls_one _ _ (last_block_length data _)]

theorem Sha256Ctx.Absorbed.finishCalls {ctx : Sha256Ctx} (absorbed : ctx.Absorbed data) :
    Blocks.calls 64 processBlock initialHash (whole data) =
      Blocks.calls 64 processBlock initialHash data ++ ctx.finishCalls := by
  have zeros := (absorbed.update [0x80]).padLoopCalls
  rw [absorbed.marked,absorbed.calls] at zeros
  unfold Sha256Ctx.finishCalls
  dsimp only
  rw [whole_calls,zeros,absorbed.lastCall]
  simp only [List.append_assoc]

theorem hashCalls_exact (data : Bytes) : hashCalls data = Blocks.calls 64 processBlock initialHash (whole data) := by
  have start := Sha256Ctx.fresh_absorbed (List.replicate 64 0) blank_size
  have none : Blocks.calls 64 processBlock initialHash [] = [] := Blocks.calls_short _ _ (by decide)
  have fed := start.calls data
  have done := (start.update data).finishCalls
  rw [List.nil_append] at fed done
  rw [done,fed,none,List.nil_append]
  rfl

theorem whole_fold (data : Bytes) : Blocks.fold 64 processBlock initialHash (whole data) =
    (processBlock (body data).1 ((body data).2 ++ lenBytes (UInt64.ofNat (padded data).length * 8)),[]) := by
  rw [whole,Blocks.fold_append,← body,Blocks.fold_one _ _ (last_block_length data _)]

theorem hash_whole (data : Bytes) : hash data = (Blocks.fold 64 processBlock initialHash (whole data)).1.digest := by
  rw [hash_eq,whole_fold]

theorem lenBytes_injective {x y : UInt64} (same : lenBytes x = lenBytes y) : x = y := by
  simp only [lenBytes,List.cons.injEq,and_true] at same
  obtain ⟨b7,b6,b5,b4,b3,b2,b1,b0⟩ := same
  replace b7 := congrArg UInt8.toNat b7
  replace b6 := congrArg UInt8.toNat b6
  replace b5 := congrArg UInt8.toNat b5
  replace b4 := congrArg UInt8.toNat b4
  replace b3 := congrArg UInt8.toNat b3
  replace b2 := congrArg UInt8.toNat b2
  replace b1 := congrArg UInt8.toNat b1
  replace b0 := congrArg UInt8.toNat b0
  simp [Nat.shiftRight_eq_div_pow] at b7 b6 b5 b4 b3 b2 b1 b0
  have hx := x.toNat_lt
  have hy := y.toNat_lt
  apply UInt64.toNat_inj.mp
  omega

-- Read from its end, a padded message shows its zeros, then the mark.
theorem mark_found {a b : ℕ} {front back : Bytes}
    (same : List.replicate a 0 ++ 0x80 :: front = List.replicate b 0 ++ 0x80 :: back) : front = back := by
  induction a generalizing b with
  | zero =>
    cases b with
    | zero => simpa using same
    | succ b => simp [List.replicate_succ] at same
  | succ a ih =>
    cases b with
    | zero => simp [List.replicate_succ] at same
    | succ b =>
      simp only [List.replicate_succ,List.cons_append,List.cons.injEq,true_and] at same
      exact ih same

theorem padded_injective {m m' : Bytes} (same : padded m = padded m') : m = m' := by
  have backwards := congrArg List.reverse same
  simp only [padded,List.reverse_append,List.reverse_cons,List.reverse_replicate,List.append_assoc,
    List.singleton_append] at backwards
  exact List.reverse_injective (mark_found backwards)

-- Messages this short do not exhaust the bit counter, also with the padding counted.
theorem bit_count {m : Bytes} (short : m.length < 2^60) :
    (UInt64.ofNat (padded m).length * 8).toNat = (padded m).length * 8 := by
  have zeros : zeroCount m.length < 64 := Nat.mod_lt _ (by decide)
  have length : (padded m).length = m.length + (zeroCount m.length + 1) := by simp [padded]
  have fits : (padded m).length * 8 < 2^64 := by omega
  have single : (padded m).length % 2^64 = (padded m).length := Nat.mod_eq_of_lt (by omega)
  rw [UInt64.toNat_mul,UInt64.toNat_ofNat',single]
  exact Nat.mod_eq_of_lt fits

theorem length_field_injective {m m' : Bytes} (short : m.length < 2^60) (short' : m'.length < 2^60)
    (same : lenBytes (UInt64.ofNat (padded m).length * 8) = lenBytes (UInt64.ofNat (padded m').length * 8)) :
    (padded m).length = (padded m').length := by
  have bits := congrArg UInt64.toNat (lenBytes_injective same)
  rw [bit_count short,bit_count short'] at bits
  omega

-- Two calls of the compression step on different chaining values or 64-byte blocks,
-- with one result.
structure Collide (p q : Words × Bytes) : Prop where
  apart : p ≠ q
  left : p.2.length = 64
  right : q.2.length = 64
  same : processBlock p.1 p.2 = processBlock q.1 q.2

theorem last_call (m : Bytes) :
    ((body m).1,(body m).2 ++ lenBytes (UInt64.ofNat (padded m).length * 8)) ∈
      Blocks.calls 64 processBlock initialHash (whole m) := by
  rw [whole_calls]
  exact List.mem_append_right _ (List.mem_singleton_self _)

-- Padded messages of one length are compared call by call from the start; else the
-- last blocks already differ in their length fields.
theorem hash_collision (m m' : Bytes) (short : m.length < 2^60) (short' : m'.length < 2^60) :
    m = m' ∨ hash m ≠ hash m' ∨ ∃ p ∈ hashCalls m, ∃ q ∈ hashCalls m', Collide p q := by
  by_cases equal : hash m = hash m'
  · rw [hash_whole,hash_whole] at equal
    have results := Fips.digest_injective equal
    rw [whole_fold,whole_fold] at results
    have sizes := Blocks.calls_length (n := 64) processBlock initialHash
    rw [hashCalls_exact,hashCalls_exact]
    by_cases lengths : (padded m).length = (padded m').length
    · have folds : Blocks.fold 64 processBlock initialHash (whole m) = Blocks.fold 64 processBlock initialHash (whole m') := by
        rw [whole_fold,whole_fold]
        exact Prod.ext results rfl
      have even : (whole m).length = (whole m').length := by
        rw [whole,whole,List.length_append,List.length_append,lengths]
      rcases Blocks.fold_collision folds even with ⟨_,wholes⟩ | ⟨p,inP,q,inQ,apart,same⟩
      · exact .inl (padded_injective (List.append_inj_left wholes lengths))
      · exact .inr (.inr ⟨p,inP,q,inQ,apart,sizes _ p inP,sizes _ q inQ,same⟩)
    · refine .inr (.inr ⟨_,last_call m,_,last_call m',?_,sizes _ _ (last_call m),sizes _ _ (last_call m'),results⟩)
      intro pairs
      have blocks := congrArg Prod.snd pairs
      exact lengths (length_field_injective short short' (List.append_inj_right' blocks rfl))
  · exact .inr (.inl equal)

theorem empty_and_zero_told_apart :
    hash [] ≠ hash [0] ∨ ∃ p ∈ hashCalls [], ∃ q ∈ hashCalls [0], Collide p q := by
  rcases hash_collision [] [0] (by decide) (by decide) with same | found
  · cases same
  · exact found

end P2PSync.Sha256
