import P2PSync.Sha256

-- SHA-256 as FIPS 180-4 states it, written from the standard and not from the
-- source, and what the source's hash is in its terms.
namespace P2PSync.Fips
open Sha256

def ROTR (n : ℕ) (x : UInt32) : UInt32 := ⟨x.toBitVec.rotateRight n⟩
def SHR (n : ℕ) (x : UInt32) : UInt32 := ⟨x.toBitVec >>> n⟩
def Ch (x y z : UInt32) : UInt32 := (x &&& y) ^^^ (~~~x &&& z)
def Maj (x y z : UInt32) : UInt32 := (x &&& y) ^^^ (x &&& z) ^^^ (y &&& z)
def Sigma0 (x : UInt32) : UInt32 := ROTR 2 x ^^^ ROTR 13 x ^^^ ROTR 22 x
def Sigma1 (x : UInt32) : UInt32 := ROTR 6 x ^^^ ROTR 11 x ^^^ ROTR 25 x
def sigma0 (x : UInt32) : UInt32 := ROTR 7 x ^^^ ROTR 18 x ^^^ SHR 3 x
def sigma1 (x : UInt32) : UInt32 := ROTR 17 x ^^^ ROTR 19 x ^^^ SHR 10 x

-- Sections 4.2.2 and 5.3.3: the first 32 bits of the fractional parts of the
-- cube roots of the first 64 primes and of the square roots of the first 8.
-- Below 18 * 18 trial division by the numbers below 18 is enough.
def primes : List ℕ :=
  (List.range 312).filter fun n => 2 ≤ n && (List.range 18).all fun d => d < 2 || n ≤ d || n % d != 0
def constant (t : ℕ) : UInt32 := UInt32.ofNat (Nat.nthRoot 3 (primes.getD t 0 * 2^96))
def initialWord (i : ℕ) : UInt32 := UInt32.ofNat (Nat.nthRoot 2 (primes.getD i 0 * 2^64))

theorem primes_exact : primes = [2,3,5,7,11,13,17,19,23,29,31,37,41,43,47,53,59,61,67,71,73,79,83,89,97,
    101,103,107,109,113,127,131,137,139,149,151,157,163,167,173,179,181,191,193,197,199,211,223,227,229,
    233,239,241,251,257,263,269,271,277,281,283,293,307,311] := by decide +kernel

theorem constants_exact : ∀ t < 64, K.getD t 0 = constant t := by
  unfold constant
  rw [primes_exact]
  decide +kernel

theorem initial_exact : initialHash = ⟨initialWord 0,initialWord 1,initialWord 2,initialWord 3,
    initialWord 4,initialWord 5,initialWord 6,initialWord 7⟩ := by
  unfold initialWord
  rw [primes_exact]
  decide +kernel

theorem rotr_exact (x : UInt32) (n : ℕ) (inside : n < 32) (positive : 0 < n) :
    rotr x (UInt32.ofNat n) = ROTR n x := by
  apply UInt32.toBitVec_inj.mp
  simp only [rotr,ROTR,BitVec.rotateRight_def,UInt32.toBitVec_or,UInt32.toBitVec_shiftRight,
    UInt32.toBitVec_shiftLeft,Nat.mod_eq_of_lt inside]
  have right : ((UInt32.ofNat n).toBitVec % 32).toNat = n := by
    simp
    omega
  have left : ((32 - UInt32.ofNat n).toBitVec % 32).toNat = 32 - n := by
    simp
    omega
  rw [BitVec.ushiftRight_eq',BitVec.shiftLeft_eq',right,left]

theorem shr_exact (x : UInt32) (n : ℕ) (inside : n < 32) : x >>> UInt32.ofNat n = SHR n x := by
  apply UInt32.toBitVec_inj.mp
  have right : ((UInt32.ofNat n).toBitVec % 32).toNat = n := by
    simp
    omega
  rw [UInt32.toBitVec_shiftRight,BitVec.ushiftRight_eq',right]
  rfl

-- Section 6.2.2, for the 64 bytes of one block: message words, message schedule,
-- sixty-four steps on the working variables, and the sum with the old value.
def message (block : Bytes) (t : ℕ) : UInt32 :=
  UInt32.ofNat ((block.getD (4*t) 0).toNat * 2^24 + (block.getD (4*t+1) 0).toNat * 2^16 +
    (block.getD (4*t+2) 0).toNat * 2^8 + (block.getD (4*t+3) 0).toNat)

def W (block : Bytes) (t : ℕ) : UInt32 :=
  if t < 16 then message block t
  else sigma1 (W block (t-2)) + W block (t-7) + sigma0 (W block (t-15)) + W block (t-16)
termination_by t
decreasing_by all_goals omega

def step (s : Words) (k w : UInt32) : Words :=
  let T1 := s.h + Sigma1 s.e + Ch s.e s.f s.g + k + w
  let T2 := Sigma0 s.a + Maj s.a s.b s.c
  ⟨T1 + T2,s.a,s.b,s.c,s.d + T1,s.e,s.f,s.g⟩

def steps (block : Bytes) (s : Words) : ℕ → Words
  | 0 => s
  | t+1 => step (steps block s t) (constant t) (W block t)

def compress (s : Words) (block : Bytes) : Words :=
  let r := steps block s 64
  ⟨r.a + s.a,r.b + s.b,r.c + s.c,r.d + s.d,r.e + s.e,r.f + s.f,r.g + s.g,r.h + s.h⟩

def initial : Words :=
  ⟨initialWord 0,initialWord 1,initialWord 2,initialWord 3,initialWord 4,initialWord 5,initialWord 6,initialWord 7⟩

-- Section 5.1.1: the length of the message in bits, as 64 bits.
def length64 (bits : ℕ) : Bytes :=
  [UInt8.ofNat (bits / 2^56),UInt8.ofNat (bits / 2^48),UInt8.ofNat (bits / 2^40),UInt8.ofNat (bits / 2^32),
    UInt8.ofNat (bits / 2^24),UInt8.ofNat (bits / 2^16),UInt8.ofNat (bits / 2^8),UInt8.ofNat bits]

def pad (data : Bytes) : Bytes := padded data ++ length64 (8 * data.length)

def sha256 (data : Bytes) : Digest := (Blocks.fold 64 compress initial (pad data)).1.digest

theorem message_exact (block : Bytes) (t : ℕ) : blockWord block t = message block t := by
  rw [blockWord,message,word_exact,Nat.mul_comm t 4]

theorem sigma0_exact (x : UInt32) : rotr x 7 ^^^ rotr x 18 ^^^ (x >>> 3) = sigma0 x := by
  rw [sigma0,← rotr_exact x 7 (by decide) (by decide),← rotr_exact x 18 (by decide) (by decide),
    ← shr_exact x 3 (by decide)]
  rfl

theorem sigma1_exact (x : UInt32) : rotr x 17 ^^^ rotr x 19 ^^^ (x >>> 10) = sigma1 x := by
  rw [sigma1,← rotr_exact x 17 (by decide) (by decide),← rotr_exact x 19 (by decide) (by decide),
    ← shr_exact x 10 (by decide)]
  rfl

theorem Sigma0_exact (x : UInt32) : rotr x 2 ^^^ rotr x 13 ^^^ rotr x 22 = Sigma0 x := by
  rw [Sigma0,← rotr_exact x 2 (by decide) (by decide),← rotr_exact x 13 (by decide) (by decide),
    ← rotr_exact x 22 (by decide) (by decide)]
  rfl

theorem Sigma1_exact (x : UInt32) : rotr x 6 ^^^ rotr x 11 ^^^ rotr x 25 = Sigma1 x := by
  rw [Sigma1,← rotr_exact x 6 (by decide) (by decide),← rotr_exact x 11 (by decide) (by decide),
    ← rotr_exact x 25 (by decide) (by decide)]
  rfl

-- The loop has written w[0..15+n] once it has made n turns.
theorem schedule_written (block : Bytes) (n : ℕ) :
    (List.range' 16 n).foldl extend ((List.range 16).map (blockWord block)) = (List.range (16+n)).map (W block) := by
  induction n with
  | zero =>
    apply List.map_congr_left
    intro t member
    rw [W,if_pos (List.mem_range.mp member),message_exact]
  | succ n ih =>
    have old : ∀ t < 16 + n, ((List.range (16+n)).map (W block)).getD t 0 = W block t := by
      intro t inside
      simp [List.getD_eq_getElem?_getD,inside]
    rw [List.range'_concat,List.foldl_append,ih,← Nat.add_assoc 16 n 1,List.range_succ,List.map_append]
    simp only [List.foldl_cons,List.foldl_nil,extend,Nat.one_mul,List.map_cons,List.map_nil]
    rw [old _ (by omega),old _ (by omega),old _ (by omega),old _ (by omega),sigma0_exact,sigma1_exact]
    congr 2
    conv => rhs; rw [W,if_neg (by omega)]
    ac_rfl

theorem schedule_exact (block : Bytes) (t : ℕ) (inside : t < 64) : (schedule block).getD t 0 = W block t := by
  rw [schedule,schedule_written block 48]
  simp [List.getD_eq_getElem?_getD,inside]

theorem round_exact (s : Words) (k w : UInt32) : Sha256.round s k w = step s k w := by
  unfold Sha256.round step
  simp only [Sigma0_exact,Sigma1_exact]
  rfl

theorem rounds_exact (block : Bytes) (s : Words) (n : ℕ) (inside : n ≤ 64) :
    (List.range n).foldl (fun s i => Sha256.round s (K.getD i 0) ((schedule block).getD i 0)) s = steps block s n := by
  induction n with
  | zero => rfl
  | succ n ih =>
    rw [List.range_succ,List.foldl_append,ih (by omega)]
    simp only [List.foldl_cons,List.foldl_nil,steps]
    rw [round_exact,constants_exact n (by omega),schedule_exact block n (by omega)]

-- process_block is the compression function of the standard.
theorem compress_exact : processBlock = compress := by
  funext s block
  unfold processBlock compress
  dsimp only
  rw [rounds_exact block s 64 (le_refl _)]
  simp only [UInt32.add_comm]

theorem length64_exact (n : ℕ) : lenBytes (UInt64.ofNat n * 8) = length64 (8 * n) := by
  have byte : ∀ i < 8, ((UInt64.ofNat n * 8) >>> UInt64.ofNat (8*i)).toUInt8 = UInt8.ofNat (8*n / 2^(8*i)) := by
    intro i inside
    apply UInt8.toNat_inj.mp
    simp only [UInt64.toNat_toUInt8,UInt64.toNat_shiftRight,UInt64.toNat_mul,UInt64.toNat_ofNat',
      UInt64.toNat_ofNat,UInt8.toNat_ofNat',Nat.shiftRight_eq_div_pow]
    interval_cases i <;> simp only [Nat.reduceMul,Nat.reduceMod,Nat.reducePow] <;> omega
  have first := byte 0 (by decide)
  simp only [Nat.mul_zero,Nat.pow_zero,Nat.div_one] at first
  unfold lenBytes length64
  rw [← byte 7 (by decide),← byte 6 (by decide),← byte 5 (by decide),← byte 4 (by decide),
    ← byte 3 (by decide),← byte 2 (by decide),← byte 1 (by decide),← first]
  rfl

theorem length64_low {m n : ℕ} (same : length64 m = length64 n) : m % 2^16 = n % 2^16 := by
  simp only [length64,List.cons.injEq,and_true] at same
  obtain ⟨_,_,_,_,_,_,b1,b0⟩ := same
  have high := congrArg UInt8.toNat b1
  have low := congrArg UInt8.toNat b0
  simp only [UInt8.toNat_ofNat'] at high low
  omega

theorem wordBytes_injective {x y : UInt32} (same : wordBytes x = wordBytes y) : x = y := by
  simp only [wordBytes,List.cons.injEq,and_true] at same
  obtain ⟨b3,b2,b1,b0⟩ := same
  replace b3 := congrArg UInt8.toNat b3
  replace b2 := congrArg UInt8.toNat b2
  replace b1 := congrArg UInt8.toNat b1
  replace b0 := congrArg UInt8.toNat b0
  simp [Nat.shiftRight_eq_div_pow] at b3 b2 b1 b0
  have hx := x.toNat_lt
  have hy := y.toNat_lt
  apply UInt32.toNat_inj.mp
  omega

theorem digest_injective {s r : Words} (same : s.digest = r.digest) : s = r := by
  have bytes := congrArg Digest.bytes same
  simp only [Words.digest] at bytes
  obtain ⟨bytes,h⟩ := List.append_inj' bytes rfl
  obtain ⟨bytes,g⟩ := List.append_inj' bytes rfl
  obtain ⟨bytes,f⟩ := List.append_inj' bytes rfl
  obtain ⟨bytes,e⟩ := List.append_inj' bytes rfl
  obtain ⟨bytes,d⟩ := List.append_inj' bytes rfl
  obtain ⟨bytes,c⟩ := List.append_inj' bytes rfl
  obtain ⟨a,b⟩ := List.append_inj' bytes rfl
  obtain ⟨⟩ := s
  obtain ⟨⟩ := r
  simp only [Words.mk.injEq]
  exact ⟨wordBytes_injective a,wordBytes_injective b,wordBytes_injective c,wordBytes_injective d,
    wordBytes_injective e,wordBytes_injective f,wordBytes_injective g,wordBytes_injective h⟩

-- The standard's chaining value before the last block of a message, and the 56
-- bytes that open that block.
def beforeLast (data : Bytes) : Words × Bytes := Blocks.fold 64 compress initial (padded data)

theorem sha256_eq (data : Bytes) : sha256 data =
    (compress (beforeLast data).1 ((beforeLast data).2 ++ length64 (8 * data.length))).digest := by
  have full : ((beforeLast data).2 ++ length64 (8 * data.length)).length = 64 := by
    rw [List.length_append,beforeLast,Blocks.fold_rest_length,padded_length]
    rfl
  rw [sha256,pad,Blocks.fold_append,← beforeLast,Blocks.fold_one _ _ full]

theorem hash_eq_compress (data : Bytes) : Sha256.hash data =
    (compress (beforeLast data).1 ((beforeLast data).2 ++ length64 (8 * (padded data).length))).digest := by
  have same : body data = beforeLast data := by
    rw [body,beforeLast,compress_exact,initial_exact,initial]
  rw [Sha256.hash_eq,length64_exact,compress_exact,same]

-- The two last blocks agree on 56 bytes and differ in the length field.
theorem length_differs (data : Bytes) : length64 (8 * (padded data).length) ≠ length64 (8 * data.length) := by
  intro same
  have equal := length64_low same
  have zeros : zeroCount data.length < 64 := Nat.mod_lt _ (by decide)
  simp only [padded,List.length_append,List.length_cons,List.length_replicate] at equal
  omega

-- finish reads the bit counter after the mark and the zeros have gone through
-- update, so the last block carries the length of the padded message. It yields
-- the standard's digest only where the compression function maps that block and
-- the right one, which always differ, from one chaining value to one result.
theorem hash_sha256_iff (data : Bytes) :
    (Sha256.hash data = sha256 data ↔
      compress (beforeLast data).1 ((beforeLast data).2 ++ length64 (8 * (padded data).length)) =
        compress (beforeLast data).1 ((beforeLast data).2 ++ length64 (8 * data.length))) ∧
    (beforeLast data).2 ++ length64 (8 * (padded data).length) ≠
      (beforeLast data).2 ++ length64 (8 * data.length) := by
  refine ⟨?_,fun same => length_differs data (List.append_cancel_left same)⟩
  rw [hash_eq_compress,sha256_eq]
  exact ⟨digest_injective,congrArg Words.digest⟩

theorem hash_empty_not_sha256 : Sha256.hash [] ≠ sha256 [] := by
  have nothing : beforeLast [] = (initialHash,padded []) := by
    rw [beforeLast,Blocks.fold_short _ _ (by decide),initial_exact,initial]
  rw [hash_eq_compress,sha256_eq,nothing,← compress_exact]
  decide +kernel

end P2PSync.Fips
