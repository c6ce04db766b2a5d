import P2PSync.Lib.Blocks
import P2PSync.Bytes

namespace P2PSync

structure Digest where
  bytes : Bytes
  size : bytes.length = 32
  deriving DecidableEq

namespace Sha256

instance blockSize : NeZero (64 : ℕ) := ⟨by decide⟩

def K : List UInt32 := [
  0x428a2f98,0x71374491,0xb5c0fbcf,0xe9b5dba5,0x3956c25b,0x59f111f1,0x923f82a4,0xab1c5ed5,
  0xd807aa98,0x12835b01,0x243185be,0x550c7dc3,0x72be5d74,0x80deb1fe,0x9bdc06a7,0xc19bf174,
  0xe49b69c1,0xefbe4786,0x0fc19dc6,0x240ca1cc,0x2de92c6f,0x4a7484aa,0x5cb0a9dc,0x76f988da,
  0x983e5152,0xa831c66d,0xb00327c8,0xbf597fc7,0xc6e00bf3,0xd5a79147,0x06ca6351,0x14292967,
  0x27b70a85,0x2e1b2138,0x4d2c6dfc,0x53380d13,0x650a7354,0x766a0abb,0x81c2c92e,0x92722c85,
  0xa2bfe8a1,0xa81a664b,0xc24b8b70,0xc76c51a3,0xd192e819,0xd6990624,0xf40e3585,0x106aa070,
  0x19a4c116,0x1e376c08,0x2748774c,0x34b0bcb5,0x391c0cb3,0x4ed8aa4a,0x5b9cca4f,0x682e6ff3,
  0x748f82ee,0x78a5636f,0x84c87814,0x8cc70208,0x90befffa,0xa4506ceb,0xbef9a3f7,0xc67178f2]

def rotr (x n : UInt32) : UInt32 := (x >>> n) ||| (x <<< (32 - n))

-- The eight working words, and the chaining value h[0..7] they start from.
structure Words where
  a : UInt32
  b : UInt32
  c : UInt32
  d : UInt32
  e : UInt32
  f : UInt32
  g : UInt32
  h : UInt32
  deriving DecidableEq

def initialHash : Words := ⟨0x6a09e667,0xbb67ae85,0x3c6ef372,0xa54ff53a,0x510e527f,0x9b05688c,0x1f83d9ab,0x5be0cd19⟩

-- w[i] for i < 16: four big-endian bytes of the block.
def blockWord (p : Bytes) (i : ℕ) : UInt32 :=
  ((p.getD (i*4) 0).toUInt32 <<< 24) ||| ((p.getD (i*4+1) 0).toUInt32 <<< 16) |||
    ((p.getD (i*4+2) 0).toUInt32 <<< 8) ||| (p.getD (i*4+3) 0).toUInt32

-- One turn of the loop that fills w[16..63]; the list holds w[0..i-1].
def extend (w : List UInt32) (i : ℕ) : List UInt32 :=
  let s0 := rotr (w.getD (i-15) 0) 7 ^^^ rotr (w.getD (i-15) 0) 18 ^^^ (w.getD (i-15) 0 >>> 3)
  let s1 := rotr (w.getD (i-2) 0) 17 ^^^ rotr (w.getD (i-2) 0) 19 ^^^ (w.getD (i-2) 0 >>> 10)
  w ++ [w.getD (i-16) 0 + s0 + w.getD (i-7) 0 + s1]

def schedule (p : Bytes) : List UInt32 :=
  (List.range' 16 48).foldl extend ((List.range 16).map (blockWord p))

def round (s : Words) (k w : UInt32) : Words :=
  let S1 := rotr s.e 6 ^^^ rotr s.e 11 ^^^ rotr s.e 25
  let ch := (s.e &&& s.f) ^^^ (~~~s.e &&& s.g)
  let temp1 := s.h + S1 + ch + k + w
  let S0 := rotr s.a 2 ^^^ rotr s.a 13 ^^^ rotr s.a 22
  let maj := (s.a &&& s.b) ^^^ (s.a &&& s.c) ^^^ (s.b &&& s.c)
  let temp2 := S0 + maj
  ⟨temp1 + temp2,s.a,s.b,s.c,s.d + temp1,s.e,s.f,s.g⟩

def processBlock (h : Words) (p : Bytes) : Words :=
  let w := schedule p
  let s := (List.range 64).foldl (fun s i => round s (K.getD i 0) (w.getD i 0)) h
  ⟨h.a + s.a,h.b + s.b,h.c + s.c,h.d + s.d,h.e + s.e,h.f + s.f,h.g + s.g,h.h + s.h⟩

-- memcpy(buffer + pos, data, data.size())
def overwrite (buffer : Bytes) (pos : ℕ) (data : Bytes) : Bytes :=
  buffer.take pos ++ data ++ buffer.drop (pos + data.length)

theorem overwrite_length {buffer data : Bytes} (fits : pos + data.length ≤ buffer.length) :
    (overwrite buffer pos data).length = buffer.length := by
  simp only [overwrite,List.length_append,List.length_take,List.length_drop]
  omega

-- The buffer is an array of 64 bytes; those from bufLen on are stale.
structure Sha256Ctx where
  h : Words
  bitLen : UInt64
  buffer : Bytes
  bufLen : ℕ
  size : buffer.length = 64
  room : bufLen < 64

namespace Sha256Ctx

-- The source leaves the fresh buffer uninitialised; no byte of it is read
-- before it is written (hash_eq holds for every fresh buffer).
def fresh (buffer : Bytes) (size : buffer.length = 64) : Sha256Ctx := ⟨initialHash,0,buffer,0,size,by decide⟩

def take (ctx : Sha256Ctx) (data : Bytes) : ℕ := min data.length (64 - ctx.bufLen)

theorem take_fits (ctx : Sha256Ctx) (data : Bytes) :
    ctx.bufLen + (data.take (ctx.take data)).length ≤ ctx.buffer.length := by
  have room := ctx.room
  simp only [List.length_take,ctx.size,take]
  omega

-- The body of the loop of update, for the bytes still to be fed.
def feed (ctx : Sha256Ctx) (data : Bytes) : Sha256Ctx :=
  let buffer := overwrite ctx.buffer ctx.bufLen (data.take (ctx.take data))
  have size : buffer.length = 64 := (overwrite_length (ctx.take_fits data)).trans ctx.size
  if full : ctx.bufLen + ctx.take data = 64 then
    ⟨processBlock ctx.h buffer,ctx.bitLen,buffer,0,size,by decide⟩
  else
    ⟨ctx.h,ctx.bitLen,buffer,ctx.bufLen + ctx.take data,size,by
      have room := ctx.room
      unfold take at full ⊢
      omega⟩

def updateLoop (ctx : Sha256Ctx) (data : Bytes) : Sha256Ctx :=
  if data = [] then ctx else updateLoop (ctx.feed data) (data.drop (ctx.take data))
termination_by data.length
decreasing_by
  rename_i some
  have room := ctx.room
  have positive := List.length_pos_of_ne_nil some
  simp only [List.length_drop,take]
  omega

def update (ctx : Sha256Ctx) (data : Bytes) : Sha256Ctx :=
  updateLoop { ctx with bitLen := ctx.bitLen + UInt64.ofNat data.length * 8 } data

-- The bytes fed since the last full block.
def pending (ctx : Sha256Ctx) : Bytes := ctx.buffer.take ctx.bufLen

theorem pending_length (ctx : Sha256Ctx) : ctx.pending.length = ctx.bufLen := by
  have room := ctx.room
  have size := ctx.size
  simp only [pending,List.length_take]
  omega

theorem feed_bitLen (ctx : Sha256Ctx) (data : Bytes) : (ctx.feed data).bitLen = ctx.bitLen := by
  unfold feed
  dsimp only
  split <;> rfl

theorem updateLoop_bitLen (ctx : Sha256Ctx) (data : Bytes) : (ctx.updateLoop data).bitLen = ctx.bitLen := by
  fun_induction updateLoop ctx data with
  | case1 ctx => rfl
  | case2 ctx data some ih => rw [ih,feed_bitLen]

theorem overwrite_pending (ctx : Sha256Ctx) (data : Bytes) : overwrite ctx.buffer ctx.bufLen (data.take (ctx.take data)) =
    (ctx.pending ++ data.take (ctx.take data)) ++ ctx.buffer.drop (ctx.bufLen + (data.take (ctx.take data)).length) := rfl

theorem pending_take_length (ctx : Sha256Ctx) (data : Bytes) :
    (ctx.pending ++ data.take (ctx.take data)).length = ctx.bufLen + ctx.take data := by
  simp only [List.length_append,pending_length,List.length_take,take]
  omega

-- A full buffer has no stale bytes left.
theorem overwrite_full {ctx : Sha256Ctx} {data : Bytes} (full : ctx.bufLen + ctx.take data = 64) :
    overwrite ctx.buffer ctx.bufLen (data.take (ctx.take data)) = ctx.pending ++ data.take (ctx.take data) := by
  have size := ctx.size
  have nothing : ctx.buffer.drop (ctx.bufLen + (data.take (ctx.take data)).length) = [] := by
    apply List.drop_eq_nil_of_le
    rw [← pending_length,← List.length_append,pending_take_length]
    omega
  rw [overwrite_pending,nothing,List.append_nil]

-- One turn moves the bytes it takes behind the pending ones, and folds the
-- compression over the block they complete.
theorem feed_fold (ctx : Sha256Ctx) (data : Bytes) :
    ((ctx.feed data).h,(ctx.feed data).pending) =
      Blocks.fold 64 processBlock ctx.h (ctx.pending ++ data.take (ctx.take data)) := by
  have room := ctx.room
  have length := pending_take_length ctx data
  unfold feed
  dsimp only
  split
  · rename_i full
    rw [Blocks.fold_one _ _ (length.trans full)]
    refine Prod.ext ?_ rfl
    change processBlock ctx.h (overwrite _ _ _) = _
    rw [overwrite_full full]
  · rename_i partly
    have short : (ctx.pending ++ data.take (ctx.take data)).length < 64 := by
      unfold take at *
      omega
    rw [Blocks.fold_short _ _ short]
    refine Prod.ext rfl ?_
    change List.take (ctx.bufLen + ctx.take data) (overwrite _ _ _) = _
    rw [overwrite_pending,List.take_left' length]

theorem pending_cut (ctx : Sha256Ctx) (data : Bytes) :
    ctx.pending ++ data = (ctx.pending ++ data.take (ctx.take data)) ++ data.drop (ctx.take data) := by
  rw [List.append_assoc,List.take_append_drop]

theorem updateLoop_fold (ctx : Sha256Ctx) (data : Bytes) :
    ((ctx.updateLoop data).h,(ctx.updateLoop data).pending) =
      Blocks.fold 64 processBlock ctx.h (ctx.pending ++ data) := by
  fun_induction updateLoop ctx data with
  | case1 ctx =>
    have room := ctx.room
    rw [List.append_nil,Blocks.fold_short _ _ (by rwa [pending_length])]
  | case2 ctx data some ih =>
    have first := feed_fold ctx data
    rw [ih,pending_cut ctx data,Blocks.fold_append _ _ (ctx.pending ++ _),← first]

theorem update_fold (ctx : Sha256Ctx) (data : Bytes) :
    ((ctx.update data).h,(ctx.update data).pending) =
      Blocks.fold 64 processBlock ctx.h (ctx.pending ++ data) :=
  updateLoop_fold _ data

theorem update_bitLen (ctx : Sha256Ctx) (data : Bytes) :
    (ctx.update data).bitLen = ctx.bitLen + UInt64.ofNat data.length * 8 :=
  updateLoop_bitLen _ data

theorem update_bufLen (ctx : Sha256Ctx) (data : Bytes) :
    (ctx.update data).bufLen = (ctx.bufLen + data.length) % 64 := by
  have folded := congrArg (fun pair => pair.2.length) (update_fold ctx data)
  simp only [pending_length,Blocks.fold_rest_length,List.length_append] at folded
  exact folded

-- while (buf_len != 56) update(&zero, 1)
def padLoop (ctx : Sha256Ctx) : Sha256Ctx :=
  if ctx.bufLen = 56 then ctx else padLoop (ctx.update [0])
termination_by (120 - ctx.bufLen) % 64
decreasing_by
  have room := ctx.room
  have next := update_bufLen ctx [0]
  simp only [List.length_singleton] at next
  rw [next]
  omega

-- What a context has taken in: the compression folded over the full blocks, the
-- bytes after them in the buffer, and the count of all bits that went through.
def Absorbed (ctx : Sha256Ctx) (fed : Bytes) : Prop :=
  (ctx.h,ctx.pending) = Blocks.fold 64 processBlock initialHash fed ∧
    ctx.bitLen = UInt64.ofNat fed.length * 8

theorem fresh_absorbed (buffer : Bytes) (size : buffer.length = 64) : (fresh buffer size).Absorbed [] := by
  refine ⟨?_,rfl⟩
  rw [Blocks.fold_short _ _ (by decide)]
  rfl

theorem Absorbed.update {ctx : Sha256Ctx} (absorbed : ctx.Absorbed fed) (data : Bytes) :
    (ctx.update data).Absorbed (fed ++ data) := by
  obtain ⟨folded,counted⟩ := absorbed
  constructor
  · rw [update_fold,Blocks.fold_append _ _ fed,← folded]
  · rw [update_bitLen,counted,List.length_append,UInt64.ofNat_add,UInt64.add_mul]

theorem Absorbed.bufLen {ctx : Sha256Ctx} (absorbed : ctx.Absorbed fed) : ctx.bufLen = fed.length % 64 := by
  rw [← pending_length,← Blocks.fold_rest_length processBlock initialHash,← absorbed.1]

-- Each zero fed brings the end of the padding one byte nearer.
theorem pad_step {ctx : Sha256Ctx} (more : ctx.bufLen ≠ 56) :
    (120 - ctx.bufLen) % 64 = (120 - (ctx.update [0]).bufLen) % 64 + 1 := by
  have room := ctx.room
  have next : (ctx.update [0]).bufLen = (ctx.bufLen + 1) % 64 := update_bufLen ctx [0]
  rw [next]
  omega

theorem padLoop_absorbed {ctx : Sha256Ctx} (absorbed : ctx.Absorbed fed) :
    ctx.padLoop.Absorbed (fed ++ List.replicate ((120 - ctx.bufLen) % 64) 0) ∧ ctx.padLoop.bufLen = 56 := by
  fun_induction padLoop ctx generalizing fed with
  | case1 ctx done =>
    have none : (120 - ctx.bufLen) % 64 = 0 := by rw [done]
    rw [none,List.replicate_zero,List.append_nil]
    exact ⟨absorbed,done⟩
  | case2 ctx more ih =>
    have rest := ih (absorbed.update [0])
    rw [List.append_assoc,List.singleton_append,← List.replicate_succ,← pad_step more] at rest
    exact rest

end Sha256Ctx

-- len_bytes: the eight bytes of the bit counter, most significant first.
def lenBytes (bl : UInt64) : Bytes :=
  [(bl >>> 56).toUInt8,(bl >>> 48).toUInt8,(bl >>> 40).toUInt8,(bl >>> 32).toUInt8,
    (bl >>> 24).toUInt8,(bl >>> 16).toUInt8,(bl >>> 8).toUInt8,bl.toUInt8]

def wordBytes (w : UInt32) : Bytes :=
  [(w >>> 24).toUInt8,(w >>> 16).toUInt8,(w >>> 8).toUInt8,w.toUInt8]

def Words.digest (s : Words) : Digest :=
  ⟨wordBytes s.a ++ wordBytes s.b ++ wordBytes s.c ++ wordBytes s.d ++
    wordBytes s.e ++ wordBytes s.f ++ wordBytes s.g ++ wordBytes s.h,rfl⟩

-- The length is read after the padding went through update.
def Sha256Ctx.finish (ctx : Sha256Ctx) : Digest :=
  let ctx := (ctx.update [0x80]).padLoop
  (processBlock ctx.h (overwrite ctx.buffer 56 (lenBytes ctx.bitLen))).digest

def hash (data : Bytes) : Digest :=
  ((Sha256Ctx.fresh (List.replicate 64 0) rfl).update data).finish

-- The message with its mark and zeros: everything but the length field.
def zeroCount (n : ℕ) : ℕ := (119 - n % 64) % 64

def padded (data : Bytes) : Bytes := data ++ 0x80 :: List.replicate (zeroCount data.length) 0

theorem padded_length (data : Bytes) : (padded data).length % 64 = 56 := by
  simp only [padded,zeroCount,List.length_append,List.length_cons,List.length_replicate]
  omega

-- Chaining value before the last block, and the 56 bytes that open that block.
def body (data : Bytes) : Words × Bytes := Blocks.fold 64 processBlock initialHash (padded data)

theorem Sha256Ctx.Absorbed.marked {ctx : Sha256Ctx} (absorbed : ctx.Absorbed data) :
    data ++ [0x80] ++ List.replicate ((120 - (ctx.update [0x80]).bufLen) % 64) 0 = padded data := by
  have zeros : (120 - (ctx.update [0x80]).bufLen) % 64 = zeroCount data.length := by
    rw [(absorbed.update [0x80]).bufLen,zeroCount,List.length_append,List.length_singleton]
    omega
  rw [zeros,List.append_assoc,List.singleton_append]
  rfl

-- After finish has padded, the last block is one length field short of full.
theorem Sha256Ctx.Absorbed.padLoop {ctx : Sha256Ctx} (absorbed : ctx.Absorbed data) :
    (ctx.update [0x80]).padLoop.Absorbed (padded data) ∧ (ctx.update [0x80]).padLoop.bufLen = 56 := by
  have finished := Sha256Ctx.padLoop_absorbed (absorbed.update [0x80])
  rw [absorbed.marked] at finished
  exact finished

theorem Sha256Ctx.overwrite_last {ctx : Sha256Ctx} (ended : ctx.bufLen = 56) (bl : UInt64) :
    overwrite ctx.buffer 56 (lenBytes bl) = ctx.pending ++ lenBytes bl := by
  have size := ctx.size
  have nothing : ctx.buffer.drop (56 + (lenBytes bl).length) = [] :=
    List.drop_eq_nil_of_le (by simp [lenBytes,size])
  rw [overwrite,nothing,List.append_nil,Sha256Ctx.pending,ended]

-- The last call of process_block depends on what a context has taken in, not on the
-- stale bytes of its buffer.
theorem Sha256Ctx.Absorbed.lastCall {ctx : Sha256Ctx} (absorbed : ctx.Absorbed data) :
    ((ctx.update [0x80]).padLoop.h,
      overwrite (ctx.update [0x80]).padLoop.buffer 56 (lenBytes (ctx.update [0x80]).padLoop.bitLen)) =
    ((body data).1,(body data).2 ++ lenBytes (UInt64.ofNat (padded data).length * 8)) := by
  obtain ⟨⟨folded,counted⟩,ended⟩ := absorbed.padLoop
  have chain : (ctx.update [0x80]).padLoop.h = (body data).1 := congrArg Prod.fst folded
  have tail : (ctx.update [0x80]).padLoop.pending = (body data).2 := congrArg Prod.snd folded
  rw [Sha256Ctx.overwrite_last ended,chain,tail,counted]

theorem Sha256Ctx.Absorbed.finish {ctx : Sha256Ctx} (absorbed : ctx.Absorbed data) : ctx.finish =
    (processBlock (body data).1 ((body data).2 ++ lenBytes (UInt64.ofNat (padded data).length * 8))).digest := by
  obtain ⟨chain,block⟩ := Prod.mk.inj absorbed.lastCall
  unfold Sha256Ctx.finish
  dsimp only
  rw [block,chain]

theorem hash_fresh (data buffer : Bytes) (size : buffer.length = 64) :
    ((Sha256Ctx.fresh buffer size).update data).finish =
      (processBlock (body data).1
        ((body data).2 ++ lenBytes (UInt64.ofNat (padded data).length * 8))).digest :=
  ((Sha256Ctx.fresh_absorbed buffer size).update data).finish

theorem hash_eq (data : Bytes) : hash data = (processBlock (body data).1
    ((body data).2 ++ lenBytes (UInt64.ofNat (padded data).length * 8))).digest :=
  hash_fresh data _ rfl

def combine (left right : Digest) : Digest := hash (left.bytes ++ right.bytes)

def hexDigit (n : UInt8) : UInt8 := if n < 10 then 48 + n else 87 + n

def toHex (d : Digest) : Bytes := d.bytes.flatMap (fun b : UInt8 => [hexDigit (b >>> 4),hexDigit (b &&& 15)])

end Sha256
end P2PSync
