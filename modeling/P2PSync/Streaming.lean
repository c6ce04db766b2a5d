import P2PSync.Sha256

namespace P2PSync.Sha256
namespace Sha256Ctx

-- The process_block calls of the code, each with the chaining value and the block it
-- is called on: in one turn of update's loop, in the loop, in update, in the loop that
-- pads, and in finish with the block of the length field.
def feedCalls (ctx : Sha256Ctx) (data : Bytes) : List (Words × Bytes) :=
  if ctx.bufLen + ctx.take data = 64 then [(ctx.h,overwrite ctx.buffer ctx.bufLen (data.take (ctx.take data)))] else []

def updateLoopCalls (ctx : Sha256Ctx) (data : Bytes) : List (Words × Bytes) :=
  if data = [] then [] else ctx.feedCalls data ++ updateLoopCalls (ctx.feed data) (data.drop (ctx.take data))
termination_by data.length
decreasing_by
  rename_i some
  have room := ctx.room
  have positive := List.length_pos_of_ne_nil some
  simp only [List.length_drop,take]
  omega

def updateCalls (ctx : Sha256Ctx) (data : Bytes) : List (Words × Bytes) :=
  updateLoopCalls { ctx with bitLen := ctx.bitLen + UInt64.ofNat data.length * 8 } data

def padLoopCalls (ctx : Sha256Ctx) : List (Words × Bytes) :=
  if ctx.bufLen = 56 then [] else ctx.updateCalls [0] ++ padLoopCalls (ctx.update [0])
termination_by (120 - ctx.bufLen) % 64
decreasing_by
  have room := ctx.room
  have next := update_bufLen ctx [0]
  simp only [List.length_singleton] at next
  rw [next]
  omega

def finishCalls (ctx : Sha256Ctx) : List (Words × Bytes) :=
  let last := (ctx.update [0x80]).padLoop
  ctx.updateCalls [0x80] ++ (ctx.update [0x80]).padLoopCalls ++ [(last.h,overwrite last.buffer 56 (lenBytes last.bitLen))]

-- The calls of update on one piece after the other.
def feedAllCalls (ctx : Sha256Ctx) : List Bytes → List (Words × Bytes)
  | [] => []
  | piece :: rest => ctx.updateCalls piece ++ feedAllCalls (ctx.update piece) rest

def feedAll (ctx : Sha256Ctx) (pieces : List Bytes) : Sha256Ctx := pieces.foldl update ctx

theorem feed_calls (ctx : Sha256Ctx) (data : Bytes) :
    ctx.feedCalls data = Blocks.calls 64 processBlock ctx.h (ctx.pending ++ data.take (ctx.take data)) := by
  have room := ctx.room
  have length := pending_take_length ctx data
  unfold feedCalls
  by_cases full : ctx.bufLen + ctx.take data = 64
  · rw [if_pos full,overwrite_full full,Blocks.calls_one _ _ (length.trans full)]
  · rw [if_neg full,Blocks.calls_short _ _ (by unfold take at *; omega)]

theorem updateLoop_calls (ctx : Sha256Ctx) (data : Bytes) :
    ctx.updateLoopCalls data = Blocks.calls 64 processBlock ctx.h (ctx.pending ++ data) := by
  fun_induction updateLoopCalls ctx data with
  | case1 ctx =>
    have room := ctx.room
    rw [List.append_nil,Blocks.calls_short _ _ (by rwa [pending_length])]
  | case2 ctx data some ih =>
    have first := feed_fold ctx data
    rw [ih,pending_cut ctx data,Blocks.calls_append _ _ (ctx.pending ++ _),← first,feed_calls]

theorem update_calls (ctx : Sha256Ctx) (data : Bytes) :
    ctx.updateCalls data = Blocks.calls 64 processBlock ctx.h (ctx.pending ++ data) := updateLoop_calls _ data

-- What is called for on a continued stream.
theorem Absorbed.calls {ctx : Sha256Ctx} (absorbed : ctx.Absorbed fed) (data : Bytes) :
    Blocks.calls 64 processBlock initialHash (fed ++ data) =
      Blocks.calls 64 processBlock initialHash fed ++ ctx.updateCalls data := by
  rw [Blocks.calls_append,← absorbed.1,update_calls]

theorem Absorbed.feedAll {ctx : Sha256Ctx} (absorbed : ctx.Absorbed fed) (pieces : List Bytes) :
    (ctx.feedAll pieces).Absorbed (fed ++ pieces.flatten) := by
  induction pieces generalizing ctx fed with
  | nil => simpa [Sha256Ctx.feedAll] using absorbed
  | cons piece rest ih =>
    rw [List.flatten_cons,← List.append_assoc]
    exact ih (absorbed.update piece)

theorem Absorbed.feedAllCalls {ctx : Sha256Ctx} (absorbed : ctx.Absorbed fed) (pieces : List Bytes) :
    Blocks.calls 64 processBlock initialHash (fed ++ pieces.flatten) =
      Blocks.calls 64 processBlock initialHash fed ++ ctx.feedAllCalls pieces := by
  induction pieces generalizing ctx fed with
  | nil => simp [Sha256Ctx.feedAllCalls]
  | cons piece rest ih =>
    rw [List.flatten_cons,← List.append_assoc,ih (absorbed.update piece),absorbed.calls,List.append_assoc]
    rfl

-- The state of a context that took in all of a message so far, by the message alone:
-- the blocks processed, the value they were folded to, and the rest in the buffer.
structure Streamed (ctx : Sha256Ctx) (processed : List Bytes) (fed : Bytes) : Prop where
  room : ctx.bufLen < 64
  count : ctx.bufLen = fed.length % 64
  blocks : processed = Blocks.full 64 fed
  chain : ctx.h = (Blocks.full 64 fed).foldl processBlock initialHash
  rest : ctx.pending = fed.drop (64 * (fed.length / 64))
  padding : (ctx.update [0x80]).padLoop.bufLen = 56

theorem Absorbed.streamed {ctx : Sha256Ctx} (absorbed : ctx.Absorbed fed) : ctx.Streamed (Blocks.full 64 fed) fed where
  room := ctx.room
  count := absorbed.bufLen
  blocks := rfl
  chain := (congrArg Prod.fst absorbed.1).trans (Blocks.fold_full processBlock initialHash fed)
  rest := (congrArg Prod.snd absorbed.1).trans (Blocks.fold_rest processBlock initialHash fed)
  padding := (padLoop_absorbed (absorbed.update [0x80])).2

theorem fresh_feedAllCalls (buffer : Bytes) (size : buffer.length = 64) (pieces : List Bytes) :
    ((fresh buffer size).feedAllCalls pieces).map Prod.snd = Blocks.full 64 pieces.flatten := by
  have whole := (fresh_absorbed buffer size).feedAllCalls pieces
  have start : Blocks.calls 64 processBlock initialHash [] = [] := Blocks.calls_short _ _ (by decide)
  rw [List.nil_append,start,List.nil_append] at whole
  rw [← whole,Blocks.calls_full]

-- However a message is cut, its pieces are hashed like the message in one update, and
-- after each piece the context has processed the full blocks of what was fed so far.
theorem pieces_hashed_whole (buffer other : Bytes) (size : buffer.length = 64) (sized : other.length = 64) (pieces : List Bytes) :
    ((fresh buffer size).feedAll pieces).finish = ((fresh other sized).update pieces.flatten).finish ∧
    ∀ k, ((fresh buffer size).feedAll (pieces.take k)).Streamed
      (((fresh buffer size).feedAllCalls (pieces.take k)).map Prod.snd) (pieces.take k).flatten := by
  constructor
  · have fed := (fresh_absorbed buffer size).feedAll pieces
    rw [List.nil_append] at fed
    rw [fed.finish,hash_fresh]
  · intro k
    have fed := (fresh_absorbed buffer size).feedAll (pieces.take k)
    rw [List.nil_append] at fed
    rw [fresh_feedAllCalls]
    exact fed.streamed

theorem three_pieces_hashed_whole :
    ((fresh (List.replicate 64 7) rfl).feedAll [[1],[],[2,3]]).finish =
      ((fresh (List.replicate 64 0) rfl).update [1,2,3]).finish ∧
    ((fresh (List.replicate 64 7) rfl).feedAll [[1],[],[2,3]]).bufLen = 3 := by
  have whole := pieces_hashed_whole (List.replicate 64 7) (List.replicate 64 0) rfl rfl [[1],[],[2,3]]
  exact ⟨whole.1,(whole.2 3).count⟩

end Sha256Ctx
end P2PSync.Sha256
