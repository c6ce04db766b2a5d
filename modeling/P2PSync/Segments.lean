import P2PSync.Framing

-- The socket underneath the frames: recv and send pass on as many bytes as they like,
-- and the loops around them make up for it.
namespace P2PSync.Segments
open Network Sha256

-- How many bytes the i-th call on a socket is ready to pass on. The result of a call is
-- cut to what is asked for and to what is there, so that every sequence of positive
-- results that a socket may give is the one of some sizes.
abbrev Sizes := ℕ → ℕ+

-- The receiving end: what the peer sends until it closes, and the calls made so far.
structure Inbound where
  stream : Bytes
  calls : ℕ

def Inbound.recv (sizes : Sizes) (sock : Inbound) (len : ℕ) : Bytes × Inbound :=
  let n := min (sizes sock.calls : ℕ) len
  (sock.stream.take n,⟨sock.stream.drop n,sock.calls + 1⟩)

-- A piece is no longer than asked for, and empty only at the end of the stream.
structure Piece (stream piece rest : Bytes) (len : ℕ) : Prop where
  whole : stream = piece ++ rest
  fits : piece.length ≤ len
  ends : piece = [] → stream = []

theorem recv_piece (sizes : Sizes) (sock : Inbound) (asked : 0 < len) :
    Piece sock.stream (sock.recv sizes len).1 (sock.recv sizes len).2.stream len := by
  have some := (sizes sock.calls).pos
  refine ⟨(List.take_append_drop _ _).symm,?_,?_⟩
  · simp only [Inbound.recv,List.length_take]
    omega
  · intro nothing
    rcases List.take_eq_nil_iff.mp nothing with none | done
    · omega
    · exact done

theorem Piece.shorter (split : Piece stream piece rest len) (some : piece ≠ []) : rest.length < stream.length := by
  have positive := List.length_pos_of_ne_nil some
  rw [split.whole,List.length_append]
  omega

-- What recv_all returns, with the caller's buffer as it leaves it.
structure Received where
  ok : Bool
  data : Bytes
  sock : Inbound

def recvAll (sizes : Sizes) (data : Bytes) (got : ℕ) (sock : Inbound) : Received :=
  if got < data.length then
    let arrived := sock.recv sizes (data.length - got)
    if arrived.1 = [] then ⟨false,data,arrived.2⟩
    else recvAll sizes (overwrite data got arrived.1) (got + arrived.1.length) arrived.2
  else ⟨true,data,sock⟩
termination_by sock.stream.length
decreasing_by
  rename_i more some
  exact (recv_piece sizes sock (Nat.sub_pos_of_lt more)).shorter some

theorem overwrite_twice {data piece : Bytes} (fits : pos + piece.length ≤ data.length) (more : Bytes) :
    overwrite (overwrite data pos piece) (pos + piece.length) more = overwrite data pos (piece ++ more) := by
  have front : (data.take pos ++ piece).length = pos + piece.length := by
    rw [List.length_append,List.length_take]
    omega
  have tail : pos + piece.length + (pos + piece.length + more.length - (pos + piece.length)) =
      pos + (piece ++ more).length := by
    rw [List.length_append]
    omega
  simp only [overwrite]
  rw [List.take_left' front,List.drop_append,List.drop_eq_nil_of_le (by omega),List.nil_append,front,List.drop_drop,tail,
    List.append_assoc (data.take pos)]

theorem recvAll_stream (sizes : Sizes) (data : Bytes) (got : ℕ) (sock : Inbound) (fits : got ≤ data.length) :
    (recvAll sizes data got sock).ok = decide (data.length - got ≤ sock.stream.length) ∧
    (recvAll sizes data got sock).data = overwrite data got (sock.stream.take (data.length - got)) ∧
    (recvAll sizes data got sock).sock.stream = sock.stream.drop (data.length - got) := by
  fun_induction recvAll sizes data got sock with
  | case1 data got sock more arrived nothing =>
    have piece : Piece sock.stream arrived.1 arrived.2.stream (data.length - got) :=
      recv_piece sizes sock (Nat.sub_pos_of_lt more)
    have ended := piece.ends nothing
    have rest : arrived.2.stream = [] := by simpa [ended,nothing] using piece.whole.symm
    simp [ended,rest,overwrite]
    omega
  | case2 data got sock more arrived some ih =>
    have piece : Piece sock.stream arrived.1 arrived.2.stream (data.length - got) :=
      recv_piece sizes sock (Nat.sub_pos_of_lt more)
    have inside : got + arrived.1.length ≤ data.length := by
      have short := piece.fits
      omega
    have same : (overwrite data got arrived.1).length = data.length := overwrite_length inside
    have left : data.length - (got + arrived.1.length) = data.length - got - arrived.1.length := by omega
    rw [same,left] at ih
    obtain ⟨ok,written,rest⟩ := ih (by omega)
    rw [ok,written,rest,overwrite_twice inside,piece.whole,List.take_append,List.drop_append,
      List.take_of_length_le piece.fits,List.drop_eq_nil_of_le piece.fits,List.length_append]
    refine ⟨?_,rfl,rfl⟩
    rw [decide_eq_decide]
    omega
  | case3 data got sock full =>
    have none : data.length - got = 0 := by omega
    simp [none,overwrite]

-- recv_frame behind the header: the payload is filled with zeros before it is read.
def recvPayload (sizes : Sizes) (type : UInt8) (len : ℕ) (sock : Inbound) : Bool × Frame × Inbound :=
  let payload := List.replicate len 0
  if len > 0 then
    let body := recvAll sizes payload 0 sock
    (body.ok,⟨type,body.data⟩,body.sock)
  else (true,⟨type,payload⟩,sock)

-- recv_frame with the caller's variables: they keep their values where the header does
-- not arrive, and hold what did arrive where the payload breaks off. The source leaves
-- the five bytes of the header uninitialised; none is read before all are written.
def recvFrame (sizes : Sizes) (out : Frame) (sock : Inbound) : Bool × Frame × Inbound :=
  let header := recvAll sizes (List.replicate 5 0) 0 sock
  if header.ok then
    let len := readLength (header.data.getD 0 0) (header.data.getD 1 0) (header.data.getD 2 0) (header.data.getD 3 0)
    recvPayload sizes (header.data.getD 4 0) len.toNat header.sock
  else (false,out,header.sock)

theorem recvPayload_stream (sizes : Sizes) (type : UInt8) (len : ℕ) (sock : Inbound) :
    (recvPayload sizes type len sock).1 = decide (len ≤ sock.stream.length) ∧
    (recvPayload sizes type len sock).2.1 = ⟨type,sock.stream.take len ++ List.replicate (len - sock.stream.length) 0⟩ ∧
    (recvPayload sizes type len sock).2.2.stream = sock.stream.drop len := by
  unfold recvPayload
  by_cases some : len > 0
  · obtain ⟨ok,written,rest⟩ := recvAll_stream sizes (List.replicate len 0) 0 sock (Nat.zero_le _)
    simp only [List.length_replicate,Nat.sub_zero] at ok written rest
    have padding : len - min len sock.stream.length = len - sock.stream.length := by omega
    simp [some,ok,written,rest,overwrite,padding]
  · have none : len = 0 := by omega
    simp [none]

-- The same of the stream alone.
def leftOver (out : Frame) : Bytes → Frame
  | a :: b :: c :: d :: type :: rest => ⟨type,rest ++ List.replicate ((readLength a b c d).toNat - rest.length) 0⟩
  | _ => out

def frameOf (out : Frame) (stream : Bytes) : Bool × Frame × Bytes :=
  match Network.recvFrame stream with
  | some (frame,rest) => (true,frame,rest)
  | none => (false,leftOver out stream,[])

theorem frameOf_short {stream : Bytes} (short : stream.length < 5) (out : Frame) : frameOf out stream = (false,out,[]) := by
  rcases stream with _ | ⟨a,_ | ⟨b,_ | ⟨c,_ | ⟨d,_ | ⟨type,rest⟩⟩⟩⟩⟩
  · rfl
  · rfl
  · rfl
  · rfl
  · rfl
  · simp at short
    omega

theorem header_split {stream : Bytes} (enough : 5 ≤ stream.length) : ∃ a b c d type rest, stream = a :: b :: c :: d :: type :: rest := by
  rcases stream with _ | ⟨a,_ | ⟨b,_ | ⟨c,_ | ⟨d,_ | ⟨type,rest⟩⟩⟩⟩⟩
  · simp at enough
  · simp at enough
  · simp at enough
  · simp at enough
  · simp at enough
  · exact ⟨a,b,c,d,type,rest,rfl⟩

theorem recvFrame_stream (sizes : Sizes) (out : Frame) (sock : Inbound) :
    ((recvFrame sizes out sock).1,(recvFrame sizes out sock).2.1,(recvFrame sizes out sock).2.2.stream) = frameOf out sock.stream := by
  obtain ⟨ok,written,rest⟩ := recvAll_stream sizes (List.replicate 5 0) 0 sock (Nat.zero_le _)
  simp only [List.length_replicate,Nat.sub_zero] at ok written rest
  unfold recvFrame
  generalize recvAll sizes (List.replicate 5 0) 0 sock = header at ok written rest
  by_cases enough : 5 ≤ sock.stream.length
  · obtain ⟨a,b,c,d,type,later,stream⟩ := header_split enough
    have data : header.data = [a,b,c,d,type] := by simp [written,stream,overwrite]
    have left : header.sock.stream = later := by simp [rest,stream]
    have arrived : header.ok = true := by simp [ok,enough]
    obtain ⟨ok',written',rest'⟩ := recvPayload_stream sizes type (readLength a b c d).toNat header.sock
    rw [left] at ok' written' rest'
    simp only [arrived,if_true,data,List.getD_cons_zero,List.getD_cons_succ]
    rw [ok',written',rest',stream]
    simp only [frameOf,Network.recvFrame,leftOver]
    by_cases complete : (readLength a b c d).toNat ≤ later.length
    · simp [complete]
    · simp [complete]
      omega
  · have broken : header.ok = false := by simp [ok,enough]
    have nothing : header.sock.stream = [] := by
      rw [rest]
      exact List.drop_eq_nil_of_le (by omega)
    rw [frameOf_short (by omega)]
    simp [broken,nothing]

theorem recvFrame_shorter {stream : Bytes} (got : Network.recvFrame stream = some (frame,rest)) : rest.length < stream.length := by
  by_cases enough : 5 ≤ stream.length
  · obtain ⟨a,b,c,d,type,later,rfl⟩ := header_split enough
    simp only [Network.recvFrame] at got
    split at got
    · cases got
      simp only [List.length_drop,List.length_cons]
      omega
    · cases got
  · have short := frameOf_short (by omega : stream.length < 5) ⟨0,[]⟩
    simp [frameOf,got] at short

-- A frame is received where the stream has one, and nothing else is.
theorem recvFrame_ok {sizes : Sizes} {sock : Inbound} (ok : (recvFrame sizes out sock).1 = true) :
    Network.recvFrame sock.stream = some ((recvFrame sizes out sock).2.1,(recvFrame sizes out sock).2.2.stream) := by
  have whole := recvFrame_stream sizes out sock
  cases got : Network.recvFrame sock.stream with
  | none =>
    simp only [frameOf,got,ok,Prod.mk.injEq] at whole
    cases whole.1
  | some arrived =>
    simp only [frameOf,got,Prod.mk.injEq] at whole
    rw [whole.2.1,whole.2.2]

theorem recvFrame_broken {sizes : Sizes} {sock : Inbound} (broken : ¬ (recvFrame sizes out sock).1 = true) :
    Network.recvFrame sock.stream = none ∧ (recvFrame sizes out sock).2.1 = leftOver out sock.stream := by
  have whole := recvFrame_stream sizes out sock
  cases got : Network.recvFrame sock.stream with
  | none =>
    simp only [frameOf,got,Prod.mk.injEq] at whole
    exact ⟨rfl,whole.2.1⟩
  | some arrived =>
    simp only [frameOf,got,Prod.mk.injEq] at whole
    exact absurd whole.1 broken

-- Successive recv_frame calls with the same variables, up to the first that fails:
-- what each returns and what the variables then hold.
def recvFrames (sizes : Sizes) (out : Frame) (sock : Inbound) : List (Bool × Frame) :=
  let next := recvFrame sizes out sock
  if next.1 = true then (true,next.2.1) :: recvFrames sizes next.2.1 next.2.2 else [(false,next.2.1)]
termination_by sock.stream.length
decreasing_by
  rename_i ok
  exact recvFrame_shorter (recvFrame_ok ok)

def results (out : Frame) (stream : Bytes) : List (Bool × Frame) :=
  match got : Network.recvFrame stream with
  | some (frame,rest) => (true,frame) :: results frame rest
  | none => [(false,leftOver out stream)]
termination_by stream.length
decreasing_by exact recvFrame_shorter got

theorem results_frame {stream : Bytes} (got : Network.recvFrame stream = some (frame,rest)) (out : Frame) :
    results out stream = (true,frame) :: results frame rest := by
  rw [results]
  split
  · rename_i same
    rw [got] at same
    cases same
    rfl
  · rename_i none
    rw [got] at none
    cases none

theorem results_end {stream : Bytes} (got : Network.recvFrame stream = none) (out : Frame) :
    results out stream = [(false,leftOver out stream)] := by
  rw [results]
  split
  · rename_i same
    rw [got] at same
    cases same
  · rfl

-- Whatever the sizes of the pieces, the results are those of the stream.
theorem recvFrames_results (sizes : Sizes) (out : Frame) (sock : Inbound) : recvFrames sizes out sock = results out sock.stream := by
  fun_induction recvFrames sizes out sock with
  | case1 out sock next ok ih => rw [ih,results_frame (recvFrame_ok ok)]
  | case2 out sock next broken =>
    obtain ⟨none,out'⟩ := recvFrame_broken broken
    rw [results_end none,← out']

-- The sending end: what was written, and the calls made so far.
structure Outbound where
  wire : Bytes
  calls : ℕ

def Outbound.send (sizes : Sizes) (sock : Outbound) (data : Bytes) : ℕ × Outbound :=
  let n := min (sizes sock.calls : ℕ) data.length
  (n,⟨sock.wire ++ data.take n,sock.calls + 1⟩)

theorem send_some (sizes : Sizes) (sock : Outbound) {data : Bytes} (some : 0 < data.length) : 0 < (sock.send sizes data).1 := by
  have positive := (sizes sock.calls).pos
  simp only [Outbound.send]
  omega

def sendAll (sizes : Sizes) (data : Bytes) (sent : ℕ) (sock : Outbound) : Outbound :=
  if sent < data.length then
    let written := sock.send sizes (data.drop sent)
    sendAll sizes data (sent + written.1) written.2
  else sock
termination_by data.length - sent
decreasing_by
  rename_i more
  have some := send_some sizes sock (by rwa [List.length_drop,Nat.sub_pos_iff_lt] : 0 < (data.drop sent).length)
  omega

theorem sendAll_wire (sizes : Sizes) (data : Bytes) (sent : ℕ) (sock : Outbound) :
    (sendAll sizes data sent sock).wire = sock.wire ++ data.drop sent := by
  fun_induction sendAll sizes data sent sock with
  | case1 sent sock more written ih =>
    have step : written.2.wire = sock.wire ++ (data.drop sent).take written.1 := rfl
    rw [ih,step,List.append_assoc,← List.drop_drop,List.take_append_drop]
  | case2 sent sock done => rw [List.drop_eq_nil_of_le (by omega),List.append_nil]

def sendFrame (sizes : Sizes) (frame : Frame) (sock : Outbound) : Outbound :=
  let header := wordBytes (UInt32.ofNat frame.payload.length) ++ [frame.type]
  let sock := sendAll sizes header 0 sock
  if frame.payload = [] then sock else sendAll sizes frame.payload 0 sock

theorem sendFrame_wire (sizes : Sizes) (frame : Frame) (sock : Outbound) :
    (sendFrame sizes frame sock).wire = sock.wire ++ Network.sendFrame frame := by
  unfold sendFrame Network.sendFrame
  by_cases nothing : frame.payload = []
  · simp [nothing,sendAll_wire]
  · simp [nothing,sendAll_wire]

-- What is sent in any pieces is received in any pieces, and then the end.
theorem sent_received {frames : List Frame} (small : ∀ frame ∈ frames, frame.payload.length < 2^32) (out : Frame) :
    results out (wire frames) = frames.map (fun frame => (true,frame)) ++ [(false,frames.getLastD out)] := by
  induction frames generalizing out with
  | nil =>
    have nothing : Network.recvFrame (wire []) = none := rfl
    rw [results_end nothing]
    rfl
  | cons frame rest ih =>
    rw [List.forall_mem_cons] at small
    have got := recvFrame_sendFrame frame small.1 (wire rest)
    rw [← Framing.wire_cons] at got
    rw [results_frame got,ih small.2,List.map_cons,List.cons_append,List.getLastD_cons]

theorem sendFrames_wire (sizes : Sizes) (frames : List Frame) (sock : Outbound) :
    (frames.foldl (fun sock frame => sendFrame sizes frame sock) sock).wire = sock.wire ++ wire frames := by
  induction frames generalizing sock with
  | nil => simp [wire]
  | cons frame rest ih => rw [List.foldl_cons,ih,sendFrame_wire,Framing.wire_cons,List.append_assoc]

theorem frames_cross {frames : List Frame} (small : ∀ frame ∈ frames, frame.payload.length < 2^32) (sizes sizes' : Sizes)
    (out : Frame) : recvFrames sizes' out ⟨(frames.foldl (fun sock frame => sendFrame sizes frame sock) ⟨[],0⟩).wire,0⟩ =
      frames.map (fun frame => (true,frame)) ++ [(false,frames.getLastD out)] := by
  rw [recvFrames_results,sendFrames_wire]
  exact sent_received small out

-- Neither end of a connection can tell into what pieces the bytes were cut.
theorem segmentation_invisible (sizes sizes' : Sizes) (calls calls' : ℕ) :
    (∀ (out : Frame) (stream : Bytes),
      recvFrames sizes out ⟨stream,calls⟩ = recvFrames sizes' out ⟨stream,calls'⟩ ∧
      recvFrames sizes out ⟨stream,calls⟩ = results out stream) ∧
    (∀ wire data : Bytes, (sendAll sizes data 0 ⟨wire,calls⟩).wire = wire ++ data) ∧
    ∀ (wire : Bytes) (frame : Frame), (sendFrame sizes frame ⟨wire,calls⟩).wire = wire ++ Network.sendFrame frame := by
  refine ⟨?_,?_,?_⟩
  · intro out stream
    rw [recvFrames_results,recvFrames_results]
    exact ⟨rfl,rfl⟩
  · intro wire data
    rw [sendAll_wire]
    rfl
  · intro wire frame
    exact sendFrame_wire sizes frame ⟨wire,calls⟩

end P2PSync.Segments
