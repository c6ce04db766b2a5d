import P2PSync.Segments
import P2PSync.Fidelity

-- A session on a socket: its frames pass through send and recv in pieces of any size,
-- and the connection may break after any byte in either direction.
namespace P2PSync.Transport
open Network Segments Sha256

-- What send_all leaves. The peer takes only so many bytes before send fails.
structure Written where
  ok : Bool
  sock : Outbound
  room : ℕ

def sendAll (sizes : Sizes) (data : Bytes) (sent : ℕ) (sock : Outbound) (room : ℕ) : Written :=
  if sent < data.length then
    let written := sock.send sizes ((data.drop sent).take room)
    if written.1 = 0 then ⟨false,written.2,room⟩
    else sendAll sizes data (sent + written.1) written.2 (room - written.1)
  else ⟨true,sock,room⟩
termination_by data.length - sent
decreasing_by
  rename_i more some
  have positive : (sock.send sizes ((data.drop sent).take room)).1 ≠ 0 := some
  omega

def sendFrame (sizes : Sizes) (frame : Frame) (sock : Outbound) (room : ℕ) : Written :=
  let header := sendAll sizes (wordBytes (UInt32.ofNat frame.payload.length) ++ [frame.type]) 0 sock room
  if header.ok then
    if frame.payload = [] then header else sendAll sizes frame.payload 0 header.sock header.room
  else header

-- A send of data on a socket with room for some of it.
structure Sends (data before : Bytes) (room : ℕ) (written : Written) : Prop where
  ok : written.ok = decide (data.length ≤ room)
  wire : written.sock.wire = before ++ data.take room
  left : written.room = room - data.length

theorem sendAll_sends (sizes : Sizes) (data : Bytes) (sent : ℕ) (sock : Outbound) (room : ℕ) :
    Sends (data.drop sent) sock.wire room (sendAll sizes data sent sock room) := by
  fun_induction sendAll sizes data sent sock room with
  | case1 sent sock room more written nothing =>
    -- send passes nothing on only where there is no room.
    have full : room = 0 := by
      by_contra some
      have waiting : 0 < ((data.drop sent).take room).length := by
        simp
        omega
      have passed := send_some sizes sock waiting
      exact passed.ne' nothing
    subst full
    refine ⟨?_,?_,?_⟩
    · simp
      omega
    · simp [written,Outbound.send]
    · simp
  | case2 sent sock room more written some ih =>
    have short : written.1 ≤ ((data.drop sent).take room).length := by
      simp only [written,Outbound.send]
      omega
    have wire : written.2.wire = sock.wire ++ ((data.drop sent).take room).take written.1 := rfl
    rw [List.length_take,List.length_drop] at short
    obtain ⟨ok,passed,left⟩ := ih
    rw [wire] at passed
    refine ⟨?_,?_,?_⟩
    · rw [ok,decide_eq_decide,List.length_drop,List.length_drop]
      omega
    · have split : room = written.1 + (room - written.1) := by omega
      rw [passed,List.append_assoc,List.take_take,min_eq_left (by omega)]
      conv_rhs => rw [split,List.take_add,List.drop_drop]
    · rw [left,List.length_drop,List.length_drop]
      omega
  | case3 sent sock room done =>
    have nothing : data.drop sent = [] := List.drop_eq_nil_of_le (by omega)
    rw [nothing]
    exact ⟨by simp,by simp,rfl⟩

theorem Sends.append (first : Sends front before room one) (fits : one.ok = true) (second : Sends back one.sock.wire one.room two) :
    Sends (front ++ back) before room two := by
  have room' := first.left
  have enough : front.length ≤ room := by simpa [first.ok] using fits
  refine ⟨?_,?_,?_⟩
  · rw [second.ok,decide_eq_decide,List.length_append]
    omega
  · rw [second.wire,first.wire,List.take_append,List.append_assoc,room',List.take_of_length_le enough]
  · rw [second.left,List.length_append]
    omega

theorem Sends.broken (first : Sends front before room one) (fails : ¬ one.ok = true) (back : Bytes) :
    Sends (front ++ back) before room one := by
  have short : room < front.length := by simpa [first.ok] using fails
  refine ⟨?_,?_,?_⟩
  · rw [first.ok,decide_eq_decide,List.length_append]
    omega
  · rw [first.wire,List.take_append_of_le_length short.le]
  · rw [first.left,List.length_append]
    omega

theorem sendFrame_sends (sizes : Sizes) (frame : Frame) (sock : Outbound) (room : ℕ) :
    Sends (Network.sendFrame frame) sock.wire room (sendFrame sizes frame sock room) := by
  have whole : Network.sendFrame frame = (wordBytes (UInt32.ofNat frame.payload.length) ++ [frame.type]) ++ frame.payload := by
    simp [Network.sendFrame]
  have header := sendAll_sends sizes (wordBytes (UInt32.ofNat frame.payload.length) ++ [frame.type]) 0 sock room
  rw [List.drop_zero] at header
  unfold sendFrame
  dsimp only
  rw [whole]
  split
  · rename_i fits
    split
    · rename_i empty
      rw [empty,List.append_nil]
      rw [empty] at header
      exact header
    · generalize sendAll sizes _ 0 sock room = one at header fits ⊢
      have payload := sendAll_sends sizes frame.payload 0 one.sock one.room
      rw [List.drop_zero] at payload
      exact header.append fits payload
  · rename_i fails
    exact header.broken fails _

-- How a session ends on a socket: the engine, what the caller gets, and what was written.
structure Ending where
  engine : SyncEngine
  result : Except Error SyncStats
  received : List Frame
  wire : Bytes

def sendFailed : Error := .runtimeError (ascii "send() failed / peer closed connection")

def recvFailed : Error := .runtimeError (ascii "recv() failed")

-- The session with its type and payload variables in out. reset says that what arrives
-- ends in an error of recv instead of a disconnect.
def transact (sending receiving : Sizes) (reset : Bool) : Session → Frame → Inbound → Outbound → ℕ → Ending
  | .stop e result,_,_,outbound,_ => ⟨e,result,[],outbound.wire⟩
  | .send e frame next,out,inbound,outbound,room =>
    let written := sendFrame sending frame outbound room
    if written.ok then transact sending receiving reset next out inbound written.sock written.room
    else ⟨e,.error sendFailed,[],written.sock.wire⟩
  | .recv e next,out,inbound,outbound,room =>
    let (ok,frame,inbound) := recvFrame receiving out inbound
    if ok then
      let ending := transact sending receiving reset (next (some frame)) frame inbound outbound room
      { ending with received := frame :: ending.received }
    else if reset then ⟨e,.error recvFailed,[],outbound.wire⟩
    else transact sending receiving reset (next none) frame inbound outbound room

-- The ending that an outcome of the frames gives, with the part of a last frame that
-- still went out before send failed.
def Outcome.ending (o : Outcome) (before rest : Bytes) : Ending := ⟨o.engine,o.result,o.received,before ++ (wire o.sent ++ rest)⟩

-- What of a frame still went out when send failed: the frame, the next after those that
-- were taken, broke off where the room for bytes ended.
structure Breaks (s : Session) (stream : Bytes) (reset : Bool) (room takes : ℕ) (rest : Bytes) (frame : Frame) : Prop where
  failed : (s.run ⟨stream,reset,takes⟩).result = .error sendFailed
  next : (s.run ⟨stream,reset,takes+1⟩).sent = (s.run ⟨stream,reset,takes⟩).sent ++ [frame]
  cut : rest <+: Network.sendFrame frame ∧ rest ≠ Network.sendFrame frame
  full : (wire (s.run ⟨stream,reset,takes⟩).sent).length + rest.length = room

theorem Breaks.same {s t : Session} (breaks : Breaks s stream reset room takes rest frame)
    (result : ∀ n, (t.run ⟨stream',reset',n⟩).result = (s.run ⟨stream,reset,n⟩).result)
    (sent : ∀ n, (t.run ⟨stream',reset',n⟩).sent = (s.run ⟨stream,reset,n⟩).sent) : Breaks t stream' reset' room takes rest frame :=
  ⟨by rw [result,breaks.failed],by rw [sent,sent,breaks.next],breaks.cut,by rw [sent,breaks.full]⟩

-- A session over a stream and a peer with room for some bytes comes to this end, whatever
-- the pieces, the variables and the calls and bytes before it.
structure Ends (s : Session) (stream : Bytes) (reset : Bool) (room takes : ℕ) (rest : Bytes) : Prop where
  refines : ∀ sending receiving out calls calls' before, transact sending receiving reset s out ⟨stream,calls⟩ ⟨before,calls'⟩ room =
    Outcome.ending (s.run ⟨stream,reset,takes⟩) before rest
  rest : rest = [] ∨ ∃ frame, Breaks s stream reset room takes rest frame

theorem ends_stop (e : SyncEngine) (result : Except Error SyncStats) (stream : Bytes) (reset : Bool) (room takes : ℕ) :
    Ends (.stop e result) stream reset room takes [] := by
  refine ⟨?_,.inl rfl⟩
  intro sending receiving out calls calls' before
  simp [transact,Outcome.ending,Session.run,wire]

theorem ends_send {next : Session} (e : SyncEngine) (frame : Frame) (fits : (Network.sendFrame frame).length ≤ room)
    (later : Ends next stream reset (room - (Network.sendFrame frame).length) takes rest) :
    Ends (.send e frame next) stream reset room (takes + 1) rest := by
  have run : ∀ n, ((Session.send e frame next).run ⟨stream,reset,n+1⟩).sent = frame :: (next.run ⟨stream,reset,n⟩).sent := fun _ => rfl
  refine ⟨?_,later.rest.imp_right ?_⟩
  rotate_left
  · rintro ⟨last,failed,after,cut,full⟩
    refine ⟨last,failed,by rw [run,run,after,List.cons_append],cut,?_⟩
    rw [run,Framing.wire_cons,List.length_append]
    omega
  intro sending receiving out calls calls' before
  obtain ⟨ok,wrote,left⟩ := sendFrame_sends sending frame ⟨before,calls'⟩ room
  rw [transact]
  generalize sendFrame sending frame ⟨before,calls'⟩ room = written at ok wrote left
  obtain ⟨ok',⟨wire',calls''⟩,room'⟩ := written
  dsimp only at ok wrote left ⊢
  rw [ok,if_pos (decide_eq_true fits),wrote,left,later.refines]
  simp [Outcome.ending,Session.run,wire,List.take_of_length_le fits]

theorem ends_unsent (e : SyncEngine) (frame : Frame) (next : Session) (stream : Bytes) (reset : Bool)
    (short : room < (Network.sendFrame frame).length) :
    Ends (.send e frame next) stream reset room 0 ((Network.sendFrame frame).take room) := by
  have length : ((Network.sendFrame frame).take room).length = room := List.length_take_of_le short.le
  have only : ∀ s : Session, (s.run ⟨stream,reset,0⟩).sent = [] := fun s => List.length_eq_zero_iff.mp (Nat.le_zero.mp (run_takes s _))
  have breaks : Breaks (.send e frame next) stream reset room 0 ((Network.sendFrame frame).take room) frame := by
    refine ⟨rfl,?_,⟨List.take_prefix room _,fun whole => ?_⟩,?_⟩
    · change frame :: (next.run ⟨stream,reset,0⟩).sent = [] ++ [frame]
      rw [only,List.nil_append]
    · rw [whole] at length
      omega
    · rw [only,length]
      simp [wire]
  refine ⟨?_,.inr ⟨frame,breaks⟩⟩
  intro sending receiving out calls calls' before
  obtain ⟨ok,wrote,_⟩ := sendFrame_sends sending frame ⟨before,calls'⟩ room
  have fails : ¬ decide ((Network.sendFrame frame).length ≤ room) = true := by
    rw [decide_eq_true_eq]
    omega
  rw [transact,ok,if_neg fails,wrote]
  simp [Outcome.ending,Session.run,wire,sendFailed]

-- What recv_frame leaves but for the number of calls it took.
theorem recvFrame_calls (sizes : Sizes) (out : Frame) (stream : Bytes) (calls : ℕ) : ∃ calls', recvFrame sizes out ⟨stream,calls⟩ =
    ((frameOf out stream).1,(frameOf out stream).2.1,⟨(frameOf out stream).2.2,calls'⟩) := by
  rw [← recvFrame_stream sizes out ⟨stream,calls⟩]
  exact ⟨(recvFrame sizes out ⟨stream,calls⟩).2.2.calls,rfl⟩

theorem ends_received {next : Option Frame → Session} (e : SyncEngine) (got : Network.recvFrame stream = some (frame,later))
    (ends : Ends (next (some frame)) later reset room takes rest) : Ends (.recv e next) stream reset room takes rest := by
  have run : ∀ n, (Session.recv e next).run ⟨stream,reset,n⟩ =
      let outcome := (next (some frame)).run ⟨later,reset,n⟩
      { outcome with received := frame :: outcome.received } := by
    intro n
    rw [Session.run]
    simp only [got]
  refine ⟨?_,?_⟩
  · intro sending receiving out calls calls' before
    obtain ⟨_,arrived⟩ := recvFrame_calls receiving out stream calls
    rw [frameOf,got] at arrived
    rw [transact,arrived]
    dsimp only
    rw [if_pos rfl,ends.refines,run]
    rfl
  · exact ends.rest.imp_right (Exists.imp (fun _ breaks => breaks.same (fun n => by rw [run]) (fun n => by rw [run])))

theorem ends_reset (e : SyncEngine) (next : Option Frame → Session) (got : Network.recvFrame stream = none) (room : ℕ) :
    Ends (.recv e next) stream true room 0 [] := by
  refine ⟨?_,.inl rfl⟩
  intro sending receiving out calls calls' before
  obtain ⟨_,arrived⟩ := recvFrame_calls receiving out stream calls
  rw [frameOf,got] at arrived
  rw [transact,arrived]
  simp [Outcome.ending,Session.run,got,wire,recvFailed]

theorem ends_closed {next : Option Frame → Session} (e : SyncEngine) (got : Network.recvFrame stream = none)
    (ends : Ends (next none) [] false room takes rest) : Ends (.recv e next) stream false room takes rest := by
  have run : ∀ n, (Session.recv e next).run ⟨stream,false,n⟩ = (next none).run ⟨[],false,n⟩ := by
    intro n
    rw [Session.run]
    simp [got]
  refine ⟨?_,?_⟩
  · intro sending receiving out calls calls' before
    obtain ⟨_,arrived⟩ := recvFrame_calls receiving out stream calls
    rw [frameOf,got] at arrived
    rw [transact,arrived]
    dsimp only
    rw [if_neg Bool.false_ne_true,if_neg Bool.false_ne_true,ends.refines,run]
  · exact ends.rest.imp_right (Exists.imp (fun _ breaks => breaks.same (fun n => by rw [run]) (fun n => by rw [run])))

-- By induction over the session, as it reaches the socket again and again.
theorem session_ends (s : Session) (stream : Bytes) (reset : Bool) (room : ℕ) : ∃ takes rest, Ends s stream reset room takes rest := by
  induction s generalizing stream room with
  | stop e result => exact ⟨0,[],ends_stop e result stream reset room 0⟩
  | send e frame next ih =>
    by_cases fits : (Network.sendFrame frame).length ≤ room
    · obtain ⟨takes,rest,later⟩ := ih stream (room - (Network.sendFrame frame).length)
      exact ⟨takes + 1,rest,ends_send e frame fits later⟩
    · exact ⟨0,_,ends_unsent e frame next stream reset (by omega)⟩
  | recv e next ih =>
    cases got : Network.recvFrame stream with
    | some arrived =>
      obtain ⟨takes,rest,later⟩ := ih (some arrived.1) arrived.2 room
      exact ⟨takes,rest,ends_received e got later⟩
    | none =>
      cases reset with
      | true => exact ⟨0,[],ends_reset e next got room⟩
      | false =>
        obtain ⟨takes,rest,later⟩ := ih none [] room
        exact ⟨takes,rest,ends_closed e got later⟩

-- A session that returns over whole frames returns on a socket with room for them.
theorem ends_returned (s : Session) (stream : Bytes) (reset : Bool) (takes room : ℕ)
    (ok : (s.run ⟨stream,reset,takes⟩).result = .ok stats) (fits : (wire (s.run ⟨stream,reset,takes⟩).sent).length ≤ room) :
    Ends s stream reset room takes [] := by
  induction s generalizing stream takes room with
  | stop e result => exact ends_stop e result stream reset room takes
  | send e frame next ih =>
    cases takes with
    | zero => cases ok
    | succ n =>
      have sent : ((Session.send e frame next).run ⟨stream,reset,n+1⟩).sent = frame :: (next.run ⟨stream,reset,n⟩).sent := rfl
      rw [sent,Framing.wire_cons,List.length_append] at fits
      exact ends_send e frame (by omega) (ih stream n _ ok (by omega))
  | recv e next ih =>
    cases got : Network.recvFrame stream with
    | some arrived =>
      have run := run_recv e next ⟨stream,reset,takes⟩ got
      rw [run] at ok fits
      exact ends_received e got (ih (some arrived.1) arrived.2 takes room ok fits)
    | none =>
      have run := run_recv_nothing e next ⟨stream,reset,takes⟩ got
      rw [run] at ok fits
      cases reset with
      | true => cases ok
      | false => exact ends_closed e got (ih none [] takes room ok fits)

-- One end of a connection on its own: what it wrote, what came in and in what pieces.
structure Call where
  sending : Sizes
  receiving : Sizes
  stream : Bytes
  reset : Bool
  room : ℕ

def Call.ending (call : Call) (e : SyncEngine) : Ending :=
  transact call.sending call.receiving call.reset (runSyncSession e) ⟨0,[]⟩ ⟨call.stream,0⟩ ⟨[],0⟩ call.room

theorem length_wire {frames : List Frame} (member : frame ∈ frames) : frame.payload.length ≤ (wire frames).length := by
  induction frames with
  | nil => cases member
  | cons first rest ih =>
    rw [Framing.wire_cons,List.length_append]
    rcases List.mem_cons.mp member with rfl | later
    · simp only [Network.sendFrame,List.length_append,List.length_cons]
      omega
    · have below := ih later
      omega

theorem Call.link (call : Call) (e : SyncEngine) (returned : (call.ending e).result = .ok stats) :
    ∃ takes, ((runSyncSession e).run ⟨call.stream,call.reset,takes⟩).result = .ok stats ∧
      (call.ending e).engine = ((runSyncSession e).run ⟨call.stream,call.reset,takes⟩).engine ∧
      (call.ending e).wire = wire ((runSyncSession e).run ⟨call.stream,call.reset,takes⟩).sent := by
  obtain ⟨takes,rest,ends⟩ := session_ends (runSyncSession e) call.stream call.reset call.room
  have same := ends.refines call.sending call.receiving ⟨0,[]⟩ 0 0 []
  change call.ending e = _ at same
  rw [same] at returned ⊢
  have ok : ((runSyncSession e).run ⟨call.stream,call.reset,takes⟩).result = .ok stats := returned
  have whole : rest = [] := by
    refine ends.rest.resolve_right ?_
    rintro ⟨frame,breaks⟩
    rw [breaks.failed] at ok
    cases ok
  refine ⟨takes,ok,rfl,?_⟩
  simp [Outcome.ending,whole]

theorem Call.returns (e : SyncEngine) (link : Link) (sending receiving : Sizes)
    (ok : ((runSyncSession e).run link).result = .ok stats) : ∃ room, (Call.mk sending receiving link.inbound link.reset room).ending e =
      Outcome.ending ((runSyncSession e).run link) [] [] := by
  have ends := ends_returned (runSyncSession e) link.inbound link.reset link.takes _ ok le_rfl
  exact ⟨_,ends.refines sending receiving ⟨0,[]⟩ 0 0 []⟩

-- Two calls on one connection: each returns, having heard what the other wrote.
structure Meets (a b : SyncEngine) (callA callB : Call) : Prop where
  returnsA : ∃ stats, (callA.ending a).result = .ok stats
  returnsB : ∃ stats, (callB.ending b).result = .ok stats
  heardA : callA.stream = (callB.ending b).wire
  heardB : callB.stream = (callA.ending a).wire

theorem Meets.complete (meets : Meets a b callA callB) (smallA : callA.stream.length < 2^32) (smallB : callB.stream.length < 2^32) :
    ∃ forA forB, Complete a b forA forB ∧ (callA.ending a).engine = ((runSyncSession a).run forA).engine ∧
      (callB.ending b).engine = ((runSyncSession b).run forB).engine := by
  obtain ⟨statsA,okA⟩ := meets.returnsA
  obtain ⟨statsB,okB⟩ := meets.returnsB
  obtain ⟨takesA,returnsA,engineA,wroteA⟩ := callA.link a okA
  obtain ⟨takesB,returnsB,engineB,wroteB⟩ := callB.link b okB
  rw [meets.heardA,wroteB] at smallA
  rw [meets.heardB,wroteA] at smallB
  refine ⟨_,_,⟨⟨_,returnsA⟩,⟨_,returnsB⟩,meets.heardA.trans wroteB,meets.heardB.trans wroteA,?_,?_⟩,engineA,engineB⟩
  · exact fun frame member => (length_wire member).trans_lt smallB
  · exact fun frame member => (length_wire member).trans_lt smallA

theorem meets_complete (complete : Complete a b forA forB) (sendingA receivingA sendingB receivingB : Sizes) :
    ∃ roomA roomB, Meets a b ⟨sendingA,receivingA,forA.inbound,forA.reset,roomA⟩ ⟨sendingB,receivingB,forB.inbound,forB.reset,roomB⟩ ∧
      (Call.mk sendingA receivingA forA.inbound forA.reset roomA).ending a = Outcome.ending ((runSyncSession a).run forA) [] [] ∧
      (Call.mk sendingB receivingB forB.inbound forB.reset roomB).ending b = Outcome.ending ((runSyncSession b).run forB) [] [] := by
  obtain ⟨statsA,okA⟩ := complete.returnsA
  obtain ⟨statsB,okB⟩ := complete.returnsB
  obtain ⟨roomA,here⟩ := Call.returns a forA sendingA receivingA okA
  obtain ⟨roomB,there⟩ := Call.returns b forB sendingB receivingB okB
  refine ⟨roomA,roomB,⟨⟨statsA,?_⟩,⟨statsB,?_⟩,?_,?_⟩,here,there⟩
  · rw [here]
    exact okA
  · rw [there]
    exact okB
  · rw [there]
    simp [Outcome.ending,complete.heardA]
  · rw [here]
    simp [Outcome.ending,complete.heardB]

-- What a session comes to does not depend on how send and recv cut the bytes, and is
-- what the session over whole frames comes to with some number of frames taken.
theorem session_over_socket (e : SyncEngine) (stream : Bytes) (reset : Bool) (room : ℕ) :
    ∃ takes rest, (∀ sending receiving out calls calls' before,
      transact sending receiving reset (runSyncSession e) out ⟨stream,calls⟩ ⟨before,calls'⟩ room =
        Outcome.ending ((runSyncSession e).run ⟨stream,reset,takes⟩) before rest) ∧
    (rest = [] ∨ ∃ frame, Breaks (runSyncSession e) stream reset room takes rest frame) := by
  obtain ⟨takes,rest,ends⟩ := session_ends (runSyncSession e) stream reset room
  exact ⟨takes,rest,ends.refines,ends.rest⟩

-- The complete sessions between two engines are what their calls on one connection come
-- to where both return, whatever the pieces.
theorem complete_on_sockets (a b : SyncEngine) :
    (∀ callA callB, Meets a b callA callB → callA.stream.length < 2^32 → callB.stream.length < 2^32 →
      ∃ forA forB, Complete a b forA forB ∧ (callA.ending a).engine = ((runSyncSession a).run forA).engine ∧
        (callB.ending b).engine = ((runSyncSession b).run forB).engine) ∧
    ∀ forA forB, Complete a b forA forB → ∀ sendingA receivingA sendingB receivingB, ∃ callA callB, Meets a b callA callB ∧
      (callA.sending = sendingA ∧ callA.receiving = receivingA ∧ callB.sending = sendingB ∧ callB.receiving = receivingB) ∧
      (callA.ending a).engine = ((runSyncSession a).run forA).engine ∧
      (callB.ending b).engine = ((runSyncSession b).run forB).engine := by
  refine ⟨fun callA callB meets => meets.complete,?_⟩
  intro forA forB complete sendingA receivingA sendingB receivingB
  obtain ⟨roomA,roomB,meets,here,there⟩ := meets_complete complete sendingA receivingA sendingB receivingB
  refine ⟨_,_,meets,⟨rfl,rfl,rfl,rfl⟩,?_,?_⟩
  · rw [here]
    rfl
  · rw [there]
    rfl

-- A one-byte file crosses byte by byte.
theorem complete_on_sockets_bytewise : ∃ callA callB, Meets (Fidelity.added.peers 0).engine (Fidelity.added.peers 1).engine callA callB ∧
    callA.sending = (fun _ => 1) ∧ callB.receiving = fun _ => 1 := by
  obtain ⟨forA,forB,complete⟩ := Fidelity.added_complete
  obtain ⟨_,crosses⟩ := complete_on_sockets (Fidelity.added.peers 0).engine (Fidelity.added.peers 1).engine
  obtain ⟨callA,callB,meets,⟨sending,_,_,receiving⟩,_⟩ := crosses forA forB complete (fun _ => 1) (fun _ => 1) (fun _ => 1) (fun _ => 1)
  exact ⟨callA,callB,meets,sending,receiving⟩

end P2PSync.Transport
