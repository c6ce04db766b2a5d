import P2PSync.Network

namespace P2PSync.Framing
open Network

-- Successive recv_frame calls: what each returns and the stream it leaves.
def receive : ℕ → Bytes → List (Frame × Bytes)
  | 0,_ => []
  | n+1,stream => match recvFrame stream with
    | none => []
    | some (frame,left) => (frame,left) :: receive n left

-- Each frame, with the stream at the start of the next one.
def sequence : List Frame → Bytes → List (Frame × Bytes)
  | [],_ => []
  | frame :: rest,later => (frame,wire rest ++ later) :: sequence rest later

theorem wire_cons (frame : Frame) (rest : List Frame) : wire (frame :: rest) = sendFrame frame ++ wire rest := by
  rw [wire,List.flatMap_cons]
  rfl

theorem short_of_recvFrame {frame : Frame} (exact_frame : recvFrame (sendFrame frame ++ later) = some (frame,left)) :
    frame.payload.length < 2^32 := by
  rw [recvFrame_header] at exact_frame
  have payload := congrArg (fun got => got.map (fun pair => pair.1.payload.length)) exact_frame
  simp only [Option.map_some,Option.some.injEq,List.length_take,List.length_append] at payload
  have bound : frame.payload.length % 2^32 < 2^32 := Nat.mod_lt _ (by decide)
  omega

theorem framing_exact (frames : List Frame) (later : Bytes) :
    receive frames.length (wire frames ++ later) = sequence frames later ↔
      ∀ frame ∈ frames, frame.payload.length < 2^32 := by
  induction frames with
  | nil => simp [receive,sequence]
  | cons frame rest ih =>
    rw [List.length_cons,wire_cons,List.append_assoc,receive,sequence,List.forall_mem_cons]
    constructor
    · intro same
      have short : frame.payload.length < 2^32 := by
        cases arrived : recvFrame (sendFrame frame ++ (wire rest ++ later)) with
        | none =>
          rw [arrived] at same
          cases same
        | some got =>
          obtain ⟨first,left⟩ := got
          rw [arrived] at same
          obtain ⟨head,_⟩ := List.cons.inj same
          obtain ⟨rfl,_⟩ := Prod.mk.inj head
          exact short_of_recvFrame arrived
      rw [recvFrame_sendFrame frame short] at same
      exact ⟨short,ih.mp (List.cons.inj same).2⟩
    · rintro ⟨short,others⟩
      rw [recvFrame_sendFrame frame short]
      exact congrArg _ (ih.mpr others)

-- A payload of 2^32 bytes is announced as an empty one, and its bytes are read as frames.
theorem long_frame_lost : receive 2 (wire [⟨frameChunkData,List.replicate (2^32) 0⟩,⟨frameDone,[]⟩]) ≠
    sequence [⟨frameChunkData,List.replicate (2^32) 0⟩,⟨frameDone,[]⟩] [] := by
  intro same
  rw [wire_cons,receive] at same
  cases arrived : recvFrame (sendFrame ⟨frameChunkData,List.replicate (2^32) 0⟩ ++ wire [⟨frameDone,[]⟩]) with
  | none =>
    rw [arrived] at same
    cases same
  | some got =>
    obtain ⟨first,left⟩ := got
    rw [arrived] at same
    obtain ⟨head,_⟩ := List.cons.inj same
    obtain ⟨rfl,_⟩ := Prod.mk.inj head
    have short := short_of_recvFrame arrived
    rw [List.length_replicate] at short
    exact lt_irrefl _ short

end P2PSync.Framing
