import P2PSync.Lib.Pipes
import P2PSync.Interleaving

namespace P2PSync.Deadlock
open Network Dialogue Pipes Interleaving

-- The frames that the two ends send each other, round by round, while both are there.
def rounds : Session → Session → List (Frame × Frame)
  | .send _ told (.recv _ next),.send _ heard (.recv _ after) => (told,heard) :: rounds (next (some heard)) (after (some told))
  | _,_ => []

-- Each frame that is sent is followed by one that is received.
inductive Alternates : Session → Prop where
  | ended : Alternates (.stop e result)
  | round (later : ∀ frame, Alternates (next frame)) : Alternates (.send e told (.recv now next))

theorem alternates_expect (later : ∀ payload, Alternates (next payload)) :
    Alternates (.send e told (expect type what now next)) := by
  refine .round ?_
  intro frame
  cases frame with
  | none => exact .ended
  | some frame =>
    dsimp only
    split
    · exact later frame.payload
    · exact .ended

theorem alternates_finish (e : SyncEngine) (paths : List Bytes) (stats : SyncStats) (payload : Bytes) :
    Alternates (finishSession e paths stats payload) := by
  unfold finishSession
  dsimp only
  split
  · exact .ended
  · split
    · exact .ended
    · exact .round (fun _ => .ended)

theorem alternates_answer (e : SyncEngine) (paths : List Bytes) (stats : SyncStats) (payload : Bytes) :
    Alternates (answerRequest e paths stats payload) := by
  unfold answerRequest answerRequestWith
  split
  · exact .ended
  · exact alternates_expect (alternates_finish _ _ _)

theorem alternates_merge (e : SyncEngine) (stats : SyncStats) (payload : Bytes) : Alternates (mergeManifest e stats payload) := by
  unfold mergeManifest mergeManifestWith
  split
  · exact .ended
  · dsimp only
    split
    · exact .ended
    · exact alternates_expect (alternates_answer _ _ _)

theorem alternates_session (e : SyncEngine) : Alternates (runSyncSession e) := alternates_expect (alternates_merge _ _)

-- Bytes that hold a whole frame hold it whatever comes behind.
theorem recvFrame_grows : Grows line := by
  intro bytes frame rest behind arrived
  change recvFrame bytes = some (frame,rest) at arrived
  change recvFrame (bytes ++ behind) = some (frame,rest ++ behind)
  unfold recvFrame at arrived
  split at arrived
  · rename_i a b c d type left
    dsimp only at arrived
    split at arrived
    · rename_i fits
      cases arrived
      have more : (readLength a b c d).toNat ≤ (left ++ behind).length := by
        rw [List.length_append]
        omega
      simp only [List.cons_append,recvFrame]
      rw [if_pos more,List.take_append_of_le_length fits,List.drop_append_of_le_length fits]
    · cases arrived
  · cases arrived

theorem length_sendFrame (frame : Frame) : (sendFrame frame).length = 5 + frame.payload.length := by
  simp only [sendFrame,Sha256.wordBytes,List.length_append,List.length_cons,List.length_nil]
  omega

-- Two sessions go along with their rounds until one of them is over.
theorem goes_rounds (first : Alternates s) (second : Alternates r)
    (small : ∀ pair ∈ rounds s r, pair.1.payload.length < 2^32 ∧ pair.2.payload.length < 2^32) :
    ∃ endOne endTwo, (turn endOne = .gone ∨ turn endTwo = .gone) ∧
      Goes line endOne s ((rounds s r).map Prod.fst) ((rounds s r).map Prod.snd) ∧
      Goes line endTwo r ((rounds s r).map Prod.snd) ((rounds s r).map Prod.fst) := by
  induction first generalizing r with
  | ended => exact ⟨_,r,.inl rfl,.done,.done⟩
  | @round next e told now later ih =>
    cases second with
    | ended => exact ⟨_,_,.inr rfl,.done,.done⟩
    | @round after _ heard _ rest =>
      have here := small (told,heard) (by simp [rounds])
      obtain ⟨endOne,endTwo,apart,goes,also⟩ := ih (some heard) (rest (some told))
        (fun pair member => small pair (by simp [rounds,member]))
      refine ⟨endOne,endTwo,apart,?_,?_⟩
      · exact .tell rfl (.hear rfl (clear here.2) goes (by simp)) (by simp [rounds])
      · exact .tell rfl (.hear rfl (clear here.1) also (by simp)) (by simp [rounds])

theorem sendFrame_filled (frame : Frame) : sendFrame frame ≠ [] := by
  have length := length_sendFrame frame
  intro nothing
  rw [nothing,List.length_nil] at length
  omega

-- Two sessions over a connection that holds so many bytes in each direction.
def connection (a b : SyncEngine) : Flow Session UInt8 := .opening (runSyncSession a) (runSyncSession b)

-- No interleaving leads to a state in which both wait for each other.
def DeadlockFree (a b : SyncEngine) (room : ℕ) : Prop :=
  ∀ t, Reaches line room (connection a b) t → ¬ Deadlocked line room t

theorem deadlock_free_iff (a b : SyncEngine) (room : ℕ) (positive : 1 ≤ room)
    (small : ∀ pair ∈ rounds (runSyncSession a) (runSyncSession b),
      pair.1.payload.length < 2^32 ∧ pair.2.payload.length < 2^32) :
    DeadlockFree a b room ↔ ∀ pair ∈ rounds (runSyncSession a) (runSyncSession b),
      5 + pair.1.payload.length ≤ room ∨ 5 + pair.2.payload.length ≤ room := by
  obtain ⟨endOne,endTwo,apart,first,second⟩ := goes_rounds (alternates_session a) (alternates_session b) small
  have wide : ∀ frame, (line.encode frame).length = 5 + frame.payload.length := length_sendFrame
  constructor
  · intro free pair member
    by_contra both
    have big : room < (line.encode pair.1).length ∧ room < (line.encode pair.2).length := by
      rw [wide,wide]
      omega
    obtain ⟨t,reached,dead⟩ := reaches_deadlock recvFrame_grows sendFrame_filled positive first second ⟨pair,member,big⟩
    exact free t reached dead
  · intro fits t reached
    refine no_deadlock recvFrame_grows sendFrame_filled rfl positive apart first second ?_ reached
    intro pair member
    rw [wide,wide]
    exact fits pair member

-- Two new nodes send seven bytes at most, in their manifests.
theorem new_nodes_fit : DeadlockFree (SyncEngine.fresh (ascii "A")) (SyncEngine.fresh (ascii "B")) 7 :=
  (deadlock_free_iff _ _ 7 (by decide) (by decide +kernel)).mpr (by decide +kernel)

theorem manifest_first (e : SyncEngine) : ∃ waiting refused,
    line.turn (runSyncSession e) = .say ⟨frameManifest,serializeManifest e⟩ waiting refused := ⟨_,_,rfl⟩

-- With room for one byte, each has sent one of its manifest and waits.
theorem new_nodes_jam : ¬ DeadlockFree (SyncEngine.fresh (ascii "A")) (SyncEngine.fresh (ascii "B")) 1 := by
  obtain ⟨_,_,speaks⟩ := manifest_first (SyncEngine.fresh (ascii "A"))
  obtain ⟨_,_,answers⟩ := manifest_first (SyncEngine.fresh (ascii "B"))
  have big : 1 < (line.encode ⟨frameManifest,serializeManifest (SyncEngine.fresh (ascii "A"))⟩).length := by decide +kernel
  have also : 1 < (line.encode ⟨frameManifest,serializeManifest (SyncEngine.fresh (ascii "B"))⟩).length := by decide +kernel
  obtain ⟨t,reached,dead⟩ := reaches_jam speaks answers big also
  exact fun free => free t reached dead

end P2PSync.Deadlock
