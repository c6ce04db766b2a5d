import P2PSync.Lib.Handles
import P2PSync.Lib.Runs
import P2PSync.Network

namespace P2PSync.Sockets
open Network Text

-- socket() and accept() give a descriptor that is not in use.
structure Kernel where
  descriptor : Finset ℕ → ℕ
  unused : ∀ opened, descriptor opened ∉ opened

-- The open descriptors, and those that were closed without being open.
structure Table where
  opened : Finset ℕ
  strays : List ℕ

namespace Table

def open_ (k : Kernel) (t : Table) : ℕ × Table :=
  (k.descriptor t.opened,⟨insert (k.descriptor t.opened) t.opened,t.strays⟩)

def close (t : Table) (fd : ℕ) : Table :=
  if fd ∈ t.opened then ⟨t.opened.erase fd,t.strays⟩ else ⟨t.opened,fd :: t.strays⟩

theorem close_open (k : Kernel) (t : Table) : (t.open_ k).2.close (t.open_ k).1 = t := by
  unfold open_ close
  rw [if_pos (Finset.mem_insert_self _ _),Finset.erase_insert (k.unused t.opened)]

end Table

-- std::to_string of an int.
def toText (port : ℤ) : Bytes := if port < 0 then 45 :: decimal port.natAbs else decimal port.natAbs

-- An address that getaddrinfo lists: whether socket() and connect() succeed for it.
structure Address where
  opens : Bool
  connects : Bool

def connectLoop (k : Kernel) : List Address → Table → Option ℕ × Table
  | [],t => (none,t)
  | p :: rest,t =>
    if p.opens then
      let (fd,t) := t.open_ k
      if p.connects then (some fd,t) else connectLoop k rest (t.close fd)
    else connectLoop k rest t

-- none is a failure of getaddrinfo.
def connectTo (k : Kernel) (host : Bytes) (port : ℤ) (resolved : Option (List Address)) (t : Table) : Except Error ℕ × Table :=
  match resolved.getD [] with
  | [] => (.error (.runtimeError (ascii "DNS/address resolution failed for " ++ host)),t)
  | addresses => match connectLoop k addresses t with
    | (none,t) => (.error (.runtimeError (ascii "failed to connect to " ++ host ++ ascii ":" ++ toText port)),t)
    | (some fd,t) => (.ok fd,t)

-- What socket(), bind(), listen() and accept() answer.
structure Replies where
  opens : Bool
  binds : Bool
  listens : Bool
  accepts : Bool

def acceptOnce (k : Kernel) (port : ℤ) (replies : Replies) (t : Table) : Except Error ℕ × Table :=
  if replies.opens then
    let (listening,t) := t.open_ k
    if replies.binds then
      if replies.listens then
        if replies.accepts then
          let (connection,t) := t.open_ k
          (.ok connection,t.close listening)
        else (.error (.runtimeError (ascii "accept() failed")),t.close listening)
      else (.error (.runtimeError (ascii "listen() failed")),t.close listening)
    else (.error (.runtimeError (ascii "bind() failed on port " ++ toText port)),t.close listening)
  else (.error (.runtimeError (ascii "socket() failed")),t)

-- What a call that gives a socket leaves: one more descriptor if it returns, and
-- else the table as it was.
inductive Gives (t : Table) : Except Error ℕ × Table → Prop where
  | fails : Gives t (.error x,t)
  | returns (fresh : fd ∉ t.opened) : Gives t (.ok fd,⟨insert fd t.opened,t.strays⟩)

theorem connectLoop_gives (k : Kernel) (addresses : List Address) (t : Table) :
    connectLoop k addresses t = (none,t) ∨
      ∃ fd, fd ∉ t.opened ∧ connectLoop k addresses t = (some fd,⟨insert fd t.opened,t.strays⟩) := by
  induction addresses with
  | nil => exact .inl rfl
  | cons p rest ih =>
    unfold connectLoop
    split
    · dsimp only
      split
      · exact .inr ⟨_,k.unused t.opened,rfl⟩
      · rw [Table.close_open]
        exact ih
    · exact ih

theorem connectTo_gives (k : Kernel) (host : Bytes) (port : ℤ) (resolved : Option (List Address)) (t : Table) :
    Gives t (connectTo k host port resolved t) := by
  unfold connectTo
  split
  · exact .fails
  · rcases connectLoop_gives k (resolved.getD []) t with failed | ⟨fd,fresh,opened⟩
    · rw [failed]
      exact .fails
    · rw [opened]
      exact .returns fresh

theorem acceptOnce_gives (k : Kernel) (port : ℤ) (replies : Replies) (t : Table) : Gives t (acceptOnce k port replies t) := by
  unfold acceptOnce
  dsimp only
  split
  · split
    · split
      · split
        · -- The listening descriptor is closed while the accepted one is open.
          have first := k.unused t.opened
          have second := k.unused (insert (k.descriptor t.opened) t.opened)
          have closed : ((t.open_ k).2.open_ k).2.close (t.open_ k).1 =
              ⟨insert (k.descriptor (insert (k.descriptor t.opened) t.opened)) t.opened,t.strays⟩ := by
            unfold Table.open_ Table.close
            dsimp only
            rw [if_pos (by simp),Finset.erase_insert_of_ne,Finset.erase_insert first]
            intro same
            rw [same] at second
            exact second (Finset.mem_insert_self _ _)
          rw [closed]
          exact .returns (fun member => second (Finset.mem_insert_of_mem member))
        · rw [Table.close_open]
          exact .fails
      · rw [Table.close_open]
        exact .fails
    · rw [Table.close_open]
      exact .fails
  · exact .fails

def Table.release (t : Table) : Option ℕ → Table
  | none => t
  | some fd => t.close fd

-- The TcpSocket objects by their names: none is no object, some none one with fd_ = -1.
structure Objects where
  sockets : ℕ → Option (Option ℕ)
  table : Table

-- What a program can do with them: declare one, initialise one by connect_to or
-- accept_once, move one into a new one or into another, and let one go out of scope.
inductive Statement where
  | declare (x : ℕ)
  | connect (x : ℕ) (host : Bytes) (port : ℤ) (resolved : Option (List Address))
  | accept (x : ℕ) (port : ℤ) (replies : Replies)
  | construct (x other : ℕ)
  | assign (x other : ℕ)
  | destroy (x : ℕ)

namespace Objects

def owner (o : Objects) : ℕ → Option ℕ := Option.join ∘ o.sockets

def set (o : Objects) (x : ℕ) (fd : Option (Option ℕ)) : Objects := { o with sockets := Function.update o.sockets x fd }

-- An object whose initialiser throws is not there.
def initialise (o : Objects) (x : ℕ) : Except Error ℕ × Table → Objects
  | (.ok fd,t) => ⟨Function.update o.sockets x (some (some fd)),t⟩
  | (.error _,t) => { o with table := t }

def step (k : Kernel) (o : Objects) : Statement → Objects
  | .declare x => o.set x (some none)
  | .connect x host port resolved => o.initialise x (connectTo k host port resolved o.table)
  | .accept x port replies => o.initialise x (acceptOnce k port replies o.table)
  | .construct x other => (o.set x (some (o.owner other))).set other (some none)
  | .assign x other =>
    if x = other then o
    else ({ o with table := o.table.release (o.owner x) }.set x (some (o.owner other))).set other (some none)
  | .destroy x => { o with table := o.table.release (o.owner x) }.set x none

-- The language: a new name is not taken, and a name that is used has its object.
def Allowed (o : Objects) : Statement → Prop
  | .declare x => o.sockets x = none
  | .connect x _ _ _ => o.sockets x = none
  | .accept x _ _ => o.sockets x = none
  | .construct x other => o.sockets x = none ∧ (o.sockets other).isSome
  | .assign x other => (o.sockets x).isSome ∧ (o.sockets other).isSome
  | .destroy x => (o.sockets x).isSome

def start : Objects := ⟨fun _ => none,⟨∅,[]⟩⟩

structure Sound (o : Objects) : Prop where
  owned : Handles.Owned o.table.opened o.owner
  proper : o.table.strays = []

variable {o : Objects}

theorem owner_set (o : Objects) (x : ℕ) (fd : Option (Option ℕ)) : (o.set x fd).owner = Function.update o.owner x fd.join :=
  Function.comp_update Option.join o.sockets x fd

theorem owner_none (free : o.sockets x = none) : o.owner x = none := by
  rw [owner,Function.comp_apply,free]
  rfl

-- Letting go of an object closes the descriptor it has, which is open.
theorem Sound.drop (sound : o.Sound) (x : ℕ) :
    Handles.Owned (o.table.release (o.owner x)).opened (Function.update o.owner x none) ∧
      (o.table.release (o.owner x)).strays = [] := by
  cases held : o.owner x with
  | none =>
    have same : Function.update o.owner x none = o.owner := by rw [← held,Function.update_eq_self]
    rw [same]
    exact ⟨sound.owned,sound.proper⟩
  | some fd =>
    have closed : o.table.release (some fd) = ⟨o.table.opened.erase fd,o.table.strays⟩ := if_pos (sound.owned.live x fd held)
    rw [closed]
    exact ⟨sound.owned.release held,sound.proper⟩

theorem Sound.initialise (sound : o.Sound) (free : o.sockets x = none) (gives : Gives o.table given) :
    (o.initialise x given).Sound := by
  cases gives with
  | fails => exact sound
  | @returns fd fresh =>
    refine ⟨?_,sound.proper⟩
    have acquired := sound.owned.acquire (owner_none free) fresh
    have same : (o.initialise x (.ok fd,⟨insert fd o.table.opened,o.table.strays⟩)).owner = Function.update o.owner x (some fd) :=
      owner_set o x (some (some fd))
    rw [same]
    exact acquired

theorem Sound.step (sound : o.Sound) (k : Kernel) (statement : Statement) (allowed : o.Allowed statement) :
    (o.step k statement).Sound := by
  cases statement with
  | declare x =>
    refine ⟨?_,sound.proper⟩
    have empty := owner_none allowed
    rw [Objects.step,owner_set,Option.join_some,← empty,Function.update_eq_self]
    exact sound.owned
  | connect x host port resolved => exact sound.initialise allowed (connectTo_gives k host port resolved o.table)
  | accept x port replies => exact sound.initialise allowed (acceptOnce_gives k port replies o.table)
  | construct x other =>
    have apart : x ≠ other := by
      rintro rfl
      have alive := allowed.2
      rw [allowed.1] at alive
      cases alive
    refine ⟨?_,sound.proper⟩
    rw [Objects.step,owner_set,owner_set]
    exact sound.owned.transfer (owner_none allowed.1) apart
  | assign x other =>
    by_cases same : x = other
    · rw [Objects.step,if_pos same]
      exact sound
    · obtain ⟨owned,proper⟩ := sound.drop x
      rw [Objects.step,if_neg same]
      refine ⟨?_,proper⟩
      rw [owner_set,owner_set]
      have moved := owned.transfer (Function.update_self x none o.owner) same
      rw [Function.update_idem,Function.update_of_ne (Ne.symm same)] at moved
      exact moved
  | destroy x =>
    obtain ⟨owned,proper⟩ := sound.drop x
    refine ⟨?_,proper⟩
    rw [Objects.step,owner_set]
    exact owned

theorem sound_start : start.Sound := ⟨Handles.owned_nothing,rfl⟩

theorem Sound.run (run : Runs (Objects.step k) Allowed start statements o) : o.Sound :=
  Runs.invariant sound_start (fun _ statement sound allowed => sound.step k statement allowed) run

-- No descriptor is closed that is not open, none is lost, and none has two owners.
theorem descriptors_owned (k : Kernel) (run : Runs (step k) Allowed start statements o) :
    o.table.strays = [] ∧
    (∀ fd, fd ∈ o.table.opened ↔ ∃! x, o.sockets x = some (some fd)) ∧
    ((∀ x, o.sockets x = none) → o.table.opened = ∅) := by
  have sound := Sound.run run
  have holds : ∀ x fd, o.owner x = some fd ↔ o.sockets x = some (some fd) := by
    intro x fd
    rw [owner,Function.comp_apply,Option.join_eq_some_iff]
  refine ⟨sound.proper,?_,?_⟩
  · intro fd
    constructor
    · intro opened
      obtain ⟨x,held⟩ := sound.owned.kept fd opened
      refine ⟨x,(holds x fd).mp held,?_⟩
      intro y other
      exact sound.owned.alone y x fd ((holds y fd).mpr other) held
    · intro ⟨x,held,_⟩
      exact sound.owned.live x fd ((holds x fd).mpr held)
  · intro gone
    apply Finset.eq_empty_of_forall_notMem
    intro fd opened
    obtain ⟨x,held⟩ := sound.owned.kept fd opened
    rw [owner_none (gone x)] at held
    cases held

def counting : Kernel where
  descriptor opened := opened.sup (fun fd => fd) + 1
  unused opened member := by
    have below := Finset.le_sup (f := fun fd => fd) member
    omega

-- The second address answers; the socket is moved into a variable that has one already.
theorem descriptors_owned_moved : ∃ o, Runs (step counting) Allowed start [.accept 0 9001 ⟨true,true,true,true⟩,
      .connect 1 [] 9001 (some [⟨true,false⟩,⟨true,true⟩]),.assign 0 1,.destroy 1] o ∧
    o.table.strays = [] ∧ (3 ∈ o.table.opened ↔ ∃! x, o.sockets x = some (some 3)) := by
  have accepted : Allowed start (.accept 0 9001 ⟨true,true,true,true⟩) := rfl
  have connected : Allowed (step counting start (.accept 0 9001 ⟨true,true,true,true⟩))
    (.connect 1 [] 9001 (some [⟨true,false⟩,⟨true,true⟩])) := rfl
  have two := Runs.snoc (Runs.snoc (.nil : Runs (step counting) Allowed start [] start) accepted) connected
  have run := Runs.snoc (Runs.snoc two (show Allowed _ (.assign 0 1) from ⟨rfl,rfl⟩)) (show Allowed _ (.destroy 1) from rfl)
  obtain ⟨proper,owned,_⟩ := descriptors_owned counting run
  exact ⟨_,run,proper,owned 3⟩

end Objects

end P2PSync.Sockets
