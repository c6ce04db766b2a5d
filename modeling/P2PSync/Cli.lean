import P2PSync.Commands
import P2PSync.Node

-- main: from the arguments of a command line to what the process leaves behind.
namespace P2PSync.Cli
open Text EntryCodec Network Sockets Node Commands

def printUsage : Bytes := ascii ("Usage: syncnode --id <node_id> --data <data_dir> <command> [args]\n\n" ++
  "Commands:\n" ++
  "  add <logical_path> <source_file>   Ingest a real file into the sync engine\n" ++
  "  rm  <logical_path>                 Tombstone (delete) a tracked path\n" ++
  "  list                                List all tracked entries and their versions\n" ++
  "  listen --port <port>                Wait for one peer to connect and sync\n" ++
  "  sync  --host <host> --port <port>   Connect to a peer and sync\n\n" ++
  "Example (two terminals, simulating two offline-then-reconnecting nodes):\n" ++
  "  syncnode --id A --data ./dataA add notes.txt ./notes.txt\n" ++
  "  syncnode --id A --data ./dataA listen --port 9001\n" ++
  "  syncnode --id B --data ./dataB add notes.txt ./notes_editedB.txt\n" ++
  "  syncnode --id B --data ./dataB sync --host 127.0.0.1 --port 9001\n")

def argValue (flag : Bytes) : List Bytes → Bytes
  | a :: value :: rest => if a = flag then value else argValue flag (value :: rest)
  | _ => []

def printStats (s : SyncStats) : Bytes :=
  ascii "--- sync complete ---\n" ++
  ascii "  entries sent:            " ++ decimal s.entriesSent ++ [10] ++
  ascii "  applied from remote:     " ++ decimal s.entriesAppliedRemote ++ [10] ++
  ascii "  kept local (we're newer):" ++ decimal s.entriesKeptLocal ++ [10] ++
  ascii "  already in sync:         " ++ decimal s.entriesNoChange ++ [10] ++
  ascii "  conflicts forked:        " ++ decimal s.conflictsForked ++ [10] ++
  ascii "  chunks fetched:          " ++ decimal s.chunksFetched ++ [10]

def flags : List Bytes := [ascii "--id",ascii "--data",ascii "--host",ascii "--port"]

-- The loop that finds the command: a flag is skipped with its value.
def findCommand (command : Bytes) (rest : List Bytes) : List Bytes → Bytes × List Bytes
  | [] => (command,rest)
  | [a] => if a ∈ flags then (command,rest) else if command = [] then (a,rest) else (command,rest ++ [a])
  | a :: value :: args =>
    if a ∈ flags then findCommand command rest args
    else if command = [] then findCommand a rest (value :: args)
    else findCommand command (rest ++ [a]) (value :: args)

def stoi (text : Bytes) : Except Error ℤ :=
  let (negative,rest) := signed (text.dropWhile isSpace)
  match digits 10 rest with
  | [] => .error (.invalidArgument (ascii "stoi"))
  | ds =>
    let n : ℤ := if negative then -(value 10 ds) else value 10 ds
    if -2^31 ≤ n ∧ n < 2^31 then .ok n else .error (.outOfRange (ascii "stoi"))

-- What the process meets outside its data directory, and what the file system says
-- where it makes no directories: for the constructor, an added path, a path of a
-- session. piped: a send that the peer does not take ends the process by SIGPIPE.
structure World where
  kernel : Kernel
  source : Bytes → Option Bytes
  resolved : Bytes → ℤ → Option (List Address)
  replies : ℤ → Replies
  link : Link
  piped : Bool
  unopened : Option Bytes
  unmade : Option Bytes
  unmadeLate : Option (Bytes × OrdMap Bytes Bytes)

-- What the body of the try block leaves: a status returned, or an exception.
structure Performed where
  engine : SyncEngine
  table : Table
  out : Bytes
  err : Bytes
  ending : Except Error ℕ

def complain (e : SyncEngine) (t : Table) (text : Bytes) : Performed := ⟨e,t,[],text,.ok 1⟩

def report (c : Called α) (text : α → Bytes) : Performed :=
  match c.result with
  | .error x => ⟨c.engine,c.table,c.out,[],.error x⟩
  | .ok a => ⟨c.engine,c.table,c.out ++ text a,[],.ok 0⟩

def performAdd (w : World) (e : SyncEngine) (t : Table) : List Bytes → Performed
  | path :: file :: _ => report (addFile e path file (w.source file) w.unmade t) (fun _ => ascii "added " ++ path ++ [10])
  | _ => complain e t (ascii "usage: add <logical_path> <source_file>\n")

def performRm (e : SyncEngine) (t : Table) : List Bytes → Performed
  | path :: _ => ⟨removeFile e path,t,ascii "removed " ++ path ++ [10],[],.ok 0⟩
  | [] => complain e t (ascii "usage: rm <logical_path>\n")

def performListen (w : World) (e : SyncEngine) (t : Table) (args : List Bytes) : Performed :=
  let port := argValue (ascii "--port") args
  if port = [] then complain e t (ascii "usage: listen --port <port>\n")
  else match stoi port with
    | .error x => ⟨e,t,[],[],.error x⟩
    | .ok n => report (listenAndSync w.kernel e n (w.replies n) w.link w.unmadeLate t) printStats

def performSync (w : World) (e : SyncEngine) (t : Table) (args : List Bytes) : Performed :=
  let host := argValue (ascii "--host") args
  let port := argValue (ascii "--port") args
  if host = [] ∨ port = [] then complain e t (ascii "usage: sync --host <host> --port <port>\n")
  else match stoi port with
    | .error x => ⟨e,t,[],[],.error x⟩
    | .ok n => report (syncWith w.kernel e host n (w.resolved host n) w.link w.unmadeLate t) printStats

def perform (w : World) (e : SyncEngine) (t : Table) (command : Bytes) (rest args : List Bytes) : Performed :=
  if command = ascii "add" then performAdd w e t rest
  else if command = ascii "rm" then performRm e t rest
  else if command = ascii "list" then ⟨e,t,listFiles e,[],.ok 0⟩
  else if command = ascii "listen" then performListen w e t args
  else if command = ascii "sync" then performSync w e t args
  else ⟨e,t,printUsage,[],.ok 1⟩

-- ex.what(), for the errors that are exceptions.
def what : Error → Option Bytes
  | .runtimeError text => some text
  | .invalidArgument text => some text
  | .outOfRange text => some text
  | .pastPayload => none

-- No status: a payload was read past its end or a signal ended the process, and
-- nothing is known of what it printed.
structure Exit where
  status : Option ℕ
  out : Bytes
  err : Bytes
  disks : Bytes → Disk
  table : Table

-- catch (const std::exception& ex)
def caught (x : Error) (out err : Bytes) (disks : Bytes → Disk) (t : Table) : Exit :=
  match what x with
  | none => ⟨none,out,err,disks,t⟩
  | some text => ⟨some 1,out,err ++ ascii "error: " ++ text ++ [10],disks,t⟩

def brokenPipe : Error := .runtimeError (ascii "send() failed / peer closed connection")

-- An exception that reaches main, unless the send that would throw it did not come back.
def thrown (w : World) (x : Error) (out err : Bytes) (disks : Bytes → Disk) (t : Table) : Exit :=
  if w.piped = true ∧ x = brokenPipe then ⟨none,out,err,disks,t⟩ else caught x out err disks t

-- disks are the data directories by their names.
def main (w : World) (disks : Bytes → Disk) (t : Table) (args : List Bytes) : Exit :=
  if args = [] then ⟨some 1,printUsage,[],disks,t⟩
  else
    let nodeId := argValue (ascii "--id") args
    let dataDir := argValue (ascii "--data") args
    if nodeId = [] ∨ dataDir = [] then ⟨some 1,printUsage,ascii "error: --id and --data are required\n\n",disks,t⟩
    else
      let (command,rest) := findCommand [] [] args
      match w.unopened with
      | some text => caught (.runtimeError text) [] [] disks t
      | none => match SyncEngine.start nodeId (disks dataDir) with
        | .error x => caught x [] [] disks t
        | .ok e =>
          let p := perform w e t command rest args
          let disks := Function.update disks dataDir p.engine.disk
          match p.ending with
          | .error x => thrown w x p.out p.err disks p.table
          | .ok status => ⟨some status,p.out,p.err,disks,p.table⟩

-- The process that the words of a command line stand for. A command that is refused,
-- or that finds no peer, changes as little as list.
def visiting (w : World) (connected : Bool) : Command := if connected then .sync w.link (w.unmadeLate.map Prod.snd) else .list

def commandOf (w : World) (t : Table) (command : Bytes) (rest args : List Bytes) : Command :=
  let host := argValue (ascii "--host") args
  let port := argValue (ascii "--port") args
  if command = ascii "add" then match rest with
    | path :: file :: _ => .add path (w.source file) w.unmade.isSome
    | _ => .list
  else if command = ascii "rm" then match rest with
    | path :: _ => .rm path
    | [] => .list
  else if command = ascii "list" then .list
  else if command = ascii "listen" then
    if port = [] then .list
    else match stoi port with
      | .error _ => .list
      | .ok n => visiting w (acceptOnce w.kernel n (w.replies n) t).1.isOk
  else if command = ascii "sync" then
    if host = [] ∨ port = [] then .list
    else match stoi port with
      | .error _ => .list
      | .ok n => visiting w (connectTo w.kernel host n (w.resolved host n) t).1.isOk
  else .list

-- What a command does: its process, and a word on stderr or the usage where it is refused.
structure Performs (e : SyncEngine) (t : Table) (command : Command) (p : Performed) : Prop where
  disk : p.engine.disk = dispatch e command
  table : p.table = t
  silent : p.ending = .ok 0 → p.err = []
  refused : ∀ n, p.ending = .ok n → n ≠ 0 → n = 1 ∧ (p.err ≠ [] ∨ p.out = printUsage)

variable {e : SyncEngine} {t : Table}

theorem performs_complaint (loud : text ≠ []) : Performs e t .list (complain e t text) := by
  refine ⟨rfl,rfl,?_,?_⟩
  · exact fun zero => nomatch (Except.ok.inj zero)
  · intro n returned _
    cases returned
    exact ⟨rfl,.inl loud⟩

theorem performs_thrown (e : SyncEngine) (t : Table) (x : Error) : Performs e t .list ⟨e,t,[],[],.error x⟩ :=
  ⟨rfl,rfl,nofun,nofun⟩

theorem performs_report {c : Called α} (disk : c.engine.disk = dispatch e command) (table : c.table = t) (text : α → Bytes) :
    Performs e t command (report c text) := by
  unfold report
  cases c.result with
  | error x => exact ⟨disk,table,nofun,nofun⟩
  | ok a =>
    refine ⟨disk,table,fun _ => rfl,?_⟩
    intro n returned positive
    cases returned
    exact absurd rfl positive

theorem session_dispatch (e : SyncEngine) (link : Link) (unmade : Option (Bytes × OrdMap Bytes Bytes)) :
    (session e link unmade).1.disk = dispatch e (.sync link (unmade.map Prod.snd)) := by
  cases unmade with
  | none => rfl
  | some late => rfl

theorem ingest_dispatch (e : SyncEngine) (path bytes : Bytes) (unmade : Option Bytes) :
    (ingest e path bytes unmade).1.disk = dispatch e (.add path (some bytes) unmade.isSome) := by
  cases unmade with
  | none => rfl
  | some text => rfl

theorem performs_visit (w : World) (visited : Visited e w.link w.unmadeLate t connected c) :
    Performs e t (visiting w connected) (report c printStats) := by
  cases visited with
  | unconnected =>
    apply performs_report
    · rfl
    · rfl
  | met =>
    apply performs_report
    · exact session_dispatch e w.link w.unmadeLate
    · rfl

theorem performs_add (w : World) (e : SyncEngine) (t : Table) (rest : List Bytes) :
    Performs e t (match rest with
      | path :: file :: _ => .add path (w.source file) w.unmade.isSome
      | _ => .list) (performAdd w e t rest) := by
  unfold performAdd
  split
  · rename_i path file more
    apply performs_report
    · unfold addFile
      cases w.source file with
      | none => rfl
      | some bytes => exact ingest_dispatch e path bytes w.unmade
    · unfold addFile
      cases w.source file with
      | none => rfl
      | some bytes => rfl
  · exact performs_complaint (by decide)

theorem performs_rm (e : SyncEngine) (t : Table) (rest : List Bytes) :
    Performs e t (match rest with
      | path :: _ => .rm path
      | [] => .list) (performRm e t rest) := by
  unfold performRm
  split
  · refine ⟨rfl,rfl,fun _ => rfl,?_⟩
    intro n returned positive
    cases returned
    exact absurd rfl positive
  · exact performs_complaint (by decide)

theorem perform_performs (w : World) (e : SyncEngine) (t : Table) (command : Bytes) (rest args : List Bytes) :
    Performs e t (commandOf w t command rest args) (perform w e t command rest args) := by
  unfold perform commandOf
  dsimp only
  split
  · exact performs_add w e t rest
  split
  · exact performs_rm e t rest
  split
  · refine ⟨rfl,rfl,fun _ => rfl,?_⟩
    intro n returned positive
    cases returned
    exact absurd rfl positive
  split
  · unfold performListen
    dsimp only
    split
    · exact performs_complaint (by decide)
    cases stoi (argValue (ascii "--port") args) with
    | error x => exact performs_thrown e t x
    | ok n => exact performs_visit w (listenAndSync_visited ..)
  split
  · unfold performSync
    dsimp only
    split
    · exact performs_complaint (by decide)
    cases stoi (argValue (ascii "--port") args) with
    | error x => exact performs_thrown e t x
    | ok n => exact performs_visit w (syncWith_visited ..)
  · refine ⟨rfl,rfl,fun _ => rfl,?_⟩
    intro n returned _
    refine ⟨(Except.ok.inj returned).symm,.inr ?_⟩
    dsimp only

-- The process behind a command line, on the directory that --data names.
def processOf (w : World) (t : Table) (args : List Bytes) : Process :=
  let (command,rest) := findCommand [] [] args
  ⟨argValue (ascii "--id") args,if w.unopened.isSome then .list else commandOf w t command rest args⟩

theorem exit_list (nodeId : Bytes) (disk : Disk) : Process.exit disk ⟨nodeId,.list⟩ = disk := by
  unfold Process.exit
  cases started : SyncEngine.start nodeId disk with
  | error x => rfl
  | ok e => exact (SyncEngine.start_read started).1

-- How a run ends: silently, refused with a word on stderr or the usage, or unknown.
structure Ended (t : Table) (disks : Bytes → Disk) (exit : Exit) : Prop where
  disks : exit.disks = disks
  table : exit.table = t
  silent : exit.status = some 0 → exit.err = []
  refused : ∀ n, exit.status = some n → n ≠ 0 → n = 1 ∧ (exit.err ≠ [] ∨ exit.out = printUsage)

theorem ended_caught (x : Error) (out err : Bytes) (disks : Bytes → Disk) (t : Table) : Ended t disks (caught x out err disks t) := by
  unfold caught
  cases what x with
  | none => exact ⟨rfl,rfl,nofun,nofun⟩
  | some text =>
    refine ⟨rfl,rfl,(fun zero => nomatch (Option.some.inj zero)),?_⟩
    intro n returned _
    cases returned
    refine ⟨rfl,.inl ?_⟩
    simp

theorem ended_refused (loud : err ≠ [] ∨ out = printUsage) (disks : Bytes → Disk) (t : Table) : Ended t disks ⟨some 1,out,err,disks,t⟩ := by
  refine ⟨rfl,rfl,(fun zero => nomatch (Option.some.inj zero)),?_⟩
  intro n returned _
  exact ⟨(Option.some.inj returned).symm,loud⟩

theorem ended_thrown (w : World) (x : Error) (out err : Bytes) (disks : Bytes → Disk) (t : Table) :
    Ended t disks (thrown w x out err disks t) := by
  unfold thrown
  split
  · exact ⟨rfl,rfl,nofun,nofun⟩
  · exact ended_caught x out err disks t

theorem ended_performs (w : World) (performs : Performs e t command p) (disks : Bytes → Disk) : Ended t disks (match p.ending with
    | .error x => thrown w x p.out p.err disks p.table
    | .ok status => ⟨some status,p.out,p.err,disks,p.table⟩) := by
  rw [performs.table]
  cases ending : p.ending with
  | error x => exact ended_thrown w x p.out p.err disks t
  | ok status =>
    refine ⟨rfl,rfl,?_,?_⟩
    · intro zero
      cases zero
      exact performs.silent ending
    · intro n returned positive
      cases returned
      exact performs.refused status ending positive

-- A run of the program is one process on the directory that --data names, or nothing; it
-- leaves no descriptor open, says nothing on stderr if it returns 0, and else says why.
theorem main_process (w : World) (disks : Bytes → Disk) (t : Table) (args : List Bytes) :
    (main w disks t args).disks =
      (if argValue (ascii "--id") args = [] ∨ argValue (ascii "--data") args = [] then disks
      else Function.update disks (argValue (ascii "--data") args)
        ((processOf w t args).exit (disks (argValue (ascii "--data") args)))) ∧
    (main w disks t args).table = t ∧
    ((main w disks t args).status = some 0 → (main w disks t args).err = []) ∧
    ∀ n, (main w disks t args).status = some n → n ≠ 0 →
      n = 1 ∧ ((main w disks t args).err ≠ [] ∨ (main w disks t args).out = printUsage) := by
  have parts : ∀ {after : Bytes → Disk} {exit : Exit}, Ended t after exit → exit.disks = after ∧ exit.table = t ∧
      (exit.status = some 0 → exit.err = []) ∧ ∀ n, exit.status = some n → n ≠ 0 → n = 1 ∧ (exit.err ≠ [] ∨ exit.out = printUsage) :=
    fun ended => ⟨ended.disks,ended.table,ended.silent,ended.refused⟩
  apply parts
  unfold main
  by_cases nothing : args = []
  · subst nothing
    rw [if_pos rfl,if_pos (.inl rfl)]
    exact ended_refused (.inr (Eq.refl printUsage)) disks t
  rw [if_neg nothing]
  dsimp only
  split
  · exact ended_refused (.inl (by decide)) disks t
  · unfold processOf
    dsimp only
    cases w.unopened with
    | some text =>
      dsimp only
      rw [Option.isSome_some,if_pos rfl,exit_list,Function.update_eq_self]
      exact ended_caught (.runtimeError text) [] [] disks t
    | none =>
      unfold Process.exit
      dsimp only
      cases started : SyncEngine.start (argValue (ascii "--id") args) (disks (argValue (ascii "--data") args)) with
      | error x =>
        dsimp only
        rw [Function.update_eq_self]
        exact ended_caught x [] [] disks t
      | ok e =>
        have performs := perform_performs w e t (findCommand [] [] args).1 (findCommand [] [] args).2 args
        dsimp only
        rw [Option.isSome_none,if_neg Bool.false_ne_true,← performs.disk]
        exact ended_performs w performs _

-- A command line as it is meant: words, and flags with their values in between.
inductive Item where
  | word (text : Bytes)
  | option (flag value : Bytes)

def Item.render : Item → List Bytes
  | word text => [text]
  | option flag value => [flag,value]

def written (items : List Item) : List Bytes := items.flatMap Item.render

def words (items : List Item) : List Bytes := items.filterMap (fun item => match item with
  | .word text => some text
  | .option _ _ => none)

def options (items : List Item) : List (Bytes × Bytes) := items.filterMap (fun item => match item with
  | .word _ => none
  | .option flag value => some (flag,value))

-- No word and no value is a flag, and no flag is given twice.
structure Tidy (items : List Item) : Prop where
  free : ∀ text ∈ words items, text ∉ flags
  names : ∀ pair ∈ options items, pair.1 ∈ flags
  values : ∀ pair ∈ options items, pair.2 ∉ flags
  once : ((options items).map Prod.fst).Nodup

theorem Tidy.tail (tidy : Tidy (item :: items)) : Tidy items := by
  obtain ⟨free,names,values,once⟩ := tidy
  cases item with
  | word text => exact ⟨fun text member => free text (List.mem_cons_of_mem _ member),names,values,once⟩
  | option flag value =>
    exact ⟨free,fun pair member => names pair (List.mem_cons_of_mem _ member),
      fun pair member => values pair (List.mem_cons_of_mem _ member),(List.nodup_cons.mp once).2⟩

theorem argValue_pass (other : a ≠ flag) (args : List Bytes) : argValue flag (a :: args) = argValue flag args := by
  cases args with
  | nil => rfl
  | cons value rest => rw [argValue,if_neg other]

theorem argValue_written (tidy : Tidy items) (known : flag ∈ flags) :
    argValue flag (written items) = ((options items).lookup flag).getD [] := by
  induction items with
  | nil => rfl
  | cons item items ih =>
    have later := ih tidy.tail
    cases item with
    | word text =>
      have other : text ≠ flag := fun same => tidy.free text List.mem_cons_self (same ▸ known)
      exact (argValue_pass other _).trans later
    | option name value =>
      change argValue flag (name :: value :: written items) = (((name,value) :: options items).lookup flag).getD []
      by_cases same : name = flag
      · subst same
        rw [argValue,if_pos rfl,List.lookup_cons_self]
        rfl
      · have other : value ≠ flag := fun equal => tidy.values (name,value) List.mem_cons_self (equal ▸ known)
        have differs : (flag == name) = false := beq_false_of_ne (Ne.symm same)
        rw [argValue_pass same,argValue_pass other,later,List.lookup_cons,differs]

-- The first word that is not empty is the command.
def takeWord (found : Bytes × List Bytes) (text : Bytes) : Bytes × List Bytes :=
  if found.1 = [] then (text,found.2) else (found.1,found.2 ++ [text])

theorem findCommand_word (free : a ∉ flags) (found : Bytes × List Bytes) (args : List Bytes) :
    findCommand found.1 found.2 (a :: args) = findCommand (takeWord found a).1 (takeWord found a).2 args := by
  unfold takeWord
  cases args with
  | nil =>
    simp only [findCommand,if_neg free]
  | cons value args =>
    rw [findCommand,if_neg free]
    split
    · rfl
    · rfl

theorem findCommand_written (tidy : Tidy items) (found : Bytes × List Bytes) :
    findCommand found.1 found.2 (written items) = (words items).foldl takeWord found := by
  induction items generalizing found with
  | nil => rfl
  | cons item items ih =>
    cases item with
    | word text => exact (findCommand_word (tidy.free text List.mem_cons_self) found _).trans (ih tidy.tail _)
    | option flag value =>
      change findCommand found.1 found.2 (flag :: value :: written items) = _
      rw [findCommand,if_pos (tidy.names (flag,value) List.mem_cons_self)]
      exact ih tidy.tail found

theorem lookup_perm {pairs pairs' : List (Bytes × Bytes)} (same : pairs.Perm pairs') (once : (pairs.map Prod.fst).Nodup) (flag : Bytes) :
    pairs.lookup flag = pairs'.lookup flag := by
  induction same with
  | nil => rfl
  | cons pair _ ih =>
    rw [List.lookup_cons,List.lookup_cons,ih (List.nodup_cons.mp once).2]
  | swap one two rest =>
    obtain ⟨name,value⟩ := one
    obtain ⟨name',value'⟩ := two
    have apart : name' ≠ name := by
      intro equal
      simp [equal] at once
    simp only [List.lookup_cons]
    by_cases first : flag = name
    · subst first
      simp [beq_false_of_ne apart.symm]
    · simp [beq_false_of_ne first]
  | trans first _ ih ih' => exact (ih once).trans (ih' ((first.map Prod.fst).nodup_iff.mp once))

theorem Tidy.rearrange (tidy : Tidy items) (same : words items = words items') (perm : (options items).Perm (options items')) :
    Tidy items' :=
  ⟨same ▸ tidy.free,fun pair member => tidy.names pair (perm.mem_iff.mpr member),
    fun pair member => tidy.values pair (perm.mem_iff.mpr member),(perm.map Prod.fst).nodup_iff.mp tidy.once⟩

theorem written_nil : written items = [] ↔ words items = [] ∧ options items = [] := by
  cases items with
  | nil => exact ⟨fun _ => ⟨rfl,rfl⟩,fun _ => rfl⟩
  | cons item items =>
    cases item with
    | word text => exact ⟨nofun,fun both => nomatch both.1⟩
    | option flag value => exact ⟨nofun,fun both => nomatch both.2⟩

-- All that main makes of its arguments.
theorem main_reads {args args' : List Bytes} (nothing : args = [] ↔ args' = []) (command : findCommand [] [] args = findCommand [] [] args')
    (values : ∀ flag ∈ flags, argValue flag args = argValue flag args') (w : World) (disks : Bytes → Disk) (t : Table) :
    main w disks t args = main w disks t args' := by
  have node := values (ascii "--id") (by decide)
  have data := values (ascii "--data") (by decide)
  have host := values (ascii "--host") (by decide)
  have port := values (ascii "--port") (by decide)
  simp only [main,nothing,command,node,data,perform,performListen,performSync,host,port]

-- Where the flags stand among the words, and in what order, does not matter.
theorem main_arranged (w : World) (disks : Bytes → Disk) (t : Table) (items items' : List Item) (tidy : Tidy items)
    (same : words items = words items') (perm : (options items).Perm (options items')) :
    main w disks t (written items) = main w disks t (written items') := by
  have tidy' := tidy.rearrange same perm
  apply main_reads
  · rw [written_nil,written_nil,same]
    constructor
    · exact fun both => ⟨both.1,List.Perm.eq_nil (both.2 ▸ perm.symm)⟩
    · exact fun both => ⟨both.1,List.Perm.eq_nil (both.2 ▸ perm)⟩
  · have first := findCommand_written tidy ([],[])
    have second := findCommand_written tidy' ([],[])
    rw [same,← second] at first
    exact first
  · intro flag known
    rw [argValue_written tidy known,argValue_written tidy' known,lookup_perm perm tidy.once]

-- A machine without files and peers.
def lonely : World := ⟨Objects.counting,fun _ => none,fun _ _ => none,fun _ => ⟨true,true,true,true⟩,⟨[],false,0⟩,false,none,none,none⟩

def untouched : Bytes → Disk := fun _ => ⟨.empty,none,.empty⟩

theorem main_arranged_list :
    main lonely untouched ⟨∅,[]⟩ [ascii "--id",ascii "A",ascii "--data",ascii "dataA",ascii "list"] =
      main lonely untouched ⟨∅,[]⟩ [ascii "list",ascii "--data",ascii "dataA",ascii "--id",ascii "A"] := by
  have tidy : Tidy [.option (ascii "--id") (ascii "A"),.option (ascii "--data") (ascii "dataA"),.word (ascii "list")] :=
    ⟨by decide,by decide,by decide,by decide⟩
  exact main_arranged lonely untouched ⟨∅,[]⟩ _
    [.word (ascii "list"),.option (ascii "--data") (ascii "dataA"),.option (ascii "--id") (ascii "A")] tidy rfl (List.Perm.swap _ _ _)

-- A flag that stands as a value is read twice: here it names the directory as well, and
-- the directory becomes the command.
example : argValue (ascii "--data") [ascii "--id",ascii "--data",ascii "x"] = ascii "x" ∧
    findCommand [] [] [ascii "--id",ascii "--data",ascii "x"] = (ascii "x",[]) := by decide

end P2PSync.Cli
