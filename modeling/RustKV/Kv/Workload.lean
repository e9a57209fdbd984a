import RustKV.Kv.Checker
import RustKV.Kv.Service

/-!
# The clients of the consistency test (`tests/jepsen.rs`)

Several clients write and read through a cluster while it suffers faults. Each
records its operations, with the times they were invoked and returned and what
became of them, and the joint record goes to the checker.

A client that writes once (`FireOnce`) carries no token. One that retries
(`TokenRetry`) proposes the same command, under the same token, until a copy is
confirmed or it gives up, and records all its attempts as one write. Reads are
those of the linearizable mode: a client records one only if it was granted,
and looks the value up in the store of the node that granted it.

There is a second check, `check_write_witness`, that looks inside: every
confirmed write has to be at the place its client was told, in the log a node
leaves on disk, and the log has to follow real time.

What a client meets is given here as data; that it is what happened in a run of
the cluster is said in `Proofs/Workload.lean`.
-/

namespace RustKV.Jepsen

open Lin

variable {V : Type}

inductive Attempt where
  /-- There was no unique leader to turn to. -/
  | skipped
  /-- `propose` answered with an error. -/
  | rejected
  /-- The command got this place in the log, and so the wait for its
  `committed` channel ended. -/
  | accepted (term index : Nat) (committed : Awaited Bool)
  deriving DecidableEq, Repr

inductive WriteMode where
  | fireOnce
  /-- The client's `op_no`, which goes into the token. -/
  | tokenRetry (opNo : Nat)
  deriving DecidableEq, Repr

/-- What a client notes of a write: how it ended and where the command went. -/
abbrev Note := WriteOutcome × Option (Nat × Nat)

/-- A write that is tried once. Without a leader the client lets its turn pass
and notes nothing. -/
def noteOnce : Attempt → Option Note
  | .skipped => none
  | .rejected => some (.fail, none)
  | .accepted term index (.received true) => some (.ok, some (term, index))
  | .accepted term index (.received false) => some (.fail, some (term, index))
  | .accepted term index _ => some (.unknown, some (term, index))

/-- The variables of the retry loop. -/
structure Retry where
  outcome : WriteOutcome
  logPos : Option (Nat × Nat)
  ambiguous : Bool
  deriving DecidableEq, Repr

/-- The loop over the attempts; a confirmation ends it. The test gives up
after four. -/
def Retry.run (s : Retry) : List Attempt → Retry
  | [] => s
  | .accepted term index (.received true) :: _ =>
      { s with outcome := .ok, logPos := some (term, index) }
  | .accepted _ _ (.received false) :: rest => s.run rest
  | .accepted term index _ :: rest =>
      { s with ambiguous := true, logPos := some (term, index) }.run rest
  | .skipped :: rest => s.run rest
  | .rejected :: rest => s.run rest

/-- Failed only if every attempt definitely was; one copy in flight leaves the
write open. -/
def noteRetried (attempts : List Attempt) : Note :=
  let s := Retry.run ⟨.fail, none, false⟩ attempts
  (if s.outcome ≠ .ok ∧ s.ambiguous then .unknown else s.outcome, s.logPos)

def WriteMode.note : WriteMode → List Attempt → Option Note
  | .fireOnce, [attempt] => noteOnce attempt
  | .fireOnce, _ => none
  | .tokenRetry _, attempts => some (noteRetried attempts)

inductive Call where
  | write (kind : WriteKind) (mode : WriteMode) (attempts : List Attempt)
  | read (result : Option Value)
  deriving DecidableEq, Repr

/-- An operation of a client, from before one step of the system to before
another. -/
structure Op where
  process : UInt64
  key : String
  start : Nat
  stop : Nat
  call : Call
  deriving DecidableEq, Repr

namespace Op

/-- The record of the operation, with `clock i` the microseconds elapsed
before step `i`. -/
def record (clock : Nat → UInt64) (op : Op) : Option Recorded :=
  match op.call with
  | .write kind mode attempts =>
      (mode.note attempts).map fun note =>
        { process := op.process
          key := op.key
          op := .write kind note.1 (note.2.map fun p =>
            (UInt64.ofNat p.1, UInt64.ofNat p.2))
          invokedUs := clock op.start
          returnedUs := if note.1 = .unknown then never else clock op.stop }
  | .read result =>
      some
        { process := op.process
          key := op.key
          op := .read result
          invokedUs := clock op.start
          returnedUs := clock op.stop + 1 }

def session (op : Op) : Option Session :=
  match op.call with
  | .write _ (.tokenRetry opNo) _ => some ⟨op.process.toNat, opNo⟩
  | _ => none

/-- The command a write proposes, the same in every attempt. `json` makes a
JSON value of a number. -/
def command (json : Value → V) (op : Op) : Option (Command V) :=
  match op.call with
  | .write (.put value) _ _ => some (.put op.key (json value) op.session)
  | .write .delete _ _ => some (.delete op.key op.session)
  | .read _ => none

def attempts (op : Op) : List Attempt :=
  match op.call with
  | .write _ _ attempts => attempts
  | .read _ => []

end Op

/-! ## The log as a witness -/

inductive WitnessPanic (V : Type) where
  /-- `index - 1` on an index of 0. -/
  | overflow
  | missing (index : UInt64)
  | replaced (index : UInt64) (found term : Nat)
  | wrongCommand (index : UInt64) (command : Command V)
  deriving DecidableEq

def confirmedPlace (r : Recorded) : Option (WriteKind × UInt64 × UInt64) :=
  match r.op with
  | .write kind .ok (some (term, index)) => some (kind, term, index)
  | _ => none

/-- Field-wise, without the token. -/
def commandMatches [DecidableEq V] (json : Value → V) (key : String) :
    Command V → WriteKind → Bool
  | .put key' value _, .put v => key' = key ∧ value = json v
  | .delete key' _, .delete => key' = key
  | _, _ => false

def checkPlace [DecidableEq V] (json : Value → V) (log : List (LogEntry V))
    (key : String) (kind : WriteKind) (term index : UInt64) :
    Except (WitnessPanic V) Unit :=
  if index = 0 then .error .overflow
  else
    match log[index.toNat - 1]? with
    | none => .error (.missing index)
    | some entry =>
        if entry.term ≠ term.toNat then
          .error (.replaced index entry.term term.toNat)
        else if commandMatches json key entry.command kind then .ok ()
        else .error (.wrongCommand index entry.command)

def confirmedWrites [DecidableEq V] (json : Value → V)
    (log : List (LogEntry V)) :
    List Recorded → Except (WitnessPanic V) (List (Recorded × UInt64))
  | [] => .ok []
  | r :: rest =>
      match confirmedPlace r with
      | none => confirmedWrites json log rest
      | some (kind, term, index) => do
          checkPlace json log r.key kind term index
          let others ← confirmedWrites json log rest
          return (r, index) :: others

/-- `a` had returned when `b` was invoked, yet lies at or above it. -/
def outOfOrder (a b : Recorded × UInt64) : Bool :=
  a.1.returnedUs < b.1.invokedUs && b.2 ≤ a.2

def checkOrder (confirmed : List (Recorded × UInt64)) : Except String Unit :=
  match (confirmed.flatMap fun a => confirmed.map fun b => (a, b)).find?
      fun p => outOfOrder p.1 p.2 with
  | none => .ok ()
  | some (a, b) =>
      .error ("log order violates real time: index " ++ toString a.2 ++
        " returned at " ++ toString a.1.returnedUs ++ "µs but index " ++
        toString b.2 ++ " was invoked later at " ++
        toString b.1.invokedUs ++ "µs")

/-- Every confirmed write sits at its place in `log`, and the order of the
log respects real time. The outer error is a failed assertion. -/
def checkWriteWitness [DecidableEq V] (json : Value → V)
    (history : List Recorded) (log : List (LogEntry V)) :
    Except (WitnessPanic V) (Except String Unit) := do
  let confirmed ← confirmedWrites json log history
  return checkOrder confirmed

end RustKV.Jepsen
