import Mathlib.Algebra.Ring.Nat
import RustKV.Raft.Types

/-!
# The safety observer of the simulated network (`raft/transport/sim.rs`)

Every request that passes through the simulator is shown to
`inspect_append_entries` first. Only AppendEntries carries claims: that its
sender leads the term, and what stands at each term and index it ships. The
observer keeps the first claim of each kind and records a violation when a
later one differs, or when a message does not hang together in itself.

The two counters of `check_shape` are `u64`. `wrappingSucc` is their `+ 1` as
the release profile computes it; a build with overflow checks stops there.
-/

namespace RustKV

variable {V P : Type}

/-- `+ 1` on a `u64`. -/
def wrappingSucc (n : Nat) : Nat := (n + 1) % 2 ^ 64

/-- The part of the simulator's `State` the observer reads and writes. -/
structure Observer (V : Type) where
  leadersPerTerm : Nat → Option NodeId
  entriesSeen : Nat × Nat → Option (Command V)
  violations : List String

namespace Observer

def new : Observer V where
  leadersPerTerm _ := none
  entriesSeen _ := none
  violations := []

/-- `st.violations.push(..)`. -/
def report (st : Observer V) (violation : String) : Observer V :=
  { st with violations := st.violations ++ [violation] }

/-- Election Safety: "I lead term T" must have a unique claimant. -/
def checkClaim (st : Observer V) (args : AppendEntriesArgs V) : Observer V :=
  match st.leadersPerTerm args.term with
  | none =>
      { st with
        leadersPerTerm := Function.update st.leadersPerTerm args.term
          (some args.leaderId) }
  | some known =>
      if known ≠ args.leaderId then
        st.report (s!"election safety violated: nodes {known} and " ++
          s!"{args.leaderId} both sent AppendEntries as leader of term " ++
          s!"{args.term}")
      else st

/-- The loop of `check_shape`: the first entry that is out of place. -/
def shapeDefect (args : AppendEntriesArgs V) :
    Nat → Nat → List (LogEntry V) → Option String
  | _, _, [] => none
  | expected, minTerm, entry :: rest =>
      if entry.index ≠ expected then
        some (s!"malformed AppendEntries from node {args.leaderId}: entry " ++
          s!"index {entry.index} where {expected} was expected " ++
          s!"(prev_log_index {args.prevLogIndex})")
      else if entry.term < minTerm ∨ entry.term > args.term then
        some (s!"malformed AppendEntries from node {args.leaderId}: entry " ++
          s!"(term {entry.term}, index {entry.index}) outside " ++
          s!"[{minTerm}, {args.term}]")
      else shapeDefect args (wrappingSucc expected) entry.term rest

def checkShape (st : Observer V) (args : AppendEntriesArgs V) : Observer V :=
  match shapeDefect args (wrappingSucc args.prevLogIndex) args.prevLogTerm
    args.entries with
  | none => st
  | some violation => st.report violation

variable [DecidableEq V]

/-- Log Matching: a `(term, index)` names one command, forever. -/
def checkEntry (st : Observer V) (entry : LogEntry V) : Observer V :=
  match st.entriesSeen (entry.term, entry.index) with
  | none =>
      { st with
        entriesSeen := Function.update st.entriesSeen
          (entry.term, entry.index) (some entry.command) }
  | some seen =>
      if seen ≠ entry.command then
        st.report (s!"log matching violated: two different commands " ++
          s!"shipped for (term {entry.term}, index {entry.index})")
      else st

def inspectAppendEntries (st : Observer V) :
    RpcRequest V P → Observer V
  | .appendEntries args =>
      args.entries.foldl checkEntry ((st.checkClaim args).checkShape args)
  | _ => st

/-- The observer after a sequence of requests. -/
def afterAll (reqs : List (RpcRequest V P)) : Observer V :=
  reqs.foldl inspectAppendEntries new

end Observer

end RustKV
