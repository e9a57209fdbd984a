import RustKV.Raft.Types

/-!
# Hard state, snapshot and retained log (`raft/storage.rs`)

The in-memory side of `Storage`: what each operation checks and what it
leaves in memory once its write is durable. The bytes on disk, and what a
crash can do to them, are modelled on top of this in `Raft/Disk.lean`; the
consensus core only ever sees this side.

Log indexes are global and 1-based, and entries at or below the snapshot
boundary are compacted away. All index arithmetic goes through `pos`.
-/

namespace RustKV

open Rust

inductive StorageError where
  | io
  | corrupt (msg : String)
  | nonContiguous (expected got : Nat)
  deriving DecidableEq, Repr

structure Storage (V P : Type) where
  hardState : HardState
  snapshot : Option (Snapshot P)
  /-- The retained entries, those above the boundary. -/
  log : List (LogEntry V)
  deriving DecidableEq

namespace Storage

variable {V P : Type}

/-- A directory nothing was ever written to. -/
def empty : Storage V P := ⟨default, none, []⟩

/-- Index of the last compacted entry; 0 if never compacted. -/
def snapshotIndex (s : Storage V P) : Nat :=
  s.snapshot.elim 0 Snapshot.lastIncludedIndex

theorem snapshotIndex_of_some {s : Storage V P} {snap : Snapshot P}
    (h : s.snapshot = some snap) :
    s.snapshotIndex = snap.lastIncludedIndex := by
  rw [snapshotIndex, h]
  rfl

theorem snapshotIndex_congr {s s' : Storage V P}
    (h : s'.snapshot = s.snapshot) : s'.snapshotIndex = s.snapshotIndex := by
  rw [snapshotIndex, snapshotIndex, h]

def snapshotTerm (s : Storage V P) : Nat :=
  s.snapshot.elim 0 Snapshot.lastIncludedTerm

/-- Position of `index` in the retained log; `none` at the boundary and
below. -/
def pos (s : Storage V P) (index : Nat) : Option Nat :=
  if s.snapshotIndex + 1 ≤ index then some (index - (s.snapshotIndex + 1))
  else none

def entries (s : Storage V P) : List (LogEntry V) := s.log

/-- All retained entries from `start` on; the whole retained log if `start`
lies below it. -/
def entriesFrom (s : Storage V P) (start : Nat) : List (LogEntry V) :=
  s.log.drop ((s.pos start).getD 0)

def entry (s : Storage V P) (index : Nat) : Option (LogEntry V) :=
  (s.pos index).bind fun p => s.log[p]?

/-- The boundary answers with the snapshot's term, index 0 with 0. -/
def term (s : Storage V P) (index : Nat) : Option Nat :=
  if index = s.snapshotIndex then some s.snapshotTerm
  else (s.entry index).map LogEntry.term

def lastIndex (s : Storage V P) : Nat := s.snapshotIndex + s.log.length

def lastTerm (s : Storage V P) : Nat :=
  (s.log.getLast?).elim s.snapshotTerm LogEntry.term

def saveHardState (s : Storage V P) (hs : HardState) : Storage V P :=
  { s with hardState := hs }

/-- The contiguity check of `append`: the first index out of line. -/
def checkContiguous (expected : Nat) :
    List (LogEntry V) → Except StorageError Unit
  | [] => .ok ()
  | e :: rest =>
      if e.index ≠ expected then .error (.nonContiguous expected e.index)
      else checkContiguous (expected + 1) rest

def append (s : Storage V P) (es : List (LogEntry V)) :
    Except StorageError (Storage V P) :=
  if es.isEmpty then .ok s
  else
    match checkContiguous (s.lastIndex + 1) es with
    | .error err => .error err
    | .ok () => .ok { s with log := s.log ++ es }

def truncateFrom (s : Storage V P) (start : Nat) :
    Except StorageError (Storage V P) :=
  match s.pos start with
  | none => .error (.corrupt
      s!"truncate_from({start}): at or below the snapshot boundary {s.snapshotIndex}")
  | some keep =>
      if start > s.lastIndex then .ok s
      else .ok { s with log := s.log.take keep }

def compactTo (s : Storage V P) (lastIncludedIndex : Nat) (state : P)
    (membership : Option Membership) : Except StorageError (Storage V P) :=
  match s.entry lastIncludedIndex with
  | none => .error (.corrupt
      s!"compact_to({lastIncludedIndex}): outside the retained log ({s.snapshotIndex}, {s.lastIndex}]")
  | some e =>
      .ok { s with
        snapshot := some ⟨lastIncludedIndex, e.term, membership, state⟩
        log := s.entriesFrom (lastIncludedIndex + 1) }

/-- The suffix beyond an installed boundary survives only if the local entry
at the boundary has the snapshot's term. -/
def retainedBy (s : Storage V P) (snapshot : Snapshot P) :
    List (LogEntry V) :=
  if s.term snapshot.lastIncludedIndex = some snapshot.lastIncludedTerm then
    s.entriesFrom (snapshot.lastIncludedIndex + 1)
  else []

def installSnapshot (s : Storage V P) (snapshot : Snapshot P) :
    Except StorageError (Storage V P) :=
  if snapshot.lastIncludedIndex ≤ s.snapshotIndex then
    .error (.corrupt
      s!"install_snapshot({snapshot.lastIncludedIndex}): at or below the current boundary {s.snapshotIndex}")
  else
    .ok { s with snapshot := some snapshot, log := s.retainedBy snapshot }

end Storage

end RustKV
