import RustKV.Raft.Storage
import RustKV.Rust.Bytes

/-!
# The data directory and its recovery (`raft/storage.rs`)

The three files of a node, what every `Storage` call writes to them and in
which order, and `Storage::open`, which reads them back. The in-memory side of
the calls is `Raft/Storage.lean`.

A crash loses the memory and stops the writing. `write_atomic` goes through a
temporary file and a rename, so it leaves the old file or the new one; an
append may leave any part of its bytes. The temporary files are never read
and are not modelled. I/O itself succeeds.

How entries, snapshots and the hard state are written is a parameter: all that
is used of `serde_json` is that what it wrote reads back, that trailing white
space does not matter to it, and that it puts no raw newline into an entry.
-/

namespace RustKV

open Rust

variable {V P : Type}

/-- How `serde_json` writes and reads what is stored. -/
structure Json (V P : Type) where
  hardState : Codec HardState
  snapshot : Codec (Snapshot P)
  entry : Codec (LogEntry V)

/-- A data directory; `none` for a file that is not there. -/
structure Dir where
  path : String
  /-- `hard_state.json` -/
  hardState : Option (List UInt8)
  /-- `snapshot.json` -/
  snapshot : Option (List UInt8)
  /-- `log.jsonl` -/
  log : Option (List UInt8)
  deriving DecidableEq

inductive Failure where
  | storage (error : StorageError)
  | panicked (message : String)
  deriving DecidableEq

/-! ## Reading the directory -/

def loadHardState (J : Json V P) (d : Dir) : Except StorageError HardState :=
  match d.hardState with
  | none => .ok default
  | some bytes =>
      match J.hardState.decode bytes with
      | .ok hs => .ok hs
      | .error e => .error (.corrupt s!"{d.path}/hard_state.json: {e}")

def loadSnapshot (J : Json V P) (d : Dir) :
    Except StorageError (Option (Snapshot P)) :=
  match d.snapshot with
  | none => .ok none
  | some bytes =>
      match J.snapshot.decode bytes with
      | .ok snap => .ok (some snap)
      | .error e => .error (.corrupt s!"{d.path}/snapshot.json: {e}")

/-- The variables of the loop in `replay_log`. -/
structure Replay (V : Type) where
  log : List (LogEntry V)
  previousIndex : Option Nat
  /-- Just past the last valid line. -/
  goodEnd : Nat
  offset : Nat

/-- The index of the line before, if `entry` does not follow it. -/
def Replay.gap (st : Replay V) (entry : LogEntry V) : Option Nat :=
  st.previousIndex.filter fun previous => entry.index ≠ previous + 1

/-- A valid line read, which ends at `offset`. -/
def Replay.push (st : Replay V) (snapshotIndex : Nat) (entry : LogEntry V)
    (offset : Nat) : Replay V where
  log := if entry.index > snapshotIndex then st.log ++ [entry] else st.log
  previousIndex := some entry.index
  goodEnd := offset
  offset := offset

/-- The loop of `replay_log` over the chunks of a file of `total` bytes; also
says whether it broke off at a torn final line. -/
def replayLines (J : Json V P) (path : String) (snapshotIndex total : Nat) :
    List (List UInt8) → Replay V → Except Failure (Replay V × Bool)
  | [], st => .ok (st, false)
  | chunk :: rest, st =>
      let complete := chunk.getLast? = some newline
      let lineStart := st.offset
      let offset := st.offset + chunk.length
      match J.entry.decode chunk with
      | .ok entry =>
          if complete then
            match st.gap entry with
            | some previous => .error (.storage (.corrupt
                s!"{path}: expected index {previous + 1} at byte {lineStart}, found {entry.index}"))
            | none =>
                replayLines J path snapshotIndex total rest
                  (st.push snapshotIndex entry offset)
          else if offset = total then
            .ok ({ st with offset := offset }, true)
          else .error (.panicked
            "complete non-final lines are handled above")
      | .error e =>
          if offset = total then .ok ({ st with offset := offset }, true)
          else .error (.storage (.corrupt
            s!"{path}: bad line at byte {lineStart}: {e}"))

/-- The first entry read, if it does not follow the boundary. -/
def misplaced (snapshotIndex : Nat) (log : List (LogEntry V)) :
    Option (LogEntry V) :=
  log.head?.filter fun first => first.index ≠ snapshotIndex + 1

/-- Reads and validates the log, cutting off a torn final line. -/
def replayLog (J : Json V P) (d : Dir) (snapshotIndex : Nat) :
    Except Failure (List (LogEntry V)) × Dir :=
  match d.log with
  | none => (.ok [], d)
  | some bytes =>
      let path := d.path ++ "/log.jsonl"
      match replayLines J path snapshotIndex bytes.length
        (splitInclusive (· = newline) bytes) ⟨[], none, 0, 0⟩ with
      | .error e => (.error e, d)
      | .ok (st, torn) =>
          let d' := if torn then { d with log := some (bytes.take st.goodEnd) }
            else d
          match misplaced snapshotIndex st.log with
          | some first => (.error (.storage (.corrupt
              s!"{path}: log starts at index {first.index} but the snapshot boundary is {snapshotIndex}")), d')
          | none => (.ok st.log, d')

/-- Opening the append handle creates the file. -/
def Dir.createLog (d : Dir) : Dir := { d with log := some (d.log.getD []) }

/-- `Storage::open`, with the directory it leaves. -/
def openStorage (J : Json V P) (d : Dir) :
    Except Failure (Storage V P) × Dir :=
  match loadHardState J d, loadSnapshot J d with
  | .error e, _ => (.error (.storage e), d)
  | .ok _, .error e => (.error (.storage e), d)
  | .ok hardState, .ok snapshot =>
      match replayLog J d (snapshot.elim 0 Snapshot.lastIncludedIndex) with
      | (.error e, d') => (.error e, d')
      | (.ok log, d') => (.ok ⟨hardState, snapshot, log⟩, d'.createLog)

/-! ## Writing to it -/

/-- One durable write. All but the append are atomic. -/
inductive Write where
  | hardState (bytes : List UInt8)
  | snapshot (bytes : List UInt8)
  | log (bytes : List UInt8)
  | append (bytes : List UInt8)
  deriving DecidableEq

namespace Write

def perform (d : Dir) : Write → Dir
  | .hardState bytes => { d with hardState := some bytes }
  | .snapshot bytes => { d with snapshot := some bytes }
  | .log bytes => { d with log := some bytes }
  | .append bytes => { d with log := some (d.log.getD [] ++ bytes) }

/-- The write interrupted: an append after `n` bytes, any other before its
rename. -/
def tear (d : Dir) (n : Nat) : Write → Dir
  | .append bytes => perform d (.append (bytes.take n))
  | _ => d

end Write

/-- Writes broken off by a crash: the first `k` done, the next one torn. -/
def Dir.crashIn (d : Dir) (ws : List Write) (k n : Nat) : Dir :=
  let d' := (ws.take k).foldl Write.perform d
  (ws[k]?).elim d' (Write.tear d' n)

def Json.lines (J : Json V P) (es : List (LogEntry V)) : List UInt8 :=
  es.flatMap fun e => J.entry.encode e ++ [newline]

def writeSnapshot (J : Json V P) (snapshot : Snapshot P) : List Write :=
  [.snapshot (J.snapshot.encode snapshot)]

def rewriteLog (J : Json V P) (entries : List (LogEntry V)) : List Write :=
  [.log (J.lines entries)]

/-- The mutating calls on a `Storage`. -/
inductive StorageOp (V P : Type) where
  | saveHardState (hs : HardState)
  | append (entries : List (LogEntry V))
  | truncateFrom (start : Nat)
  | compactTo (lastIncludedIndex : Nat) (state : P)
      (membership : Option Membership)
  | installSnapshot (snapshot : Snapshot P)

/-- What a call writes, in order, and the memory it leaves. A call that
returns an error has written nothing. -/
def StorageOp.run (J : Json V P) (s : Storage V P) :
    StorageOp V P → Except StorageError (List Write × Storage V P)
  | .saveHardState hs =>
      .ok ([.hardState (J.hardState.encode hs)], s.saveHardState hs)
  | .append es =>
      (s.append es).map fun s' =>
        (if es.isEmpty then [] else [.append (J.lines es)], s')
  | .truncateFrom start =>
      (s.truncateFrom start).map fun s' =>
        (if start > s.lastIndex then [] else rewriteLog J s'.log, s')
  | .compactTo lastIncludedIndex state membership =>
      (s.compactTo lastIncludedIndex state membership).map fun s' =>
        (s'.snapshot.elim [] (writeSnapshot J) ++ rewriteLog J s'.log, s')
  | .installSnapshot snapshot =>
      (s.installSnapshot snapshot).map fun s' =>
        (writeSnapshot J snapshot ++ rewriteLog J s'.log, s')

/-! ## Crashes and reopenings -/

/-- A node's directory and its memory of it. -/
structure Disk (V P : Type) where
  dir : Dir
  mem : Storage V P
  deriving DecidableEq

/-- A call made, or a crash inside it that leaves its first `k` writes and a
torn one, and the reopening. A crash between calls is one before the first
write of any. -/
inductive DiskEvent (V P : Type) where
  | call (op : StorageOp V P)
  | crash (op : StorageOp V P) (k n : Nat)

def DiskEvent.op : DiskEvent V P → StorageOp V P
  | .call op => op
  | .crash op _ _ => op

namespace Disk

/-- An empty directory, opened. -/
def init (path : String) : Disk V P :=
  ⟨⟨path, none, none, some []⟩, Storage.empty⟩

def reopen (J : Json V P) (d : Dir) : Except Failure (Disk V P) :=
  match openStorage J d with
  | (.error e, _) => .error e
  | (.ok s, d') => .ok ⟨d', s⟩

/-- One event; an error is one of `Storage::open`. -/
def step (J : Json V P) (x : Disk V P) :
    DiskEvent V P → Except Failure (Disk V P)
  | .call op =>
      match op.run J x.mem with
      | .error _ => .ok x
      | .ok (ws, s) => .ok ⟨ws.foldl Write.perform x.dir, s⟩
  | .crash op k n =>
      match op.run J x.mem with
      | .error _ => reopen J x.dir
      | .ok (ws, _) => reopen J (x.dir.crashIn ws k n)

end Disk

end RustKV
