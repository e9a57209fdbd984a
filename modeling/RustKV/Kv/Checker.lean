import Mathlib.Data.Finset.Insert
import Mathlib.Data.String.Basic
import RustKV.Rust.BTreeMap

/-!
# The linearizability checker (`tests/common/lin.rs`)

A black-box checker for histories of a per-key last-write-wins register: given
operations with the times they were invoked and returned, it decides for each
key whether some order of them fits the register and real time. It searches
depth first, remembers which sets of operations it has been through with which
register value, and represents a set by a `u64`.

`Ok` writes and reads have happened; `Fail` writes have not and are left out;
`Unknown` ones may take effect any time after their invocation, or never.
-/

namespace RustKV.Lin

open Rust

abbrev Value := UInt64

inductive WriteKind where
  | put (value : Value)
  | delete
  deriving DecidableEq, Repr

inductive WriteOutcome where
  | ok
  | fail
  | unknown
  deriving DecidableEq, Repr

inductive OpKind where
  | write (kind : WriteKind) (outcome : WriteOutcome)
      (logPos : Option (UInt64 × UInt64))
  | read (result : Option Value)
  deriving DecidableEq, Repr

structure Recorded where
  process : UInt64
  key : String
  op : OpKind
  invokedUs : UInt64
  /-- `u64::MAX` when the outcome is unknown. -/
  returnedUs : UInt64
  deriving DecidableEq, Repr

def never : UInt64 := 0xFFFFFFFFFFFFFFFF

inductive Action where
  | set (newState : Option Value)
  | expect (expected : Option Value)
  deriving DecidableEq, Repr

structure Entry where
  inv : UInt64
  ret : UInt64
  action : Action
  required : Bool
  deriving DecidableEq, Repr

def WriteKind.state : WriteKind → Option Value
  | .put value => some value
  | .delete => none

/-- What `check_key` makes of one record. -/
def Recorded.entry (record : Recorded) : Option Entry :=
  match record.op with
  | .write _ .fail _ => none
  | .write kind outcome _ =>
      some
        { inv := record.invokedUs
          ret := if outcome = .unknown then never else record.returnedUs
          action := .set kind.state
          required := outcome = .ok }
  | .read result =>
      some
        { inv := record.invokedUs
          ret := record.returnedUs
          action := .expect result
          required := true }

/-! ## The search -/

abbrev Mask := BitVec 64

def bit (i : Nat) : Mask := 1#64 <<< i

abbrev Memo := Finset (Mask × Option Value)

def requiredMask (ops : List Entry) : Mask :=
  ((ops.zipIdx.filter fun p => p.1.required).map fun p => bit p.2).foldr
    (· + ·) 0#64

/-- The first return among the operations that are not in `mask`. -/
def minRet (ops : List Entry) (mask : Mask) : UInt64 :=
  ((ops.zipIdx.filter fun p => mask &&& bit p.2 = 0#64).map
    fun p => p.1.ret).min?.getD never

/-- The loop of `search`: the first attempt that succeeds ends it. -/
def anyFeasible (attempt : Entry → Nat → Memo → Bool × Memo) :
    List (Entry × Nat) → Memo → Bool × Memo
  | [], memo => (false, memo)
  | (entry, i) :: rest, memo =>
      match attempt entry i memo with
      | (true, memo) => (true, memo)
      | (false, memo) => anyFeasible attempt rest memo

/-- The body of that loop, for the operation with bit `i`; `descend` is the
recursive call. -/
def attempt (ops : List Entry) (mask : Mask) (state : Option Value)
    (descend : Memo → Mask → Option Value → Bool × Memo) (entry : Entry)
    (i : Nat) (memo : Memo) : Bool × Memo :=
  if mask &&& bit i ≠ 0#64 ∨ minRet ops mask < entry.inv then (false, memo)
  else
    match entry.action with
    | .expect expected =>
        if state = expected then descend memo (mask ||| bit i) state
        else (false, memo)
    | .set newState => descend memo (mask ||| bit i) newState

/-- `fuel` bounds the depth; each level adds an operation to `mask`. -/
def search (ops : List Entry) (required : Mask) (fuel : Nat) (memo : Memo)
    (mask : Mask) (state : Option Value) : Bool × Memo :=
  -- leftover unknown writes never happened
  if mask &&& required = required then (true, memo)
  else if (mask, state) ∈ memo then (false, memo)
  else
    match fuel with
    | 0 => (false, memo)
    | fuel + 1 =>
        anyFeasible (attempt ops mask state (search ops required fuel))
          ops.zipIdx (insert (mask, state) memo)

/-- The outer error is the failed assertion. -/
def checkKey (history : List Recorded) : Except String (Except String Unit) :=
  let ops := history.filterMap Recorded.entry
  if 63 < ops.length then
    .error "history too large for the u64-mask checker"
  else if (search ops (requiredMask ops) ops.length ∅ 0#64 none).1 then
    .ok (.ok ())
  else .ok (.error "no valid linearization exists")

/-! ## Reports -/

def debugOption (f : α → String) : Option α → String
  | none => "None"
  | some a => "Some(" ++ f a ++ ")"

def WriteKind.debug : WriteKind → String
  | .put value => "Put(" ++ toString value ++ ")"
  | .delete => "Delete"

def WriteOutcome.debug : WriteOutcome → String
  | .ok => "Ok"
  | .fail => "Fail"
  | .unknown => "Unknown"

def OpKind.debug : OpKind → String
  | .write kind outcome logPos =>
      "Write \x7b kind: " ++ kind.debug ++ ", outcome: " ++ outcome.debug ++
        ", log_pos: " ++ debugOption (fun p => "(" ++ toString p.1 ++ ", " ++
          toString p.2 ++ ")") logPos ++ " \x7d"
  | .read result =>
      "Read \x7b result: " ++ debugOption toString result ++ " \x7d"

def Recorded.line (r : Recorded) : String :=
  "  p" ++ toString r.process ++ " [" ++ toString r.invokedUs ++ " .. " ++
    (if r.returnedUs = never then "?" else toString r.returnedUs) ++ "µs] " ++
    r.op.debug ++ "\n"

/-- A dump for failure reports, ordered by invocation. -/
def render (history : List Recorded) : String :=
  (history.mergeSort fun a b => a.invokedUs ≤ b.invokedUs).foldl
    (fun out r => out ++ r.line) ""

structure Offence where
  key : String
  reason : String
  rendered : String
  deriving DecidableEq, Repr

/-! ## All keys -/

def byKey (history : List Recorded) : BTreeMap String (List Recorded) :=
  history.foldl (fun m record =>
    m.insert record.key ((m.get record.key).getD [] ++ [record])) .empty

def checkKeys (records : String → List Recorded) :
    List String → Except String (Except Offence Unit)
  | [] => .ok (.ok ())
  | key :: keys =>
      match checkKey (records key) with
      | .error assertion => .error assertion
      | .ok (.error reason) => .ok (.error ⟨key, reason, render (records key)⟩)
      | .ok (.ok ()) => checkKeys records keys

def checkLinearizable (history : List Recorded) :
    Except String (Except Offence Unit) :=
  checkKeys (fun key => ((byKey history).get key).getD [])
    (byKey history).keys

end RustKV.Lin
