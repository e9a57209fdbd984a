import RustKV.Raft.Node
import Mathlib.Logic.Function.Basic

/-!
# The key-value state machine (`store.rs`)

A map from keys to JSON values and, per client, which of its recent sequence
numbers have been applied. Both are `HashMap`s in the source; here a lookup
function stands for one, since nothing iterates over them.

Dedup is by exact match over a window of `sessionWindow` sequence numbers
counted down from the largest one seen. Bit `i` of `recent` is the number
`maxSeq - i`; whatever lies below the window is taken for a duplicate.
-/

namespace RustKV

variable {V : Type}

/-- `SESSION_WINDOW`, the width of `SessionState::recent`. -/
def sessionWindow : Nat := 64

structure SessionState where
  maxSeq : Nat
  recent : BitVec 64
  deriving DecidableEq, Repr

namespace SessionState

def new (seq : Nat) : SessionState := ⟨seq, 1#64⟩

def contains (s : SessionState) (seq : Nat) : Bool :=
  if seq > s.maxSeq then false
  else
    let offset := s.maxSeq - seq
    offset ≥ sessionWindow || (s.recent &&& (1#64 <<< offset)) ≠ 0#64

/-- `u64::checked_shl`: `none` for a shift by the whole width or more. -/
def checkedShl (x : BitVec 64) (shift : Nat) : Option (BitVec 64) :=
  if shift < 64 then some (x <<< shift) else none

def record (s : SessionState) (seq : Nat) : SessionState :=
  if seq > s.maxSeq then
    -- the shift distance saturates at `u32::MAX`
    let shift := min (seq - s.maxSeq) 4294967295
    ⟨seq, (checkedShl s.recent shift).getD 0#64 ||| 1#64⟩
  else if s.maxSeq - seq < sessionWindow then
    { s with recent := s.recent ||| (1#64 <<< (s.maxSeq - seq)) }
  else s

end SessionState

structure KvStore (V : Type) where
  map : String → Option V
  sessions : Nat → Option SessionState

/-- The payload of a snapshot; its JSON form is taken to round-trip. -/
structure KvSnapshot (V : Type) where
  map : String → Option V
  sessions : Nat → Option SessionState

namespace KvStore

def new : KvStore V := ⟨fun _ => none, fun _ => none⟩

def get (s : KvStore V) (key : String) : Option V := s.map key

def put (s : KvStore V) (key : String) (value : V) : KvStore V :=
  { s with map := Function.update s.map key (some value) }

/-- Also answers whether the key was there. -/
def delete (s : KvStore V) (key : String) : Bool × KvStore V :=
  ((s.map key).isSome, { s with map := Function.update s.map key none })

/-- `KvStore::export`. -/
def toSnapshot (s : KvStore V) : KvSnapshot V := ⟨s.map, s.sessions⟩

/-- `KvStore::import`. -/
def ofSnapshot (s : KvSnapshot V) : KvStore V := ⟨s.map, s.sessions⟩

def alreadyApplied (s : KvStore V) : Option Session → Bool
  | none => false
  | some ⟨client, seq⟩ =>
      (s.sessions client).any fun state => state.contains seq

def recordApplied (s : KvStore V) : Option Session → KvStore V
  | none => s
  | some ⟨client, seq⟩ =>
      { s with
        sessions := Function.update s.sessions client
          (some (match s.sessions client with
            | some state => state.record seq
            | none => .new seq)) }

def apply (s : KvStore V) (entry : LogEntry V) : KvStore V :=
  match entry.command with
  | .put key value session =>
      if s.alreadyApplied session then s
      else (s.put key value).recordApplied session
  | .delete key session =>
      if s.alreadyApplied session then s
      else (s.delete key).2.recordApplied session
  | .noop => s
  | .configChange _ => s

/-- `impl StateMachine for KvStore`. -/
def machine (V : Type) : StateMachine V where
  State := KvStore V
  Payload := KvSnapshot V
  new := new
  apply := apply
  snapshot := toSnapshot
  restore payload := some (ofSnapshot payload)
  restore_snapshot _ := rfl

end KvStore

end RustKV
