import RustKV.Rust.JsonText
import RustKV.Raft.Disk

/-!
# The text on disk

What is stored, spelled as the derived serializers of `types.rs` spell it:
fields in the order they are declared, an enum variant as an object with its
name as the key, a command without a session token without the field, a
missing membership as `null`. Every piece reads back, so this is a `Json`,
for any spelling of the stored values that does.
-/

namespace RustKV

open Rust

variable {V P : Type}

namespace Json

def session : Wire Session :=
  (((Wire.decimal 44).wrap "\x7b\"client\":" "").pair
    ((Wire.decimal 125).wrap "\"seq\":" "")).comap
    (fun s => (s.client, s.seq)) (fun x => ⟨x.1, x.2⟩) fun _ => rfl

def memberAddr : Wire MemberAddr :=
  ((Wire.string.wrap "\x7b\"raft\":" ",\"client\":").pair
    (Wire.string.wrap "" "\x7d")).comap
    (fun a => (a.raft, a.client)) (fun x => ⟨x.1, x.2⟩) fun _ => rfl

def member : Wire (NodeId × MemberAddr) :=
  ((Wire.decimal 34).wrap "\"" ":").pair memberAddr

/-- The keys in ascending order, so equal configurations have one text. -/
def membership : Wire Membership :=
  ((Wire.commas 125 member fun _ _ => rfl).wrap "\x7b" "").comap
    (fun m => m.entries)
    (fun l => if h : (l.map Prod.fst).Pairwise (· < ·) then ⟨l, h⟩
      else BTreeMap.empty) fun m => dif_pos m.sorted

/-- The end of a client command: its token if it has one. -/
def sessionField : Wire (Option Session) :=
  ((Wire.unit.wrap "\x7d\x7d" "").sum
    (session.wrap ",\"session\":" "\x7d\x7d") fun _ _ => rfl).comap
    (fun
      | none => .inl ()
      | some s => .inr s)
    (Sum.elim (fun _ => none) some) fun s => by cases s <;> rfl

def put (value : Wire V) : Wire (String × V × Option Session) :=
  (Wire.string.wrap "\x7b\"Put\":\x7b\"key\":" ",\"value\":").pair
    (value.pair sessionField)

def delete : Wire (String × Option Session) :=
  (Wire.string.wrap "\x7b\"Delete\":\x7b\"key\":" "").pair sessionField

def noop : Wire Unit := Wire.unit.wrap "\"Noop\"" ""

def configChange : Wire Membership :=
  membership.wrap "\x7b\"ConfigChange\":\x7b\"members\":" "\x7d\x7d"

def command (value : Wire V) : Wire (Command V) :=
  ((put value).sum (delete.sum (noop.sum configChange fun _ _ => rfl)
    fun b _ => by cases b <;> rfl)
    fun b _ => by rcases b with b | b | b <;> rfl).comap
    (fun
      | .put key v s => .inl (key, v, s)
      | .delete key s => .inr (.inl (key, s))
      | .noop => .inr (.inr (.inl ()))
      | .configChange m => .inr (.inr (.inr m)))
    (fun
      | .inl (key, v, s) => .put key v s
      | .inr (.inl (key, s)) => .delete key s
      | .inr (.inr (.inl ())) => .noop
      | .inr (.inr (.inr m)) => .configChange m)
    fun c => by cases c <;> rfl

def logEntry (value : Wire V) : Wire (LogEntry V) :=
  (((Wire.decimal 44).wrap "\x7b\"term\":" "\"index\":").pair
    ((Wire.decimal 44).pair
      ((command value).wrap "\"command\":" "\x7d"))).comap
    (fun e => (e.term, e.index, e.command))
    (fun x => ⟨x.1, x.2.1, x.2.2⟩) fun _ => rfl

/-- The membership of a snapshot, `null` if no configuration change went
into it. -/
def membershipField : Wire (Option Membership) :=
  ((Wire.unit.wrap "null," "").sum (membership.wrap "" ",")
    fun _ _ => rfl).comap
    (fun
      | none => .inl ()
      | some m => .inr m)
    (Sum.elim (fun _ => none) some) fun m => by cases m <;> rfl

def snapshotText (state : Wire P) : Wire (Snapshot P) :=
  (((Wire.decimal 44).wrap "\x7b\"last_included_index\":"
      "\"last_included_term\":").pair
    (((Wire.decimal 44).wrap "" "\"membership\":").pair
      (membershipField.pair (state.wrap "\"state\":" "\x7d")))).comap
    (fun s => (s.lastIncludedIndex, s.lastIncludedTerm, s.membership,
      s.state))
    (fun x => ⟨x.1, x.2.1, x.2.2.1, x.2.2.2⟩) fun _ => rfl

def votedFor : Wire (Option NodeId) :=
  ((Wire.decimal 125).sum (Wire.unit.wrap "null\x7d" "")
    fun _ _ => rfl).comap
    (fun
      | none => .inr ()
      | some n => .inl n)
    (Sum.elim some fun _ => none) fun v => by cases v <;> rfl

def hardStateText : Wire HardState :=
  (((Wire.decimal 44).wrap "\x7b\"current_term\":" "\"voted_for\":").pair
    votedFor).comap
    (fun hs => (hs.currentTerm, hs.votedFor)) (fun x => ⟨x.1, x.2⟩)
    fun _ => rfl

/-- The stored text, for values and states that can be told apart from what
follows them. Strings, arrays and objects can; a bare number is not. -/
def text (value : Wire V) (state : Wire P) : Json V P where
  hardState := hardStateText.codec
  snapshot := (snapshotText state).codec
  entry := (logEntry value).codec

/-- String values, and the state of an empty store. -/
def strings : Json String Unit :=
  text Wire.string (Wire.unit.wrap
    "\x7b\"map\":\x7b\x7d,\"sessions\":\x7b\x7d\x7d" "")

example : strings.entry.encode ⟨3, 17, .delete "k" (some ⟨4, 9⟩)⟩ =
    Wire.bytes ("\x7b\"term\":3,\"index\":17,\"command\":\x7b\"Delete\":" ++
      "\x7b\"key\":\"k\",\"session\":\x7b\"client\":4,\"seq\":9" ++
      "\x7d\x7d\x7d\x7d") := by
  decide +kernel

end Json

end RustKV
