import RustKV.Raft.Types
import RustKV.Transport.Http
import Mathlib.Data.String.Basic

/-!
# The connection pool (`raft/transport/http.rs`)

Every clone of an `HttpTransport` shares one peer book and one pool of idle
connections, both behind locks. An RPC holds neither lock while it waits: it
resolves its address, takes an idle connection or connects, runs its exchange
and, if that ended well, puts the connection back. In between, other RPCs and
`set_peers` go on.

`State` is the shared state with the RPCs in flight, and `step` what can
happen next: one critical section of one RPC, the end of one of its waits, or
a `set_peers`. The last is one step, since it holds the book's write lock all
the while and prunes the pool before it lets go. A connection is a number; each
`connect` opens a new one.
-/

namespace RustKV.Http

open Rust

abbrev Addr := String

abbrev Stream := Nat

/-- `MAX_IDLE_PER_PEER`. -/
def maxIdlePerPeer : Nat := 4

/-- The shared part of an `HttpTransport`. -/
structure HttpTransport where
  peers : BTreeMap NodeId Addr
  pool : BTreeMap Addr (List Stream)

namespace HttpTransport

def new (peers : BTreeMap NodeId Addr) : HttpTransport :=
  ⟨peers, BTreeMap.empty⟩

/-- `addr` is the address of a peer in the book. -/
def Lists (peers : BTreeMap NodeId Addr) (addr : Addr) : Bool :=
  peers.entries.any fun x => x.2 = addr

def idle (t : HttpTransport) (addr : Addr) : List Stream :=
  (t.pool.get addr).getD []

def setPeers (t : HttpTransport) (peers : BTreeMap NodeId Addr) :
    HttpTransport where
  peers := peers
  pool := t.pool.retain fun addr _ => Lists peers addr

/-- Pops an idle connection, if there is one. -/
def checkout (t : HttpTransport) (addr : Addr) :
    Option Stream × HttpTransport :=
  match t.pool.get addr with
  | none => (none, t)
  | some idle =>
      (idle.getLast?, { t with pool := t.pool.insert addr idle.dropLast })

def checkin (t : HttpTransport) (addr : Addr) (stream : Stream) :
    HttpTransport :=
  { t with
    pool := t.pool.insert addr
      (if (t.idle addr).length < maxIdlePerPeer then
        t.idle addr ++ [stream]
      else t.idle addr) }

end HttpTransport

/-- Where an RPC is, between two of its critical sections. -/
inductive Stage where
  /-- `send` has its address, nothing else yet. -/
  | resolved (addr : Addr)
  /-- An exchange on a pooled connection. -/
  | pooled (addr : Addr) (stream : Stream)
  | connecting (addr : Addr)
  /-- An exchange on a connection of its own. -/
  | fresh (addr : Addr) (stream : Stream)
  /-- The exchange ended well and the connection is to be put back. -/
  | returning (addr : Addr) (stream : Stream)
  deriving DecidableEq, Repr

def Stage.stream? : Stage → Option Stream
  | .resolved _ => none
  | .pooled _ stream => some stream
  | .connecting _ => none
  | .fresh _ stream => some stream
  | .returning _ stream => some stream

structure State where
  transport : HttpTransport
  /-- The RPCs in flight. -/
  calls : Nat → Option Stage
  /-- How many connections have been opened. -/
  opened : Nat

inductive Action where
  | setPeers (peers : BTreeMap NodeId Addr)
  /-- `send` is called and resolves the address. -/
  | send (call : Nat) (peer : NodeId)
  | checkout (call : Nat)
  /-- `TcpStream::connect` ends, well or not. -/
  | connect (call : Nat) (connected : Bool)
  /-- `request_response` ends. -/
  | exchange (call : Nat) (result : Except IoError (List UInt8 × Bool))
  | checkin (call : Nat)
  /-- The RPC timeout drops the call where it waits. -/
  | cancel (call : Nat)

namespace State

def init (peers : BTreeMap NodeId Addr) : State :=
  ⟨HttpTransport.new peers, fun _ => none, 0⟩

/-- The call goes on with another stage, or is over. -/
def goto (s : State) (call : Nat) (stage : Option Stage) : State :=
  { s with calls := Function.update s.calls call stage }

/-- `Transport::send` and `post_json`, one step at a time. -/
def step (s : State) : Action → Option State
  | .setPeers peers =>
      some { s with transport := s.transport.setPeers peers }
  | .send call peer =>
      match s.calls call, s.transport.peers.get peer with
      | none, some addr => some (s.goto call (some (.resolved addr)))
      -- `Unreachable`
      | none, none => some s
      | some _, _ => none
  | .checkout call =>
      match s.calls call with
      | some (.resolved addr) =>
          let (stream, transport) := s.transport.checkout addr
          some ({ s with transport := transport }.goto call
            (some (stream.elim (.connecting addr) (.pooled addr))))
      | _ => none
  | .connect call connected =>
      match s.calls call with
      | some (.connecting addr) =>
          if connected then
            some ({ s with opened := s.opened + 1 }.goto call
              (some (.fresh addr s.opened)))
          else some (s.goto call none)
      | _ => none
  | .exchange call result =>
      match s.calls call, result with
      | some (.pooled addr stream), .ok (_, reusable) =>
          some (s.goto call (if reusable then some (.returning addr stream)
            else none))
      -- the one retry, on a fresh connection
      | some (.pooled addr _), .error _ =>
          some (s.goto call (some (.connecting addr)))
      | some (.fresh addr stream), .ok (_, reusable) =>
          some (s.goto call (if reusable then some (.returning addr stream)
            else none))
      | some (.fresh _ _), .error _ => some (s.goto call none)
      | _, _ => none
  | .checkin call =>
      match s.calls call with
      | some (.returning addr stream) =>
          some ({ s with
            transport := s.transport.checkin addr stream }.goto call none)
      | _ => none
  | .cancel call =>
      match s.calls call with
      | some (.pooled _ _) => some (s.goto call none)
      | some (.connecting _) => some (s.goto call none)
      | some (.fresh _ _) => some (s.goto call none)
      | _ => none

end State

/-- Some steps from `s₀`: the states they were made in, and where they led. -/
inductive Steps (s₀ : State) : List (State × Action) → State → Prop
  | nil : Steps s₀ [] s₀
  | snoc {trace : List (State × Action)} {s s' : State} {a : Action}
      (h : Steps s₀ trace s) (hs : s.step a = some s') :
      Steps s₀ (trace ++ [(s, a)]) s'

end RustKV.Http
