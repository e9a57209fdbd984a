import RustKV.Consensus.Quorum
import RustKV.Consensus.History
import RustKV.Consensus.Completeness
import RustKV.Consensus.Growth
import RustKV.Consensus.Replica
import RustKV.Consensus.Linearization
import RustKV.Rust.BTreeMap
import RustKV.Rust.Prog
import RustKV.Rust.FirstSeen
import RustKV.Rust.Bits
import RustKV.Rust.Bytes
import RustKV.Rust.JsonText
import RustKV.Rust.Str
import RustKV.Rust.Socket
import RustKV.Raft.Types
import RustKV.Raft.Storage
import RustKV.Raft.Disk
import RustKV.Raft.Format
import RustKV.Raft.Node
import RustKV.Raft.Handlers
import RustKV.Raft.Cluster
import RustKV.Kv.Store
import RustKV.Kv.Service
import RustKV.Kv.Checker
import RustKV.Transport.Observer
import RustKV.Transport.Http
import RustKV.Transport.Pool
import RustKV.Proofs.Storage
import RustKV.Proofs.Log
import RustKV.Proofs.Membership
import RustKV.Proofs.Invariant
import RustKV.Proofs.Steps
import RustKV.Proofs.Apply
import RustKV.Proofs.Inbound
import RustKV.Proofs.Replication
import RustKV.Proofs.Requests
import RustKV.Proofs.Cluster
import RustKV.Proofs.Safety
import RustKV.Proofs.Linearizable
import RustKV.Proofs.Verdicts
import RustKV.Proofs.Replay
import RustKV.Proofs.Disk
import RustKV.Proofs.Recovery
import RustKV.Proofs.Reference
import RustKV.Proofs.Dedup
import RustKV.Proofs.Retries
import RustKV.Proofs.Configuration
import RustKV.Proofs.Moves
import RustKV.Proofs.Deeds
import RustKV.Proofs.Acts
import RustKV.Proofs.Leadership
import RustKV.Proofs.Waiters
import RustKV.Proofs.Trailing
import RustKV.Proofs.Readmission
import RustKV.Proofs.Acknowledgement
import RustKV.Proofs.Coherence
import RustKV.Proofs.CommitRule
import RustKV.Proofs.PreCampaign
import RustKV.Proofs.Hints
import RustKV.Proofs.Redelivery
import RustKV.Proofs.CatchUp
import RustKV.Proofs.Observer
import RustKV.Proofs.Framing
import RustKV.Proofs.ResponseHead
import RustKV.Proofs.Pool
import RustKV.Proofs.Search
import RustKV.Proofs.Checker
import RustKV.Proofs.Admin
import RustKV.Proofs.Removal
import RustKV.Rust.Mixing
import RustKV.Raft.Rng
import RustKV.Proofs.Rng
import RustKV.Rust.Lockstep
import RustKV.Transport.Sim
import RustKV.Proofs.Simulation
import RustKV.Proofs.Terms
import RustKV.Proofs.Leaders
import RustKV.Proofs.Tickets
import RustKV.Proofs.Current
import RustKV.Proofs.Schedules
import RustKV.Proofs.Elections
import RustKV.Proofs.Availability
import RustKV.Kv.Workload
import RustKV.Proofs.Provenance
import RustKV.Proofs.Workload
