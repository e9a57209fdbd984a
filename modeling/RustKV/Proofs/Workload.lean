import Mathlib.Data.Finset.Lattice.Fold
import Mathlib.Data.Fintype.Basic
import RustKV.Kv.Workload
import RustKV.Proofs.Checker
import RustKV.Proofs.Linearizable
import RustKV.Proofs.Provenance
import RustKV.Proofs.Retries
import RustKV.Proofs.Verdicts

/-!
# What the test's clients record is linearizable

The histories that the clients of `Kv/Workload.lean` record, in any run of the
cluster, are ones the checker accepts. The order is that of the committed log.
A write takes effect at the first of its copies there; the dedup table skips
the others, since the client goes on to its next number only after it is done
with the last one. A granted read takes effect behind the last entry its node
has applied when the client looks.

Nothing else gets between: every entry of the log is a no-op or comes from one
of the clients (`Run.Sourced`), a place is promised once (`Accepted.unique`),
a promise lies above all that was settled when it was made
(`Settled.before_promise`), and a read has seen all that was settled when it
was registered (`Served.covers`). What the clients cannot vouch for is that a
write they were refused stays undone. That is up to the nodes, and is so in
the runs that refuse finally (`Run.RefusesFinally`).

The same facts make the log that a node leaves on disk pass the test's other
check, which compares confirmed writes with their places.
-/

namespace RustKV

open Rust Consensus History

variable {V : Type} {D : Deployment}

/-! ## The settled part of the log -/

namespace Run.Trace

variable {M : StateMachine V} {run : Run D M} {T : run.Trace}
  {i j k l t : ℕ}

/-- Before step `i` the first `k` entries of the log are final. -/
def Settled (T : run.Trace) (i k : ℕ) : Prop :=
  ∃ u P, (T.hist i).CommittedAt u P ∧ k ≤ P.length

theorem settled_zero (T : run.Trace) (i : ℕ) : T.Settled i 0 :=
  ⟨0, [], .inl rfl, le_rfl⟩

theorem Settled.mono (h : T.Settled i k) (hij : i ≤ j) (hl : l ≤ k) :
    T.Settled j l := by
  obtain ⟨u, P, hP, hk⟩ := h
  exact ⟨u, P, hP.mono (T.le hij) le_rfl, hl.trans hk⟩

theorem Settled.get (h : T.Settled i k) (hl : l < k) :
    ∃ u P, (T.hist i).CommittedAt u P ∧ P[l]? = some (T.entry l) := by
  obtain ⟨u, P, hP, hk⟩ := h
  have hlt : l < P.length := hl.trans_le hk
  refine ⟨u, P, hP, ?_⟩
  rw [T.committed_eq hP, firstEntries, List.getElem?_map,
    List.getElem?_range hlt, Option.map_some]

theorem Settled.index (h : T.Settled i k) (hl : l < k) :
    (T.entry l).index = l + 1 := by
  obtain ⟨u, P, hP, he⟩ := h.get hl
  exact T.committed_indexed hP l _ he

theorem Settled.applied (h : T.Settled i k) (hl : l < k) :
    ∃ j, j < i ∧ Output.applied (T.entry l) ∈ (run.effect j).outputs := by
  obtain ⟨u, P, hP, he⟩ := h.get hl
  exact T.committed_applied ⟨u, P, hP, List.mem_of_getElem? he⟩

theorem Settled.sourced (h : T.Settled i k) (hl : l < k) :
    run.Sourced i (T.entry l) := by
  obtain ⟨j, hj, ho⟩ := h.applied hl
  exact Run.Sourced.mono (run.carries ho) hj

theorem settled_lastApplied (T : run.Trace) (i : ℕ) (n : NodeId) :
    T.Settled i ((run.state i).nodes n).lastApplied := by
  have hb := ((T.inv i).nodes n).body
  refine ⟨_, _, T.applied_committed i n hb.applied_le, ?_⟩
  rw [List.length_take, Nat.min_eq_left (hb.applied_le.trans hb.commit_le)]

theorem entries_get (T : run.Trace) {m : ℕ} {n : NodeId}
    (hwhole : ((run.state m).nodes n).storage.snapshotIndex = 0)
    (hl : l < ((run.state m).nodes n).commitIndex) :
    ((run.state m).nodes n).storage.entries[l]? = some (T.entry l) := by
  have hb := ((T.inv m).nodes n).body
  have hlog : ((run.state m).nodes n).storage.entries = T.log m n := by
    rw [Storage.entries, hb.repr.log, hwhole, List.drop_zero]
  have hset : T.Settled m ((run.state m).nodes n).commitIndex := by
    refine ⟨_, _, T.applied_committed m n le_rfl, ?_⟩
    rw [List.length_take, Nat.min_eq_left hb.commit_le]
  obtain ⟨u, P, hP, he⟩ := hset.get hl
  have hlt : l < (T.log m n).length := hl.trans_le hb.commit_le
  have hget : ((T.log m n).take
      ((run.state m).nodes n).commitIndex)[l]? = some (T.log m n)[l] := by
    rw [List.getElem?_take_of_lt hl, List.getElem?_eq_getElem hlt]
  rw [hlog, List.getElem?_eq_getElem hlt,
    T.committed_agree (T.applied_committed m n le_rfl) hP hget he]

/-- A place that is promised lies above all that is settled, if the promise
comes to be kept. -/
theorem Settled.before_promise (h : T.Settled j k)
    (ho : Output.proposeReply (.ok (t, l + 1)) ∈ (run.effect j).outputs)
    (ht : (T.entry l).term = t) : k ≤ l := by
  by_contra hlt
  obtain ⟨u, P, hP, he⟩ := h.get (Nat.lt_of_not_le hlt)
  have hlog := (T.committed_valid hP).lt_tlog he
  obtain ⟨_, htr, -⟩ := (T.advance j).here
  have hnew : ((T.hist j).tlog t).length < l + 1 := (htr.out _ ho).2
  have hold : l < ((T.hist j).tlog t).length := ht ▸ hlog
  omega

/-- What was confirmed is what was proposed, at its place in the log. -/
theorem confirmed (T : run.Trace)
    (ho : Output.committed t k true ∈ (run.effect i).outputs) :
    ∃ l j n cmd, k = l + 1 ∧ run.Accepted j n t (l + 1) cmd ∧
      T.Settled (i + 1) (l + 1) ∧ T.entry l = ⟨t, l + 1, cmd⟩ := by
  obtain ⟨j, cmd, hacc, happ⟩ := run.applied_of_confirmed ho
  obtain ⟨hpos, u, P, hP, he⟩ := T.applied_output happ
  obtain ⟨l, rfl⟩ : ∃ l, k = l + 1 := ⟨k - 1, by
    have : 0 < k := hpos
    omega⟩
  have he : P[l]? = some ⟨t, l + 1, cmd⟩ := he
  have hset : T.Settled (i + 1) (l + 1) :=
    ⟨u, P, hP, lt_length_of_getElem? he⟩
  obtain ⟨u', P', hP', he'⟩ := hset.get (Nat.lt_succ_self l)
  exact ⟨l, j, _, cmd, rfl, hacc, hset, T.committed_agree hP' hP he' he⟩

/-- A granted read has seen what was settled when it was registered, and
whoever looks at the store later, in the lifetime of the process, sees that
too. -/
theorem Settled.seen {i j m : ℕ} {n : NodeId} {r : PendingRead}
    {applied : ℕ} {state : M.State} (h : T.Settled i k) (hij : i ≤ j)
    (hjm : j < m) (hi : (run.effect i).node = n)
    (hj : (run.effect j).node = n)
    (hreg : Output.readReply (.ok (t, r)) ∈ (run.effect i).outputs)
    (hgrant : Output.granted t r.neededSeq applied state ∈
      (run.effect j).outputs)
    (hep : (run.state m).epochs n = (run.state (j + 1)).epochs n) :
    k ≤ ((run.state m).nodes n).lastApplied := by
  obtain ⟨_, hti, -⟩ := (T.advance i).here
  obtain ⟨kind, htj, -⟩ := (T.advance j).here
  obtain ⟨hleads, hterm, hseq⟩ := hti.out _ hreg
  have hserved : T.Served i j (run.effect i).node t r.neededSeq applied
      state :=
    ⟨hij, hleads, hterm, hseq, kind, by rw [hi, ← hj]; exact htj.out _ hgrant⟩
  obtain ⟨u, P, hP, hk⟩ := h
  calc k ≤ P.length := hk
    _ ≤ applied := hserved.covers hP
    _ ≤ ((run.state (j + 1)).nodes n).lastApplied := by
        have hc := run.carries hgrant
        rw [hj] at hc
        exact hc
    _ ≤ ((run.state m).nodes n).lastApplied := T.applied_le hjm hep

end Run.Trace

/-! ## Clients of a run -/

def Command.isWrite : Command V → Bool
  | .put _ _ _ => true
  | .delete _ _ => true
  | .noop => false
  | .configChange _ => false

theorem Command.isWrite_of_session {c : Command V} {t : Session}
    (h : c.session = some t) : c.isWrite = true := by
  cases c with
  | put _ _ _ => rfl
  | delete _ _ => rfl
  | noop => cases h
  | configChange _ => cases h

namespace Jepsen

open KvStore Lin

variable {run : Run D (KvStore.machine V)} {json : Value → V}
  {asU64 : V → Option Value} {ops : List Op} {op : Op} {i k l t : ℕ}

namespace Op

def isWrite (op : Op) : Bool :=
  match op.call with
  | .write _ _ _ => true
  | .read _ => false

/-- One of the operation's attempts was promised the place `(t, i)`. -/
def Placed (op : Op) (t i : ℕ) : Prop :=
  ∃ v, Attempt.accepted t i v ∈ op.attempts

/-- The attempts of a write are proposals of its command and the verdicts are
those of the node. -/
structure Wrote (run : Run D (KvStore.machine V)) (json : Value → V)
    (op : Op) : Prop where
  accepted : ∀ t i v, Attempt.accepted t i v ∈ op.attempts → ∃ j n cmd,
    op.start ≤ j ∧ j < op.stop ∧ op.command json = some cmd ∧
      run.Accepted j n t i cmd
  verdict : ∀ t i b, Attempt.accepted t i (.received b) ∈ op.attempts →
    ∃ j, j < op.stop ∧ Output.committed t i b ∈ (run.effect j).outputs

/-- A read that node `n` registered at step `i` and granted at step `j`. The
client looks before step `m`, at the store of the process that granted it. -/
structure Looked (run : Run D (KvStore.machine V))
    (asU64 : V → Option Value) (op : Op) (result : Option Value) (n : NodeId)
    (i j m : ℕ) : Prop where
  start_le : op.start ≤ i
  le : i ≤ j
  lt : j < m
  le_stop : m ≤ op.stop
  asked : (run.effect i).node = n
  granting : (run.effect j).node = n
  ticket : ∃ t r applied state,
    Output.readReply (.ok (t, r)) ∈ (run.effect i).outputs ∧
      Output.granted t r.neededSeq applied state ∈ (run.effect j).outputs
  process : (run.state m).epochs n = (run.state (j + 1)).epochs n
  result : result =
    (KvStore.get ((run.state m).nodes n).stateMachine op.key).bind asU64

/-- The operation went in the run as its client has it. -/
def Happened (run : Run D (KvStore.machine V)) (json : Value → V)
    (asU64 : V → Option Value) (op : Op) : Prop :=
  match op.call with
  | .write _ _ _ => op.Wrote run json
  | .read result => ∃ n i j m, op.Looked run asU64 result n i j m

end Op

/-- The operations of the test's clients in a run. Nobody else writes, and a
client starts an operation when it is done with the one before. -/
structure Workload (run : Run D (KvStore.machine V)) (json : Value → V)
    (asU64 : V → Option Value) (ops : List Op) : Prop where
  value : ∀ v, asU64 (json v) = some v
  span : ∀ op ∈ ops, op.start ≤ op.stop
  happened : ∀ op ∈ ops, op.Happened run json asU64
  complete : ∀ j n t i cmd, run.Accepted j n t i cmd → cmd.isWrite = true →
    ∃ op ∈ ops, op.Placed t i
  once : ops.Pairwise fun op op' => ∀ t i, op.Placed t i → ¬ op'.Placed t i
  sequential : ops.Pairwise fun op op' => ∀ s s', op.session = some s →
    op'.session = some s' → s.client = s'.client →
      (s.seq < s'.seq ∧ op.stop ≤ op'.start) ∨
        (s'.seq < s.seq ∧ op'.stop ≤ op.start)

theorem Op.call_of_isWrite (hw : op.isWrite = true) :
    ∃ kind mode attempts, op.call = .write kind mode attempts := by
  rw [Op.isWrite] at hw
  cases hc : op.call with
  | write kind mode attempts => exact ⟨_, _, _, rfl⟩
  | read result => rw [hc] at hw; cases hw

theorem Op.call_of_not_isWrite (hw : ¬ op.isWrite = true) :
    ∃ result, op.call = .read result := by
  rw [Op.isWrite] at hw
  cases hc : op.call with
  | write kind mode attempts => rw [hc] at hw; exact absurd rfl hw
  | read result => exact ⟨_, rfl⟩

theorem Op.session_of_command {cmd : Command V}
    (h : op.command json = some cmd) : cmd.session = op.session := by
  obtain ⟨process, key, start, stop, call⟩ := op
  cases call with
  | read result => cases h
  | write kind mode attempts =>
      cases kind with
      | put value => cases h; rfl
      | delete => cases h; rfl

namespace Workload

theorem wrote (W : Workload run json asU64 ops) (hop : op ∈ ops)
    (hp : op.attempts ≠ []) : op.Wrote run json := by
  have h := W.happened op hop
  rw [Op.Happened] at h
  rw [Op.attempts] at hp
  cases hc : op.call with
  | write kind mode attempts =>
      rw [hc] at h
      exact h
  | read result =>
      rw [hc] at hp
      exact absurd rfl hp

theorem accepted (W : Workload run json asU64 ops) (hop : op ∈ ops)
    (hp : op.Placed t i) : ∃ j n cmd, op.start ≤ j ∧ j < op.stop ∧
      op.command json = some cmd ∧ run.Accepted j n t i cmd := by
  obtain ⟨v, hv⟩ := hp
  exact (W.wrote hop (List.ne_nil_of_mem hv)).accepted t i v hv

theorem eq_of_placed (W : Workload run json asU64 ops)
    {a b : Fin ops.length} (ha : (ops.get a).Placed t i)
    (hb : (ops.get b).Placed t i) : a = b := by
  have h := List.pairwise_iff_get.mp W.once
  rcases lt_trichotomy a b with hlt | heq | hgt
  · exact absurd hb (h a b hlt t i ha)
  · exact heq
  · exact absurd ha (h b a hgt t i hb)

theorem eq_or_stop_le (W : Workload run json asU64 ops)
    {a b : Fin ops.length} {s s' : Session}
    (ha : (ops.get a).session = some s) (hb : (ops.get b).session = some s')
    (hc : s.client = s'.client) (hle : s.seq ≤ s'.seq) :
    a = b ∨ (ops.get a).stop ≤ (ops.get b).start := by
  have h := List.pairwise_iff_get.mp W.sequential
  rcases lt_trichotomy a b with hlt | heq | hgt
  · rcases h a b hlt s s' ha hb hc with ⟨-, hstop⟩ | ⟨hseq, -⟩
    · exact .inr hstop
    · omega
  · exact .inl heq
  · rcases h b a hgt s' s hb ha hc.symm with ⟨hseq, -⟩ | ⟨-, hstop⟩
    · omega
    · exact .inr hstop

end Workload

/-! ## The copies of a write -/

section Copies

variable (T : run.Trace)

structure Op.Copy (json : Value → V) (op : Op) (l : ℕ) : Prop where
  settled : ∃ i, T.Settled i (l + 1)
  placed : op.Placed (T.entry l).term (l + 1)
  command : op.command json = some (T.entry l).command

noncomputable def storeAt (k : ℕ) : KvStore V :=
  replay (firstEntries T.entry k)

/-- Entry `l` is the copy of the write that is not skipped. -/
structure Op.Writes (json : Value → V) (op : Op) (l : ℕ) : Prop
    extends Op.Copy T json op l where
  performed :
    (storeAt T l).alreadyApplied (T.entry l).command.session = false

variable {T}

theorem storeAt_succ (k : ℕ) :
    storeAt T (k + 1) = (storeAt T k).apply (T.entry k) := by
  rw [storeAt, firstEntries, List.range_succ, List.map_append]
  exact replay_append _ _

theorem mem_firstEntries {e : LogEntry V} (h : e ∈ firstEntries T.entry k) :
    ∃ l, l < k ∧ e = T.entry l := by
  obtain ⟨l, hl, rfl⟩ := List.mem_map.mp h
  exact ⟨l, List.mem_range.mp hl, rfl⟩

theorem Op.Copy.session (h : op.Copy T json l) :
    (T.entry l).command.session = op.session :=
  Op.session_of_command h.command

theorem exists_of_alreadyApplied {log : List (LogEntry V)} {s : Session}
    (h : (replay log).alreadyApplied (some s) = true) :
    ∃ e ∈ log, ∃ q, s.seq ≤ q ∧
      e.command.session = some ⟨s.client, q⟩ := by
  rcases alreadyApplied_iff.mp h with ⟨l, e, r, rfl, he, -⟩ |
    ⟨q, ⟨l, e, r, rfl, he, -⟩, hq⟩
  · exact ⟨e, by simp, s.seq, le_rfl, he⟩
  · exact ⟨e, by simp, q, by omega, he⟩

namespace Workload

theorem copy (W : Workload run json asU64 ops) (hs : T.Settled i (l + 1))
    (hw : (T.entry l).command.isWrite = true) :
    ∃ a : Fin ops.length, (ops.get a).Copy T json l := by
  have hidx := hs.index (Nat.lt_succ_self l)
  obtain hno | ⟨j, n, -, hacc⟩ := hs.sourced (Nat.lt_succ_self l)
  · rw [hno] at hw
    cases hw
  · rw [hidx] at hacc
    obtain ⟨op, hop, hp⟩ := W.complete j n _ _ _ hacc hw
    obtain ⟨a, rfl⟩ := List.mem_iff_get.mp hop
    obtain ⟨j', n', cmd, -, -, hcmd, hacc'⟩ := W.accepted hop hp
    obtain ⟨-, -, rfl⟩ := hacc'.unique hacc
    exact ⟨a, ⟨i, hs⟩, hp, hcmd⟩

/-- A copy comes after all that was settled when the operation began. -/
theorem copy_late (W : Workload run json asU64 ops) (hop : op ∈ ops)
    (h : op.Copy T json l) (hs : T.Settled op.start k) : k ≤ l := by
  obtain ⟨j, n, cmd, hj, -, -, hacc⟩ := W.accepted hop h.placed
  exact (hs.mono hj le_rfl).before_promise hacc.2.2 rfl

/-- The entry a client was told of is a copy of its write, and it was settled
when the client got to know. -/
theorem copy_of_confirmed (W : Workload run json asU64 ops) (hop : op ∈ ops)
    (h : Attempt.accepted t k (.received true) ∈ op.attempts) :
    ∃ l, k = l + 1 ∧ (T.entry l).term = t ∧ op.Copy T json l ∧
      T.Settled op.stop (l + 1) := by
  have hw := W.wrote hop (List.ne_nil_of_mem h)
  obtain ⟨j, hj, ho⟩ := hw.verdict t k true h
  obtain ⟨l, j', n, cmd, rfl, hacc, hset, he⟩ := T.confirmed ho
  obtain ⟨_, _, cmd', -, -, hcmd, hacc'⟩ := hw.accepted _ _ _ h
  obtain ⟨-, -, rfl⟩ := hacc'.unique hacc
  refine ⟨l, rfl, by rw [he], ⟨⟨_, hset⟩, ?_, ?_⟩, hset.mono hj le_rfl⟩
  · rw [he]
    exact ⟨_, h⟩
  · rw [he]
    exact hcmd

/-- Of the copies of a confirmed write one is performed, and it was settled
when the client got to know. -/
theorem writes_of_confirmed (W : Workload run json asU64 ops)
    (a : Fin ops.length)
    (h : Attempt.accepted t k (.received true) ∈ (ops.get a).attempts) :
    ∃ l, (ops.get a).Writes T json l ∧
      T.Settled (ops.get a).stop (l + 1) := by
  classical
  obtain ⟨m, rfl, -, hm, hset⟩ := W.copy_of_confirmed (T := T)
    (List.get_mem ops a) h
  -- the first copy, at or below the confirmed one
  have hex : ∃ l, (ops.get a).Copy T json l := ⟨m, hm⟩
  have hl := Nat.find_spec hex
  have hlm : Nat.find hex ≤ m := Nat.find_min' hex hm
  have hmin : ∀ l', (ops.get a).Copy T json l' → Nat.find hex ≤ l' :=
    fun l' => Nat.find_min' hex
  generalize Nat.find hex = l at hl hlm hmin
  refine ⟨l, ⟨hl, ?_⟩, hset.mono le_rfl (by omega)⟩
  rw [hl.session]
  cases hs : (ops.get a).session with
  | none => rfl
  | some s =>
      refine Bool.eq_false_iff.mpr fun hdup => ?_
      obtain ⟨e, hmem, q, hq, hsess⟩ := exists_of_alreadyApplied hdup
      obtain ⟨l', hl', rfl⟩ := mem_firstEntries hmem
      obtain ⟨b, hb⟩ := W.copy (hset.mono le_rfl (by omega : l' + 1 ≤ m + 1))
        (Command.isWrite_of_session hsess)
      rw [hb.session] at hsess
      -- an earlier copy, or one of an operation that began after this one
      rcases W.eq_or_stop_le hs hsess rfl hq with rfl | hstop
      · have := hmin l' hb
        omega
      · have := W.copy_late (List.get_mem ops b) hb
          (hset.mono hstop le_rfl)
        omega

end Workload

theorem Op.placed_once {clock : ℕ → UInt64} {r : Recorded} {t' i' : ℕ}
    (hrec : op.record clock = some r) (hs : op.session = none)
    (h : op.Placed t i) (h' : op.Placed t' i') : i = i' := by
  obtain ⟨process, key, start, stop, call⟩ := op
  cases call with
  | read result => cases h.choose_spec
  | write kind mode attempts =>
      cases mode with
      | tokenRetry opNo => cases hs
      | fireOnce =>
          obtain ⟨note, hnote, -⟩ := Option.map_eq_some_iff.mp hrec
          obtain ⟨v, hv⟩ := h
          obtain ⟨v', hv'⟩ := h'
          obtain ⟨x, rfl⟩ : ∃ x, attempts = [x] := by
            unfold WriteMode.note at hnote
            split at hnote
            · exact ⟨_, rfl⟩
            · cases hnote
            · contradiction
          have hx := (List.mem_singleton.mp hv).trans
            (List.mem_singleton.mp hv').symm
          cases hx
          rfl

theorem Op.Writes.unique {clock : ℕ → UInt64} {r : Recorded} {l' : ℕ}
    (hrec : op.record clock = some r) (h : op.Writes T json l)
    (h' : op.Writes T json l') : l = l' := by
  cases hs : op.session with
  | none => exact Nat.succ.inj (Op.placed_once hrec hs h.placed h'.placed)
  | some s =>
      -- the later of two copies is skipped
      have hnot : ∀ {l l'}, op.Writes T json l → op.Writes T json l' →
          ¬ l < l' := by
        intro l l' h h' hlt
        have hmem : T.entry l ∈ firstEntries T.entry l' :=
          List.mem_map.mpr ⟨l, List.mem_range.mpr hlt, rfl⟩
        have hdup := alreadyApplied_of_mem hmem (h.session.trans hs)
        have hnew := h'.performed
        rw [h'.session, hs] at hnew
        exact absurd (hdup.symm.trans hnew) (by decide)
      exact Nat.le_antisymm (Nat.not_lt.mp (hnot h' h))
        (Nat.not_lt.mp (hnot h h'))

/-! ## Places in the log -/

variable (T) in
/-- What the clients can read after the first `k` entries of the log. -/
noncomputable def values (asU64 : V → Option Value) (k : ℕ) :
    String → Option Value :=
  fun key => ((storeAt T k).map key).bind asU64

variable (T) in
/-- A read may have looked behind the first `k` entries of the log. -/
structure Op.Sees (asU64 : V → Option Value) (op : Op)
    (result : Option Value) (k : ℕ) : Prop where
  settled : T.Settled op.stop k
  fresh : ∀ k', T.Settled op.start k' → k' ≤ k
  result : result = values T asU64 k op.key

variable (T) in
/-- Where in the log an operation takes effect. -/
def Op.At (json : Value → V) (asU64 : V → Option Value) (op : Op)
    (k : ℕ) : Prop :=
  match op.call with
  | .write _ _ _ => ∃ l, k = l + 1 ∧ op.Writes T json l
  | .read result => IsLeast {k | op.Sees T asU64 result k} k

theorem Op.at_write (hw : op.isWrite = true) :
    op.At T json asU64 k ↔ ∃ l, k = l + 1 ∧ op.Writes T json l := by
  obtain ⟨kind, mode, attempts, hc⟩ := Op.call_of_isWrite hw
  rw [Op.At, hc]

theorem Op.at_read {result : Option Value} (hc : op.call = .read result) :
    op.At T json asU64 k ↔ IsLeast {k | op.Sees T asU64 result k} k := by
  rw [Op.At, hc]

theorem Op.At.unique {clock : ℕ → UInt64} {r : Recorded} {k' : ℕ}
    (hrec : op.record clock = some r) (h : op.At T json asU64 k)
    (h' : op.At T json asU64 k') : k = k' := by
  by_cases hw : op.isWrite = true
  · obtain ⟨l, rfl, hl⟩ := (Op.at_write hw).mp h
    obtain ⟨l', rfl, hl'⟩ := (Op.at_write hw).mp h'
    rw [hl.unique hrec hl']
  · obtain ⟨result, hc⟩ := Op.call_of_not_isWrite hw
    exact ((Op.at_read hc).mp h).unique ((Op.at_read hc).mp h')

theorem Op.Writes.values_eq (W : Workload run json asU64 ops)
    (h : op.Writes T json l) {kind : WriteKind} {mode : WriteMode}
    {attempts : List Attempt} (hc : op.call = .write kind mode attempts) :
    values T asU64 (l + 1) =
      Function.update (values T asU64 l) op.key kind.state := by
  have hmap : (storeAt T (l + 1)).map =
      effect (storeAt T l).map (T.entry l).command := by
    rw [storeAt_succ, KvStore.apply_eq, if_neg (by rw [h.performed]; decide),
      map_perform]
  have hcmd := h.command
  rw [Op.command, hc] at hcmd
  funext key
  rw [values, hmap]
  cases kind with
  | put value =>
      rw [← Option.some.inj hcmd]
      by_cases hk : key = op.key
      · subst hk
        simp [effect, WriteKind.state, W.value]
      · simp [effect, hk, values]
  | delete =>
      rw [← Option.some.inj hcmd]
      by_cases hk : key = op.key
      · subst hk
        simp [effect, WriteKind.state]
      · simp [effect, hk, values]

/-- Where no operation writes the log changes no value. -/
theorem Workload.values_idle (W : Workload run json asU64 ops)
    (hs : T.Settled i (l + 1))
    (h : ∀ a : Fin ops.length, ¬ (ops.get a).Writes T json l) :
    values T asU64 (l + 1) = values T asU64 l := by
  have hmap : (storeAt T (l + 1)).map = (storeAt T l).map := by
    rw [storeAt_succ, KvStore.apply_eq]
    split
    · rfl
    · next hnew =>
        by_cases hw : (T.entry l).command.isWrite = true
        · obtain ⟨a, ha⟩ := W.copy hs hw
          exact absurd ⟨ha, Bool.eq_false_iff.mpr hnew⟩ (h a)
        · rw [map_perform]
          cases hc : (T.entry l).command with
          | put _ _ _ => rw [hc] at hw; exact absurd rfl hw
          | delete _ _ => rw [hc] at hw; exact absurd rfl hw
          | noop => rfl
          | configChange _ => rfl
  funext key
  rw [values, hmap]
  rfl

theorem Op.Looked.sees {result : Option Value} {n : NodeId} {i j m : ℕ}
    (h : op.Looked run asU64 result n i j m) :
    op.Sees T asU64 result ((run.state m).nodes n).lastApplied where
  settled := (T.settled_lastApplied m n).mono h.le_stop le_rfl
  fresh k' hk' := by
    obtain ⟨t, r, applied, state, hreg, hgrant⟩ := h.ticket
    exact (hk'.mono h.start_le le_rfl).seen h.le h.lt h.asked h.granting hreg
      hgrant h.process
  result := by
    rw [h.result, ((T.inv m).nodes n).body.state, T.take_eq m n le_rfl]
    rfl

namespace Workload

theorem exists_at_read (W : Workload run json asU64 ops) (hop : op ∈ ops)
    {result : Option Value} (hc : op.call = .read result) :
    ∃ k, op.At T json asU64 k := by
  classical
  have h := W.happened op hop
  rw [Op.Happened, hc] at h
  obtain ⟨n, i, j, m, hlook⟩ := h
  have hex : ∃ k, op.Sees T asU64 result k := ⟨_, hlook.sees⟩
  exact ⟨Nat.find hex, (Op.at_read hc).mpr
    ⟨Nat.find_spec hex, fun _ hk => Nat.find_min' hex hk⟩⟩

theorem at_late (W : Workload run json asU64 ops) (hop : op ∈ ops) {k' : ℕ}
    (h : op.At T json asU64 k) (hs : T.Settled op.start k') :
    k' < k ∨ (k' = k ∧ ¬ op.isWrite = true) := by
  by_cases hw : op.isWrite = true
  · obtain ⟨l, rfl, hl⟩ := (Op.at_write hw).mp h
    exact .inl (Nat.lt_succ_of_le (W.copy_late hop hl.toCopy hs))
  · obtain ⟨result, hc⟩ := Op.call_of_not_isWrite hw
    have hle := ((Op.at_read hc).mp h).1.fresh k' hs
    exact (Nat.lt_or_eq_of_le hle).imp id fun heq => ⟨heq, hw⟩

theorem at_returned (W : Workload run json asU64 ops) (a : Fin ops.length)
    (hok : (ops.get a).isWrite = true → ∃ t i,
      Attempt.accepted t i (.received true) ∈ (ops.get a).attempts) :
    ∃ k, (ops.get a).At T json asU64 k ∧ T.Settled (ops.get a).stop k := by
  by_cases hw : (ops.get a).isWrite = true
  · obtain ⟨t, i, hconf⟩ := hok hw
    obtain ⟨l, hl, hs⟩ := W.writes_of_confirmed a hconf
    exact ⟨l + 1, (Op.at_write hw).mpr ⟨l, rfl, hl⟩, hs⟩
  · obtain ⟨result, hc⟩ := Op.call_of_not_isWrite hw
    obtain ⟨k, hk⟩ := W.exists_at_read (T := T) (List.get_mem ops a) hc
    exact ⟨k, hk, ((Op.at_read hc).mp hk).1.settled⟩

end Workload

end Copies

/-! ## Records -/

section Records

variable {clock : ℕ → UInt64} {r : Recorded}

theorem Retry.run_ok {s : Retry} {attempts : List Attempt}
    (h : (s.run attempts).outcome = .ok) :
    s.outcome = .ok ∨
      ∃ t i, Attempt.accepted t i (.received true) ∈ attempts ∧
        (s.run attempts).logPos = some (t, i) := by
  fun_induction Retry.run s attempts with
  | case1 s => exact .inl h
  | case2 s t i rest => exact .inr ⟨t, i, List.mem_cons_self, rfl⟩
  | case3 s t i rest ih | case4 s t i v rest _ _ ih | case5 s rest ih
  | case6 s rest ih =>
      refine (ih h).imp_right fun ⟨t, i, hmem, hpos⟩ => ?_
      exact ⟨t, i, List.mem_cons_of_mem _ hmem, hpos⟩

theorem WriteMode.note_ok {mode : WriteMode} {attempts : List Attempt}
    {note : Note} (h : mode.note attempts = some note)
    (hok : note.1 = .ok) :
    ∃ t i, Attempt.accepted t i (.received true) ∈ attempts ∧
      note.2 = some (t, i) := by
  unfold WriteMode.note at h
  split at h
  · next attempt =>
      unfold noteOnce at h
      split at h
      · cases h
      · cases h; cases hok
      · cases h
        exact ⟨_, _, List.mem_singleton.mpr rfl, rfl⟩
      · cases h; cases hok
      · cases h; cases hok
  · cases h
  · next opNo =>
      cases h
      have hrun : (Retry.run ⟨.fail, none, false⟩ attempts).outcome = .ok := by
        by_contra hne
        rw [noteRetried] at hok
        split at hok
        · cases hok
        · exact hne hok
      exact (Retry.run_ok hrun).resolve_left nofun

theorem Retry.run_ambiguous {s : Retry} {attempts : List Attempt}
    (h : s.ambiguous = true) : (s.run attempts).ambiguous = true := by
  fun_induction Retry.run s attempts with
  | case1 s => exact h
  | case2 s t i rest => exact h
  | case3 s t i rest ih | case5 s rest ih | case6 s rest ih => exact ih h
  | case4 s t i v rest _ _ ih => exact ih rfl

/-- A loop that ends without success or doubt was refused every place it was
given. -/
theorem Retry.run_fail {s : Retry} {attempts : List Attempt}
    (hok : (s.run attempts).outcome ≠ .ok)
    (hamb : (s.run attempts).ambiguous = false) {t i : ℕ} {v : Awaited Bool}
    (h : Attempt.accepted t i v ∈ attempts) : v = .received false := by
  fun_induction Retry.run s attempts with
  | case1 s => cases h
  | case2 s t i rest => exact absurd rfl hok
  | case3 s t' i' rest ih =>
      rcases List.mem_cons.mp h with heq | h
      · cases heq
        rfl
      · exact ih hok hamb h
  | case4 s t' i' v' rest _ _ ih =>
      rw [Retry.run_ambiguous rfl] at hamb
      cases hamb
  | case5 s rest ih | case6 s rest ih =>
      exact ih hok hamb ((List.mem_cons.mp h).resolve_left nofun)

/-- A write noted as failed was refused every place it was given. -/
theorem WriteMode.note_fail {mode : WriteMode} {attempts : List Attempt}
    {note : Note} (hn : mode.note attempts = some note)
    (hf : note.1 = .fail) {t i : ℕ} {v : Awaited Bool}
    (h : Attempt.accepted t i v ∈ attempts) : v = .received false := by
  unfold WriteMode.note at hn
  split at hn
  · next attempt =>
      obtain rfl := List.mem_singleton.mp h
      unfold noteOnce at hn
      split at hn
      · cases hn
      · next heq => cases heq
      · cases hn; cases hf
      · next heq =>
          cases heq
          rfl
      · cases hn; cases hf
  · cases hn
  · next opNo =>
      cases hn
      rw [noteRetried] at hf
      split at hf
      · cases hf
      · next hnot =>
          have hok : (Retry.run ⟨.fail, none, false⟩ attempts).outcome ≠
              .ok := fun hok => by
            cases hok.symm.trans hf
          exact Retry.run_fail hok
            (Bool.eq_false_iff.mpr fun hamb => hnot ⟨hok, hamb⟩) h

namespace Op

theorem record_eq (h : op.record clock = some r) :
    r.key = op.key ∧ r.invokedUs = clock op.start := by
  unfold record at h
  split at h
  · obtain ⟨note, -, rfl⟩ := Option.map_eq_some_iff.mp h
    exact ⟨rfl, rfl⟩
  · cases h
    exact ⟨rfl, rfl⟩

theorem le_returnedUs (hclock : clock op.stop < never)
    (h : op.record clock = some r) : clock op.stop ≤ r.returnedUs := by
  unfold record at h
  split at h
  · obtain ⟨note, -, rfl⟩ := Option.map_eq_some_iff.mp h
    dsimp only
    split
    · exact le_never _
    · exact UInt64.le_refl _
  · cases h
    rw [UInt64.le_iff_toNat_le, UInt64.toNat_add]
    have hlt := UInt64.lt_iff_toNat_lt.mp hclock
    have hnever : never.toNat = 2 ^ 64 - 1 := rfl
    have hone : (1 : UInt64).toNat = 1 := rfl
    omega

theorem record_write {kind : WriteKind} {mode : WriteMode}
    {attempts : List Attempt} (h : op.record clock = some r)
    (hc : op.call = .write kind mode attempts) :
    r.action = .set kind.state := by
  rw [record, hc] at h
  obtain ⟨note, -, rfl⟩ := Option.map_eq_some_iff.mp h
  rfl

theorem record_read {result : Option Value} (h : op.record clock = some r)
    (hc : op.call = .read result) :
    r.action = .expect result ∧ r.failed = false := by
  rw [record, hc] at h
  cases h
  exact ⟨rfl, rfl⟩

theorem confirmed_of_acknowledged (h : op.record clock = some r)
    (ha : r.acknowledged = true) (hw : op.isWrite = true) :
    ∃ t i, Attempt.accepted t i (.received true) ∈ op.attempts := by
  obtain ⟨process, key, start, stop, call⟩ := op
  cases call with
  | read result => cases hw
  | write kind mode attempts =>
      obtain ⟨⟨outcome, pos⟩, hnote, rfl⟩ := Option.map_eq_some_iff.mp h
      have hok : outcome = .ok := by
        cases outcome with
        | ok => rfl
        | fail => cases ha
        | unknown => cases ha
      obtain ⟨t, i, hmem, -⟩ := WriteMode.note_ok hnote hok
      exact ⟨t, i, hmem⟩

theorem refused_of_failed (h : op.record clock = some r)
    (hf : r.failed = true) {v : Awaited Bool}
    (hp : Attempt.accepted t i v ∈ op.attempts) : v = .received false := by
  obtain ⟨process, key, start, stop, call⟩ := op
  cases call with
  | read result => cases hp
  | write kind mode attempts =>
      obtain ⟨⟨outcome, pos⟩, hnote, rfl⟩ := Option.map_eq_some_iff.mp h
      have hfail : outcome = .fail := by
        cases outcome with
        | fail => rfl
        | ok => cases hf
        | unknown => cases hf
      exact WriteMode.note_fail hnote hfail hp

theorem record_confirmedPlace {kind : WriteKind} {term index : UInt64}
    (h : op.record clock = some r)
    (hp : confirmedPlace r = some (kind, term, index)) :
    ∃ mode attempts t i, op.call = .write kind mode attempts ∧
      Attempt.accepted t i (.received true) ∈ op.attempts ∧
      term = UInt64.ofNat t ∧ index = UInt64.ofNat i := by
  obtain ⟨process, key, start, stop, call⟩ := op
  cases call with
  | read result =>
      cases h
      cases hp
  | write kind' mode attempts =>
      obtain ⟨⟨outcome, pos⟩, hnote, rfl⟩ := Option.map_eq_some_iff.mp h
      have hok : outcome = .ok := by
        cases outcome with
        | ok => rfl
        | fail => cases hp
        | unknown => cases hp
      subst hok
      obtain ⟨t, i, hmem, hpos⟩ := WriteMode.note_ok hnote rfl
      obtain rfl : pos = some (t, i) := hpos
      cases hp
      exact ⟨mode, attempts, t, i, rfl, hmem, rfl, rfl⟩

/-- What has returned before another operation was invoked has stopped before
it started. -/
theorem stop_le_start {op' : Op} {r' : Recorded}
    (hmono : ∀ i j, i ≤ j → clock i ≤ clock j)
    (hclock : clock op.stop < never) (h : op.record clock = some r)
    (h' : op'.record clock = some r') (hlt : r.returnedUs < r'.invokedUs) :
    op.stop ≤ op'.start := by
  by_contra hlate
  have hclk := hmono _ _ (Nat.le_of_not_le hlate)
  have hret := le_returnedUs hclock h
  rw [(record_eq h').2] at hlt
  exact absurd (UInt64.lt_of_lt_of_le hlt (UInt64.le_trans hclk hret))
    (UInt64.lt_irrefl _)

end Op

end Records

theorem check_of_linearizes {history : List Recorded}
    (htime : ∀ i, (history.get i).asEntry.Timed)
    (hsize : ∀ key, (history.filter fun r =>
      r.key = key ∧ r.failed = false).length ≤ 63)
    {order : List (Fin history.length)}
    (h : (registers htime).Linearizes
      (fun i => (history.get i).failed = false) (fun _ => none) order) :
    checkLinearizable history = .ok (.ok ()) := by
  have hkey : ∀ key ∈ (byKey history).keys, ∃ v,
      checkKey (((byKey history).get key).getD []) = .ok v ∧
        (v = .ok () ↔ ∃ order,
          (calls (fun i => (history.get i).asEntry) htime).Linearizes
            (fun i => (history.get i).failed = false ∧
              (history.get i).key = key) none order) := by
    intro key _
    rw [get_byKey]
    exact checkKey_exact htime
      ((length_positions history key).trans_le (hsize key))
  obtain ⟨v, hv, hiff⟩ := checkKeys_iff hkey
  have hok := hiff.mpr fun key _ => ⟨_, Calls.Linearizes.part _ _ h key⟩
  rw [checkLinearizable, hv, hok]

/-! ## The order -/

section Order

variable {clock : ℕ → UInt64} {history : List Recorded}

theorem length_eq_of_record
    (hrec : ops.map (Op.record clock) = history.map some) :
    history.length = ops.length := by
  have h := congrArg List.length hrec
  rwa [List.length_map, List.length_map, eq_comm] at h

def opOf (hrec : ops.map (Op.record clock) = history.map some)
    (i : Fin history.length) : Fin ops.length :=
  i.cast (length_eq_of_record hrec)

variable (hrec : ops.map (Op.record clock) = history.map some)

theorem record_opOf (i : Fin history.length) :
    (ops.get (opOf hrec i)).record clock = some (history.get i) := by
  have h : (ops.map (Op.record clock))[i.val]? =
      (history.map some)[i.val]? := by
    rw [hrec]
  rw [List.getElem?_map, List.getElem?_map,
    List.getElem?_eq_getElem i.isLt,
    List.getElem?_eq_getElem ((length_eq_of_record hrec) ▸ i.isLt)] at h
  exact Option.some.inj h

variable (hmono : ∀ i j, i ≤ j → clock i ≤ clock j)
  (hclock : ∀ i, clock i < never)

include hrec hmono hclock in
theorem timed_of_record (W : Workload run json asU64 ops)
    (i : Fin history.length) : (history.get i).asEntry.Timed := by
  have hop := List.get_mem ops (opOf hrec i)
  refine Recorded.timed ?_
  rw [(Op.record_eq (record_opOf hrec i)).2]
  exact UInt64.le_trans (hmono _ _ (W.span _ hop))
    (Op.le_returnedUs (hclock _) (record_opOf hrec i))

include hmono hclock in
theorem returned_before (htime : ∀ i, (history.get i).asEntry.Timed)
    {i i' : Fin history.length}
    (h : (registers htime).ret i' < (registers htime).inv i) :
    (history.get i').acknowledged = true ∧
      (ops.get (opOf hrec i')).stop ≤ (ops.get (opOf hrec i)).start := by
  have hb : (history.get i').Before (history.get i) := by
    by_contra hb
    exact absurd h (Nat.not_lt.mpr
      (UInt64.le_iff_toNat_le.mp (Recorded.not_before_iff.mp hb)))
  exact ⟨hb.1, Op.stop_le_start hmono (hclock _) (record_opOf hrec i')
    (record_opOf hrec i) hb.2⟩

theorem registers_apply (htime : ∀ i, (history.get i).asEntry.Timed)
    (i : Fin history.length) (f : String → Option Value) :
    (registers htime).apply i f =
      ((history.get i).action.apply (f (history.get i).key)).map
        (Function.update f (history.get i).key) := rfl

theorem not_failed_of_at (W : Workload run json asU64 ops)
    (hfinal : run.RefusesFinally) {T : run.Trace} {i : Fin history.length}
    (h : (ops.get (opOf hrec i)).At T json asU64 k) :
    (history.get i).failed = false := by
  have hr := record_opOf hrec i
  have hop := List.get_mem ops (opOf hrec i)
  by_cases hw : (ops.get (opOf hrec i)).isWrite = true
  · refine Bool.eq_false_iff.mpr fun hf => ?_
    obtain ⟨l, rfl, hl⟩ := (Op.at_write hw).mp h
    obtain ⟨m, hs⟩ := hl.settled
    obtain ⟨j, -, ho⟩ := hs.applied (Nat.lt_succ_self l)
    obtain ⟨v, hv⟩ := hl.placed
    obtain rfl := Op.refused_of_failed hr hf hv
    obtain ⟨j', -, hno⟩ := (W.wrote hop (List.ne_nil_of_mem hv)).verdict _ _ _ hv
    exact T.refused hno (hfinal j' _ _ hno) j _ ho rfl
      (hs.index (Nat.lt_succ_self l))
  · obtain ⟨result, hc⟩ := Op.call_of_not_isWrite hw
    exact (Op.record_read hr hc).2

/-- The operations have their places in the committed log. -/
theorem placement (W : Workload run json asU64 ops) (T : run.Trace)
    (hmono : ∀ i j, i ≤ j → clock i ≤ clock j)
    (hclock : ∀ i, clock i < never)
    (htime : ∀ i, (history.get i).asEntry.Timed) {i n : ℕ}
    (hn : T.Settled i n) :
    (registers htime).Placement (values T asU64)
      (fun i => (ops.get (opOf hrec i)).isWrite = true)
      (fun i k => (ops.get (opOf hrec i)).At T json asU64 k) n where
  unique i j k hj hk := hj.unique (record_opOf hrec i) hk
  single i j k hwi hwj hi hj := by
    obtain ⟨l, rfl, hl⟩ := (Op.at_write hwi).mp hi
    obtain ⟨l', heq, hl'⟩ := (Op.at_write hwj).mp hj
    obtain rfl := Nat.succ.inj heq
    exact Fin.cast_injective _ (W.eq_of_placed hl.placed hl'.placed)
  query_zero i hi hw := by
    obtain ⟨l, h, -⟩ := (Op.at_write hw).mp hi
    cases h
  update_apply i k hw hi := by
    have hr := record_opOf hrec i
    obtain ⟨l, heq, hl⟩ := (Op.at_write hw).mp hi
    obtain rfl := Nat.succ.inj heq
    obtain ⟨kind, mode, attempts, hc⟩ := Op.call_of_isWrite hw
    rw [hl.values_eq W hc]
    rw [registers_apply, Op.record_write hr hc, (Op.record_eq hr).1]
    rfl
  idle k hk h := by
    refine W.values_idle (hn.mono le_rfl hk) fun a ha => ?_
    have hw : (ops.get a).isWrite = true := by
      by_contra hw
      obtain ⟨result, hc⟩ := Op.call_of_not_isWrite hw
      have hcmd := ha.command
      rw [Op.command, hc] at hcmd
      cases hcmd
    exact h (a.cast (length_eq_of_record hrec).symm) hw
      ((Op.at_write hw).mpr ⟨k, rfl, ha⟩)
  query_apply i k hw hi := by
    have hr := record_opOf hrec i
    obtain ⟨result, hc⟩ := Op.call_of_not_isWrite hw
    have hsees := ((Op.at_read hc).mp hi).1
    rw [registers_apply, (Op.record_read hr hc).1, (Op.record_eq hr).1,
      Action.apply, if_pos hsees.result.symm, Option.map_some,
      Function.update_eq_self]
  order i i' j k hi hi' hlt := by
    obtain ⟨hack, hstop⟩ := returned_before hrec hmono hclock htime hlt
    obtain ⟨k', hk', hs⟩ := W.at_returned (T := T) (opOf hrec i')
      (Op.confirmed_of_acknowledged (record_opOf hrec i') hack)
    obtain rfl := hi'.unique (record_opOf hrec i') hk'
    exact W.at_late (List.get_mem ops _) hi (hs.mono hstop le_rfl)

theorem exists_settled (W : Workload run json asU64 ops) (T : run.Trace) :
    ∃ i n, T.Settled i n ∧ ∀ i : Fin history.length,
      (history.get i).acknowledged = true →
        ∃ k, k ≤ n ∧ (ops.get (opOf hrec i)).At T json asU64 k := by
  have hone : ∀ i : Fin history.length, ∃ k, (∃ m, T.Settled m k) ∧
      ((history.get i).acknowledged = true →
        (ops.get (opOf hrec i)).At T json asU64 k) := by
    intro i
    by_cases hack : (history.get i).acknowledged = true
    · obtain ⟨k, hk, hs⟩ := W.at_returned (T := T) (opOf hrec i)
        (Op.confirmed_of_acknowledged (record_opOf hrec i) hack)
      exact ⟨k, ⟨_, hs⟩, fun _ => hk⟩
    · exact ⟨0, ⟨0, T.settled_zero 0⟩, fun h => absurd h hack⟩
  choose place hset hat using hone
  have hsup : ∃ m, T.Settled m (Finset.univ.sup place) := by
    refine Finset.sup_induction (p := fun k => ∃ m, T.Settled m k)
      ⟨0, T.settled_zero 0⟩ ?_ fun i _ => hset i
    rintro a ⟨m, hm⟩ b ⟨m', hm'⟩
    rcases le_total a b with hab | hba
    · exact ⟨m', by rwa [sup_eq_right.mpr hab]⟩
    · exact ⟨m, by rwa [sup_eq_left.mpr hba]⟩
  obtain ⟨m, hm⟩ := hsup
  exact ⟨m, _, hm, fun i hack =>
    ⟨place i, Finset.le_sup (Finset.mem_univ i), hat i hack⟩⟩

end Order

/-- What the test's clients record is accepted by the checker, whatever
happened to the cluster: however many copies of a write were committed, and
whichever node a read was granted by. This is so in every run in which
refusals are final. -/
theorem recorded_histories_pass (W : Workload run json asU64 ops)
    (hfinal : run.RefusesFinally) (clock : ℕ → UInt64)
    (hmono : ∀ i j, i ≤ j → clock i ≤ clock j)
    (hclock : ∀ i, clock i < never) (history : List Recorded)
    (hrec : ops.map (Op.record clock) = history.map some)
    (hsize : ∀ key, (history.filter fun r =>
      r.key = key ∧ r.failed = false).length ≤ 63) :
    checkLinearizable history = .ok (.ok ()) := by
  obtain ⟨T⟩ := run.exists_trace
  have htime := timed_of_record hrec hmono hclock W
  obtain ⟨m, n, hn, hall⟩ := exists_settled hrec W T
  obtain ⟨order, horder⟩ := (placement hrec W T hmono hclock htime
    hn).linearizes List.mem_finRange (List.nodup_finRange _)
    (fun i k h => not_failed_of_at hrec W hfinal h)
    (fun i _ hr => hall i hr)
  exact check_of_linearizes htime hsize horder

/-! ### Refused and retried

Node 1 of three leads and takes on two writes nobody else sees. Node 2 is
elected, has its own first entry applied and overwrites node 1's log, so both
are refused. One client retries at node 2 and is confirmed, the other fails;
another write and a read follow. -/

def retriedRun :
    Run (Deployment.ofIds [1, 2, 3] none) (KvStore.machine Value) :=
  Run.ofActions _ _ [.timeout 1 0, .deliver 0 0, .reply 0 0, .deliver 2 0,
    .reply 1 0, .propose 1 (.put "x" 7 (some ⟨0, 1⟩)) 0,
    .propose 1 (.put "x" 8 none) 0, .timeout 2 0, .deliver 11 0, .reply 2 0,
    .deliver 13 0, .reply 3 0, .deliver 15 0, .reply 4 0, .deliver 14 0,
    .propose 2 (.put "x" 7 (some ⟨0, 1⟩)) 0, .deliver 17 0, .reply 6 0,
    .idle, .propose 2 (.put "x" 9 none) 0, .deliver 19 0, .reply 7 0,
    .read 2, .deliver 21 0, .reply 8 0] (by decide +kernel)

def retriedWrite : Op :=
  ⟨0, "x", 5, 18, .write (.put 7) (.tokenRetry 1)
    [.accepted 1 2 (.received false), .accepted 2 2 (.received true)]⟩

def refusedWrite : Op :=
  ⟨1, "x", 6, 15, .write (.put 8) .fireOnce [.accepted 1 3 (.received false)]⟩

def laterWrite : Op :=
  ⟨1, "x", 19, 22, .write (.put 9) .fireOnce [.accepted 2 3 (.received true)]⟩

def laterRead : Op := ⟨2, "x", 22, 25, .read (some 9)⟩

def retriedOps : List Op := [retriedWrite, refusedWrite, laterWrite, laterRead]

/-- The time stops with the schedule. -/
def schedule (i : ℕ) : UInt64 := UInt64.ofNat (min i 25)

def retriedHistory : List Recorded :=
  [⟨0, "x", .write (.put 7) .ok (some (2, 2)), 5, 18⟩,
    ⟨1, "x", .write (.put 8) .fail (some (1, 3)), 6, 15⟩,
    ⟨1, "x", .write (.put 9) .ok (some (2, 3)), 19, 22⟩,
    ⟨2, "x", .read (some 9), 22, 26⟩]

def promise? {M : StateMachine V} : Output M → Option (ℕ × ℕ)
  | .proposeReply (.ok p) => some p
  | _ => none

def registered? {M : StateMachine V} : Output M → Option (ℕ × ℕ)
  | .readReply (.ok (t, r)) => some (t, r.neededSeq)
  | _ => none

def granted? {M : StateMachine V} : Output M → Option (ℕ × ℕ)
  | .granted t q _ _ => some (t, q)
  | _ => none

theorem exists_ticket {M : StateMachine V} {os os' : List (Output M)}
    {p : ℕ × ℕ} (hreg : os.any (fun o => registered? o = some p) = true)
    (hgrant : os'.any (fun o => granted? o = some p) = true) :
    ∃ t r applied state, Output.readReply (.ok (t, r)) ∈ os ∧
      Output.granted t r.neededSeq applied state ∈ os' := by
  obtain ⟨o, ho, hreg⟩ := List.any_eq_true.mp hreg
  obtain ⟨o', ho', hgrant⟩ := List.any_eq_true.mp hgrant
  have hreg := of_decide_eq_true hreg
  have hgrant := of_decide_eq_true hgrant
  unfold registered? at hreg
  unfold granted? at hgrant
  split at hreg
  · split at hgrant
    · cases hreg
      cases hgrant
      exact ⟨_, _, _, _, ho, ho'⟩
    · cases hgrant
  · cases hreg

def refusal? {M : StateMachine V} : Output M → Option (ℕ × ℕ)
  | .committed t i false => some (t, i)
  | _ => none

theorem retriedRun_promises {j t i : ℕ}
    (h : Output.proposeReply (.ok (t, i)) ∈ (retriedRun.effect j).outputs) :
    (t, i) ∈ [(1, 2), (1, 3), (2, 2), (2, 3)] := by
  have hall := Run.of_mem_outputs (P := fun _ o => (promise? o).all fun p =>
    p ∈ [(1, 2), (1, 3), (2, 2), (2, 3)]) (by decide +kernel) h
  exact of_decide_eq_true hall

/-- Both refusals are of step 14, when node 2 has applied an entry of its own
in place of node 1's first. -/
theorem retriedRun_final : retriedRun.RefusesFinally := by
  intro j t i h
  have hall := Run.of_mem_outputs (P := fun j o => (refusal? o).all fun p =>
    j = 14 ∧ 1 ≤ p.2) (by decide +kernel) h
  obtain ⟨rfl, hi⟩ := of_decide_eq_true hall
  have hn : (retriedRun.effect 14).node = 1 := by decide +kernel
  rw [hn]
  exact .inl ⟨13, ⟨1, 1, .noop⟩, ⟨2, 1, .noop⟩, by decide,
    Output.mem_of_same (by decide +kernel), hi, by decide +kernel, by decide⟩

theorem retriedWrite_wrote : retriedWrite.Wrote retriedRun id := by
  constructor
  · intro t i v h
    simp only [retriedWrite, Op.attempts, List.mem_cons,
      Attempt.accepted.injEq, List.not_mem_nil, or_false] at h
    rcases h with ⟨rfl, rfl, -⟩ | ⟨rfl, rfl, -⟩
    · exact ⟨5, 1, _, by decide, by decide, rfl, ⟨0, rfl⟩, by decide +kernel,
        Output.mem_of_same (by decide +kernel)⟩
    · exact ⟨15, 2, _, by decide, by decide, rfl, ⟨0, rfl⟩,
        by decide +kernel, Output.mem_of_same (by decide +kernel)⟩
  · intro t i b h
    simp only [retriedWrite, Op.attempts, List.mem_cons,
      Attempt.accepted.injEq, Awaited.received.injEq, List.not_mem_nil,
      or_false] at h
    rcases h with ⟨rfl, rfl, rfl⟩ | ⟨rfl, rfl, rfl⟩
    · exact ⟨14, by decide, Output.mem_of_same (by decide +kernel)⟩
    · exact ⟨17, by decide, Output.mem_of_same (by decide +kernel)⟩

theorem Op.Wrote.once {kind : WriteKind} {b : Bool} {j k : ℕ} {n : NodeId}
    {cmd : Command V} (hc : op.call = .write kind .fireOnce
      [.accepted t i (.received b)]) (hstart : op.start ≤ j)
    (hj : j < op.stop) (hcmd : op.command json = some cmd)
    (hacc : run.Accepted j n t i cmd) (hk : k < op.stop)
    (hv : Output.committed t i b ∈ (run.effect k).outputs) :
    op.Wrote run json := by
  have hatt : op.attempts = [.accepted t i (.received b)] := by
    rw [Op.attempts, hc]
  constructor
  · intro t' i' v h
    rw [hatt, List.mem_singleton] at h
    cases h
    exact ⟨j, n, cmd, hstart, hj, hcmd, hacc⟩
  · intro t' i' b' h
    rw [hatt, List.mem_singleton] at h
    cases h
    exact ⟨k, hk, hv⟩

theorem laterRead_looked :
    laterRead.Looked retriedRun some (some 9) 2 22 24 25 where
  start_le := le_rfl
  le := by decide
  lt := Nat.lt_succ_self 24
  le_stop := le_rfl
  asked := by decide +kernel
  granting := by decide +kernel
  ticket := exists_ticket (p := (2, 1)) (by decide +kernel) (by decide +kernel)
  process := by decide +kernel
  result := by decide +kernel

theorem retried_workload : Workload retriedRun id some retriedOps where
  value _ := rfl
  span := by decide
  happened := by
    simp only [retriedOps, List.forall_mem_cons]
    refine ⟨retriedWrite_wrote, ?_, ?_, ⟨2, 22, 24, 25, laterRead_looked⟩,
      List.forall_mem_nil _⟩
    · exact Op.Wrote.once (j := 6) (k := 14) (n := 1) rfl (by decide)
        (by decide) rfl ⟨⟨0, rfl⟩, by decide +kernel,
          Output.mem_of_same (by decide +kernel)⟩ (by decide)
        (Output.mem_of_same (by decide +kernel))
    · exact Op.Wrote.once (j := 19) (k := 21) (n := 2) rfl (by decide)
        (by decide) rfl ⟨⟨0, rfl⟩, by decide +kernel,
          Output.mem_of_same (by decide +kernel)⟩ (by decide)
        (Output.mem_of_same (by decide +kernel))
  complete j n t i cmd hacc _ := by
    have hmem := retriedRun_promises hacc.2.2
    simp only [List.mem_cons, Prod.mk.injEq, List.not_mem_nil,
      or_false] at hmem
    rcases hmem with ⟨rfl, rfl⟩ | ⟨rfl, rfl⟩ | ⟨rfl, rfl⟩ | ⟨rfl, rfl⟩
    · exact ⟨retriedWrite, by decide, .received false, by decide⟩
    · exact ⟨refusedWrite, by decide, .received false, by decide⟩
    · exact ⟨retriedWrite, by decide, .received true, by decide⟩
    · exact ⟨laterWrite, by decide, .received true, by decide⟩
  once := by
    simp only [retriedOps, List.pairwise_cons, List.forall_mem_cons,
      Op.Placed, Op.attempts, retriedWrite, refusedWrite, laterWrite,
      laterRead]
    grind
  sequential := by
    simp [retriedOps, retriedWrite, refusedWrite, laterWrite, laterRead,
      Op.session]

theorem schedule_toNat (i : ℕ) : (schedule i).toNat = min i 25 := by
  rw [schedule, UInt64.toNat_ofNat']
  omega

theorem schedule_mono (i j : ℕ) (h : i ≤ j) : schedule i ≤ schedule j := by
  rw [UInt64.le_iff_toNat_le, schedule_toNat, schedule_toNat]
  omega

theorem schedule_lt_never (i : ℕ) : schedule i < never := by
  rw [UInt64.lt_iff_toNat_lt, schedule_toNat]
  have hnever : never.toNat = 2 ^ 64 - 1 := rfl
  omega

theorem recorded_histories_pass_retried :
    Workload retriedRun id some retriedOps ∧ retriedRun.RefusesFinally ∧
      Output.committed 1 3 false ∈ (retriedRun.effect 14).outputs ∧
      retriedOps.map (Op.record schedule) = retriedHistory.map some ∧
      checkLinearizable retriedHistory = .ok (.ok ()) := by
  have hrec : retriedOps.map (Op.record schedule) =
      retriedHistory.map some := by decide
  exact ⟨retried_workload, retriedRun_final,
    Output.mem_of_same (by decide +kernel), hrec,
    recorded_histories_pass retried_workload retriedRun_final schedule
      schedule_mono schedule_lt_never retriedHistory hrec
      fun key => (List.length_filter_le _ _).trans (by decide)⟩

/-! ## The log as a witness -/

section Witness

variable [DecidableEq V] {clock : ℕ → UInt64} {history : List Recorded}
  {log : List (LogEntry V)}

theorem confirmedWrites_ok
    (h : ∀ r ∈ history, ∀ kind term index,
      confirmedPlace r = some (kind, term, index) →
        checkPlace json log r.key kind term index = .ok ()) :
    ∃ cs, confirmedWrites json log history = .ok cs ∧
      ∀ c ∈ cs, c.1 ∈ history ∧
        ∃ kind term, confirmedPlace c.1 = some (kind, term, c.2) := by
  induction history with
  | nil => exact ⟨[], rfl, List.forall_mem_nil _⟩
  | cons r rest ih =>
      obtain ⟨hr, hrest⟩ := List.forall_mem_cons.mp h
      obtain ⟨cs, hcs, hmem⟩ := ih hrest
      have hold : ∀ c ∈ cs, c.1 ∈ r :: rest ∧
          ∃ kind term, confirmedPlace c.1 = some (kind, term, c.2) :=
        fun c hc => ⟨List.mem_cons_of_mem _ (hmem c hc).1, (hmem c hc).2⟩
      rw [confirmedWrites]
      cases hp : confirmedPlace r with
      | none => exact ⟨cs, hcs, hold⟩
      | some place =>
          obtain ⟨kind, term, index⟩ := place
          refine ⟨(r, index) :: cs, ?_, List.forall_mem_cons.mpr
            ⟨⟨List.mem_cons_self, kind, term, hp⟩, hold⟩⟩
          simp only [hr kind term index hp, hcs]
          rfl

theorem checkOrder_ok {cs : List (Recorded × UInt64)}
    (h : ∀ a ∈ cs, ∀ b ∈ cs, outOfOrder a b = false) :
    checkOrder cs = .ok () := by
  have hnone : (cs.flatMap fun a => cs.map fun b => (a, b)).find?
      (fun p => outOfOrder p.1 p.2) = none := by
    refine List.find?_eq_none.mpr fun p hp => ?_
    obtain ⟨a, ha, hp⟩ := List.mem_flatMap.mp hp
    obtain ⟨b, hb, rfl⟩ := List.mem_map.mp hp
    rw [h a ha b hb]
    decide
  rw [checkOrder, hnone]

theorem commandMatches_of_command {kind : WriteKind} {mode : WriteMode}
    {attempts : List Attempt} {cmd : Command V}
    (hc : op.call = .write kind mode attempts)
    (h : op.command json = some cmd) :
    commandMatches json op.key cmd kind = true := by
  rw [Op.command, hc] at h
  cases kind with
  | put value =>
      cases h
      simp [commandMatches]
  | delete =>
      cases h
      simp [commandMatches]

theorem Workload.recorded_copy (W : Workload run json asU64 ops)
    (hfit : ∀ op ∈ ops, ∀ t i, op.Placed t i → t < 2 ^ 64 ∧ i < 2 ^ 64)
    {T : run.Trace} {r : Recorded} {kind : WriteKind} {term index : UInt64}
    (hop : op ∈ ops) (hr : op.record clock = some r)
    (hp : confirmedPlace r = some (kind, term, index)) :
    ∃ l, index.toNat = l + 1 ∧ op.Copy T json l ∧
      T.Settled op.stop (l + 1) ∧ (T.entry l).term = term.toNat ∧
      commandMatches json op.key (T.entry l).command kind = true ∧
      ∃ t, Attempt.accepted t (l + 1) (.received true) ∈ op.attempts := by
  obtain ⟨mode, attempts, t, i, hc, hmem, rfl, rfl⟩ :=
    Op.record_confirmedPlace hr hp
  obtain ⟨l, rfl, hterm, hcopy, hset⟩ :=
    W.copy_of_confirmed (T := T) hop hmem
  obtain ⟨ht, hi⟩ := hfit op hop _ _ ⟨_, hmem⟩
  refine ⟨l, ?_, hcopy, hset, ?_, commandMatches_of_command hc hcopy.command,
    t, hmem⟩
  · rw [UInt64.toNat_ofNat']
    omega
  · rw [hterm, UInt64.toNat_ofNat']
    omega

/-- The log on disk is a witness of what the clients were told, whichever
node it is of and however often leadership changed: once a node that keeps its
whole log has caught up, every confirmed write is at the place its client was
told, and the places follow real time. -/
theorem log_witnesses_writes (W : Workload run json asU64 ops)
    (clock : ℕ → UInt64) (hmono : ∀ i j, i ≤ j → clock i ≤ clock j)
    (hclock : ∀ i, clock i < never) (history : List Recorded)
    (hrec : ops.map (Op.record clock) = history.map some)
    (hfit : ∀ op ∈ ops, ∀ t i, op.Placed t i → t < 2 ^ 64 ∧ i < 2 ^ 64)
    (m : ℕ) (n : NodeId)
    (hwhole : ((run.state m).nodes n).storage.snapshotIndex = 0)
    (hcaught : ∀ op ∈ ops, ∀ t i,
      Attempt.accepted t i (.received true) ∈ op.attempts →
        i ≤ ((run.state m).nodes n).commitIndex) :
    checkWriteWitness json history
      ((run.state m).nodes n).storage.entries = .ok (.ok ()) := by
  obtain ⟨T⟩ := run.exists_trace
  have hops : ∀ r ∈ history, ∃ op ∈ ops, op.record clock = some r := by
    intro r hr
    have hmem : some r ∈ ops.map (Op.record clock) :=
      hrec ▸ List.mem_map_of_mem hr
    exact List.mem_map.mp hmem
  have hplace : ∀ r ∈ history, ∀ kind term index,
      confirmedPlace r = some (kind, term, index) →
        checkPlace json ((run.state m).nodes n).storage.entries r.key kind
          term index = .ok () := by
    intro r hr kind term index hp
    obtain ⟨op, hop, hrop⟩ := hops r hr
    obtain ⟨l, hidx, -, -, hterm, hcmd, t, hmem⟩ :=
      W.recorded_copy (T := T) hfit hop hrop hp
    have hget := T.entries_get hwhole
      (Nat.lt_of_succ_le (hcaught op hop t (l + 1) hmem))
    have hne : index ≠ 0 := by
      rintro rfl
      cases hidx
    rw [checkPlace, if_neg hne, hidx, Nat.add_sub_cancel, hget]
    simp [hterm, (Op.record_eq hrop).1, hcmd]
  obtain ⟨cs, hcs, hmem⟩ := confirmedWrites_ok hplace
  have horder : checkOrder cs = .ok () := by
    refine checkOrder_ok fun a ha b hb => Bool.eq_false_iff.mpr fun hout => ?_
    obtain ⟨hlt, hle⟩ := Bool.and_eq_true_iff.mp hout
    obtain ⟨hra, kind, term, hpa⟩ := hmem a ha
    obtain ⟨hrb, kind', term', hpb⟩ := hmem b hb
    obtain ⟨op, hop, hrop⟩ := hops _ hra
    obtain ⟨op', hop', hrop'⟩ := hops _ hrb
    obtain ⟨l, hidx, -, hset, -⟩ := W.recorded_copy (T := T) hfit hop hrop hpa
    obtain ⟨l', hidx', hcopy', -⟩ :=
      W.recorded_copy (T := T) hfit hop' hrop' hpb
    have hstop := Op.stop_le_start hmono (hclock _) hrop hrop'
      (of_decide_eq_true hlt)
    have hlate := W.copy_late hop' hcopy' (hset.mono hstop le_rfl)
    have hle' := UInt64.le_iff_toNat_le.mp (of_decide_eq_true hle)
    omega
  rw [checkWriteWitness, hcs]
  exact congrArg Except.ok horder

/-- The log is that of node 3, which never led; the two confirmed writes
follow each other in it as they did in time. -/
theorem log_witnesses_writes_retried :
    Workload retriedRun id some retriedOps ∧
      (confirmedWrites id ((retriedRun.state 25).nodes 3).storage.entries
        retriedHistory).toOption.map (List.map Prod.snd) = some [2, 3] ∧
      checkWriteWitness id retriedHistory
        ((retriedRun.state 25).nodes 3).storage.entries = .ok (.ok ()) := by
  have hplaced : ∀ op ∈ retriedOps, ∀ t i, op.Placed t i →
      t ≤ 2 ∧ i ≤ 3 := by
    simp only [retriedOps, List.forall_mem_cons, Op.Placed, Op.attempts,
      retriedWrite, refusedWrite, laterWrite, laterRead]
    grind
  have hcommit : ((retriedRun.state 25).nodes 3).commitIndex = 3 := by
    decide +kernel
  refine ⟨retried_workload, by decide +kernel, log_witnesses_writes
    retried_workload schedule schedule_mono schedule_lt_never retriedHistory
    (by decide) ?_ 25 3 (by decide +kernel) ?_⟩
  · intro op hop t i hp
    obtain ⟨ht, hi⟩ := hplaced op hop t i hp
    omega
  · intro op hop t i hp
    rw [hcommit]
    exact (hplaced op hop t i ⟨_, hp⟩).2

end Witness

end Jepsen

end RustKV
