import RustKV.Proofs.Safety

/-!
# The configurations of a run

Membership lives in the log: a configuration is in effect from the moment it
is appended, and it goes away with the entry when a conflict truncates it.
Two things are shown about that. What a node keeps in memory is what its disk
says, always, so a restart changes nothing about who the members are
(`membership_durable`). And the configurations a log runs through form a
chain (`configuration_chain`): each differs from the one before by one
member, and whoever appended it had the one before committed.

The second rests on how a configuration entry comes into being. The entries
of a term are its leader's, so an entry found anywhere was appended by that
leader at one step of the run, behind exactly the entries that are in front
of it wherever it is found. `Created` is what is known of that step.
-/

namespace RustKV

open Rust Consensus History

variable {V : Type} {M : StateMachine V} {D : Deployment} {run : Run D M}
  {F L : List (LogEntry V)}

/-! ## What the disk says -/

theorem Located.newest {S : Storage V M.Payload} {index : ℕ}
    (h : Located F index S.snapshotIndex) (hr : Represents M S F) :
    (∀ m k, newestConfig S.log = some (m, k) → index = k) ∧
      (newestConfig S.log = none → index ≤ S.snapshotIndex) := by
  have habove : ∀ e ∈ F, S.snapshotIndex < e.index → e ∈ S.log := by
    intro e he hlt
    rw [← List.take_append_drop S.snapshotIndex F, List.mem_append] at he
    rw [hr.log]
    refine he.resolve_left fun he => ?_
    have := hr.indexed.le_of_mem_take he
    omega
  constructor
  · intro m k hn
    obtain ⟨x, hx, hcx, hix⟩ := exists_of_newestConfig hn
    have hmem : x ∈ F.drop S.snapshotIndex := hr.log ▸ hx
    have hlow := hr.indexed.lt_of_mem_drop hmem
    have hle := h.le x (List.mem_of_mem_drop hmem)
      (by rw [hcx]; exact Option.some_ne_none _)
    rcases h.carried with hle' | ⟨e, he, hce, rfl⟩
    · omega
    · have := newestConfig_index (e := e)
        (hr.log ▸ hr.indexed.pairwise.sublist (List.drop_sublist _ _)) hn
      have := this (habove e he (by omega)) hce
      omega
  · intro hn
    rcases h.carried with hle | ⟨e, he, hce, rfl⟩
    · exact hle
    · by_contra hlt
      exact hce (newestConfig_eq_none.mp hn e (habove e he (by omega)))

/-- Membership is what the durable state says, in every reachable state, and
so a restart re-derives it; and every snapshot there is carries the last
configuration of the applied entries it stands for. -/
theorem membership_durable (run : Run D M) :
    (∀ i n, ((run.state i).nodes n).members =
        (deriveMembership ((run.state i).nodes n).storage
          ((run.state i).nodes n).config).1 ∧
      (∀ m k, newestConfig ((run.state i).nodes n).storage.log =
        some (m, k) → ((run.state i).nodes n).membersIndex = k) ∧
      (newestConfig ((run.state i).nodes n).storage.log = none →
        ((run.state i).nodes n).membersIndex ≤
          ((run.state i).nodes n).storage.snapshotIndex) ∧
      ∃ x : Node M, Node.spawn ((run.state i).nodes n).config
        ((run.state i).nodes n).storage = .ok x ∧
        x.members = ((run.state i).nodes n).members) ∧
    ∃ G : ℕ → LogEntry V,
      (∀ i e, Output.applied e ∈ (run.effect i).outputs →
        0 < e.index ∧ G (e.index - 1) = e) ∧
      (∀ i n snap, ((run.state i).nodes n).storage.snapshot = some snap →
        run.Applied i (firstEntries G snap.lastIncludedIndex) ∧
        snap.membership =
          lastConfig (firstEntries G snap.lastIncludedIndex)) ∧
      ∀ i, ∀ r ∈ (run.state i).rpcs, ∀ a, r.request = .installSnapshot a →
        a.snapshot.membership =
          lastConfig (firstEntries G a.snapshot.lastIncludedIndex) := by
  obtain ⟨T⟩ := run.exists_trace
  refine ⟨fun i n => ?_, T.entry, fun i e he => ?_, fun i n snap hs => ?_,
    fun i r hr a ha => ?_⟩
  · have hx := (T.inv i).nodes n
    have hder := deriveMembership_fst hx.body.repr
      ((run.state i).nodes n).config
    have hmem : ((run.state i).nodes n).members =
        (deriveMembership ((run.state i).nodes n).storage
          ((run.state i).nodes n).config).1 := by
      rw [hder, hx.body.config]
      exact hx.members.members
    obtain ⟨hsome, hnone⟩ := hx.members.index.newest hx.body.repr
    exact ⟨hmem, hsome, hnone, _, hx.spawn, hmem.symm⟩
  · obtain ⟨hpos, u, P, hP, hPe⟩ := T.applied_output he
    refine ⟨hpos, ?_⟩
    rw [T.committed_eq hP, firstEntries, List.getElem?_map] at hPe
    obtain ⟨k, hk, rfl⟩ := Option.map_eq_some_iff.mp hPe
    rw [List.getElem?_eq_some_iff] at hk
    obtain ⟨hlt, hk⟩ := hk
    rw [List.getElem_range] at hk
    rw [hk]
  · have hb := ((T.inv i).nodes n).body
    have his := hb.repr.snapshot snap hs
    have hidx := Storage.snapshotIndex_of_some hs
    have htake := T.take_eq i n hb.boundary_le
    rw [← hidx, ← htake]
    exact ⟨T.run_applied (T.applied_committed i n
      (hb.boundary_le.trans hb.applied_le)), his.membership⟩
  · have hok := (T.inv i).rpcs r hr
    rw [ha] at hok
    obtain ⟨⟨P, hP⟩, -⟩ := hok
    rw [hP.snapshot.membership, hP.snapshot.index,
      ← T.committed_eq hP.committed]

/-! ## Where a configuration comes from -/

/-- At step `K` the leader of `e`'s term, whose log is `P`, appends `e` with
the configuration `m` to it, in answer to a proposal that passed its gates. -/
structure Run.Trace.Created (T : run.Trace) (K : ℕ) (e : LogEntry V)
    (m : Membership) (P : List (LogEntry V)) : Prop where
  admitted : ∃ l now,
    ((run.state K).nodes (run.effect K).node).role = .leader l ∧
    ((run.state K).nodes (run.effect K).node).validateConfigChange l now m =
      .ok ()
  term : ((run.state K).nodes (run.effect K).node).currentTerm = e.term
  log : T.log K (run.effect K).node = P
  reply : Output.proposeReply (.ok (e.term, P.length + 1)) ∈
    (run.effect K).outputs

namespace Run.Trace

theorem Created.isLeader {T : run.Trace} {K : ℕ} {e : LogEntry V}
    {m : Membership} {P : List (LogEntry V)} (h : T.Created K e m P) :
    ((run.state K).nodes (run.effect K).node).isLeader = true := by
  obtain ⟨l, now, hl, -⟩ := h.admitted
  rw [Node.isLeader, hl]

theorem Created.tlog {T : run.Trace} {K : ℕ} {e : LogEntry V}
    {m : Membership} {P : List (LogEntry V)} (h : T.Created K e m P) :
    (T.hist K).tlog e.term = P := by
  obtain ⟨b, -, htl⟩ := T.leader h.isLeader
  rw [← h.term, htl, h.log]

theorem exists_created (T : run.Trace) {i j : ℕ} {e : LogEntry V}
    {m : Membership} (he : ((T.hist i).tlog e.term)[j]? = some e)
    (hm : e.configChange? = some m) :
    ∃ K P, K < i ∧ P.length = j ∧ T.Created K e m P := by
  induction i with
  | zero =>
      rw [T.start] at he
      cases he
  | succ i ih =>
      obtain ⟨_, htr, -⟩ := (T.advance i).here
      rcases htr.created e m j he hm with hold | ⟨hadm, ho⟩
      · obtain ⟨K, P, hK, hP, hc⟩ := ih hold
        exact ⟨K, P, by omega, hP, hc⟩
      · obtain ⟨l, now, hl, ht, hlen, hv⟩ := hadm
        exact ⟨i, _, Nat.lt_succ_self i, hlen, ⟨l, now, hl, hv⟩, ht, rfl,
          hlen ▸ ho⟩

/-- A configuration in any recorded log was created behind exactly what is
in front of it there. -/
theorem created (T : run.Trace) {i j : ℕ}
    (hv : (T.hist i).Valid (rules D) F) {e : LogEntry V} {m : Membership}
    (he : F[j]? = some e) (hm : e.configChange? = some m) :
    ∃ K, K < i ∧ T.Created K e m (F.take j) := by
  obtain ⟨_, _, -, -, hpre⟩ := hv j e he
  have hin : ((T.hist i).tlog e.term)[j]? = some e := by
    refine getElem?_of_isPrefix hpre ?_
    rw [getElem?_take_of_lt (Nat.lt_succ_self j), he]
  obtain ⟨K, P, hK, hlen, hc⟩ := T.exists_created hin hm
  have hlt := lt_length_of_getElem? he
  have hP : P = F.take j := by
    have h1 : P <+: (T.hist i).tlog e.term := by
      rw [← hc.tlog]
      exact (T.le hK.le).tlog _
    have h2 : F.take j <+: (T.hist i).tlog e.term :=
      (List.take_prefix_take_left (Nat.le_succ j)).trans hpre
    rw [List.prefix_iff_eq_take.mp h1, List.prefix_iff_eq_take.mp h2, hlen,
      List.length_take, Nat.min_eq_left hlt.le]
  exact ⟨K, hK, hP ▸ hc⟩

theorem Created.absent {T : run.Trace} {K : ℕ} {e : LogEntry V}
    {m : Membership} {P : List (LogEntry V)} (h : T.Created K e m P)
    {i j : ℕ} (hi : i ≤ K) (hv : (T.hist i).Valid (rules D) F)
    (hj : P.length ≤ j) : F[j]? ≠ some e := by
  intro he
  obtain ⟨_, _, -, -, hpre⟩ := hv j e he
  have hin : ((T.hist i).tlog e.term)[j]? = some e := by
    refine getElem?_of_isPrefix hpre ?_
    rw [getElem?_take_of_lt (Nat.lt_succ_self j), he]
  have := lt_length_of_getElem?
    (getElem?_of_isPrefix ((T.le hi).tlog e.term) hin)
  rw [h.tlog] at this
  omega

theorem Created.committed {T : run.Trace} {K : ℕ} {e y : LogEntry V}
    {m : Membership} {P : List (LogEntry V)} (h : T.Created K e m P)
    (hy : y ∈ P) (hc : y.configChange? ≠ none) :
    y.index ≤ ((run.state K).nodes (run.effect K).node).commitIndex := by
  have hx := (T.inv K).nodes (run.effect K).node
  obtain ⟨l, now, hl, hv⟩ := h.admitted
  obtain ⟨-, hgate⟩ := validateConfigChange_gates
    (by rw [hx.body.config]; exact D.gated _) hv
  have hle := hx.members.index.le y (by rwa [h.log]) hc
  have hb := hx.body.boundary_le.trans hx.body.applied_le
  exact hle.trans (max_le hgate hb)

theorem Created.single {T : run.Trace} {K : ℕ} {e : LogEntry V}
    {m : Membership} {P : List (LogEntry V)} (h : T.Created K e m P) :
    m.keySet.Nonempty ∧ ((rules D).cfg P \ m.keySet).card +
      (m.keySet \ (rules D).cfg P).card = 1 := by
  have hx := (T.inv K).nodes (run.effect K).node
  obtain ⟨l, now, hl, hv⟩ := h.admitted
  have hrole := hx.role
  rw [hl] at hrole
  have hmem : ((run.state K).nodes (run.effect K).node).members.keySet =
      (rules D).cfg P := by
    rw [← h.log]
    exact hrole.members
  rw [← hmem]
  exact validateConfigChange_single hv

end Run.Trace

/-! ## The chain -/

/-- The configuration in effect in front of position `j` of the retained
log: the last one of the log up to there, else the snapshot's, else the one
the cluster was started with. -/
def Storage.configBefore {P : Type} (S : Storage V P) (D : Deployment)
    (j : ℕ) : Finset NodeId :=
  match newestConfig (S.log.take j) with
  | some found => found.1.keySet
  | none => (S.snapshot.bind Snapshot.membership).elim D.bootstrap
      BTreeMap.keySet

theorem Represents.configBefore {S : Storage V M.Payload}
    (h : Represents M S F) (D : Deployment) (j : ℕ) :
    S.configBefore D j = (rules D).cfg (F.take (S.snapshotIndex + j)) := by
  have hfst := newestConfig_fst (S.log.take j)
  rw [cfg_eq_lastConfig, lastConfig_split S.snapshotIndex, List.take_take,
    Nat.min_eq_left (Nat.le_add_right _ _), ← h.snapshot_membership,
    List.drop_take, Nat.add_sub_cancel_left, ← h.log, ← hfst,
    Storage.configBefore]
  cases newestConfig (S.log.take j) with
  | some found => rfl
  | none => cases S.snapshot.bind Snapshot.membership <;> rfl

/-- The entry `e` is appended by its leader at step `K`: until then it was in
no log, in no message and under no snapshot. -/
structure Run.FirstAppends (run : Run D M) (K : ℕ) (e : LogEntry V) :
    Prop where
  leader : ((run.state K).nodes (run.effect K).node).isLeader = true
  term : ((run.state K).nodes (run.effect K).node).currentTerm = e.term
  index : ((run.state K).nodes (run.effect K).node).storage.lastIndex + 1 =
    e.index
  reply : Output.proposeReply (.ok (e.term, e.index)) ∈
    (run.effect K).outputs
  absent : ∀ i, i ≤ K → ¬ (run.state i).Holds e ∧ ∀ n, ¬ run.Keeps i n e

theorem Run.Trace.Created.firstAppends {T : run.Trace} {K : ℕ}
    {e : LogEntry V} {m : Membership} {P : List (LogEntry V)}
    (h : T.Created K e m P) (hi : e.index = P.length + 1) :
    run.FirstAppends K e where
  leader := h.isLeader
  term := h.term
  index := by
    rw [((T.inv K).nodes _).body.repr.lastIndex, h.log, hi]
  reply := hi ▸ h.reply
  absent i hiK := by
    refine ⟨fun hh => ?_, fun n hk => ?_⟩
    · obtain ⟨F, hv, -, he⟩ := T.holds_recorded hh
      exact h.absent hiK hv (by omega) he
    · exact h.absent hiK ((T.inv i).nodes n).ok.valid (by omega)
        (T.getElem?_of_keeps hk).2

/-- Of two configurations in one log, the later was appended by its leader
when the earlier was committed. -/
theorem Run.Trace.created_behind (T : run.Trace) {k : ℕ} {n : NodeId}
    {e e' : LogEntry V} (hpos : 0 < e.index)
    (he : (T.log k n)[e.index - 1]? = some e)
    (he' : (T.log k n)[e'.index - 1]? = some e')
    (hc : e.configChange? ≠ none) (hc' : e'.configChange? ≠ none)
    (hlt : e.index < e'.index) :
    ∃ K, K < k ∧ run.FirstAppends K e' ∧
      e.index ≤ ((run.state K).nodes (run.effect K).node).commitIndex ∧
      run.Keeps K (run.effect K).node e ∧
      ∃ i, i < K ∧ Output.applied e ∈ (run.effect i).outputs := by
  obtain ⟨m', hm'⟩ := Option.ne_none_iff_exists'.mp hc'
  have hv : (T.hist k).Valid (rules D) (T.log k n) :=
    ((T.inv k).nodes n).ok.valid
  obtain ⟨K, hK, hcr⟩ := T.created hv he' hm'
  have hlen : ((T.log k n).take (e'.index - 1)).length = e'.index - 1 := by
    have := lt_length_of_getElem? he'
    rw [List.length_take]
    omega
  have hin : ((T.log k n).take (e'.index - 1))[e.index - 1]? = some e := by
    rw [getElem?_take_of_lt (by omega), he]
  have hle := hcr.committed (List.mem_of_getElem? hin) hc
  have hheld : (T.log K (run.effect K).node)[e.index - 1]? = some e := by
    rw [hcr.log, hin]
  refine ⟨K, hK, hcr.firstAppends (by omega), hle, T.keeps hpos hheld, ?_⟩
  refine T.committed_applied ⟨_, _, T.applied_committed K _ hle,
    List.mem_of_getElem? (i := e.index - 1) ?_⟩
  rw [getElem?_take_of_lt (by omega), hheld]

/-- The configurations of a node's history, in every reachable state: each
differs from the one before by one member and is not empty, so that their
majorities meet; and when the later of two was appended by its leader, the
earlier one was committed already. -/
theorem configuration_chain (run : Run D M) (k : ℕ) (n : NodeId) :
    (∀ j e m, ((run.state k).nodes n).storage.log[j]? = some e →
      e.configChange? = some m →
      m.keySet.Nonempty ∧
      (((run.state k).nodes n).storage.configBefore D j \ m.keySet).card +
        (m.keySet \
          ((run.state k).nodes n).storage.configBefore D j).card = 1 ∧
      ∀ Q Q', IsMajority Q
          (((run.state k).nodes n).storage.configBefore D j) →
        IsMajority Q' m.keySet → ∃ v, v ∈ Q ∧ v ∈ Q') ∧
    ∀ e e', run.Keeps k n e → run.Keeps k n e' →
      e.configChange? ≠ none → e'.configChange? ≠ none →
      e.index < e'.index →
      ∃ K, K < k ∧ run.FirstAppends K e' ∧
        e.index ≤ ((run.state K).nodes (run.effect K).node).commitIndex ∧
        run.Keeps K (run.effect K).node e ∧
        ∃ i, i < K ∧ Output.applied e ∈ (run.effect i).outputs := by
  obtain ⟨T⟩ := run.exists_trace
  have hx := (T.inv k).nodes n
  refine ⟨fun j e m he hm => ?_, fun e e' hk hk' hc hc' hlt => ?_⟩
  · rw [hx.body.repr.log, List.getElem?_drop] at he
    obtain ⟨K, -, hcr⟩ := T.created hx.ok.valid he hm
    rw [hx.body.repr.configBefore]
    obtain ⟨hne, hone⟩ := hcr.single
    exact ⟨hne, hone, fun Q Q' => IsMajority.exists_common hone.le⟩
  · obtain ⟨hpos, he⟩ := T.getElem?_of_keeps hk
    exact T.created_behind hpos he (T.getElem?_of_keeps hk').2 hc hc' hlt

end RustKV
