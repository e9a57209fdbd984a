import RustKV.Proofs.Cluster
import RustKV.Kv.Store

/-!
# Safety of every run

Election Safety, Log Matching, Leader Completeness and State Machine Safety,
each over arbitrary runs: any number of nodes, any loss, delay, reordering and
duplication, crashes between events, timers at any moment, snapshots on or
off, and any membership changes the gates admit.

A run is read through its trace. What the theorems say is in terms of the
nodes' own state: roles, terms, what `Storage` answers, what the state machine
holds, and what is in flight.
-/

namespace RustKV

open Rust Consensus History

variable {V : Type} {M : StateMachine V} {D : Deployment} {run : Run D M}

/-! ## No panics -/

/-- No `expect`, assertion or checked subtraction of a handler or of the
recovery fails, whatever happens next in whatever state a run reaches. -/
theorem fail_stop_unreachable (run : Run D M) (i : ℕ) (a : Action V)
    (p : Panic) : (run.state i).step a ≠ some (.error p) := by
  intro hs
  obtain ⟨T⟩ := run.exists_trace
  obtain ⟨_, _, _, _, hok, -⟩ := (T.inv i).step hs
  cases hok

/-! ## Elections -/

namespace Run.Trace

theorem term_le (T : run.Trace) {i j : ℕ} (hij : i ≤ j) (n : NodeId) :
    ((run.state i).nodes n).currentTerm ≤
      ((run.state j).nodes n).currentTerm := by
  induction j, hij using Nat.le_induction with
  | base => exact le_rfl
  | succ j hij ih =>
      obtain ⟨_, htr, -⟩ := (T.advance j).here
      by_cases hn : n = (run.effect j).node
      · subst hn
        exact ih.trans htr.term_le
      · rw [((T.advance j).others n hn).1]
        exact ih

theorem leader (T : run.Trace) {i : ℕ} {n : NodeId}
    (h : ((run.state i).nodes n).isLeader = true) :
    ∃ b, (T.hist i).led ((run.state i).nodes n).currentTerm = some (n, b) ∧
      (T.hist i).tlog ((run.state i).nodes n).currentTerm = T.log i n :=
  ((T.inv i).nodes n).ok.leader (Role.part_leader.mpr h)

theorem led_unique (T : run.Trace) {i j t : ℕ}
    {x y : NodeId × List (LogEntry V)} (hx : (T.hist i).led t = some x)
    (hy : (T.hist j).led t = some y) : x = y := by
  have hx' := (T.le (le_max_left i j)).led hx
  have hy' := (T.le (le_max_right i j)).led hy
  exact Option.some.inj (hx'.symm.trans hy')

end Run.Trace

/-- Election Safety: two nodes that ever lead in the same term are one. -/
theorem election_safety (run : Run D M) {i j : ℕ} {n m : NodeId}
    (hn : ((run.state i).nodes n).isLeader = true)
    (hm : ((run.state j).nodes m).isLeader = true)
    (ht : ((run.state i).nodes n).currentTerm =
      ((run.state j).nodes m).currentTerm) : n = m := by
  obtain ⟨T⟩ := run.exists_trace
  obtain ⟨b, hb, -⟩ := T.leader hn
  obtain ⟨b', hb', -⟩ := T.leader hm
  rw [ht] at hb
  exact congrArg Prod.fst (T.led_unique hb hb')

/-- Three nodes. Node 1 is elected by 2 and commits a write with it. Node 2 is
elected by 3, of which node 1 hears nothing; then 3 crashes. -/
def trioRun : Run (Deployment.ofIds [1, 2, 3] none) (KvStore.machine Nat) :=
  Run.ofActions _ _ [.timeout 1 0, .deliver 0 0, .reply 0 0, .deliver 2 0,
    .reply 1 0, .propose 1 (.put "x" 7 none) 0, .deliver 6 0, .reply 2 0,
    .timeout 2 0, .deliver 9 0, .reply 3 0, .deliver 11 0, .reply 4 0,
    .restart 3] (by decide +kernel)

/-- Two nodes lead at the same time, but not in one term. -/
theorem election_safety_trio :
    ((trioRun.state 13).nodes 1).isLeader = true ∧
      ((trioRun.state 13).nodes 1).currentTerm = 1 ∧
      ((trioRun.state 13).nodes 2).isLeader = true ∧
      ((trioRun.state 14).nodes 2).isLeader = true ∧
      ((trioRun.state 13).nodes 2).currentTerm =
        ((trioRun.state 14).nodes 2).currentTerm ∧ (2 : NodeId) = 2 :=
  ⟨by decide +kernel, by decide +kernel, by decide +kernel,
    by decide +kernel, by decide +kernel,
    election_safety trioRun (i := 13) (j := 14) (by decide +kernel)
      (by decide +kernel) (by decide +kernel)⟩

/-! ## Log Matching -/

/-- Where an entry can be: in a node's retained log or in an AppendEntries in
flight. -/
def Cluster.Holds (c : Cluster M) (e : LogEntry V) : Prop :=
  (∃ n, e ∈ (c.nodes n).storage.log) ∨
    ∃ r ∈ c.rpcs, ∃ a, r.request = .appendEntries a ∧ e ∈ a.entries

/-- Entries that follow `prev` and a predecessor of term `prevTerm`, under a
node or a leader of term `term`: indexes contiguous, terms non-decreasing and
never above `term`. -/
structure WellShaped (prev prevTerm term : Nat) (es : List (LogEntry V)) :
    Prop where
  index : ∀ j e, es[j]? = some e → e.index = prev + 1 + j
  mono : (prevTerm :: es.map LogEntry.term).Pairwise (· ≤ ·)
  le_term : ∀ t ∈ prevTerm :: es.map LogEntry.term, t ≤ term

variable {H : Hist V} {F : List (LogEntry V)}

theorem pairwise_term (hs : Sound D H) (hv : H.Valid (rules D) F) :
    (F.map LogEntry.term).Pairwise (· ≤ ·) := by
  rw [List.pairwise_map, List.pairwise_iff_getElem]
  intro i j hi hj hij
  exact hv.term_mono hs.wf hij.le (List.getElem?_eq_getElem hi)
    (List.getElem?_eq_getElem hj)

theorem wellShaped_drop (hs : Sound D H) (hv : H.Valid (rules D) F)
    (hi : Indexed F) {term p t : Nat} (hle : ∀ e ∈ F, e.term ≤ term)
    (ht : termAt F p = some t) : WellShaped p t term (F.drop p) := by
  have hpw := pairwise_term hs hv
  refine ⟨fun j e he => ?_, ?_, ?_⟩
  · rw [List.getElem?_drop] at he
    have := hi _ e he
    omega
  · rcases Nat.eq_zero_or_pos p with rfl | hpos
    · cases ht
      exact List.pairwise_cons.mpr ⟨fun _ _ => Nat.zero_le _, hpw⟩
    · obtain ⟨x, hx, rfl⟩ := termAt_eq_some ht hpos
      have hlt := lt_length_of_getElem? hx
      have hdrop : x :: F.drop p = F.drop (p - 1) := by
        rw [List.drop_eq_getElem_cons hlt, Nat.sub_add_cancel hpos]
        rw [List.getElem?_eq_getElem hlt] at hx
        rw [Option.some.inj hx]
      rw [← List.map_cons, hdrop]
      exact hpw.sublist ((List.drop_sublist _ _).map _)
  · intro u hu
    rcases List.mem_cons.mp hu with rfl | hu
    · rcases Nat.eq_zero_or_pos p with rfl | hpos
      · cases ht
        exact Nat.zero_le _
      · obtain ⟨x, hx, rfl⟩ := termAt_eq_some ht hpos
        exact hle x (List.mem_of_getElem? hx)
    · obtain ⟨x, hx, rfl⟩ := List.mem_map.mp hu
      exact hle x (List.mem_of_mem_drop hx)

theorem WellShaped.take {prev prevTerm term k : Nat}
    {es : List (LogEntry V)} (h : WellShaped prev prevTerm term es) :
    WellShaped prev prevTerm term (es.take k) := by
  have hsub : (prevTerm :: (es.take k).map LogEntry.term).Sublist
      (prevTerm :: es.map LogEntry.term) :=
    ((List.take_sublist k es).map LogEntry.term).cons_cons prevTerm
  refine ⟨fun j e he => h.index j e ?_, h.mono.sublist hsub,
    fun t ht => h.le_term t (hsub.subset ht)⟩
  have htake : es.take k <+: es := List.take_prefix k es
  exact getElem?_of_isPrefix htake he

theorem Sound.tlog_le (hs : Sound D H) {t : Nat} :
    ∀ e ∈ H.tlog t, e.term ≤ t := by
  intro e he
  obtain ⟨i, hi⟩ := List.getElem?_of_mem he
  exact hs.wf.tlog_term_le hi

theorem AppendOk.wellShaped {src : NodeId} {a : AppendEntriesArgs V}
    (h : AppendOk H src a) (hs : Sound D H) :
    WellShaped a.prevLogIndex a.prevLogTerm a.term a.entries := by
  have := (wellShaped_drop hs (hs.wf.tlog_valid _) (hs.indexed _)
    hs.tlog_le h.prev).take (k := a.entries.length)
  rwa [← h.entries] at this

namespace Run.Trace

/-- Every entry anywhere sits at its index in a recorded log. -/
theorem holds_recorded (T : run.Trace) {i : ℕ} {e : LogEntry V}
    (h : (run.state i).Holds e) :
    ∃ F, (T.hist i).Valid (rules D) F ∧ 0 < e.index ∧
      F[e.index - 1]? = some e := by
  have hs := (T.inv i).sound
  rcases h with ⟨n, hn⟩ | ⟨r, hr, a, ha, he⟩
  · have hx := (T.inv i).nodes n
    rw [hx.body.repr.log] at hn
    exact ⟨_, hx.ok.valid,
      hx.body.repr.indexed.getElem?_of_mem (List.mem_of_mem_drop hn)⟩
  · have hok := (T.inv i).rpcs r hr
    rw [ha] at hok
    rw [hok.1.entries] at he
    exact ⟨_, hs.wf.tlog_valid _, (hs.indexed _).getElem?_of_mem
      (List.mem_of_mem_drop (List.mem_of_mem_take he))⟩

/-- A term and an index name one entry, at any two moments of a run. -/
theorem holds_unique (T : run.Trace) {i j : ℕ} {e e' : LogEntry V}
    (h : (run.state i).Holds e) (h' : (run.state j).Holds e')
    (ht : e.term = e'.term) (hi : e.index = e'.index) : e = e' := by
  obtain ⟨F, hv, hpos, he⟩ := T.holds_recorded h
  obtain ⟨F', hv', -, he'⟩ := T.holds_recorded h'
  have hm := (hv.mono (T.le (le_max_left i j))).matching
    (hv'.mono (T.le (le_max_right i j))) he (hi ▸ he') ht
  have hlast : ∀ {K : List (LogEntry V)} {y : LogEntry V},
      K[e.index - 1]? = some y →
      (K.take (e.index - 1 + 1))[e.index - 1]? = some y := fun hy => by
    rw [getElem?_take_of_lt (Nat.lt_succ_self _), hy]
  have := hlast he
  rw [hm, hlast (hi ▸ he')] at this
  exact (Option.some.inj this).symm

end Run.Trace

/-- Log Matching across snapshots, in every reachable state. -/
theorem log_matching (run : Run D M) (k : ℕ) :
    (∀ n m i t,
      ((run.state k).nodes n).storage.snapshotIndex ≤ i →
      ((run.state k).nodes m).storage.snapshotIndex ≤ i →
      ((run.state k).nodes n).storage.term i = some t →
      ((run.state k).nodes m).storage.term i = some t →
      ∀ j, j ≤ i → ∀ e e',
        ((run.state k).nodes n).storage.entry j = some e →
        ((run.state k).nodes m).storage.entry j = some e' → e = e') ∧
    (∀ k' e e', (run.state k).Holds e → (run.state k').Holds e' →
      e.term = e'.term → e.index = e'.index → e = e') ∧
    (∀ n, WellShaped ((run.state k).nodes n).storage.snapshotIndex
      ((run.state k).nodes n).storage.snapshotTerm
      ((run.state k).nodes n).currentTerm
      ((run.state k).nodes n).storage.log) ∧
    (∀ r ∈ (run.state k).rpcs, ∀ a, r.request = .appendEntries a →
      WellShaped a.prevLogIndex a.prevLogTerm a.term a.entries) := by
  obtain ⟨T⟩ := run.exists_trace
  have hs := (T.inv k).sound
  refine ⟨?_, fun k' e e' h h' => T.holds_unique h h', fun n => ?_,
    fun r hr a ha => ?_⟩
  · intro n m i t hbn hbm htn htm j hj e e' he he'
    have hn := (T.inv k).nodes n
    have hm := (T.inv k).nodes m
    have hrn := hn.body.repr
    have hrm := hm.body.repr
    have htake : (T.log k n).take i = (T.log k m).take i :=
      take_eq_of_termAt hn.ok.valid hm.ok.valid
        (hrn.term_eq_some htn).2 (hrm.term_eq_some htm).2
    obtain ⟨hjn, he⟩ := hrn.entry_eq_some he
    obtain ⟨hjm, he'⟩ := hrm.entry_eq_some he'
    rw [← getElem?_take_of_lt (k := i) (by omega), htake] at he
    rw [← getElem?_take_of_lt (k := i) (by omega)] at he'
    exact Option.some.inj (he.symm.trans he')
  · have hn := (T.inv k).nodes n
    rw [hn.body.repr.log]
    exact wellShaped_drop hs hn.ok.valid hn.body.repr.indexed hn.ok.log_le
      hn.body.repr.snapshotTerm
  · have hok := (T.inv k).rpcs r hr
    rw [ha] at hok
    exact hok.1.wellShaped hs

/-! ## What is committed -/

def firstEntries (G : ℕ → LogEntry V) (k : ℕ) : List (LogEntry V) :=
  (List.range k).map G

/-- Every entry of `P` sits at its index and was applied, by one node or
another, in the first `i` steps. -/
def Run.Applied (run : Run D M) (i : ℕ) (P : List (LogEntry V)) : Prop :=
  Indexed P ∧ ∀ e ∈ P, ∃ j, j < i ∧ Output.applied e ∈ (run.effect j).outputs

namespace Run.Trace

theorem comparable (T : run.Trace) {i j t u : ℕ} {P P' : List (LogEntry V)}
    (h : (T.hist i).CommittedAt t P) (h' : (T.hist j).CommittedAt u P') :
    P <+: P' ∨ P' <+: P :=
  (T.inv (max i j)).sound.wf.committed_comparable
    (h.mono (T.le (le_max_left i j)) le_rfl)
    (h'.mono (T.le (le_max_right i j)) le_rfl)

theorem committed_agree (T : run.Trace) {i j t u k : ℕ}
    {P P' : List (LogEntry V)} {e e' : LogEntry V}
    (h : (T.hist i).CommittedAt t P) (h' : (T.hist j).CommittedAt u P')
    (he : P[k]? = some e) (he' : P'[k]? = some e') : e = e' := by
  rcases T.comparable h h' with hp | hp
  · exact Option.some.inj ((getElem?_of_isPrefix hp he).symm.trans he')
  · exact Option.some.inj (he.symm.trans (getElem?_of_isPrefix hp he'))

theorem committed_indexed (T : run.Trace) {i t : ℕ} {P : List (LogEntry V)}
    (h : (T.hist i).CommittedAt t P) : Indexed P := by
  rcases h with rfl | ⟨t₀, k, m, -, -, hp⟩
  · exact fun j e he => by cases he
  · exact ((T.inv i).sound.indexed t₀).shorten
      (hp.trans <| List.take_prefix _ _)

theorem committed_valid (T : run.Trace) {i t : ℕ} {P : List (LogEntry V)}
    (h : (T.hist i).CommittedAt t P) : (T.hist i).Valid (rules D) P := by
  rcases h with rfl | ⟨t₀, k, m, -, -, hp⟩
  · exact Valid.nil
  · exact ((T.inv i).sound.wf.tlog_valid t₀).shorten
      (hp.trans <| List.take_prefix _ _)

/-- What is committed has been applied: whoever commits an entry applies it
in the same step. -/
theorem committed_applied (T : run.Trace) {i : ℕ} {e : LogEntry V}
    (h : Committed (T.hist i) e) :
    ∃ j, j < i ∧ Output.applied e ∈ (run.effect j).outputs := by
  induction i with
  | zero =>
      rw [T.start] at h
      obtain ⟨t, P, rfl | ⟨_, _, _, _, hc, _⟩, he⟩ := h
      · cases he
      · exact hc.elim
  | succ i ih =>
      obtain ⟨_, htr, -⟩ := (T.advance i).here
      rcases htr.fresh e h with h | h
      · obtain ⟨j, hj, ho⟩ := ih h
        exact ⟨j, by omega, ho⟩
      · exact ⟨i, Nat.lt_succ_self i, h⟩

theorem run_applied (T : run.Trace) {i t : ℕ} {P : List (LogEntry V)}
    (h : (T.hist i).CommittedAt t P) : run.Applied i P :=
  ⟨T.committed_indexed h, fun _ he => T.committed_applied ⟨t, P, h, he⟩⟩

theorem applied_committed (T : run.Trace) (i : ℕ) (n : NodeId) {k : ℕ}
    (hk : k ≤ ((run.state i).nodes n).commitIndex) :
    (T.hist i).CommittedAt ((run.state i).nodes n).currentTerm
      ((T.log i n).take k) :=
  ((T.inv i).nodes n).committed.shorten (List.take_prefix_take_left hk)

/-- The entry that is committed at position `k` at some time, if one ever
is. -/
noncomputable def entry (T : run.Trace) (k : ℕ) : LogEntry V :=
  open Classical in
  if h : ∃ e i t P, (T.hist i).CommittedAt t P ∧ P[k]? = some e then
    h.choose
  else ⟨0, 0, .noop⟩

/-- All committed parts are initial parts of one sequence. -/
theorem committed_eq (T : run.Trace) {i t : ℕ} {P : List (LogEntry V)}
    (h : (T.hist i).CommittedAt t P) :
    P = firstEntries T.entry P.length := by
  refine List.ext_getElem? fun k => ?_
  rcases Nat.lt_or_ge k P.length with hk | hk
  · have he := List.getElem?_eq_getElem hk
    have hex : ∃ e i t P, (T.hist i).CommittedAt t P ∧ P[k]? = some e :=
      ⟨_, i, t, P, h, he⟩
    obtain ⟨j, u, P', h', he'⟩ := hex.choose_spec
    rw [firstEntries, List.getElem?_map, List.getElem?_range hk, he,
      Option.map_some, entry, dif_pos hex]
    exact congrArg some (T.committed_agree h h' he he')
  · rw [List.getElem?_eq_none hk, List.getElem?_eq_none]
    rw [firstEntries, List.length_map, List.length_range]
    exact hk

theorem take_eq (T : run.Trace) (i : ℕ) (n : NodeId) {k : ℕ}
    (hk : k ≤ ((run.state i).nodes n).lastApplied) :
    (T.log i n).take k = firstEntries T.entry k := by
  have hb := ((T.inv i).nodes n).body
  have h1 := hb.applied_le
  have h2 := hb.commit_le
  have heq := T.committed_eq (T.applied_committed i n (by omega : k ≤ _))
  rwa [List.length_take, Nat.min_eq_left (by omega)] at heq

/-- While a process lives, what it has applied does not shrink. -/
theorem applied_le (T : run.Trace) {i j : ℕ} (hij : i ≤ j) {n : NodeId}
    (he : (run.state j).epochs n = (run.state i).epochs n) :
    ((run.state i).nodes n).lastApplied ≤
      ((run.state j).nodes n).lastApplied := by
  have hmono : ∀ {a b : ℕ}, a ≤ b →
      (run.state a).epochs n ≤ (run.state b).epochs n := by
    intro a b hab
    induction hab with
    | refl => exact le_rfl
    | step _ ih => exact ih.trans ((T.advance _).epochs n)
  induction j, hij using Nat.le_induction with
  | base => exact le_rfl
  | succ j hij ih =>
      have h1 := hmono hij
      have h2 := (T.advance j).epochs n
      exact (ih (by omega)).trans ((T.advance j).applied_le n (by omega))

end Run.Trace

/-- State Machine Safety with snapshots: one sequence of entries explains the
store of every node at every moment, and every snapshot there is. -/
theorem state_machine_safety (run : Run D (KvStore.machine V)) :
    ∃ G : ℕ → LogEntry V,
      (∀ i n, ((run.state i).nodes n).stateMachine =
        (firstEntries G ((run.state i).nodes n).lastApplied).foldl
          KvStore.apply KvStore.new) ∧
      (∀ i n st, ((run.state i).nodes n).stagedSnapshot = some st →
        st.state = ((firstEntries G st.index).foldl
          KvStore.apply KvStore.new).toSnapshot) ∧
      (∀ i n snap, ((run.state i).nodes n).storage.snapshot = some snap →
        snap.state = ((firstEntries G snap.lastIncludedIndex).foldl
          KvStore.apply KvStore.new).toSnapshot) ∧
      (∀ i, ∀ r ∈ (run.state i).rpcs, ∀ a,
        r.request = .installSnapshot a →
        a.snapshot.state =
          ((firstEntries G a.snapshot.lastIncludedIndex).foldl
            KvStore.apply KvStore.new).toSnapshot) ∧
      ∀ i j n, i ≤ j →
        (run.state j).epochs n = (run.state i).epochs n →
        ((run.state i).nodes n).lastApplied ≤
          ((run.state j).nodes n).lastApplied := by
  obtain ⟨T⟩ := run.exists_trace
  refine ⟨T.entry, fun i n => ?_, fun i n st hst => ?_, fun i n snap hs => ?_,
    fun i r hr a ha => ?_, fun i j n hij he => T.applied_le hij he⟩
  · rw [((T.inv i).nodes n).body.state, T.take_eq i n le_rfl]
    rfl
  · obtain ⟨hcap, hle⟩ := ((T.inv i).nodes n).body.staged st hst
    rw [hcap.state, T.take_eq i n hle]
    rfl
  · have hb := ((T.inv i).nodes n).body
    have his := hb.repr.snapshot snap hs
    have hidx := Storage.snapshotIndex_of_some hs
    rw [his.state, T.take_eq i n hb.boundary_le, hidx]
    rfl
  · have hok := (T.inv i).rpcs r hr
    rw [ha] at hok
    obtain ⟨⟨P, hP⟩, -⟩ := hok
    rw [hP.snapshot.state, hP.snapshot.index]
    conv_lhs => rw [T.committed_eq hP.committed]
    rfl

/-! ## Leader Completeness -/

/-- Node `n` has the entry `e` in its place after `i` steps: retained, or
below the boundary of a snapshot taken of applied entries that has it there. -/
def Run.Keeps (run : Run D M) (i : ℕ) (n : NodeId) (e : LogEntry V) : Prop :=
  ((run.state i).nodes n).storage.entry e.index = some e ∨
    ∃ snap P, ((run.state i).nodes n).storage.snapshot = some snap ∧
      e.index ≤ snap.lastIncludedIndex ∧ IsSnapshot M snap P ∧
      run.Applied i P ∧ P[e.index - 1]? = some e

namespace Run.Trace

theorem keeps (T : run.Trace) {i : ℕ} {n : NodeId} {e : LogEntry V}
    (hpos : 0 < e.index) (he : (T.log i n)[e.index - 1]? = some e) :
    run.Keeps i n e := by
  have hb := ((T.inv i).nodes n).body
  rcases Nat.lt_or_ge ((run.state i).nodes n).storage.snapshotIndex e.index
    with hlt | hge
  · exact .inl ((hb.repr.entry hlt).trans he)
  · right
    cases hs : ((run.state i).nodes n).storage.snapshot with
    | none =>
        rw [Storage.snapshotIndex, hs] at hge
        exact absurd hge (by simp only [Option.elim_none]; omega)
    | some snap =>
        have his := hb.repr.snapshot snap hs
        have hidx := Storage.snapshotIndex_of_some hs
        refine ⟨snap, _, rfl, hidx ▸ hge, his, T.run_applied
          (T.applied_committed i n (hb.boundary_le.trans hb.applied_le)), ?_⟩
        rw [getElem?_take_of_lt (by omega), he]

theorem kept (T : run.Trace) {i j : ℕ} (hij : i ≤ j) {n : NodeId}
    {P : List (LogEntry V)} (hp : P <+: T.log i n)
    (hc : (T.hist i).CommittedAt ((run.state i).nodes n).currentTerm P) :
    P <+: T.log j n ∧
      (T.hist j).CommittedAt ((run.state j).nodes n).currentTerm P := by
  induction j, hij using Nat.le_induction with
  | base => exact ⟨hp, hc⟩
  | succ j hij ih =>
      obtain ⟨hp, hc⟩ := ih
      obtain ⟨_, htr, -⟩ := (T.advance j).here
      by_cases hn : n = (run.effect j).node
      · subst hn
        exact ⟨htr.kept P hp ((T.inv j).sound.shared hc _),
          hc.mono (T.le_succ j) htr.term_le⟩
      · obtain ⟨hsame, hlog⟩ := (T.advance j).others n hn
        rw [hlog, hsame]
        exact ⟨hp, hc.mono (T.le_succ j) le_rfl⟩

theorem applied_output (T : run.Trace) {i : ℕ} {e : LogEntry V}
    (h : Output.applied e ∈ (run.effect i).outputs) :
    0 < e.index ∧ ∃ u P, (T.hist (i + 1)).CommittedAt u P ∧
      P[e.index - 1]? = some e := by
  obtain ⟨_, htr, -⟩ := (T.advance i).here
  exact htr.out _ h

theorem getElem?_of_keeps (T : run.Trace) {i : ℕ} {n : NodeId}
    {e : LogEntry V} (h : run.Keeps i n e) :
    0 < e.index ∧ (T.log i n)[e.index - 1]? = some e := by
  have hb := ((T.inv i).nodes n).body
  rcases h with h | ⟨snap, P, hs, hle, his, hP, he⟩
  · obtain ⟨hlt, he⟩ := hb.repr.entry_eq_some h
    exact ⟨by omega, he⟩
  · obtain ⟨j, -, ho⟩ := hP.2 e (List.mem_of_getElem? he)
    obtain ⟨hpos, u, P', hP', he'⟩ := T.applied_output ho
    have hidx := Storage.snapshotIndex_of_some hs
    have hbound := hb.boundary_le.trans hb.applied_le
    have hlt : e.index - 1 < ((T.log i n).take
        ((run.state i).nodes n).storage.snapshotIndex).length := by
      have := hb.commit_le
      rw [List.length_take]
      omega
    have hx := List.getElem?_eq_getElem hlt
    have heq := T.committed_agree (T.applied_committed i n hbound) hP' hx he'
    rw [heq, getElem?_take_of_lt (by omega)] at hx
    exact ⟨hpos, hx⟩

end Run.Trace

/-- Leader Completeness: once a leader of term `t` has moved its commit index
over `e`, every leader of a later term has `e` in its place, and so has every
node from the moment its own commit index covers it. -/
theorem leader_completeness (run : Run D M) {i t k : ℕ} {e : LogEntry V}
    (hc : Output.commitAdvanced t k ∈ (run.effect i).outputs)
    (he : Output.applied e ∈ (run.effect i).outputs) (hk : e.index ≤ k) :
    (∀ j n, ((run.state j).nodes n).isLeader = true →
      t < ((run.state j).nodes n).currentTerm → run.Keeps j n e) ∧
    ∀ j j' n, j ≤ j' → e.index ≤ ((run.state j).nodes n).commitIndex →
      run.Keeps j' n e := by
  obtain ⟨T⟩ := run.exists_trace
  obtain ⟨hpos, u, P, hP, hPe⟩ := T.applied_output he
  obtain ⟨_, htr, -⟩ := (T.advance i).here
  obtain ⟨-, m, hm⟩ := htr.out _ hc
  have hcommit : (T.hist (i + 1)).CommittedAt t
      (((T.hist (i + 1)).tlog t).take k) :=
    .inr ⟨t, k, m, le_rfl, hm, List.prefix_rfl⟩
  refine ⟨fun j n hl ht => ?_, fun j j' n hjj' hle => ?_⟩
  · -- `e` is in what the leader of `t` committed, which the later one holds
    have hte : (((T.hist (i + 1)).tlog t).take k)[e.index - 1]? = some e := by
      have hlen := ((T.inv (i + 1)).sound.wf.commit_last hm).2.2.1
      have hlt : e.index - 1 <
          (((T.hist (i + 1)).tlog t).take k).length := by
        rw [List.length_take]
        omega
      have hx := List.getElem?_eq_getElem hlt
      rw [hx]
      exact congrArg some (T.committed_agree hcommit hP hx hPe)
    obtain ⟨b, hb, htl⟩ := T.leader hl
    have hmax := T.le (le_max_left (i + 1) j)
    have hbase := (T.inv (max (i + 1) j)).sound.wf.led_holds
      ((T.le (le_max_right (i + 1) j)).led hb) t k m ht (hmax.commit hm)
    have hin : b <+: T.log j n := by
      rw [← htl]
      exact ((T.inv j).sound.wf.led_log hb).1
    refine T.keeps hpos (getElem?_of_isPrefix hin
      (getElem?_of_isPrefix (hbase) ?_))
    exact getElem?_of_isPrefix ((hmax.tlog t).take k) hte
  · have hcj := T.applied_committed j n hle
    have hb := ((T.inv j).nodes n).body
    have hlen : e.index - 1 < ((T.log j n).take e.index).length := by
      have := hb.commit_le
      rw [List.length_take]
      omega
    have hx := List.getElem?_eq_getElem hlen
    have heq := T.committed_agree hcj hP hx hPe
    rw [heq] at hx
    have htake : (T.log j n).take e.index <+: T.log j n :=
      List.take_prefix _ _
    obtain ⟨hpre, -⟩ := T.kept hjj' htake hcj
    exact T.keeps hpos (getElem?_of_isPrefix hpre hx)

theorem leader_completeness_trio :
    Output.commitAdvanced 1 2 ∈ (trioRun.effect 7).outputs ∧
      Output.applied ⟨1, 2, .put "x" 7 none⟩ ∈ (trioRun.effect 7).outputs ∧
      ((trioRun.state 13).nodes 2).isLeader = true ∧
      1 < ((trioRun.state 13).nodes 2).currentTerm ∧
      trioRun.Keeps 13 2 ⟨1, 2, .put "x" 7 none⟩ := by
  have hc : Output.commitAdvanced 1 2 ∈ (trioRun.effect 7).outputs :=
    Output.mem_of_same (by decide +kernel)
  have he : Output.applied ⟨1, 2, .put "x" 7 none⟩ ∈
      (trioRun.effect 7).outputs := Output.mem_of_same (by decide +kernel)
  have hl : ((trioRun.state 13).nodes 2).isLeader = true := by decide +kernel
  have ht : 1 < ((trioRun.state 13).nodes 2).currentTerm := by decide +kernel
  exact ⟨hc, he, hl, ht,
    (leader_completeness trioRun hc he le_rfl).1 13 2 hl ht⟩

end RustKV
