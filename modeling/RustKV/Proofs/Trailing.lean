import RustKV.Proofs.Waiters

/-!
# The trailing window

`maybe_compact` works with one slot: a state is captured when the applied
prefix has outgrown the threshold and the slot is free, and the log is
compacted to it once it has fallen the trailing window behind. While a capture
waits for its turn, no other is made.

So the boundary moves in steps of the threshold only while the window is
shorter than that. If it is not, the slot is free again only after a window
has passed, the next capture is due at once, and the boundary moves in steps
of the window and one (`stride`). Between two compactions the lag then grows
to twice the window, which is more than the window and the threshold that the
design note allows.

For a node that applies one entry at a time all of this is determined by how
much it has applied (`Node.Windowed`).
-/

namespace RustKV

open Rust Consensus

variable {V : Type} {M : StateMachine V} {D : Deployment} {run : Run D M}
  {now : Instant} {cause : Cause M} {x y z : Node M} {os : List (Output M)}
  {t r : Nat}

/-! ## The cycle of capture and compaction -/

/-- The index captured next when the boundary is at `b`. -/
def nextCapture (t r b : Nat) : Nat :=
  b + if b = 0 then t else max t (r + 1)

theorem lt_nextCapture (ht : 0 < t) (b : Nat) : b < nextCapture t r b := by
  rw [nextCapture]
  split <;> omega

@[simp] theorem nextCapture_zero : nextCapture t r 0 = t := by
  rw [nextCapture, if_pos rfl, Nat.zero_add]

theorem nextCapture_pos {b : Nat} (hb : 0 < b) :
    nextCapture t r b = b + max t (r + 1) := by
  rw [nextCapture, if_neg (by omega)]

/-- Where a node stands with threshold `t` and trailing window `r`, having
applied one entry at a time. -/
structure Node.Windowed (t r : Nat) (x : Node M) : Prop where
  /-- The first compaction is to `t`. -/
  boundary : x.storage.snapshotIndex = 0 ∨ x.storage.snapshotIndex = t ∨
    nextCapture t r t ≤ x.storage.snapshotIndex
  /-- The boundary stays the window behind. -/
  behind : 0 < x.storage.snapshotIndex →
    x.storage.snapshotIndex + r ≤ x.lastApplied
  /-- The slot is free until the next capture is due. -/
  free : x.stagedSnapshot = none →
    x.lastApplied < nextCapture t r x.storage.snapshotIndex
  /-- The turn of a capture has not come. -/
  waiting : ∀ st, x.stagedSnapshot = some st →
    st.index = nextCapture t r x.storage.snapshotIndex ∧
      st.index ≤ x.lastApplied ∧ x.lastApplied < st.index + r

namespace Node.Windowed

theorem boot (ht : 0 < t) (config : RaftConfig) (state : M.State) :
    (Node.boot config Storage.empty state : Node M).Windowed t r where
  boundary := .inl rfl
  behind h := absurd h (Nat.lt_irrefl 0)
  free _ := lt_nextCapture ht 0
  waiting _ hst := by cases hst

theorem congr (h : x.Windowed t r)
    (hb : y.storage.snapshotIndex = x.storage.snapshotIndex)
    (ha : y.lastApplied = x.lastApplied)
    (hs : y.stagedSnapshot = x.stagedSnapshot) : y.Windowed t r := by
  obtain ⟨h1, h2, h3, h4⟩ := h
  refine ⟨?_, ?_, ?_, ?_⟩
  · rwa [hb]
  · rwa [hb, ha]
  · rwa [hb, ha, hs]
  · rwa [hb, ha, hs]

theorem staging (ht : 0 < t) (hx : x.Windowed t r)
    (hb : y.storage.snapshotIndex = x.storage.snapshotIndex)
    (ha : y.lastApplied = x.lastApplied + 1)
    (hs : y.stagedSnapshot = x.stagedSnapshot) :
    (y.staging t = none →
      y.lastApplied < nextCapture t r x.storage.snapshotIndex) ∧
    ∀ st, y.staging t = some st →
      st.index = nextCapture t r x.storage.snapshotIndex ∧
        st.index ≤ y.lastApplied ∧ y.lastApplied ≤ st.index + r := by
  have hmax : max t 1 = t := max_eq_left ht
  cases hslot : x.stagedSnapshot with
  | some st =>
      -- the capture in the slot is ahead of the boundary and stays
      obtain ⟨hidx, hle, hlt⟩ := hx.waiting st hslot
      have hahead := lt_nextCapture (r := r) ht x.storage.snapshotIndex
      have hstay : y.staging t = some st := by
        rw [Node.staging, hs, hslot, Option.filter_some_pos]
        exact decide_eq_true (by omega)
      rw [hstay]
      refine ⟨fun h => (by cases h), fun st' hst' => ?_⟩
      cases hst'
      exact ⟨hidx, by omega, by omega⟩
  | none =>
      have hlt := hx.free hslot
      have hstage : y.staging t =
          if t ≤ y.lastApplied - y.storage.snapshotIndex then
            some ⟨y.lastApplied, M.snapshot y.stateMachine,
              y.membershipAt y.lastApplied⟩
          else none := by
        rw [Node.staging, hs, hslot, Option.filter_none, hmax]
      rw [hstage]
      split
      · next hlag =>
          refine ⟨fun h => (by cases h), fun st' hst' => ?_⟩
          cases hst'
          have hnext : y.lastApplied =
              nextCapture t r x.storage.snapshotIndex := by
            have hbehind := hx.behind
            rcases Nat.eq_zero_or_pos x.storage.snapshotIndex with h0 | h0
            · rw [h0, nextCapture_zero] at hlt ⊢
              omega
            · rw [nextCapture_pos h0] at hlt ⊢
              omega
          exact ⟨hnext, le_rfl, Nat.le_add_right _ _⟩
      · next hlag =>
          refine ⟨fun _ => ?_, fun st' hst' => (by cases hst')⟩
          rw [nextCapture]
          split <;> omega

/-- A window after the next capture is due the boundary has moved. -/
theorem applied_lt (h : x.Windowed t r) : x.lastApplied <
    nextCapture t r x.storage.snapshotIndex + r := by
  cases hslot : x.stagedSnapshot with
  | none =>
      have := h.free hslot
      omega
  | some st =>
      obtain ⟨hidx, -, hlt⟩ := h.waiting st hslot
      omega

theorem compacts (ht : 0 < t) (hx : x.Windowed t r)
    (hb : y.storage.snapshotIndex = x.storage.snapshotIndex)
    (ha : y.lastApplied = x.lastApplied + 1)
    (hs : y.stagedSnapshot = x.stagedSnapshot)
    (hthr : y.config.snapshotThreshold = some t)
    (htrail : y.config.snapshotTrailing = r) (h : Compacts y z) :
    z.Windowed t r := by
  obtain ⟨hnone, hsome⟩ := hx.staging ht hb ha hs
  have hahead := lt_nextCapture (r := r) ht x.storage.snapshotIndex
  have hbehind := hx.behind
  cases h with
  | off hoff =>
      rw [hthr] at hoff
      cases hoff
  | @wait threshold hthr' hw =>
      cases hthr.symm.trans hthr'
      rw [htrail] at hw
      refine ⟨?_, fun hpos => ?_, fun hslot => ?_, fun st hst => ?_⟩
      · show y.storage.snapshotIndex = 0 ∨ _
        rw [hb]
        exact hx.boundary
      · show y.storage.snapshotIndex + r ≤ y.lastApplied
        have := hbehind (hb ▸ hpos)
        omega
      · show y.lastApplied < nextCapture t r y.storage.snapshotIndex
        rw [hb]
        exact hnone hslot
      · obtain ⟨hidx, hle, -⟩ := hsome st hst
        have := hw st hst
        show _ = nextCapture t r y.storage.snapshotIndex ∧
          _ ≤ y.lastApplied ∧ y.lastApplied < _
        rw [hb]
        exact ⟨hidx, hle, by omega⟩
  | @done threshold st S hthr' hst hw hS =>
      cases hthr.symm.trans hthr'
      rw [htrail] at hw
      obtain ⟨hidx, hle, hge⟩ := hsome st hst
      have hS' : S.snapshotIndex = st.index :=
        (Storage.lastIndex_compactTo hS).2
      have hpos : 0 < S.snapshotIndex := by omega
      refine ⟨?_, fun _ => ?_, fun _ => ?_, fun _ h => (by cases h)⟩
      · show S.snapshotIndex = 0 ∨ _
        right
        rw [hS', hidx]
        rcases hx.boundary with h0 | h0 | h0
        · left
          rw [h0, nextCapture_zero]
        · right
          rw [h0]
        · right
          omega
      · show S.snapshotIndex + r ≤ y.lastApplied
        omega
      · show y.lastApplied < nextCapture t r S.snapshotIndex
        rw [nextCapture_pos hpos]
        omega

end Node.Windowed

/-! ## Along a run -/

/-- Short of an installed snapshot, a change that applies one entry at most
keeps the cycle. -/
theorem Change.windowed (h : Change cause x z os) (ht : 0 < t)
    (ho : x.Orderly) (hthr : x.config.snapshotThreshold = some t)
    (htrail : x.config.snapshotTrailing = r)
    (hc : ∀ a, cause ≠ .inbound (.installSnapshot a))
    (hone : z.lastApplied ≤ x.lastApplied + 1) (hx : x.Windowed t r) :
    z.Windowed t r := by
  cases h with
  | nothing => exact hx
  | ship => exact hx
  | append es hS =>
      obtain ⟨-, rfl⟩ := Storage.append_eq_ok.mp hS
      exact hx.congr rfl rfl rfl
  | propose e hS =>
      obtain ⟨-, rfl⟩ := Storage.append_eq_ok.mp hS
      exact hx.congr rfl rfl rfl
  | cut i _ _ hS =>
      obtain ⟨-, rfl⟩ := Storage.truncateFrom_eq_ok.mp hS
      exact hx.congr rfl rfl rfl
  | install snap hinst =>
      obtain ⟨a, ha, -⟩ := hinst
      exact absurd ha (hc a)
  | @commit y z k es hk hlen hes hy hz =>
      have happ := ho.applied
      have hz' : z.lastApplied = x.lastApplied + es.length :=
        hz.lastApplied.trans hy.lastApplied
      refine hx.compacts ht (Storage.snapshotIndex_congr hy.snapshot) ?_
        hy.stagedSnapshot (by rw [hy.config]; exact hthr)
        (by rw [hy.config]; exact htrail) hz
      rw [hy.lastApplied]
      show x.lastApplied + es.length = _
      omega

theorem Deed.lastApplied_le (h : Deed cause x y os) (hx : x.Orderly) :
    x.lastApplied ≤ y.lastApplied := by
  rw [hx.applied, (h.orderly hx).applied]
  exact h.commitIndex_le

theorem Acts.windowed (h : Acts now cause x y os) (ht : 0 < t)
    (ho : x.Orderly) (hthr : x.config.snapshotThreshold = some t)
    (htrail : x.config.snapshotTrailing = r)
    (hc : ∀ a, cause ≠ .inbound (.installSnapshot a))
    (hone : y.lastApplied ≤ x.lastApplied + 1) (hx : x.Windowed t r) :
    y.Windowed t r := by
  induction h with
  | refl => exact hx
  | @step y z os os' h hm hd ih =>
      have hy := h.orderly ho
      have hle := hd.lastApplied_le hy
      have hge : x.lastApplied ≤ y.lastApplied := by
        rw [ho.applied, hy.applied]
        exact h.commitIndex_le
      have hwin := ih (by omega)
      obtain ⟨z', hz, hun⟩ := hd
      have hcfg := h.moves.config
      have hz' := hz.windowed ht hy (by rw [hcfg]; exact hthr)
        (by rw [hcfg]; exact htrail) hc
        (by rw [← hun.lastApplied]; omega) hwin
      exact hz'.congr (Storage.snapshotIndex_congr hun.snapshot)
        hun.lastApplied hun.stagedSnapshot

/-- Node `n` lives on, applies one entry at a time and is sent no snapshot. -/
structure Run.OneByOne (run : Run D M) (n : NodeId) : Prop where
  applies : ∀ i, ((run.state (i + 1)).nodes n).lastApplied ≤
    ((run.state i).nodes n).lastApplied + 1
  alive : ∀ i, run.action i ≠ .restart n
  unsent : ∀ i k now, run.action i = .deliver k now → ∀ rpc a,
    (run.state i).rpcs[k]? = some rpc →
    rpc.request = .installSnapshot a → rpc.dst ≠ n

theorem Run.OneByOne.windowed {n : NodeId} (h : run.OneByOne n)
    (ht : 0 < t) (hthr : (D.config n).snapshotThreshold = some t)
    (htrail : (D.config n).snapshotTrailing = r) (i : ℕ) :
    ((run.state i).nodes n).Windowed t r := by
  induction i with
  | zero =>
      rw [run.init]
      exact .boot ht _ _
  | succ i ih =>
      cases run.acted i with
      | idle hc =>
          rw [hc]
          exact ih
      | turn now cause hturn ha =>
          by_cases hn : n = (run.effect i).node
          · rw [← hn] at ha
            refine ha.windowed ht (run.orderly i n)
              (by rw [run.config_eq]; exact hthr)
              (by rw [run.config_eq]; exact htrail) (fun a hc => ?_)
              (h.applies i) ih
            subst hc
            obtain ⟨k, rpc, hact, hrpc, hreq, hdst⟩ :=
              hturn.causes.of_inbound rfl
            exact h.unsent i k now hact rpc a hrpc hreq
              (hdst.trans hn.symm)
          · rw [hturn.others n hn]
            exact ih
      | restart hre =>
          by_cases hn : n = (run.effect i).node
          · exact absurd (hn ▸ hre.action) (h.alive i)
          · rw [hre.others n hn]
            exact ih

/-- A node that applies one entry at a time passes through every number. -/
theorem Run.OneByOne.passes {n : NodeId} (h : run.OneByOne n) {k i : ℕ}
    (hk : k ≤ ((run.state i).nodes n).lastApplied) :
    ∃ j, ((run.state j).nodes n).lastApplied = k := by
  induction i with
  | zero =>
      refine ⟨0, ?_⟩
      rw [run.init] at hk ⊢
      exact (Nat.le_zero.mp hk).symm
  | succ i ih =>
      rcases Nat.lt_or_ge ((run.state i).nodes n).lastApplied k with hlt | hge
      · have := h.applies i
        exact ⟨i + 1, by omega⟩
      · exact ih hge

/-- The lag of the boundary behind what is applied stays within the window and
the threshold, from the first compaction on, exactly if the window is shorter
than the threshold, or if the run ends before it shows: the second compaction
is late as soon as twice the threshold and the window are applied. -/
theorem trailing_window_iff (run : Run D M) {n : NodeId} {t r : ℕ}
    (ht : 1 ≤ t) (hthr : (D.config n).snapshotThreshold = some t)
    (htrail : (D.config n).snapshotTrailing = r) (hone : run.OneByOne n) :
    (∀ i, 0 < ((run.state i).nodes n).storage.snapshotIndex →
      r ≤ ((run.state i).nodes n).lastApplied -
          ((run.state i).nodes n).storage.snapshotIndex ∧
        ((run.state i).nodes n).lastApplied -
          ((run.state i).nodes n).storage.snapshotIndex < r + t) ↔
      r < t ∨ ∀ i, ((run.state i).nodes n).lastApplied < 2 * t + r := by
  have hwin := hone.windowed ht hthr htrail
  constructor
  · intro hbound
    by_contra hnot
    obtain ⟨hrt, hfar⟩ := not_or.mp hnot
    push Not at hfar
    obtain ⟨i, hi⟩ := hfar
    obtain ⟨j, hj⟩ := hone.passes hi
    -- by then the boundary is at `t`, and the capture after it still waits
    have hb : ((run.state j).nodes n).storage.snapshotIndex = t := by
      have hlt := (hwin j).applied_lt
      have hbehind := (hwin j).behind
      rcases (hwin j).boundary with hb | hb | hb
      · rw [hb, nextCapture_zero] at hlt
        omega
      · exact hb
      · rw [nextCapture_pos ht] at hb
        omega
    have := (hbound j (by omega)).2
    omega
  · intro hcond i hpos
    have hlow := (hwin i).behind hpos
    refine ⟨by omega, ?_⟩
    rcases hcond with hrt | hshort
    · have hlt := (hwin i).applied_lt
      rw [nextCapture_pos hpos] at hlt
      omega
    · have hlt := hshort i
      have hahead := lt_nextCapture (r := r) ht t
      rcases (hwin i).boundary with hb | hb | hb <;> omega

/-! ## A window no shorter than the threshold -/

def Deployment.withTrailing (D : Deployment) (r : Nat) : Deployment where
  config n := { D.config n with snapshotTrailing := r }
  bootstrap := D.bootstrap
  id_eq := D.id_eq
  gated := D.gated
  bootstrap_eq := D.bootstrap_eq

/-- The node acts for itself: nothing is delivered to it, and it does not
die. -/
def Action.undisturbed : Action V → Bool
  | .deliver _ _ => false
  | .restart _ => false
  | _ => true

theorem Run.OneByOne.of_actions {acts : List (Action V)} {n : NodeId}
    (h : plays Cluster.step (Cluster.init D : Cluster M) acts = true)
    (hacts : ∀ a ∈ acts, a.undisturbed = true)
    (hone : ∀ i < acts.length,
      (((Run.ofActions D M acts h).state (i + 1)).nodes n).lastApplied ≤
        (((Run.ofActions D M acts h).state i).nodes n).lastApplied + 1) :
    (Run.ofActions D M acts h).OneByOne n := by
  have hall : ∀ i, ((Run.ofActions D M acts h).action i).undisturbed =
      true := by
    intro i
    show (acts.getD i .idle).undisturbed = true
    rw [List.getD_eq_getElem?_getD]
    cases hi : acts[i]? with
    | none => rfl
    | some a => exact hacts a (List.mem_of_getElem? hi)
  refine ⟨fun i => ?_, fun i hi => ?_, fun i k now hi => ?_⟩
  · rcases Nat.lt_or_ge i acts.length with hlt | hge
    · exact hone i hlt
    · -- the schedule is over
      have hstep := (Run.ofActions D M acts h).step i
      have hidle : (Run.ofActions D M acts h).action i = .idle := by
        show acts.getD i .idle = .idle
        rw [List.getD_eq_getElem?_getD, List.getElem?_eq_none hge]
        rfl
      rw [hidle] at hstep
      have hsame : (Run.ofActions D M acts h).state i =
          (Run.ofActions D M acts h).state (i + 1) :=
        congrArg Prod.fst (Except.ok.inj (Option.some.inj hstep))
      rw [← hsame]
      exact Nat.le_succ _
  · have := hall i
    rw [hi] at this
    cases this
  · have := hall i
    rw [hi] at this
    cases this

/-- A node alone, with a threshold and a window of one, applies its no-op and
two writes. -/
def trailingRun : Run ((Deployment.ofIds [1] (some 1)).withTrailing 1)
    (KvStore.machine Nat) :=
  Run.ofActions _ _ [.timeout 1 0, .propose 1 (.put "x" 1 none) 0,
    .propose 1 (.put "x" 2 none) 0] (by decide +kernel)

theorem trailingRun_oneByOne : trailingRun.OneByOne 1 :=
  .of_actions _ (by decide) (by decide +kernel)

/-- After the third entry the boundary is two behind. -/
theorem trailing_window_exceeded :
    trailingRun.OneByOne 1 ∧
      (((Deployment.ofIds [1] (some 1)).withTrailing 1).config
        1).snapshotThreshold = some 1 ∧
      (((Deployment.ofIds [1] (some 1)).withTrailing 1).config
        1).snapshotTrailing = 1 ∧
      0 < ((trailingRun.state 3).nodes 1).storage.snapshotIndex ∧
      ¬ ((trailingRun.state 3).nodes 1).lastApplied -
        ((trailingRun.state 3).nodes 1).storage.snapshotIndex < 1 + 1 :=
  ⟨trailingRun_oneByOne, rfl, rfl, by decide +kernel, by decide +kernel⟩

/-- With a threshold of three and a window of two, the no-op and six
writes. -/
def promptRun : Run ((Deployment.ofIds [1] (some 3)).withTrailing 2)
    (KvStore.machine Nat) :=
  Run.ofActions _ _ (.timeout 1 0 ::
    List.replicate 6 (.propose 1 (.put "x" 1 none) 0)) (by decide +kernel)

theorem trailing_window_prompt :
    ((promptRun.state 7).nodes 1).storage.snapshotIndex = 3 ∧
      2 ≤ ((promptRun.state 7).nodes 1).lastApplied -
        ((promptRun.state 7).nodes 1).storage.snapshotIndex ∧
      ((promptRun.state 7).nodes 1).lastApplied -
        ((promptRun.state 7).nodes 1).storage.snapshotIndex < 2 + 3 := by
  have hb : ((promptRun.state 7).nodes 1).storage.snapshotIndex = 3 := by
    decide +kernel
  have hone : promptRun.OneByOne 1 :=
    .of_actions _ (by decide) (by decide +kernel)
  have hiff := trailing_window_iff promptRun (by decide) rfl rfl hone
  exact ⟨hb, hiff.mpr (.inl (by decide)) 7 (by omega)⟩

end RustKV
