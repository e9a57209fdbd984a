import RustKV.Proofs.Moves

/-!
# What an event does to the log

`Move` is exact about the role, the term, the membership and the bookkeeping
of a node and leaves its log open. `Change` is the other half: the log and its
snapshot, the commit index, what is applied, who waits, what is staged. There
are six of them, and one is nothing.

A commit is a single change. The code raises the commit index, applies up to
it, resolves the waiters, answers reads and compacts, always in this order and
never leaving off in between, so a state in which the commit index has run
ahead of what is applied is not one to reason about.

`Acts` strings links together that are a move and a change at once, and every
handler refines such a string. Which changes can go with which moves is then
seen from the handlers once and for all: only a follower cuts or replaces its
log, only a leader ships, and what it ships is its state at that point.
-/

namespace RustKV

open Rust Prog NodeM

variable {V : Type} {M : StateMachine V}

/-! ## Changes -/

/-- Outputs that say something about the log. -/
def Output.tells : Output M → Bool
  | .send _ (.appendEntries _) _ => true
  | .send _ (.installSnapshot _) _ => true
  | .committed _ _ _ => true
  | .dropped _ _ => true
  | .applied _ => true
  | .proposeReply (.ok _) => true
  | _ => false

/-- The log and all that goes with it is as it was. -/
structure Unmoved (x y : Node M) : Prop where
  config : y.config = x.config
  snapshot : y.storage.snapshot = x.storage.snapshot
  log : y.storage.log = x.storage.log
  stateMachine : y.stateMachine = x.stateMachine
  commitIndex : y.commitIndex = x.commitIndex
  lastApplied : y.lastApplied = x.lastApplied
  pending : y.pending = x.pending
  stagedSnapshot : y.stagedSnapshot = x.stagedSnapshot

namespace Node

/-- What `resolve_pending` sends. -/
def verdicts (x : Node M) : List (Output M) :=
  x.pending.filterMap fun p =>
    (x.verdict p).map fun v => .committed p.term p.index v

/-- What `resolve_pending` leaves. -/
def settled (x : Node M) : Node M :=
  { x with pending := x.pending.filter fun p => (x.verdict p).isNone }

def advanced (x : Node M) (k : Nat) (es : List (LogEntry V)) : Node M :=
  { x with
    commitIndex := k
    lastApplied := x.lastApplied + es.length
    stateMachine := es.foldl M.apply x.stateMachine }

/-- Everything up to a boundary replaced, proposals up to it let go. -/
def replaced (x : Node M) (storage : Storage V M.Payload)
    (state : M.State) (boundary : Nat) : Node M :=
  { x with
    storage := storage
    stateMachine := state
    commitIndex := boundary
    lastApplied := boundary
    pending := x.pending.filter fun p => p.index > boundary }

/-- The capture `maybe_compact` has at hand: the one staged before unless the
boundary has overtaken it, else a new one if one is due. -/
def staging (x : Node M) (threshold : Nat) :
    Option (StagedSnapshot M.Payload) :=
  match x.stagedSnapshot.filter
      fun st => x.storage.snapshotIndex < st.index with
  | some st => some st
  | none =>
      if x.lastApplied - x.storage.snapshotIndex ≥ max threshold 1 then
        some ⟨x.lastApplied, M.snapshot x.stateMachine,
          x.membershipAt x.lastApplied⟩
      else none

/-- What `send_append` ships from this state: everything to the end of the
log, or the snapshot. -/
def Posts (x : Node M) : RpcRequest V M.Payload → Prop
  | .appendEntries a => a.leaderCommit = x.commitIndex ∧
      x.storage.lastIndex ≤ a.prevLogIndex + a.entries.length
  | .installSnapshot a => x.storage.snapshot = some a.snapshot
  | _ => False

end Node

inductive Compacts (x : Node M) : Node M → Prop
  | off (h : x.config.snapshotThreshold = none) : Compacts x x
  | wait {threshold : Nat} (h : x.config.snapshotThreshold = some threshold)
      (hw : ∀ st, x.staging threshold = some st →
        x.lastApplied - st.index < x.config.snapshotTrailing) :
      Compacts x { x with stagedSnapshot := x.staging threshold }
  | done {threshold : Nat} {st : StagedSnapshot M.Payload}
      {S : Storage V M.Payload}
      (h : x.config.snapshotThreshold = some threshold)
      (hst : x.staging threshold = some st)
      (hw : x.config.snapshotTrailing ≤ x.lastApplied - st.index)
      (hS : x.storage.compactTo st.index st.state st.membership = .ok S) :
      Compacts x { x with storage := S, stagedSnapshot := none }

/-- One change of the log, and what is said of it. -/
inductive Change (cause : Cause M) :
    Node M → Node M → List (Output M) → Prop
  | nothing {x : Node M} : Change cause x x []
  | append {x : Node M} {S : Storage V M.Payload} (es : List (LogEntry V))
      (hS : x.storage.append es = .ok S) :
      Change cause x { x with storage := S } []
  | propose {x : Node M} {S : Storage V M.Payload} (e : LogEntry V)
      (hS : x.storage.append [e] = .ok S) :
      Change cause x { x with
        storage := S
        pending := x.pending ++ [⟨e.term, e.index⟩] }
        [.proposeReply (.ok (e.term, e.index))]
  /-- Everything from `i` on conflicts with the leader and goes. -/
  | cut {x : Node M} {S : Storage V M.Payload} (i : Nat)
      (hr : x.role = .follower) (hi : x.commitIndex < i)
      (hS : x.storage.truncateFrom i = .ok S) :
      Change cause x { x with storage := S }.settled
        { x with storage := S }.verdicts
  | install {x : Node M} {S : Storage V M.Payload} {state : M.State}
      (snap : Snapshot M.Payload)
      (hc : ∃ a, cause = .inbound (.installSnapshot a) ∧ a.snapshot = snap)
      (hr : x.role = .follower)
      (hlt : x.commitIndex < snap.lastIncludedIndex)
      (hS : x.storage.installSnapshot snap = .ok S)
      (hstate : M.restore snap.state = some state) :
      Change cause x (x.replaced S state snap.lastIncludedIndex).settled
        ((x.pending.filter fun p => p.index ≤ snap.lastIncludedIndex).map
            (fun p => .dropped p.term p.index) ++
          (x.replaced S state snap.lastIncludedIndex).verdicts)
  | commit {x y z : Node M} (k : Nat) (es : List (LogEntry V))
      (hk : x.commitIndex < k) (hlen : es.length = k - x.lastApplied)
      (hes : ∀ j e, es[j]? = some e →
        x.storage.entry (x.lastApplied + 1 + j) = some e)
      (hy : Unmoved (x.advanced k es).settled y) (hz : Compacts y z) :
      Change cause x z (es.map .applied ++ (x.advanced k es).verdicts)
  | ship {x : Node M} {l : LeaderState} (peer : NodeId)
      (req : RpcRequest V M.Payload) (tag : Tag) (hl : x.role = .leader l)
      (hreq : x.Posts req) : Change cause x x [.send peer req tag]

/-- One change of the log among things that do not touch it. -/
def Deed (cause : Cause M) (x y : Node M) (os : List (Output M)) : Prop :=
  ∃ z, Change cause x z (os.filter Output.tells) ∧ Unmoved z y

/-- Some links in a row, each a move and a change. -/
inductive Acts (now : Instant) (cause : Cause M) (x : Node M) :
    Node M → List (Output M) → Prop
  | refl : Acts now cause x x []
  | step {y z : Node M} {os os' : List (Output M)}
      (h : Acts now cause x y os) (hm : Move now cause y z os')
      (hd : Deed cause y z os') : Acts now cause x z (os ++ os')

/-- A handler got from `c` to `c'` by acts. -/
def Performs (now : Instant) (cause : Cause M) (c c' : Ctx M) : Prop :=
  ∃ os, c'.out = c.out ++ os ∧ Acts now cause c.node c'.node os

variable {now : Instant} {cause : Cause M} {x y z : Node M}
  {os os' : List (Output M)} {c c₁ c' : Ctx M}

theorem Acts.moves (h : Acts now cause x y os) : Moves now cause x y os := by
  induction h with
  | refl => exact .refl
  | step _ hm _ ih => exact ih.step hm

theorem Acts.single (hm : Move now cause x y os) (hd : Deed cause x y os) :
    Acts now cause x y os := .step .refl hm hd

theorem Acts.trans (h : Acts now cause x y os)
    (h' : Acts now cause y z os') : Acts now cause x z (os ++ os') := by
  induction h' with
  | refl => rwa [List.append_nil]
  | step _ hm hd ih =>
      rw [← List.append_assoc]
      exact ih.step hm hd

theorem Acts.keeps {I : Node M → Prop}
    (hlink : ∀ (x y : Node M) os, Move now cause x y os → Deed cause x y os →
      I x → I y) (h : Acts now cause x y os) (hx : I x) : I y := by
  induction h with
  | refl => exact hx
  | step _ hm hd ih => exact hlink _ _ _ hm hd ih

theorem Acts.split {o : Output M} (h : Acts now cause x z os)
    (ho : o ∈ os) : ∃ y y' os₁ os' os₂, Acts now cause x y os₁ ∧
      Move now cause y y' os' ∧ Deed cause y y' os' ∧ o ∈ os' ∧
      Acts now cause y' z os₂ ∧ os = os₁ ++ os' ++ os₂ := by
  induction h with
  | refl => cases ho
  | step h hm hd ih =>
      rcases List.mem_append.mp ho with ho | ho
      · obtain ⟨y, y', os₁, os', os₂, h₁, hm', hd', ho', h₂, rfl⟩ := ih ho
        exact ⟨y, y', os₁, os', _, h₁, hm', hd', ho', h₂.step hm hd,
          List.append_assoc _ _ _⟩
      · exact ⟨_, _, _, _, _, h, hm, hd, ho, .refl, by simp⟩

namespace Unmoved

theorem refl (x : Node M) : Unmoved x x :=
  ⟨rfl, rfl, rfl, rfl, rfl, rfl, rfl, rfl⟩

theorem trans (h : Unmoved x y) (h' : Unmoved y z) : Unmoved x z where
  config := h'.config.trans h.config
  snapshot := h'.snapshot.trans h.snapshot
  log := h'.log.trans h.log
  stateMachine := h'.stateMachine.trans h.stateMachine
  commitIndex := h'.commitIndex.trans h.commitIndex
  lastApplied := h'.lastApplied.trans h.lastApplied
  pending := h'.pending.trans h.pending
  stagedSnapshot := h'.stagedSnapshot.trans h.stagedSnapshot

theorem follow (x : Node M) (t : Nat) (hint : Option NodeId) :
    Unmoved x (x.follow t hint) := by
  have hS : (x.follow t hint).storage.snapshot = x.storage.snapshot ∧
      (x.follow t hint).storage.log = x.storage.log := by
    simp only [Node.follow]
    split
    · exact ⟨rfl, rfl⟩
    · exact ⟨rfl, rfl⟩
  exact ⟨rfl, hS.1, hS.2, rfl, rfl, rfl, rfl, rfl⟩

end Unmoved

def Silent (os : List (Output M)) : Prop := ∀ o ∈ os, o.tells = false

theorem Silent.filter (h : Silent os) : os.filter Output.tells = [] :=
  List.filter_eq_nil_iff.mpr fun o ho => by simp [h o ho]

theorem Silent.nil : Silent ([] : List (Output M)) := List.forall_mem_nil _

namespace Deed

theorem none (h : Unmoved x y) (hos : Silent os) : Deed cause x y os :=
  ⟨x, hos.filter ▸ .nothing, h⟩

theorem exact_ (h : Change cause x y os)
    (hos : os.filter Output.tells = os) : Deed cause x y os :=
  ⟨y, hos.symm ▸ h, .refl y⟩

theorem before (h : Deed cause x y os) {pre : List (Output M)}
    (hpre : Silent pre) : Deed cause x y (pre ++ os) := by
  obtain ⟨z, hz, hy⟩ := h
  refine ⟨z, ?_, hy⟩
  rwa [List.filter_append, hpre.filter, List.nil_append]

theorem after (h : Deed cause x y os) (hz : Unmoved y z) {post : List (Output M)}
    (hpost : Silent post) : Deed cause x z (os ++ post) := by
  obtain ⟨w, hw, hy⟩ := h
  refine ⟨w, ?_, hy.trans hz⟩
  rwa [List.filter_append, hpost.filter, List.append_nil]

end Deed

namespace Performs

theorem refl (c : Ctx M) : Performs now cause c c :=
  ⟨[], (List.append_nil _).symm, .refl⟩

theorem act (hm : Move now cause c.node x os) (hd : Deed cause c.node x os) :
    Performs now cause c ⟨x, c.out ++ os⟩ :=
  ⟨os, rfl, .single hm hd⟩

theorem silent (hm : Move now cause c.node x []) (hd : Deed cause c.node x []) :
    Performs now cause c ⟨x, c.out⟩ :=
  ⟨[], (List.append_nil _).symm, .single hm hd⟩

theorem trans (h : Performs now cause c c₁)
    (h' : Performs now cause c₁ c') : Performs now cause c c' := by
  obtain ⟨os, ho, ha⟩ := h
  obtain ⟨os', ho', ha'⟩ := h'
  exact ⟨os ++ os', by rw [ho', ho, List.append_assoc], ha.trans ha'⟩

theorem then_ {α : Type} {p : NodeM M α} (h : Performs now cause c c₁)
    (hp : wlp p (fun _ c' => Performs now cause c₁ c') c₁) :
    wlp p (fun _ c' => Performs now cause c c') c₁ :=
  wlp_mono hp fun _ _ h' => h.trans h'

end Performs

/-! ## Applying, resolving, compacting -/

theorem wlp_resolvePending {Q : Unit → Ctx M → Prop} :
    wlp resolvePending Q c ↔
      Q () ⟨c.node.settled, c.out ++ c.node.verdicts⟩ := by
  simp only [resolvePending, wlp_bind, wlp_node, wlp_emitAll, wlp_update]
  exact Iff.rfl

theorem resolveReads_unmoved (c : Ctx M) :
    wlp resolveReads (fun _ c' => Unmoved c.node c'.node ∧
      ∃ os, c'.out = c.out ++ os ∧ Silent os) c := by
  have hrefl : Unmoved c.node c.node ∧
      ∃ os, c.out = c.out ++ os ∧ Silent os :=
    ⟨.refl _, [], (List.append_nil _).symm, .nil⟩
  simp only [resolveReads, wlp_bind, wlp_node]
  cases c.node.role with
  | follower => exact wlp_pure.mpr hrefl
  | preCandidate votes => exact wlp_pure.mpr hrefl
  | candidate votes => exact wlp_pure.mpr hrefl
  | leader l =>
      simp only [wlp_bind, wlp_emitAll, wlp_update]
      refine ⟨⟨rfl, rfl, rfl, rfl, rfl, rfl, rfl, rfl⟩, _, rfl, ?_⟩
      intro o ho
      obtain ⟨r, -, rfl⟩ := List.mem_map.mp ho
      rfl

theorem applyLoop_advances (k : Nat) (c : Ctx M) :
    wlp (applyLoop k) (fun _ c' => ∃ es, es.length = k ∧
      (∀ j e, es[j]? = some e →
        c.node.storage.entry (c.node.lastApplied + 1 + j) = some e) ∧
      c' = ⟨c.node.advanced c.node.commitIndex es,
        c.out ++ es.map .applied⟩) c := by
  induction k generalizing c with
  | zero =>
      refine wlp_pure.mpr ⟨[], rfl, fun j e he => by simp at he, ?_⟩
      simp [Node.advanced]
  | succ k ih =>
      simp only [applyLoop, wlp_bind, wlp_update, wlp_node, wlp_unwrap,
        wlp_emit]
      intro e he
      refine wlp_mono (ih _) fun _ c' h => ?_
      obtain ⟨es, hlen, hes, rfl⟩ := h
      refine ⟨e :: es, by rw [List.length_cons, hlen], fun j x hx => ?_, ?_⟩
      · cases j with
        | zero =>
            cases hx
            exact he
        | succ j =>
            rw [List.getElem?_cons_succ] at hx
            have := hes j x hx
            simp only at this
            rwa [show c.node.lastApplied + 1 + (j + 1) =
              c.node.lastApplied + 1 + 1 + j by omega]
      · simp only [Node.advanced, List.length_cons, List.foldl_cons,
          List.map_cons, List.append_assoc, List.singleton_append,
          Ctx.mk.injEq, Node.mk.injEq, true_and, and_true]
        omega

theorem stageSnapshot_stages (threshold : Nat) (c : Ctx M) :
    wlp (do
      discardStaged
      stageSnapshot threshold) (fun _ c' =>
        c' = ⟨{ c.node with stagedSnapshot := c.node.staging threshold },
          c.out⟩) c := by
  simp only [discardStaged, stageSnapshot, wlp_bind, wlp_update, wlp_node,
    wlp_ite, wlp_pure, wlp_checkedSub, Node.staging]
  cases c.node.stagedSnapshot.filter
      fun st => c.node.storage.snapshotIndex < st.index with
  | some st => simp
  | none =>
      refine ⟨fun _ _ => ⟨fun hlag => ?_, fun hlag => ?_⟩, fun h => ?_⟩
      · simp only [if_pos hlag, Node.membershipAt]
      · simp only [if_neg hlag]
      · simp at h

theorem maybeCompact_compacts (c : Ctx M) :
    wlp maybeCompact (fun _ c' => Compacts c.node c'.node ∧
      c'.out = c.out) c := by
  simp only [maybeCompact, wlp_bind, wlp_node]
  cases ht : c.node.config.snapshotThreshold with
  | none => exact wlp_pure.mpr ⟨.off ht, rfl⟩
  | some threshold =>
      have hstage := stageSnapshot_stages threshold c
      simp only [wlp_bind] at hstage ⊢
      refine wlp_mono hstage fun _ c₁ h₁ => wlp_mono h₁ fun _ c₂ h₂ => ?_
      subst h₂
      simp only [compactStaged, wlp_bind, wlp_node]
      cases hst : c.node.staging threshold with
      | none =>
          refine wlp_pure.mpr ⟨?_, rfl⟩
          rw [← hst]
          exact .wait ht fun st h => by rw [hst] at h; cases h
      | some st =>
          simp only [wlp_bind, wlp_checkedSub, wlp_ite, wlp_expect,
            wlp_update, wlp_pure]
          refine fun _ => ⟨fun hlag S hS => ⟨.done ht hst hlag hS, trivial⟩,
            fun hlag => ⟨?_, trivial⟩⟩
          rw [← hst]
          refine .wait ht fun st' h => ?_
          rw [hst] at h
          cases h
          omega

theorem filter_tells_verdicts (x : Node M) :
    x.verdicts.filter Output.tells = x.verdicts := by
  refine List.filter_eq_self.mpr fun o ho => ?_
  obtain ⟨p, -, hp⟩ := List.mem_filterMap.mp ho
  obtain ⟨v, -, rfl⟩ := Option.map_eq_some_iff.mp hp
  rfl

/-- Raising the commit index to `k`, with all that follows, is one change. -/
theorem applyCommitted_deed (cause : Cause M) {k : Nat}
    (hk : x.commitIndex < k) (out : List (Output M)) :
    wlp applyCommitted (fun _ c' => ∃ os, c'.out = out ++ os ∧
      Deed cause x c'.node os) ⟨{ x with commitIndex := k }, out⟩ := by
  simp only [applyCommitted, wlp_bind, wlp_node]
  refine wlp_mono (applyLoop_advances _ _) fun _ c₁ h₁ => ?_
  obtain ⟨es, hlen, hes, rfl⟩ := h₁
  refine wlp_resolvePending.mpr ?_
  refine wlp_mono (resolveReads_unmoved _) fun _ c₂ h₂ => ?_
  obtain ⟨hun, os, ho, hsil⟩ := h₂
  refine wlp_mono (maybeCompact_compacts c₂) fun _ c₃ h₃ => ?_
  refine ⟨es.map .applied ++ (x.advanced k es).verdicts ++ os, ?_,
    c₃.node, ?_, .refl _⟩
  · simp only [h₃.2, ho, List.append_assoc]
    rfl
  · rw [List.filter_append, List.filter_append, hsil.filter,
      List.append_nil, filter_tells_verdicts, List.filter_eq_self.mpr]
    · exact .commit k es hk hlen hes hun h₃.1
    · intro o ho
      obtain ⟨e, -, rfl⟩ := List.mem_map.mp ho
      rfl

/-! ## Reading changes -/

theorem Storage.lastIndex_append {P : Type} {S S' : Storage V P}
    {es : List (LogEntry V)} (h : S.append es = .ok S') :
    S'.lastIndex = S.lastIndex + es.length := by
  obtain ⟨-, rfl⟩ := append_eq_ok.mp h
  rw [lastIndex, List.length_append, ← Nat.add_assoc]
  rfl

theorem Storage.lastIndex_compactTo {P : Type} {S S' : Storage V P}
    {i : Nat} {state : P} {membership : Option Membership}
    (h : S.compactTo i state membership = .ok S') :
    S'.lastIndex = S.lastIndex ∧ S'.snapshotIndex = i := by
  obtain ⟨e, he, rfl⟩ := compactTo_eq_ok.mp h
  have hb := boundary_of_entry he
  rw [lastIndex] at hb
  refine ⟨?_, rfl⟩
  show i + (S.log.drop (i - S.snapshotIndex)).length = S.lastIndex
  rw [List.length_drop, lastIndex]
  omega

theorem Unmoved.lastIndex (h : Unmoved x y) :
    y.storage.lastIndex = x.storage.lastIndex := by
  rw [Storage.lastIndex, Storage.lastIndex, h.log,
    Storage.snapshotIndex_congr h.snapshot]

theorem Compacts.lastIndex (h : Compacts x y) :
    y.storage.lastIndex = x.storage.lastIndex := by
  cases h with
  | off => rfl
  | wait => rfl
  | done _ _ _ hS => exact (Storage.lastIndex_compactTo hS).1

theorem Compacts.commitIndex (h : Compacts x y) :
    y.commitIndex = x.commitIndex := by
  cases h <;> rfl

theorem Compacts.lastApplied (h : Compacts x y) :
    y.lastApplied = x.lastApplied := by
  cases h <;> rfl

theorem Deed.commitIndex_le (h : Deed cause x y os) :
    x.commitIndex ≤ y.commitIndex := by
  obtain ⟨z, hz, hy⟩ := h
  rw [hy.commitIndex]
  generalize os.filter Output.tells = os at hz
  cases hz with
  | install snap _ _ hlt => exact hlt.le
  | commit k es hk _ _ hun hc =>
      rw [hc.commitIndex, hun.commitIndex]
      exact hk.le
  | _ => exact le_rfl

theorem Deed.lastIndex_le (h : Deed cause x y os) (hr : x.role ≠ .follower) :
    x.storage.lastIndex ≤ y.storage.lastIndex := by
  obtain ⟨z, hz, hy⟩ := h
  rw [hy.lastIndex]
  generalize os.filter Output.tells = os at hz
  cases hz with
  | nothing => exact le_rfl
  | append es hS =>
      rw [Storage.lastIndex_append hS]
      exact Nat.le_add_right _ _
  | propose e hS =>
      rw [Storage.lastIndex_append hS]
      exact Nat.le_add_right _ _
  | cut _ hf => exact absurd hf hr
  | install _ _ hf => exact absurd hf hr
  | commit k es _ _ _ hun hc =>
      rw [hc.lastIndex, hun.lastIndex]
      exact le_rfl
  | ship => exact le_rfl

/-- What is shipped is what the node has at that point. -/
theorem Deed.posts {peer : NodeId} {req : RpcRequest V M.Payload} {tag : Tag}
    (h : Deed cause x y os) (ho : Output.send peer req tag ∈ os)
    (ht : (Output.send peer req tag : Output M).tells = true) :
    (∃ l, x.role = .leader l) ∧ x.Posts req := by
  obtain ⟨z, hz, -⟩ := h
  have hmem := List.mem_filter.mpr ⟨ho, ht⟩
  generalize os.filter Output.tells = os at hz hmem
  have hverdicts : ∀ w : Node M, Output.send peer req tag ∉ w.verdicts := by
    intro w hw
    obtain ⟨p, -, hp⟩ := List.mem_filterMap.mp hw
    obtain ⟨v, -, hv⟩ := Option.map_eq_some_iff.mp hp
    cases hv
  cases hz with
  | nothing => cases hmem
  | append => cases hmem
  | propose => cases List.mem_singleton.mp hmem
  | cut => exact absurd hmem (hverdicts _)
  | install =>
      rcases List.mem_append.mp hmem with hmem | hmem
      · obtain ⟨p, -, hp⟩ := List.mem_map.mp hmem
        cases hp
      · exact absurd hmem (hverdicts _)
  | commit =>
      rcases List.mem_append.mp hmem with hmem | hmem
      · obtain ⟨p, -, hp⟩ := List.mem_map.mp hmem
        cases hp
      · exact absurd hmem (hverdicts _)
  | ship _ _ _ hl hreq =>
      cases List.mem_singleton.mp hmem
      exact ⟨⟨_, hl⟩, hreq⟩

end RustKV
