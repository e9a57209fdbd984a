import RustKV.Proofs.Readmission
import RustKV.Kv.Service

/-!
# Concurrent changes of the membership

An admin handler reads the membership its node last published, edits the copy
and proposes the whole of it. The core only asks that the result differs from
the membership in effect by one member. Between the reading and the proposal
other changes may take effect, and the check does not notice when they come
in pairs: what is then removed or added need not be what was asked for.
-/

namespace RustKV

open Rust

variable {V : Type} {M : StateMachine V} {D : Deployment}
  {now : Instant} {cause : Cause M} {x y : Node M} {os : List (Output M)}

inductive AdminRequest where
  | put (id : NodeId) (addr : MemberAddr)
  | delete (id : NodeId)

namespace AdminRequest

def id : AdminRequest → NodeId
  | put id _ => id
  | delete id => id

/-- What the handler makes of the view it read. -/
def proposal (view : Membership) : AdminRequest → Except Response Membership
  | put id addr => putMember (some addr) view id
  | delete id => deleteMember view id

/-- What was asked for. -/
def edit (m : Membership) : AdminRequest → Membership
  | put id addr => m.insert id addr
  | delete id => m.remove id

theorem proposal_eq_ok {req : AdminRequest} {view m : Membership}
    (h : req.proposal view = .ok m) : m = req.edit view := by
  cases req with
  | put id addr =>
      simp only [proposal, putMember] at h
      split at h
      · cases h
      · cases h
        rfl
  | delete id =>
      simp only [proposal, deleteMember] at h
      split at h
      · cases h
        rfl
      · cases h

theorem edit_eq_edit_iff {req : AdminRequest} {m m' : Membership} :
    req.edit m = req.edit m' ↔ ∀ a, a ≠ req.id → m.get a = m'.get a := by
  cases req with
  | put id addr => exact BTreeMap.insert_eq_insert_iff
  | delete id => exact BTreeMap.remove_eq_remove_iff

end AdminRequest

theorem Move.accepted {t j : Nat} {m : Membership}
    (h : Move now (.propose (.configChange m)) x y os)
    (ho : Output.proposeReply (.ok (t, j)) ∈ os) : y.members = m := by
  obtain ⟨cmd, l, S, hc, -, -, -, -, rfl⟩ := h.accepts ho
  cases hc
  rfl

theorem Moves.accepted {t j : Nat} {m : Membership}
    (h : Moves now (.propose (.configChange m)) x y os)
    (ho : Output.proposeReply (.ok (t, j)) ∈ os) : y.members = m := by
  obtain ⟨_, _, _, _, _, -, hm, ho', h₂⟩ := h.split ho
  rcases h₂.members with ⟨⟨req, hc⟩, -⟩ | hsame | ⟨m', hc, hy⟩
  · cases hc
  · rw [hsame]
    exact hm.accepted ho'
  · cases hc
    exact hy

theorem Run.members_accepted (run : Run D M) {i t j : ℕ} {n : NodeId}
    {m : Membership} {now : Instant}
    (hact : run.action i = .propose n (.configChange m) now)
    (hacc : Output.proposeReply (.ok (t, j)) ∈ (run.effect i).outputs) :
    ((run.state (i + 1)).nodes n).members = m := by
  cases run.did i with
  | idle _ ho =>
      rw [ho] at hacc
      cases hacc
  | restart h => exact absurd (h.outputs _ hacc) Bool.false_ne_true
  | turn now' cause h =>
      have hc := h.causes
      rw [hact] at hc
      generalize hn : (run.effect i).node = n' at hc
      cases hc
      have hm := h.moves
      rw [hn] at hm
      exact hm.accepted hacc

/-- An accepted change does what was asked for exactly if the view it was
computed from and the membership in effect agree on everybody else. -/
theorem admin_change_exact_iff (run : Run D M) {k i t j : ℕ} {n : NodeId}
    (req : AdminRequest) {m : Membership} {now : Instant}
    (hread : req.proposal ((run.state k).nodes n).membershipView.members =
      .ok m)
    (hact : run.action i = .propose n (.configChange m) now)
    (hacc : Output.proposeReply (.ok (t, j)) ∈ (run.effect i).outputs) :
    ((run.state (i + 1)).nodes n).members =
        req.edit ((run.state i).nodes n).members ↔
      ∀ a, a ≠ req.id → ((run.state k).nodes n).membershipView.members.get a =
        ((run.state i).nodes n).members.get a := by
  rw [run.members_accepted hact hacc, AdminRequest.proposal_eq_ok hread]
  exact AdminRequest.edit_eq_edit_iff

/-- Node 1 leads three nodes. Two requests to remove 3 read the membership;
one goes through, then 4 is added, and then the other is submitted. -/
def staleAdminRun :
    Run (Deployment.ofIds [1, 2, 3] none) (KvStore.machine Nat) :=
  Run.ofActions _ _ [.timeout 1 0, .deliver 0 0, .reply 0 0, .deliver 2 0,
    .reply 1 0, .deliver 4 0, .deliver 5 0, .reply 2 10, .reply 3 10,
    .propose 1 (.configChange (membersOfIds [1, 2])) 20, .deliver 6 20,
    .reply 4 20, .propose 1 (.configChange (membersOfIds [1, 2, 4])) 30,
    .deliver 8 30, .reply 5 30,
    .propose 1 (.configChange (membersOfIds [1, 2])) 40] (by decide +kernel)

theorem AdminRequest.proposal_delete {view : Membership} {id : NodeId}
    (h : view.containsKey id = true) :
    (AdminRequest.delete id).proposal view = .ok (view.remove id) :=
  if_pos h

theorem AdminRequest.proposal_put {view : Membership} {id : NodeId}
    {addr : MemberAddr} (h : view.containsKey id = false) :
    (AdminRequest.put id addr).proposal view = .ok (view.insert id addr) := by
  simp [AdminRequest.proposal, putMember, h]

theorem staleAdminRun_read :
    (AdminRequest.delete 3).proposal
      ((staleAdminRun.state 9).nodes 1).membershipView.members =
      .ok (membersOfIds [1, 2]) := by
  have hview : ((staleAdminRun.state 9).nodes 1).membershipView.members =
      membersOfIds [1, 2, 3] := by decide +kernel
  have hremove : (membersOfIds [1, 2, 3]).remove 3 = membersOfIds [1, 2] := by
    decide +kernel
  rw [hview, AdminRequest.proposal_delete (by decide +kernel), hremove]

/-- The first of the two is submitted before anything else has changed. -/
theorem admin_change_exact_first :
    ((staleAdminRun.state 10).nodes 1).members =
      (AdminRequest.delete 3).edit
        ((staleAdminRun.state 9).nodes 1).members := by
  have hview : ((staleAdminRun.state 9).nodes 1).membershipView.members =
      ((staleAdminRun.state 9).nodes 1).members := by decide +kernel
  have hact : staleAdminRun.action 9 =
      .propose 1 (.configChange (membersOfIds [1, 2])) 20 := rfl
  have hacc : Output.proposeReply (.ok (1, 2)) ∈
      (staleAdminRun.effect 9).outputs :=
    Output.mem_of_same (by decide +kernel)
  have hiff := admin_change_exact_iff staleAdminRun (.delete 3)
    staleAdminRun_read hact hacc
  rw [hiff, hview]
  exact fun _ _ => rfl

/-- The second one is accepted too. Node 3 is long gone by then, and it is 4
that it removes. -/
theorem stale_delete_removes_another :
    (AdminRequest.delete 3).proposal
        ((staleAdminRun.state 9).nodes 1).membershipView.members =
      .ok (membersOfIds [1, 2]) ∧
    (AdminRequest.put 4 default).proposal
        ((staleAdminRun.state 12).nodes 1).membershipView.members =
      .ok (membersOfIds [1, 2, 4]) ∧
    staleAdminRun.action 9 =
      .propose 1 (.configChange (membersOfIds [1, 2])) 20 ∧
    staleAdminRun.action 12 =
      .propose 1 (.configChange (membersOfIds [1, 2, 4])) 30 ∧
    staleAdminRun.action 15 =
      .propose 1 (.configChange (membersOfIds [1, 2])) 40 ∧
    Output.proposeReply (.ok (1, 4)) ∈ (staleAdminRun.effect 15).outputs ∧
    ((staleAdminRun.state 15).nodes 1).members = membersOfIds [1, 2, 4] ∧
    ((staleAdminRun.state 16).nodes 1).members = membersOfIds [1, 2] ∧
    (AdminRequest.delete 3).edit ((staleAdminRun.state 15).nodes 1).members =
      membersOfIds [1, 2, 4] ∧
    membersOfIds [1, 2] ≠ membersOfIds [1, 2, 4] := by
  have hview : ((staleAdminRun.state 12).nodes 1).membershipView.members =
      membersOfIds [1, 2] := by decide +kernel
  have hinsert : (membersOfIds [1, 2]).insert 4 default =
      membersOfIds [1, 2, 4] := by decide +kernel
  refine ⟨staleAdminRun_read, ?_, rfl, rfl, rfl,
    Output.mem_of_same (by decide +kernel), by decide +kernel,
    by decide +kernel, by decide +kernel, by decide +kernel⟩
  rw [hview, AdminRequest.proposal_put (by decide +kernel), hinsert]

end RustKV
