import RustKV.Proofs.Acknowledgement
import RustKV.Proofs.Waiters

/-!
# Role, configuration and what is published of them

A node acts on its configuration in whatever role it is: it campaigns only
as a member, it leads as a non-member only until its own removal is committed,
and as a leader it goes on replicating to the peers a configuration dropped,
until they hold the entry that drops them. The transport learns all this from
one published view (`Node.Coherent`).

Who is departing is a matter of the leader's own moves (`Parting`): an answer
can only release a peer, by showing that it holds its removal, and a new
configuration puts everyone it drops on the list, with the address it had.
-/

namespace RustKV

open Rust Consensus

variable {V : Type} {M : StateMachine V} {D : Deployment} {run : Run D M}
  {now : Instant} {cause : Cause M} {x y z : Node M} {os : List (Output M)}
  {l l' : LeaderState}

/-! ## Who is departing -/

/-- Nobody is kept on the list who is known to hold its removal. -/
def Node.Owing (x : Node M) : Prop :=
  ∀ l, x.role = .leader l → ∀ p d, l.departing.get p = some d →
    (l.matchIndex p).getD 0 < d.1

/-- What a leader's move does to the list of those departing. -/
inductive Parting (now : Instant) (cause : Cause M) (x y : Node M)
    (l l' : LeaderState) : Prop
  | kept (hm : y.members = x.members) (hi : y.membersIndex = x.membersIndex)
      (hd : ∀ p d, l'.departing.get p = some d ↔
        l.departing.get p = some d ∧ (l'.matchIndex p).getD 0 < d.1)
  | adopted (new : Membership) (hc : cause = .propose (.configChange new))
      (hv : x.validateConfigChange l now new = .ok ())
      (hm : y.members = new) (hi : y.membersIndex = x.storage.lastIndex + 1)
      (hl : l' = l.adopt x.config.id x.members new
        (x.storage.lastIndex + 1) now)

/-- Bookkeeping after an answer of `peer`, who is known to hold `held`: it
stays on the list if it was there and that is not enough. -/
theorem LeaderState.get_departing_book {l₁ : LeaderState} {peer : NodeId}
    {held : Nat} (hd : l₁.departing = l.departing)
    (hm : ∀ p, p ≠ peer → l₁.matchIndex p = l.matchIndex p)
    (howe : ∀ p d, l.departing.get p = some d →
      (l.matchIndex p).getD 0 < d.1)
    (hheld : ∀ d, l.departing.get peer = some d →
      ((l₁.matchIndex peer).getD 0 < d.1 ↔ held < d.1))
    (hl' : l' = if l₁.departs peer held then l₁.depart peer else l₁)
    (p : NodeId) (d : Nat × MemberAddr) :
    l'.departing.get p = some d ↔
      l.departing.get p = some d ∧ (l'.matchIndex p).getD 0 < d.1 := by
  have hmatch : l'.matchIndex = l₁.matchIndex := by
    rw [hl']
    split <;> rfl
  have hget : l'.departing.get p =
      if l₁.departs peer held ∧ p = peer then none
      else l.departing.get p := by
    rw [hl', ← hd]
    split
    · next hdep =>
        rw [LeaderState.depart, BTreeMap.get_remove]
        simp only [hdep, true_and]
    · next hdep => rw [if_neg fun h => hdep h.1]
  rw [hget, hmatch]
  by_cases hp : p = peer
  · subst hp
    by_cases hdep : l₁.departs p held = true
    · rw [if_pos ⟨hdep, rfl⟩]
      refine ⟨fun h => (by cases h), fun h => ?_⟩
      have hlt := (hheld d h.1).mp h.2
      rw [LeaderState.departs, hd, h.1, Option.any_some,
        decide_eq_true_eq] at hdep
      omega
    · rw [if_neg fun h => hdep h.1]
      refine ⟨fun h => ⟨h, (hheld d h).mpr ?_⟩, fun h => h.1⟩
      rw [LeaderState.departs, hd, h, Option.any_some,
        decide_eq_true_eq] at hdep
      omega
  · rw [if_neg fun h => hp h.2, hm p hp]
    exact ⟨fun h => ⟨h, howe p d h⟩, fun h => h.1⟩

theorem Move.parting (h : Move now cause x y os) (hx : x.Owing)
    (hl : x.role = .leader l) (hl' : y.role = .leader l') :
    Parting now cause x y l l' := by
  have howe := hx l hl
  -- moves that touch neither the list nor what is known of the peers
  have hsame : l'.departing = l.departing → l'.matchIndex = l.matchIndex →
      ∀ p d, l'.departing.get p = some d ↔ l.departing.get p = some d ∧
        (l'.matchIndex p).getD 0 < d.1 := by
    intro hd hm p d
    rw [hd, hm]
    exact ⟨fun h => ⟨h, howe p d h⟩, fun h => h.1⟩
  cases h with
  | quiet h =>
      obtain ⟨l₀, rs, hl₀, rfl⟩ := h.leader hl'
      cases hl.symm.trans hl₀
      exact .kept h.members h.membersIndex (hsame rfl rfl)
  | @accept l₀ S cmd hc hl₀ hv hS =>
      cases hl.symm.trans hl₀
      cases cmd with
      | configChange new =>
          cases hl'
          exact .adopted new hc hv rfl rfl rfl
      | _ =>
          cases hl.symm.trans hl'
          exact .kept rfl rfl (hsame rfl rfl)
  | register r _ _ hl₀ =>
      cases hl.symm.trans hl₀
      cases hl'
      exact .kept rfl rfl (hsame rfl rfl)
  | @confirmed l₀ peer prev len seq reply hc hl₀ hs =>
      cases hl.symm.trans hl₀
      obtain ⟨-, -, hd, hm⟩ := (l.answered peer seq now).confirm_eq peer
        (prev + len)
      exact .kept rfl rfl (LeaderState.get_departing_book hd hm howe
        (fun _ _ => Iff.rfl) (Role.leader.inj hl').symm)
  | refused peer prev len seq reply hc hl₀ hs =>
      cases hl.symm.trans hl₀
      cases hl'
      exact .kept rfl rfl (hsame rfl rfl)
  | @installed l₀ peer boundary reply hc hl₀ =>
      cases hl.symm.trans hl₀
      refine .kept rfl rfl (@LeaderState.get_departing_book l _
        (l.installed peer boundary now) _ _ rfl
        (fun p hp => Function.update_of_ne hp _ _) howe (fun d hd => ?_)
        (Role.leader.inj hl').symm)
      have hlt := howe peer d hd
      simp only [LeaderState.installed, Function.update_self,
        Option.getD_some]
      omega
  | contact =>
      cases hl.symm.trans hl'
      exact .kept rfl rfl (hsame rfl rfl)
  | grant =>
      cases hl.symm.trans hl'
      exact .kept rfl rfl (hsame rfl rfl)
  | ship =>
      cases hl.symm.trans hl'
      exact .kept rfl rfl (hsame rfl rfl)
  | win _ hr =>
      rw [hl] at hr
      cases hr
  | _ => cases hl'

/-! ## Coherence -/

/-- A node's role, its configuration and its published view fit together. -/
structure Node.Coherent (x : Node M) : Prop where
  campaign : ∀ votes, x.role = .preCandidate votes ∨
    x.role = .candidate votes → x.config.id ∈ x.members.keySet
  /-- A leader that is no member has its removal still to commit. -/
  leading : x.isLeader = true → x.config.id ∉ x.members.keySet →
    x.commitIndex < x.membersIndex
  departing : ∀ p d, x.role.departing.get p = some d →
    p ≠ x.config.id ∧ p ∉ x.members.keySet ∧ d.1 ≤ x.membersIndex
  view : x.membershipView =
    ⟨x.members, x.role.departing.mapValues Prod.snd⟩

theorem Role.departing_setReads (r : Role) (rs : List PendingRead) :
    (r.setReads rs).departing = r.departing := by
  cases r <;> rfl

theorem Node.departing_of_not_leader (h : x.isLeader = false) :
    x.role.departing = BTreeMap.empty := by
  rw [Node.isLeader] at h
  cases hr : x.role with
  | leader l =>
      rw [hr] at h
      cases h
  | _ => rfl

theorem Quiet.departing (h : Quiet x y) :
    y.role.departing = x.role.departing := by
  obtain ⟨rs, -, hr⟩ := h.role
  rw [hr, Role.departing_setReads]

theorem Quiet.view (h : Quiet x y) (hx : x.membershipView =
    ⟨x.members, x.role.departing.mapValues Prod.snd⟩) :
    y.membershipView =
      ⟨y.members, y.role.departing.mapValues Prod.snd⟩ := by
  rw [h.membershipView, h.members, h.departing]
  exact hx

theorem Node.Coherent.of_follower (hr : x.role = .follower)
    (hv : x.membershipView = ⟨x.members, BTreeMap.empty⟩) :
    x.Coherent where
  campaign votes h := by
    rw [hr] at h
    rcases h with h | h <;> cases h
  leading h := by
    rw [isLeader_of_follower hr] at h
    cases h
  departing p d h := by
    rw [hr] at h
    cases h
  view := by
    rw [hv, hr]
    rfl

theorem Node.Coherent.follow (h : x.membershipView =
    ⟨x.members, x.role.departing.mapValues Prod.snd⟩) (t : Nat)
    (hint : Option NodeId) : (x.follow t hint).Coherent := by
  refine .of_follower rfl ?_
  rw [Node.follow]
  simp only
  split
  · next hempty =>
      rw [h, BTreeMap.eq_empty_of_isEmpty hempty]
      rfl
  · rfl

theorem Move.campaigner (h : Move now cause x y os) (hx : x.Coherent)
    (votes : Finset NodeId) (hy : y.role = .preCandidate votes ∨
      y.role = .candidate votes) : y.config.id ∈ y.members.keySet := by
  cases h with
  | quiet h =>
      rw [h.config, h.members]
      have hrole := h.role_eq fun l hl => by
        rw [hl] at hy
        rcases hy with hy | hy <;> cases hy
      exact hx.campaign votes (hrole ▸ hy)
  | contact => exact hx.campaign votes hy
  | grant => exact hx.campaign votes hy
  | ship => exact hx.campaign votes hy
  | accept cmd _ hl =>
      cases cmd with
      | configChange m => rcases hy with hy | hy <;> cases hy
      | _ => exact hx.campaign votes hy
  | preCampaign _ _ hm => exact BTreeMap.containsKey_iff.mp hm
  | campaign _ hr => exact hx.campaign _ (.inl hr)
  | preVoted _ _ _ _ hr => exact hx.campaign _ (.inl hr)
  | voted _ _ _ _ hr => exact hx.campaign _ (.inr hr)
  | _ => rcases hy with hy | hy <;> cases hy

theorem Move.leading (h : Move now cause x y os) (hx : x.Coherent)
    (ho : x.Orderly) (hy : y.isLeader = true)
    (hout : y.config.id ∉ y.members.keySet) :
    y.commitIndex < y.membersIndex := by
  cases h with
  | quiet h _ hstay =>
      have hl : x.isLeader = true := h.isLeader ▸ hy
      rcases hstay hl with hsame | hno
      · rw [h.config, h.members] at hout
        rw [hsame, h.membersIndex]
        exact hx.leading hl hout
      · refine Nat.lt_of_not_le fun hle => hno ⟨?_, hle⟩
        rwa [← Bool.not_eq_true, BTreeMap.containsKey_iff]
  | contact => exact hx.leading hy hout
  | grant => exact hx.leading hy hout
  | ship => exact hx.leading hy hout
  | accept cmd _ hl =>
      cases cmd with
      | configChange m => exact Nat.lt_succ_of_le ho.commit_le
      | _ => exact hx.leading hy hout
  | win _ hr => exact absurd (hx.campaign _ (.inr hr)) hout
  | register _ _ _ hl => exact hx.leading (Node.isLeader_iff.mpr ⟨_, hl⟩) hout
  | confirmed _ _ _ _ _ _ hl =>
      exact hx.leading (Node.isLeader_iff.mpr ⟨_, hl⟩) hout
  | refused _ _ _ _ _ _ hl =>
      exact hx.leading (Node.isLeader_iff.mpr ⟨_, hl⟩) hout
  | installed _ _ _ _ hl =>
      exact hx.leading (Node.isLeader_iff.mpr ⟨_, hl⟩) hout
  | _ => cases hy

theorem Move.departing (h : Move now cause x y os)
    (hg : x.config.testDisableReconfigGates = false) (hx : x.Coherent)
    (ho : x.Orderly) (hw : x.Owing) (p : NodeId) (d : Nat × MemberAddr)
    (hp : y.role.departing.get p = some d) :
    p ≠ y.config.id ∧ p ∉ y.members.keySet ∧ d.1 ≤ y.membersIndex := by
  cases hl' : y.role with
  | leader l' =>
      rw [hl'] at hp
      rw [h.config]
      cases h.promoted hl' with
      | won _ _ _ _ hn =>
          obtain ⟨next, now', rfl⟩ := hn
          cases hp
      | @kept l hl =>
          have hdep : ∀ d, l.departing.get p = some d → p ≠ x.config.id ∧
              p ∉ x.members.keySet ∧ d.1 ≤ x.membersIndex := by
            intro d hd
            exact hx.departing p d (by rw [hl]; exact hd)
          cases h.parting hw hl hl' with
          | kept hm hi hd =>
              rw [hm, hi]
              exact hdep d ((hd p d).mp hp).1
          | adopted new hc hv hm hi hadopt =>
              have hgate := (validateConfigChange_gates hg hv).2
              have hend := ho.commit_le
              rw [hadopt, Role.departing, LeaderState.get_departing_adopt]
                at hp
              rw [hm, hi]
              split at hp
              · cases hp
              next hnew =>
              split at hp
              · next hself => exact absurd hself (hdep d hp).1
              next hself =>
              refine ⟨hself, hnew, ?_⟩
              cases hold : x.members.get p with
              | some addr =>
                  rw [hold] at hp
                  cases hp
                  exact le_rfl
              | none =>
                  rw [hold] at hp
                  have := (hdep d hp).2.2
                  omega
  | _ =>
      rw [hl'] at hp
      cases hp

theorem Move.view (h : Move now cause x y os) (hx : x.membershipView =
    ⟨x.members, x.role.departing.mapValues Prod.snd⟩) :
    y.membershipView =
      ⟨y.members, y.role.departing.mapValues Prod.snd⟩ := by
  have hbook : ∀ (l l₁ : LeaderState) (peer : NodeId) (held : Nat),
      x.role = .leader l → l₁.departing = l.departing →
      (x.book l₁ peer held).membershipView = ⟨x.members,
        (x.book l₁ peer held).role.departing.mapValues Prod.snd⟩ := by
    intro l l₁ peer held hl hd
    simp only [Node.book, Role.departing]
    split
    · rfl
    · rw [hx, hl, hd]
      rfl
  cases h with
  | quiet h => exact h.view hx
  | retire h => exact (Node.Coherent.follow (h.view hx) _ _).view
  | follow t hint => exact (Node.Coherent.follow hx t hint).view
  | contact => exact hx
  | grant => exact hx
  | ship => exact hx
  | adopt => rfl
  | accept cmd _ hl =>
      cases cmd with
      | configChange m => rfl
      | _ => exact hx
  | preCampaign _ hl =>
      rw [Node.departing_of_not_leader hl] at hx
      exact hx
  | campaign _ hr =>
      rw [hr] at hx
      exact hx
  | win _ hr =>
      rw [hr] at hx
      exact hx
  | preVoted _ _ _ _ hr =>
      rw [hr] at hx
      exact hx
  | voted _ _ _ _ hr =>
      rw [hr] at hx
      exact hx
  | register _ _ _ hl =>
      rw [hl] at hx
      exact hx
  | confirmed peer prev len seq _ _ hl =>
      exact hbook _ _ _ _ hl
        ((LeaderState.answered _ peer seq now).confirm_eq peer _).2.2.1
  | refused _ _ _ _ _ _ hl =>
      rw [hl] at hx
      exact hx
  | installed _ _ _ _ hl => exact hbook _ _ _ _ hl rfl

theorem Move.coherent (h : Move now cause x y os)
    (hg : x.config.testDisableReconfigGates = false) (hx : x.Coherent)
    (ho : x.Orderly) (hw : x.Owing) : y.Coherent :=
  ⟨h.campaigner hx, h.leading hx ho, h.departing hg hx ho hw, h.view hx.view⟩

/-! ## What a leader still owes -/

/-- What a leader has on record of its peers is in its own log. -/
def Node.Bounded (x : Node M) : Prop :=
  ∀ l, x.role = .leader l → ∀ p,
    (l.matchIndex p).getD 0 ≤ x.storage.lastIndex

theorem Move.match_of_propose {cmd : Command V} (h : Move now cause x y os)
    (hc : cause = .propose cmd) (hl : x.role = .leader l)
    (hl' : y.role = .leader l') : l'.matchIndex = l.matchIndex := by
  subst hc
  cases h.tracked hl' with
  | kept hl₀ _ _ h =>
      cases hl.symm.trans hl₀
      cases h with
      | same _ hm => exact hm
      | confirmed _ _ _ _ _ hc => cases hc
      | refused _ _ _ _ _ hc => cases hc
      | installed _ _ _ _ hc => cases hc
  | won hr =>
      rw [hl] at hr
      cases hr

theorem Move.bounded {cmd : Command V} (h : Move now cause x y os)
    (hd : Deed cause x y os) (hc : cause = .propose cmd) (hx : x.Bounded) :
    y.Bounded := by
  intro l' hl' p
  cases h.promoted hl' with
  | @kept l hl =>
      rw [h.match_of_propose hc hl hl']
      exact (hx l hl p).trans
        (hd.lastIndex_le (by rw [hl]; exact Role.noConfusion))
  | won _ _ _ _ hn =>
      obtain ⟨next, now', rfl⟩ := hn
      simp only [LeaderState.fresh]
      split <;> exact Nat.zero_le _

theorem Move.owing (h : Move now cause x y os) (hx : x.Owing)
    (hb : ∀ cmd, cause = .propose cmd → x.Bounded) : y.Owing := by
  intro l' hl' p d hp
  cases h.promoted hl' with
  | won _ _ _ _ hn =>
      obtain ⟨next, now', rfl⟩ := hn
      cases hp
  | @kept l hl =>
      cases h.parting hx hl hl' with
      | kept _ _ hd => exact ((hd p d).mp hp).2
      | adopted new hc _ _ _ hadopt =>
          have hle := hb _ hc l hl p
          have hmatch : l'.matchIndex = l.matchIndex := by
            rw [hadopt]
            rfl
          rw [hmatch]
          rw [hadopt, LeaderState.get_departing_adopt] at hp
          split at hp
          · cases hp
          split at hp
          · exact hx l hl p d hp
          cases hold : x.members.get p with
          | some addr =>
              rw [hold] at hp
              cases hp
              exact Nat.lt_succ_of_le hle
          | none =>
              rw [hold] at hp
              exact hx l hl p d hp

structure Node.Tidy (cause : Cause M) (x : Node M) : Prop where
  gated : x.config.testDisableReconfigGates = false
  orderly : x.Orderly
  coherent : x.Coherent
  owing : x.Owing
  bounded : ∀ cmd, cause = .propose cmd → x.Bounded

theorem Move.tidy (h : Move now cause x y os) (hd : Deed cause x y os)
    (hx : x.Tidy cause) : y.Tidy cause where
  gated := h.config ▸ hx.gated
  orderly := hd.orderly hx.orderly
  coherent := h.coherent hx.gated hx.coherent hx.orderly hx.owing
  owing := h.owing hx.owing hx.bounded
  bounded cmd hc := h.bounded hd hc (hx.bounded cmd hc)

theorem Acts.tidy (h : Acts now cause x y os) (hx : x.Tidy cause) :
    y.Tidy cause := h.keeps (fun _ _ _ hm hd => hm.tidy hd) hx

theorem Run.Trace.bounded (T : run.Trace) (i : ℕ) (n : NodeId) :
    ((run.state i).nodes n).Bounded := by
  intro l hl p
  rw [((T.inv i).nodes n).body.repr.lastIndex]
  exact T.matched_le hl p

theorem Run.tidy (run : Run D M) (i : ℕ) (n : NodeId) (cause : Cause M) :
    ((run.state i).nodes n).Tidy cause := by
  obtain ⟨T⟩ := run.exists_trace
  have hgated : ∀ i n,
      ((run.state i).nodes n).config.testDisableReconfigGates = false := by
    intro i n
    rw [run.config_eq]
    exact D.gated n
  obtain ⟨hco, howe⟩ := run.turn_invariant
    (I := fun _ x => x.Coherent ∧ x.Owing)
    (fun _ => ⟨.of_follower rfl rfl, fun l hl => (by cases hl)⟩)
    (fun _ _ _ _ => ⟨.of_follower rfl rfl, fun l hl => (by cases hl)⟩)
    (fun i now cause h ha hx => by
      have hy := ha.tidy ⟨hgated i _, run.orderly i _, hx.1, hx.2,
        fun _ _ => T.bounded i _⟩
      exact ⟨hy.coherent, hy.owing⟩) i n
  exact ⟨hgated i n, run.orderly i n, hco, howe, fun _ _ => T.bounded i n⟩

/-! ## Nobody is forgotten -/

theorem LeaderState.Tracks.match_le {t : Nat} (h : l.Tracks cause t l')
    (p : NodeId) :
    (l.matchIndex p).getD 0 ≤ (l'.matchIndex p).getD 0 := by
  have hupdate : ∀ (peer : NodeId) (k : Nat),
      (l.matchIndex peer).getD 0 ≤ k → (l.matchIndex p).getD 0 ≤
        (Function.update l.matchIndex peer (some k) p).getD 0 := by
    intro peer k hk
    by_cases hp : p = peer
    · subst hp
      rwa [Function.update_self]
    · rw [Function.update_of_ne hp]
  cases h with
  | same _ hm => rw [hm]
  | confirmed peer prev len _ _ _ _ _ hm =>
      rw [hm, LeaderState.confirm]
      split
      · next hgt => exact hupdate peer _ hgt.le
      · exact hupdate peer _ le_rfl
  | refused _ _ _ _ _ _ _ _ hm => rw [hm]
  | installed _ peer boundary _ _ _ hm =>
      rw [hm]
      exact hupdate peer _ (le_max_left _ _)

/-- What every move of a leader keeps, an event keeps in which the node does
not lose its leadership. -/
theorem Acts.leadership {P : Node M → LeaderState → Prop}
    (h : Acts now cause x z os) (hl : x.role = .leader l)
    (hl' : z.role = .leader l') (ht : z.currentTerm = x.currentTerm)
    (hbase : P x l)
    (hstep : ∀ y z l₁ l₂ os os', Acts now cause x y os →
      Move now cause y z os' → y.role = .leader l₁ → z.role = .leader l₂ →
      P y l₁ → P z l₂) : P z l' := by
  induction h generalizing l' with
  | refl =>
      cases hl.symm.trans hl'
      exact hbase
  | step h hm hd ih =>
      have hle := h.moves.term_le
      have hle' := hm.term_le
      cases hm.promoted hl' with
      | kept hy hty _ =>
          exact hstep _ _ _ _ _ _ h hm hy hl' (ih hy (by omega))
      | won hr => exact absurd hr (h.moves.not_candidate hl (by omega) _)

/-- Who is departing stays on the list until it holds its removal or is added
again. -/
theorem Acts.still_departing (h : Acts now cause x y os)
    (hx : x.Tidy cause) (hl : x.role = .leader l)
    (hl' : y.role = .leader l') (ht : y.currentTerm = x.currentTerm)
    {p : NodeId} {d : Nat × MemberAddr}
    (hd : l.departing.get p = some d) :
    l'.departing.get p = some d ∨ p ∈ y.members.keySet ∨
      d.1 ≤ (l'.matchIndex p).getD 0 := by
  have hout : ∀ y l₁, Node.Tidy cause y → y.role = .leader l₁ →
      l₁.departing.get p = some d → p ≠ y.config.id ∧
        p ∉ y.members.keySet := by
    intro y l₁ hy hl₁ hd
    obtain ⟨hself, hno, -⟩ := hy.coherent.departing p d
      (by rw [hl₁]; exact hd)
    exact ⟨hself, hno⟩
  refine h.leadership (P := fun y l' => l'.departing.get p = some d ∨
    p ∈ y.members.keySet ∨ d.1 ≤ (l'.matchIndex p).getD 0) hl hl' ht
    (.inl hd) fun y z l₁ l₂ os os' h hm hl₁ hl₂ ih => ?_
  have hy := h.tidy hx
  rcases ih with hdep | hin | hdone
  · cases hm.parting hy.owing hl₁ hl₂ with
    | kept _ _ hkept =>
        rcases Nat.lt_or_ge ((l₂.matchIndex p).getD 0) d.1 with hlt | hge
        · exact .inl ((hkept p d).mpr ⟨hdep, hlt⟩)
        · exact .inr (.inr hge)
    | adopted new _ _ hmem _ hadopt =>
        obtain ⟨hself, hno⟩ := hout y l₁ hy hl₁ hdep
        by_cases hnew : p ∈ new.keySet
        · exact .inr (.inl (hmem ▸ hnew))
        · left
          rw [hadopt, LeaderState.get_departing_adopt, if_neg hnew,
            if_neg hself, BTreeMap.get_eq_none_iff.mpr hno]
          exact hdep
  · -- it was added by this very event, which has no other configuration
    right
    left
    cases hm.parting hy.owing hl₁ hl₂ with
    | kept hmem _ _ => rwa [hmem]
    | adopted new hc _ hmem _ _ =>
        rcases h.moves.members_of_leader hl₁ with hsame | ⟨m, hc', hm'⟩
        · rw [hsame] at hin
          exact absurd hin (hout x l hx hl hd).2
        · cases hc.symm.trans hc'
          rw [hmem, ← hm']
          exact hin
  · cases hm.tracked hl₂ with
    | kept hl₁' _ _ htr =>
        cases hl₁.symm.trans hl₁'
        exact .inr (.inr (hdone.trans (htr.match_le p)))
    | won hr =>
        rw [hl₁] at hr
        cases hr

/-- Whom a configuration drops is departing, with the address it had. -/
theorem Acts.starts_departing (h : Acts now cause x y os)
    (hx : x.Tidy cause) (hl : x.role = .leader l)
    (hl' : y.role = .leader l') (ht : y.currentTerm = x.currentTerm)
    {p : NodeId} {addr : MemberAddr} (hself : p ≠ x.config.id)
    (hp : x.members.get p = some addr) (hout : p ∉ y.members.keySet) :
    ∃ k, l'.departing.get p = some (k, addr) := by
  have hin := BTreeMap.mem_keySet_of_get hp
  have hmain : y.members = x.members ∨ p ∈ y.members.keySet ∨
      ∃ k, l'.departing.get p = some (k, addr) := by
    refine h.leadership (P := fun y l' => y.members = x.members ∨
      p ∈ y.members.keySet ∨ ∃ k, l'.departing.get p = some (k, addr))
      hl hl' ht (.inl rfl) fun y z l₁ l₂ os os' h hm hl₁ hl₂ ih => ?_
    have hy := h.tidy hx
    have hid := h.moves.config
    cases hm.parting hy.owing hl₁ hl₂ with
    | kept hmem _ hkept =>
        rw [hmem]
        refine ih.imp id (Or.imp id fun hdep => ?_)
        obtain ⟨k, hdep⟩ := hdep
        have hno := (hy.coherent.departing p _ (by rw [hl₁]; exact hdep)).2.1
        rcases h.moves.members_of_leader hl₁ with hsame | ⟨m, hc, -⟩
        · rw [hsame] at hno
          exact absurd hin hno
        · refine ⟨k, (hkept p _).mpr ⟨hdep, ?_⟩⟩
          rw [hm.match_of_propose hc hl₁ hl₂]
          exact hy.owing l₁ hl₁ p _ hdep
    | adopted new hc _ hmem _ hadopt =>
        rw [hmem]
        by_cases hnew : p ∈ new.keySet
        · exact .inr (.inl hnew)
        · right
          right
          rw [hadopt, LeaderState.get_departing_adopt, if_neg hnew,
            if_neg (by rw [hid]; exact hself)]
          rcases h.moves.members_of_leader hl₁ with hsame | ⟨m, hc', hm'⟩
          · rw [hsame, hp]
            exact ⟨_, rfl⟩
          · -- the configuration was adopted before, and this is it again
            cases hc.symm.trans hc'
            rw [← hm'] at hnew
            rcases ih with hsame | hin' | hdep
            · exact absurd (hsame ▸ hin) hnew
            · exact absurd hin' hnew
            · rw [BTreeMap.get_eq_none_iff.mpr hnew]
              exact hdep
  rcases hmain with hsame | hin' | hdep
  · rw [hsame] at hout
    exact absurd hin hout
  · exact absurd hin' hout
  · exact hdep

/-- Role, configuration and published view stay coherent. A campaigner is a
member; a leader that is none has not committed its removal; those departing
are neither the leader nor members, were removed by the configuration in
effect or an earlier one, and do not hold their removal as far as is known;
and the view is the configuration with exactly them. Within a leadership
whoever is dropped starts departing, and ends it only by holding its removal
or by being added again. -/
theorem coherent_view (run : Run D M) (i : ℕ) (n : NodeId) :
    let x := (run.state i).nodes n
    let y := (run.state (i + 1)).nodes n
    ((∀ votes, x.role = .preCandidate votes ∨ x.role = .candidate votes →
        n ∈ x.members.keySet) ∧
      (x.isLeader = true → n ∉ x.members.keySet →
        x.commitIndex < x.membersIndex) ∧
      (x.isLeader = false → x.role.departing = BTreeMap.empty) ∧
      (∀ p k addr, x.role.departing.get p = some (k, addr) →
        p ≠ n ∧ p ∉ x.members.keySet ∧ k ≤ x.membersIndex) ∧
      x.membershipView =
        ⟨x.members, x.role.departing.mapValues Prod.snd⟩) ∧
    (∀ l, x.role = .leader l → ∀ p k addr,
      l.departing.get p = some (k, addr) →
      (l.matchIndex p).getD 0 < k) ∧
    ∀ l l', x.role = .leader l → y.role = .leader l' →
      y.currentTerm = x.currentTerm → ∀ p,
      (∀ k addr, l.departing.get p = some (k, addr) →
        l'.departing.get p = some (k, addr) ∨ p ∈ y.members.keySet ∨
          k ≤ (l'.matchIndex p).getD 0) ∧
      ∀ addr, p ≠ n → x.members.get p = some addr →
        p ∉ y.members.keySet → ∃ k, l'.departing.get p = some (k, addr) := by
  intro x y
  have hid : x.config.id = n := run.id_eq i n
  have hx := run.tidy i n .heartbeat
  have hco : x.Coherent := hx.coherent
  refine ⟨⟨fun votes h => ?_, fun hl hout => ?_,
    Node.departing_of_not_leader, fun p k addr h => ?_, hco.view⟩,
    fun l hl p k addr h => hx.owing l hl p _ h, fun l l' hl hl' ht p => ?_⟩
  · rw [← hid]
    exact hco.campaign votes h
  · rw [← hid] at hout
    exact hco.leading hl hout
  · rw [← hid]
    exact hco.departing p _ h
  -- the step is nothing to this node, or one of its own events
  have hsame : y = x → l' = l := by
    intro h
    rw [h] at hl'
    exact (Role.leader.inj (hl.symm.trans hl')).symm
  have hstill : y = x → (∀ k addr, l.departing.get p = some (k, addr) →
      l'.departing.get p = some (k, addr) ∨ p ∈ y.members.keySet ∨
        k ≤ (l'.matchIndex p).getD 0) ∧
      ∀ addr, p ≠ n → x.members.get p = some addr →
        p ∉ y.members.keySet → ∃ k, l'.departing.get p = some (k, addr) := by
    intro h
    rw [hsame h, h]
    exact ⟨fun k addr hd => .inl hd, fun addr _ hp hout =>
      absurd (BTreeMap.mem_keySet_of_get hp) hout⟩
  cases run.acted i with
  | idle hc => exact hstill (congrArg (Cluster.nodes · n) hc)
  | turn now cause h ha =>
      by_cases hn : n = (run.effect i).node
      · rw [← hn] at ha
        have htidy := run.tidy i n cause
        exact ⟨fun k addr => ha.still_departing htidy hl hl' ht,
          fun addr hself => ha.starts_departing htidy hl hl' ht
            (by rw [run.id_eq]; exact hself)⟩
      · exact hstill (h.others n hn)
  | restart h =>
      by_cases hn : n = (run.effect i).node
      · have hr := Node.role_of_spawn (hn ▸ h.node)
        rw [hr] at hl'
        cases hl'
      · exact hstill (h.others n hn)

end RustKV
