import RustKV.Proofs.Acts
import RustKV.Proofs.Safety

/-!
# What a leader knows of its peers

A leader keeps four maps keyed by peer: what the peer is known to hold, the
newest round it answered, when it was last heard of, and, for a removed one,
which removal it is still owed. They start empty at the election and are never
cleaned: a peer that is removed stays in them for as long as the leadership
lasts.

So the peers a leader has a contact time for are exactly those that have been
members in this leadership (`Run.contact_iff`), and whatever it holds against
a peer's name it got from one of them, in answer to something it sent in this
leadership (`Run.known_members`).

All of it is shown one move at a time: `Move.promoted` says how a move may
leave the bookkeeping, and the rest follows along the moves of an event and
the steps of a run.
-/

namespace RustKV

open Rust Prog NodeM Consensus

variable {V : Type} {M : StateMachine V} {D : Deployment}
  {now : Instant} {cause : Cause M} {x y z : Node M}
  {os os' : List (Output M)} {l l' : LeaderState}

/-! ## The bookkeeping of one leader -/

/-- Whatever is on record for a peer, a contact time is; and the members have
one. -/
structure LeaderState.Rooted (l : LeaderState) (n : NodeId)
    (members : Membership) : Prop where
  members : ∀ p ∈ members.keySet, p ≠ n → l.lastContact p ≠ none
  matched : ∀ p, (l.matchIndex p).getD 0 ≠ 0 → l.lastContact p ≠ none
  acked : ∀ p, l.ackedSeq p ≠ none → l.lastContact p ≠ none
  departing : ∀ p ∈ l.departing.keySet, l.lastContact p ≠ none

/-- The event is the end of a replication RPC of term `t` to `p`. -/
def Cause.Answers (t : Nat) (p : NodeId) : Cause M → Prop
  | .reply (.appendReply s q _ _ _ _) => s = t ∧ q = p
  | .reply (.installSnapshotReply s q _ _) => s = t ∧ q = p
  | _ => False

/-- How the bookkeeping of a leader of `t` may change as its membership goes
from `old` to `new`. -/
structure LeaderState.Next (cause : Cause M) (t : Nat) (n : NodeId)
    (old new : Membership) (l l' : LeaderState) : Prop where
  contact : ∀ p, l'.lastContact p ≠ none → l.lastContact p ≠ none ∨
    p ∈ new.keySet ∨ cause.Answers t p
  keeps : ∀ p, l.lastContact p ≠ none → l'.lastContact p ≠ none
  rooted : l.Rooted n old → l'.Rooted n new

namespace LeaderState

variable {t : Nat} {n peer : NodeId} {old new members : Membership}

theorem Next.same (hc : l'.lastContact = l.lastContact)
    (hm : l'.matchIndex = l.matchIndex) (ha : l'.ackedSeq = l.ackedSeq)
    (hd : l'.departing = l.departing) :
    Next cause t n members members l l' where
  contact p hp := .inl (hc ▸ hp)
  keeps p hp := hc ▸ hp
  rooted h := by
    refine ⟨?_, ?_, ?_, ?_⟩
    · rw [hc]
      exact h.members
    · rw [hc, hm]
      exact h.matched
    · rw [hc, ha]
      exact h.acked
    · rw [hc, hd]
      exact h.departing

theorem Next.heard (ha : cause.Answers t peer)
    (hc : ∃ at_, l'.lastContact =
      Function.update l.lastContact peer (some at_))
    (hm : ∀ p, p ≠ peer → l'.matchIndex p = l.matchIndex p)
    (hs : ∀ p, p ≠ peer → l'.ackedSeq p = l.ackedSeq p)
    (hd : l'.departing.keySet ⊆ l.departing.keySet) :
    Next cause t n members members l l' := by
  obtain ⟨at_, hc⟩ := hc
  have hself : l'.lastContact peer ≠ none := by
    rw [hc, Function.update_self]
    exact Option.some_ne_none _
  have hother : ∀ p, p ≠ peer → l'.lastContact p = l.lastContact p :=
    fun p hp => by rw [hc, Function.update_of_ne hp]
  have hkeep : ∀ p, l.lastContact p ≠ none → l'.lastContact p ≠ none := by
    intro p hp
    by_cases h : p = peer
    · exact h ▸ hself
    · rwa [hother p h]
  refine ⟨fun p hp => ?_, hkeep, fun h => ⟨fun p hp hne => hkeep p
    (h.members p hp hne), fun p hp => ?_, fun p hp => ?_,
    fun p hp => hkeep p (h.departing p (hd hp))⟩⟩
  · by_cases h : p = peer
    · exact .inr (.inr (h ▸ ha))
    · exact .inl (hother p h ▸ hp)
  · by_cases hpp : p = peer
    · exact hpp ▸ hself
    · exact hkeep p (h.matched p (hm p hpp ▸ hp))
  · by_cases hpp : p = peer
    · exact hpp ▸ hself
    · exact hkeep p (h.acked p (hs p hpp ▸ hp))

theorem keySet_depart (l : LeaderState) (peer : NodeId) :
    (l.depart peer).departing.keySet ⊆ l.departing.keySet := by
  intro p hp
  rw [BTreeMap.mem_keySet] at hp ⊢
  obtain ⟨e, he, rfl⟩ := List.mem_map.mp hp
  exact List.mem_map_of_mem (List.mem_of_mem_filter he)

theorem confirm_eq (l : LeaderState) (peer : NodeId) (k : Nat) :
    (l.confirm peer k).lastContact = l.lastContact ∧
      (l.confirm peer k).ackedSeq = l.ackedSeq ∧
      (l.confirm peer k).departing = l.departing ∧
      ∀ p, p ≠ peer → (l.confirm peer k).matchIndex p = l.matchIndex p := by
  rw [confirm]
  split
  · exact ⟨rfl, rfl, rfl, fun p hp => Function.update_of_ne hp _ _⟩
  · exact ⟨rfl, rfl, rfl, fun p hp => Function.update_of_ne hp _ _⟩

/-- Who is departing after a change of configuration, since when and with
which address. -/
theorem get_departing_adopt (l : LeaderState) (n : NodeId)
    (old new : Membership) (index : Nat) (now : Instant) (p : NodeId) :
    (l.adopt n old new index now).departing.get p =
      if p ∈ new.keySet then none
      else if p = n then l.departing.get p
      else ((old.get p).map fun addr => (index, addr)).or
        (l.departing.get p) := by
  rw [adopt]
  simp only
  rw [BTreeMap.get_retain, BTreeMap.get_foldl_insert
    (fun addr => (index, addr)) (fun a => a ≠ n ∧ !new.containsKey a)
    old.nodup_keys]
  by_cases hnew : p ∈ new.keySet
  · have hcon := BTreeMap.containsKey_iff.mpr hnew
    simp [hnew, hcon]
  · have hcon : new.containsKey p = false := by
      rwa [← Bool.not_eq_true, BTreeMap.containsKey_iff]
    have hkeep : ∀ o : Option (Nat × MemberAddr),
        o.filter (fun _ => !new.containsKey p) = o := by
      intro o
      rw [hcon]
      cases o <;> rfl
    rw [hkeep, if_neg hnew]
    by_cases hn : p = n
    · rw [if_neg fun h => h.1 hn, if_pos hn]
    · rw [if_pos ⟨hn, by rw [hcon]; rfl⟩, if_neg hn]
      rfl

theorem mem_departing_adopt {index : Nat} {p : NodeId}
    (hp : p ∈ (l.adopt n old new index now).departing.keySet) :
    p ∈ l.departing.keySet ∨ p ∈ old.keySet ∧ p ≠ n := by
  by_contra hno
  obtain ⟨hl, hold⟩ := not_or.mp hno
  apply BTreeMap.get_eq_none_iff.mp _ hp
  rw [get_departing_adopt, BTreeMap.get_eq_none_iff.mpr hl]
  split
  · rfl
  · split
    · rfl
    · next hn =>
        rw [BTreeMap.get_eq_none_iff.mpr fun h => hold ⟨h, hn⟩]
        rfl

theorem Next.adopt {index : Nat} :
    Next cause t n old new l (l.adopt n old new index now) := by
  have hkeep : ∀ p, l.lastContact p ≠ none →
      (l.adopt n old new index now).lastContact p ≠ none := by
    intro p hp
    simp only [LeaderState.adopt]
    split
    · exact Option.some_ne_none _
    · exact hp
  refine ⟨fun p hp => ?_, hkeep, fun h => ⟨fun p hp hne => ?_,
    fun p hp => hkeep p (h.matched p hp),
    fun p hp => hkeep p (h.acked p hp), fun p hp => ?_⟩⟩
  · simp only [LeaderState.adopt] at hp
    split at hp
    · next hcond =>
        exact .inr (.inl (BTreeMap.containsKey_iff.mp hcond.1))
    · exact .inl hp
  · simp only [LeaderState.adopt]
    rw [if_pos ⟨BTreeMap.containsKey_iff.mpr hp, hne⟩]
    exact Option.some_ne_none _
  · rcases mem_departing_adopt hp with hp | ⟨hp, hne⟩
    · exact hkeep p (h.departing p hp)
    · exact hkeep p (h.members p hp hne)

theorem Rooted.fresh {peers : List NodeId} {next : Nat}
    (hp : ∀ p ∈ members.keySet, p ≠ n → p ∈ peers) :
    (LeaderState.fresh peers next now).Rooted n members where
  members p hm hne := by
    simp only [LeaderState.fresh, if_pos (hp p hm hne)]
    exact Option.some_ne_none _
  matched p h := by
    simp only [LeaderState.fresh] at h
    split at h <;> exact absurd rfl h
  acked p h := absurd rfl h
  departing p h := by
    rw [LeaderState.fresh, BTreeMap.keySet_empty] at h
    exact absurd h (Finset.notMem_empty p)

end LeaderState

/-! ## Along the moves of one event -/

theorem Quiet.currentTerm (h : Quiet x y) :
    y.currentTerm = x.currentTerm := by
  rw [Node.currentTerm, Node.currentTerm, h.hardState]

theorem Quiet.leader (h : Quiet x y) (hl : y.role = .leader l') :
    ∃ l rs, x.role = .leader l ∧ l' = { l with pendingReads := rs } := by
  obtain ⟨rs, -, hr⟩ := h.role
  rw [hl] at hr
  cases hx : x.role with
  | leader l =>
      rw [hx] at hr
      cases hr
      exact ⟨l, rs, rfl, rfl⟩
  | follower => rw [hx] at hr; cases hr
  | preCandidate votes => rw [hx] at hr; cases hr
  | candidate votes => rw [hx] at hr; cases hr

theorem Quiet.role_eq (h : Quiet x y) (hy : ∀ l, y.role ≠ .leader l) :
    x.role = y.role := by
  obtain ⟨rs, -, hr⟩ := h.role
  rw [hr] at hy ⊢
  cases hx : x.role with
  | leader l =>
      rw [hx] at hy
      exact absurd rfl (hy _)
  | follower => rfl
  | preCandidate votes => rfl
  | candidate votes => rfl

theorem Node.isLeader_iff : x.isLeader = true ↔ ∃ l, x.role = .leader l := by
  rw [Node.isLeader]
  cases x.role <;> simp

theorem Move.term_le (h : Move now cause x y os) :
    x.currentTerm ≤ y.currentTerm := by
  cases h with
  | quiet h => exact h.currentTerm.ge
  | retire h =>
      rw [Node.currentTerm_follow le_rfl]
      exact h.currentTerm.ge
  | follow t hint _ ht => rwa [Node.currentTerm_follow ht]
  | campaign => exact Nat.le_succ _
  | accept cmd _ _ _ hS =>
      rw [Node.currentTerm_accepted (Storage.append_hardState hS)]
  | win _ _ _ hS =>
      simp only [Node.currentTerm, Storage.append_hardState hS, le_refl]
  | _ => exact le_rfl

theorem Move.members (h : Move now cause x y os) :
    ((∃ req, cause = .inbound req) ∧ y.role = .follower) ∨
      y.members = x.members ∨
      ∃ m, cause = .propose (.configChange m) ∧ y.members = m := by
  cases h with
  | quiet h => exact .inr (.inl h.members)
  | retire h => exact .inr (.inl h.members)
  | adopt _ _ hc => exact .inl ⟨hc, rfl⟩
  | accept cmd hc =>
      cases cmd with
      | configChange m => exact .inr (.inr ⟨m, hc, rfl⟩)
      | _ => exact .inr (.inl rfl)
  | _ => exact .inr (.inl rfl)

theorem Move.follower (h : Move now cause x y os)
    (hc : ∃ req, cause = .inbound req) (hr : x.role = .follower) :
    y.role = .follower := by
  obtain ⟨req, rfl⟩ := hc
  cases h with
  | quiet h => exact h.follower hr
  | retire => rfl
  | follow => rfl
  | adopt => rfl
  | accept _ hc => cases hc
  | preCampaign hc => cases hc
  | campaign hc => exact hc.elim
  | win hc => exact hc.elim
  | preVoted _ _ hc => cases hc
  | voted _ _ hc => cases hc
  | register _ hc => cases hc
  | confirmed _ _ _ _ _ hc => cases hc
  | refused _ _ _ _ _ hc => cases hc
  | installed _ _ _ hc => cases hc
  | _ => exact hr

/-- Where a leader comes from: it led before, or it has just won. -/
inductive Promoted (cause : Cause M) (x y : Node M) (l' : LeaderState) : Prop
  | kept {l : LeaderState} (hl : x.role = .leader l)
      (ht : y.currentTerm = x.currentTerm)
      (hn : l.Next cause y.currentTerm x.config.id x.members y.members l')
  | won {votes : Finset NodeId} (hr : x.role = .candidate votes)
      (hc : cause.Campaigns) (ht : y.currentTerm = x.currentTerm)
      (hm : y.members = x.members)
      (hn : ∃ next now, l' = .fresh x.peerIds next now)

theorem Move.config (h : Move now cause x y os) : y.config = x.config := by
  cases h with
  | quiet h => exact h.config
  | retire h => exact h.config
  | accept => exact Node.config_accepted _ _ _ _ _
  | _ => rfl

theorem Move.promoted (h : Move now cause x y os)
    (hl' : y.role = .leader l') : Promoted cause x y l' := by
  cases h with
  | quiet h =>
      obtain ⟨l, rs, hl, rfl⟩ := h.leader hl'
      refine .kept hl h.currentTerm ?_
      rw [h.members]
      exact .same rfl rfl rfl rfl
  | retire h => cases hl'
  | follow => cases hl'
  | contact => exact .kept hl' rfl (.same rfl rfl rfl rfl)
  | grant => exact .kept hl' rfl (.same rfl rfl rfl rfl)
  | adopt => cases hl'
  | @accept l S cmd hc hl _ hS =>
      have ht := Node.currentTerm_accepted (Storage.append_hardState hS) l now
        cmd
      cases cmd with
      | configChange m =>
          cases hl'
          exact .kept hl ht .adopt
      | put key value session =>
          exact .kept hl' ht (.same rfl rfl rfl rfl)
      | delete key session => exact .kept hl' ht (.same rfl rfl rfl rfl)
      | noop => exact .kept hl' ht (.same rfl rfl rfl rfl)
  | preCampaign => cases hl'
  | campaign => cases hl'
  | win hc hr _ hS =>
      cases hl'
      refine .won hr hc ?_ rfl ⟨_, _, rfl⟩
      simp only [Node.currentTerm, Storage.append_hardState hS]
  | preVoted => cases hl'
  | voted => cases hl'
  | register r _ _ hl =>
      cases hl'
      exact .kept hl rfl (.same rfl rfl rfl rfl)
  | @confirmed l peer prev len seq reply hc hl =>
      cases hl'
      obtain ⟨h1, h2, h3, h4⟩ := (l.answered peer seq now).confirm_eq peer
        (prev + len)
      have hans : cause.Answers x.currentTerm peer := hc ▸ ⟨rfl, rfl⟩
      have hs : ∀ p, p ≠ peer →
          (l.answered peer seq now).ackedSeq p = l.ackedSeq p :=
        fun p hp => Function.update_of_ne hp _ _
      refine .kept hl rfl ?_
      split
      · exact .heard hans ⟨now, h1⟩ h4 (fun p hp => (congrFun h2 p).trans
          (hs p hp)) ((LeaderState.keySet_depart _ _).trans (h3 ▸ subset_rfl))
      · exact .heard hans ⟨now, h1⟩ h4 (fun p hp => (congrFun h2 p).trans
          (hs p hp)) (h3 ▸ subset_rfl)
  | @refused l peer prev len seq reply hc hl =>
      cases hl'
      have hans : cause.Answers x.currentTerm peer := hc ▸ ⟨rfl, rfl⟩
      refine .kept hl rfl (.heard hans ⟨now, rfl⟩ (fun _ _ => rfl)
        (fun p hp => ?_) subset_rfl)
      exact Function.update_of_ne hp _ _
  | @installed l peer boundary reply hc hl =>
      cases hl'
      have hans : cause.Answers x.currentTerm peer := hc ▸ ⟨rfl, rfl⟩
      have hm : ∀ p, p ≠ peer →
          (l.installed peer boundary now).matchIndex p = l.matchIndex p :=
        fun p hp => Function.update_of_ne hp _ _
      refine .kept hl rfl ?_
      split
      · exact .heard hans ⟨now, rfl⟩ hm (fun _ _ => rfl)
          (LeaderState.keySet_depart _ _)
      · exact .heard hans ⟨now, rfl⟩ hm (fun _ _ => rfl) subset_rfl
  | ship => exact .kept hl' rfl (.same rfl rfl rfl rfl)

theorem Moves.config (h : Moves now cause x y os) : y.config = x.config := by
  induction h with
  | refl => rfl
  | step _ hm ih => exact hm.config.trans ih

theorem Moves.term_le (h : Moves now cause x y os) :
    x.currentTerm ≤ y.currentTerm := by
  induction h with
  | refl => exact le_rfl
  | step _ hm ih => exact ih.trans hm.term_le

/-- The membership after an event: taken from a leader's message, the same as
before, or the one that was proposed. -/
theorem Moves.members (h : Moves now cause x y os) :
    ((∃ req, cause = .inbound req) ∧ y.role = .follower) ∨
      y.members = x.members ∨
      ∃ m, cause = .propose (.configChange m) ∧ y.members = m := by
  induction h with
  | refl => exact .inr (.inl rfl)
  | step _ hm ih =>
      rcases hm.members with h | h | h
      · exact .inl h
      · rw [h]
        refine ih.imp_left fun hf => ⟨hf.1, hm.follower hf.1 hf.2⟩
      · exact .inr (.inr h)

theorem Moves.members_of_leader (h : Moves now cause x y os)
    (hl : y.role = .leader l) : y.members = x.members ∨
      ∃ m, cause = .propose (.configChange m) ∧ y.members = m := by
  refine h.members.resolve_left fun hf => ?_
  rw [hl] at hf
  cases hf.2

def Node.Rooted (x : Node M) : Prop :=
  ∀ l, x.role = .leader l → l.Rooted x.config.id x.members

theorem Node.mem_peerIds {p : NodeId} : p ∈ x.peerIds ↔
    p ∈ x.members.keySet ∧ p ≠ x.config.id := by
  rw [Node.peerIds, List.mem_filter, BTreeMap.mem_keySet, decide_eq_true_iff]

theorem Moves.rooted (h : Moves now cause x y os) (hx : x.Rooted) :
    y.Rooted := by
  induction h with
  | refl => exact hx
  | step _ hm ih =>
      intro l' hl'
      rw [hm.config]
      cases hm.promoted hl' with
      | kept hl _ hn => exact hn.rooted (ih _ hl)
      | won _ _ _ hmem hn =>
          obtain ⟨next, now', rfl⟩ := hn
          rw [hmem]
          exact .fresh fun p hp hne => Node.mem_peerIds.mpr ⟨hp, hne⟩

/-- What explains a leader's record of `p` after an event. -/
def Known (cause : Cause M) (x y : Node M) (p : NodeId) : Prop :=
  (∃ l, x.role = .leader l ∧ y.currentTerm = x.currentTerm ∧
      l.lastContact p ≠ none) ∨
    p ∈ x.members.keySet ∨ p ∈ y.members.keySet ∨
    cause.Answers y.currentTerm p

theorem Known.later {p : NodeId} (h : Known cause x y p)
    (hxy : Moves now cause x y os) (hyz : Moves now cause y z os')
    (hy : y.role = .leader l) (hz : z.role = .leader l')
    (ht : z.currentTerm = y.currentTerm) : Known cause x z p := by
  rcases h with ⟨l₀, hl₀, ht₀, hp⟩ | hp | hp | hp
  · exact .inl ⟨l₀, hl₀, ht.trans ht₀, hp⟩
  · exact .inr (.inl hp)
  · rcases hxy.members_of_leader hy with h | ⟨m, hc, h⟩
    · exact .inr (.inl (h ▸ hp))
    · -- proposed in this event, and nothing else is
      refine .inr (.inr (.inl ?_))
      rcases hyz.members_of_leader hz with h' | ⟨m', hc', h'⟩
      · rwa [h']
      · rw [hc] at hc'
        cases hc'
        rwa [h', ← h]
  · exact .inr (.inr (.inr (ht ▸ hp)))

theorem Moves.known (h : Moves now cause x y os) {p : NodeId}
    (hl' : y.role = .leader l') (hp : l'.lastContact p ≠ none) :
    Known cause x y p := by
  induction h generalizing l' with
  | refl => exact .inl ⟨l', hl', rfl, hp⟩
  | step h hm ih =>
      cases hm.promoted hl' with
      | kept hl ht hn =>
          rcases hn.contact p hp with hp | hp | hp
          · exact (ih hl hp).later h hm.single hl hl' ht
          · exact .inr (.inr (.inl hp))
          · exact .inr (.inr (.inr hp))
      | won _ _ _ hmem hn =>
          obtain ⟨next, now', rfl⟩ := hn
          simp only [LeaderState.fresh] at hp
          split at hp
          · next hmem' =>
              refine .inr (.inr (.inl ?_))
              rw [hmem]
              exact (Node.mem_peerIds.mp hmem').1
          · exact absurd rfl hp

def Tag.Replicates (t : Nat) : Tag → Prop
  | .append s _ _ _ => s = t
  | .installSnapshot s _ => s = t
  | _ => False

/-- Only a leader replicates, in its own term, to its members and to those
it is parting from. -/
theorem Move.replicates {t : Nat} {peer : NodeId}
    {req : RpcRequest V M.Payload} {tag : Tag} (h : Move now cause x y os)
    (ho : Output.send peer req tag ∈ os) (ht : tag.Replicates t) :
    y = x ∧ x.currentTerm = t ∧ ∃ l, x.role = .leader l ∧
      (peer ∈ x.members.keySet ∨ peer ∈ l.departing.keySet) := by
  cases h with
  | quiet _ hos => exact absurd (hos _ ho) Bool.false_ne_true
  | retire _ hos => exact absurd (hos _ ho) Bool.false_ne_true
  | follow _ _ hos => exact absurd (hos _ ho) Bool.false_ne_true
  | accept => cases List.mem_singleton.mp ho
  | preCampaign =>
      obtain ⟨_, -, heq⟩ := List.mem_map.mp ho
      cases heq
      exact ht.elim
  | campaign =>
      obtain ⟨_, -, heq⟩ := List.mem_map.mp ho
      cases heq
      exact ht.elim
  | register => cases List.mem_singleton.mp ho
  | @ship l peer' req' tag' hl hto hreq =>
      cases List.mem_singleton.mp ho
      refine ⟨rfl, ?_, l, hl, hto.imp BTreeMap.containsKey_iff.mp
        BTreeMap.containsKey_iff.mp⟩
      cases req with
      | appendEntries a =>
          obtain ⟨-, -, rfl⟩ := hreq
          exact ht
      | installSnapshot a =>
          obtain ⟨-, -, rfl⟩ := hreq
          exact ht
      | requestVote a => exact hreq.elim
      | preVote a => exact hreq.elim
  | _ => cases ho

theorem Move.accepts {t i : Nat} (h : Move now cause x y os)
    (ho : Output.proposeReply (.ok (t, i)) ∈ os) :
    ∃ cmd l S, cause = .propose cmd ∧ x.role = .leader l ∧
      t = x.currentTerm ∧ i = x.storage.lastIndex + 1 ∧
      x.storage.append [⟨t, i, cmd⟩] = .ok S ∧ y = x.accepted l now S cmd := by
  cases h with
  | quiet _ hos => exact absurd (hos _ ho) Bool.false_ne_true
  | retire _ hos => exact absurd (hos _ ho) Bool.false_ne_true
  | follow _ _ hos => exact absurd (hos _ ho) Bool.false_ne_true
  | accept cmd hc hl _ hS =>
      cases List.mem_singleton.mp ho
      exact ⟨cmd, _, _, hc, hl, rfl, rfl, hS, rfl⟩
  | preCampaign =>
      obtain ⟨_, -, heq⟩ := List.mem_map.mp ho
      cases heq
  | campaign =>
      obtain ⟨_, -, heq⟩ := List.mem_map.mp ho
      cases heq
  | register => cases List.mem_singleton.mp ho
  | ship => cases List.mem_singleton.mp ho
  | _ => cases ho

theorem Moves.split {o : Output M} (h : Moves now cause x z os)
    (ho : o ∈ os) : ∃ y y' os₁ os' os₂, Moves now cause x y os₁ ∧
      Move now cause y y' os' ∧ o ∈ os' ∧ Moves now cause y' z os₂ := by
  induction h with
  | refl => cases ho
  | step h hm ih =>
      rcases List.mem_append.mp ho with ho | ho
      · obtain ⟨y, y', os₁, os', os₂, h₁, hm', ho', h₂⟩ := ih ho
        exact ⟨y, y', os₁, os', _, h₁, hm', ho', h₂.step hm⟩
      · exact ⟨_, _, _, _, _, h, hm, ho, .refl⟩

theorem Moves.replicates {peer : NodeId} {req : RpcRequest V M.Payload}
    {tag : Tag} (h : Moves now cause x z os) (hx : x.Rooted)
    (hz : z.role = .leader l') (ho : Output.send peer req tag ∈ os)
    (ht : tag.Replicates z.currentTerm) : Known cause x z peer := by
  obtain ⟨y, y', os₁, os', os₂, h₁, hm, ho', h₂⟩ := h.split ho
  obtain ⟨rfl, hty, l, hl, hto⟩ := hm.replicates ho' ht
  refine Known.later ?_ h₁ h₂ hl hz hty.symm
  rcases hto with hto | hto
  · exact .inr (.inr (.inl hto))
  · exact h₁.known hl ((h₁.rooted hx _ hl).departing _ hto)

/-- Who leads after an event led before it, or the event was one that may end
in an election. -/
theorem Moves.leader (h : Moves now cause x y os)
    (hl' : y.role = .leader l') :
    (x.isLeader = true ∧ x.currentTerm = y.currentTerm) ∨
      cause.Campaigns := by
  induction h generalizing l' with
  | refl => exact .inl ⟨by rw [Node.isLeader, hl'], rfl⟩
  | step _ hm ih =>
      cases hm.promoted hl' with
      | kept hl ht _ => exact (ih hl).imp_left fun h => ⟨h.1, h.2.trans ht.symm⟩
      | won _ hc => exact .inr hc

theorem Move.candidate {votes : Finset NodeId} (h : Move now cause x y os)
    (hr : y.role = .candidate votes) :
    (∃ v, x.role = .candidate v ∧ y.currentTerm = x.currentTerm) ∨
      x.currentTerm < y.currentTerm ∧ cause.Campaigns ∧
        ∃ v, x.role = .preCandidate v ∧
          x.majority ≤ x.countMemberVotes v := by
  cases h with
  | quiet h =>
      have heq := h.role_eq fun l hl => by
        rw [hr] at hl
        cases hl
      exact .inl ⟨votes, heq.trans hr, h.currentTerm⟩
  | contact => exact .inl ⟨votes, hr, rfl⟩
  | grant => exact .inl ⟨votes, hr, rfl⟩
  | accept cmd _ hl =>
      cases cmd with
      | configChange m => cases hr
      | _ =>
          rw [show x.role = .candidate votes from hr] at hl
          cases hl
  | campaign hc hpre hv =>
      exact .inr ⟨Nat.lt_succ_self _, hc, _, hpre, hv⟩
  | voted _ _ _ _ hr' => exact .inl ⟨_, hr', rfl⟩
  | ship => exact .inl ⟨votes, hr, rfl⟩
  | _ => cases hr

theorem Moves.not_candidate (h : Moves now cause x y os)
    (hx : x.role = .leader l) (ht : y.currentTerm = x.currentTerm)
    (votes : Finset NodeId) : y.role ≠ .candidate votes := by
  induction h generalizing votes with
  | refl =>
      rw [hx]
      exact Role.noConfusion
  | step h hm ih =>
      have hy := hm.term_le
      have hy' := h.term_le
      intro hr
      rcases hm.candidate hr with ⟨v, hv, -⟩ | ⟨hlt, -⟩
      · exact ih (by omega) v hv
      · omega

theorem Moves.keeps {p : NodeId} (h : Moves now cause x y os)
    (hx : x.role = .leader l) (hp : l.lastContact p ≠ none)
    (ht : y.currentTerm = x.currentTerm) :
    ∀ l', y.role = .leader l' → l'.lastContact p ≠ none := by
  induction h with
  | refl =>
      intro l' hl'
      rw [hx] at hl'
      cases hl'
      exact hp
  | step h hm ih =>
      have hy := hm.term_le
      have hy' := h.term_le
      intro l' hl'
      cases hm.promoted hl' with
      | kept hl _ hn => exact hn.keeps p (ih (by omega) _ hl)
      | won hr => exact absurd hr (h.not_candidate hx (by omega) _)

/-! ## Along a run -/

variable {run : Run D M}

theorem Run.did (run : Run D M) (i : ℕ) : (run.state i).Did (run.action i)
    (run.state (i + 1)) (run.effect i) :=
  Cluster.step_did (run.step i)

theorem Run.acted (run : Run D M) (i : ℕ) : (run.state i).Acted
    (run.action i) (run.state (i + 1)) (run.effect i) :=
  Cluster.step_acted (run.step i)

theorem Run.config_eq (run : Run D M) (i : ℕ) (n : NodeId) :
    ((run.state i).nodes n).config = D.config n := by
  obtain ⟨T⟩ := run.exists_trace
  exact ((T.inv i).nodes n).body.config

theorem Run.id_eq (run : Run D M) (i : ℕ) (n : NodeId) :
    ((run.state i).nodes n).config.id = n := by
  rw [run.config_eq, D.id_eq]

/-- What the handler of an event ensures holds of what the step made. -/
theorem Cluster.exec_outcome {c c' : Cluster M} {n : NodeId} {eff : Effect M}
    {body : NodeM M (List (Reply M))} {Q : List (Reply M) → Ctx M → Prop}
    (h : c.exec n body = .ok (c', eff)) (hb : wlp body Q ⟨c.nodes n, []⟩) :
    ∃ answers x, Q answers x ∧
      c'.nodes = Function.update c.nodes n x.node ∧ c'.epochs = c.epochs ∧
      c'.rpcs = c.rpcs ++ x.out.filterMap (Cluster.sent n (c.epochs n)) ∧
      c'.replies = c.replies ++ answers := by
  rw [Cluster.exec] at h
  split at h
  · cases h
  · next answers c₁ hx =>
      cases h
      exact ⟨answers, c₁, hb answers c₁ hx, rfl, rfl, rfl, rfl⟩

theorem Cluster.exec_node {c c' : Cluster M} {n : NodeId} {eff : Effect M}
    {body : NodeM M (List (Reply M))} {Q : Node M → Prop}
    (h : c.exec n body = .ok (c', eff))
    (hb : wlp body (fun _ c₁ => Q c₁.node) ⟨c.nodes n, []⟩) :
    Q (c'.nodes n) := by
  obtain ⟨-, x, hq, hnodes, -⟩ := Cluster.exec_outcome h hb
  rw [hnodes, Function.update_self]
  exact hq

theorem Run.of_reply (run : Run D M) {j i : ℕ} {now : Instant} {r : Reply M}
    {Q : Node M → Prop} (hact : run.action j = .reply i now)
    (hr : (run.state j).replies[i]? = some r)
    (hb : wlp (handleEvent now (r.rpc.tag.event r.rpc.dst (.ok r.response)))
      (fun _ c₁ => Q c₁.node) ⟨(run.state j).nodes r.rpc.src, []⟩) :
    Q ((run.state (j + 1)).nodes r.rpc.src) := by
  have hs := run.step j
  rw [hact] at hs
  obtain ⟨r', hr', hset⟩ := Option.bind_eq_some_iff.mp hs
  rw [hr] at hr'
  cases hr'
  simp only [Cluster.settle] at hset
  split at hset
  · refine Cluster.exec_node (Option.some.inj hset) ?_
    simp only [Cluster.silently, wlp_bind, wlp_pure]
    exact hb
  · cases hset

theorem Run.of_timeout (run : Run D M) {j : ℕ} {n : NodeId} {now : Instant}
    {Q : Node M → Prop} (hact : run.action j = .timeout n now)
    (hb : wlp (onElectionTimeout now) (fun _ c₁ => Q c₁.node)
      ⟨(run.state j).nodes n, []⟩) :
    Q ((run.state (j + 1)).nodes n) := by
  have hs := run.step j
  rw [hact] at hs
  simp only [Cluster.step] at hs
  split at hs
  · cases hs
  · refine Cluster.exec_node (Option.some.inj hs) ?_
    simp only [Cluster.silently, wlp_bind, wlp_pure]
    exact hb

theorem Run.of_deliver (run : Run D M) {j i : ℕ} {now : Instant}
    {rpc : Rpc M} {Q : RpcResponse → Node M → Prop}
    (hact : run.action j = .deliver i now)
    (hr : (run.state j).rpcs[i]? = some rpc)
    (hb : wlp (handleInbound now rpc.request)
      (fun response c₁ => Q response c₁.node)
      ⟨(run.state j).nodes rpc.dst, []⟩) :
    ∃ response, (run.state (j + 1)).replies =
        (run.state j).replies ++ [⟨rpc, response⟩] ∧
      Q response ((run.state (j + 1)).nodes rpc.dst) := by
  have hs := run.step j
  rw [hact] at hs
  obtain ⟨rpc', hr', hx⟩ := Option.map_eq_some_iff.mp hs
  rw [hr] at hr'
  cases hr'
  obtain ⟨answers, x, ⟨response, rfl, hq⟩, hnodes, -, -, hreplies⟩ :=
    Cluster.exec_outcome (Q := fun answers c₁ => ∃ response,
      answers = [⟨rpc, response⟩] ∧ Q response c₁.node) hx (by
    simp only [Cluster.serve, wlp_bind, wlp_pure]
    exact wlp_mono hb fun response c₁ h₁ => ⟨response, rfl, h₁⟩)
  refine ⟨response, hreplies, ?_⟩
  rw [hnodes, Function.update_self]
  exact hq

theorem Node.eq_boot_of_spawn {config : RaftConfig}
    {storage : Storage V M.Payload} (h : Node.spawn config storage = .ok x) :
    ∃ state, x = Node.boot config storage state := by
  rw [Node.spawn] at h
  split at h
  · cases h
    exact ⟨_, rfl⟩
  · split at h
    · cases h
      exact ⟨_, rfl⟩
    · cases h

theorem Node.role_of_spawn {config : RaftConfig}
    {storage : Storage V M.Payload} (h : Node.spawn config storage = .ok x) :
    x.role = .follower := by
  obtain ⟨state, rfl⟩ := Node.eq_boot_of_spawn h
  rfl

/-- What an invariant of the nodes of a run needs: it holds of a new node, a
restart keeps it, and so does a turn. -/
theorem Run.turn_invariant {I : NodeId → Node M → Prop} (run : Run D M)
    (hinit : ∀ n, I n (Node.boot (D.config n) Storage.empty M.new))
    (hboot : ∀ n (x : Node M) state, I n x →
      I n (Node.boot x.config x.storage state))
    (hturn : ∀ i now cause, (run.state i).Turn (run.action i)
      (run.state (i + 1)) (run.effect i) now cause →
      Acts now cause ((run.state i).nodes (run.effect i).node)
        ((run.state (i + 1)).nodes (run.effect i).node)
        (run.effect i).outputs →
      I (run.effect i).node ((run.state i).nodes (run.effect i).node) →
      I (run.effect i).node ((run.state (i + 1)).nodes (run.effect i).node))
    (i : ℕ) (n : NodeId) : I n ((run.state i).nodes n) := by
  induction i with
  | zero =>
      rw [run.init]
      exact hinit n
  | succ i ih =>
      cases run.acted i with
      | idle hc => rwa [hc]
      | turn now cause h ha =>
          by_cases hn : n = (run.effect i).node
          · subst hn
            exact hturn i now cause h ha ih
          · rwa [h.others n hn]
      | restart h =>
          by_cases hn : n = (run.effect i).node
          · subst hn
            obtain ⟨state, hx⟩ := Node.eq_boot_of_spawn h.node
            rw [hx]
            exact hboot _ _ _ ih
          · rwa [h.others n hn]

theorem Run.act_invariant {I : Node M → Prop}
    (hinit : ∀ config, I (Node.boot config Storage.empty M.new))
    (hboot : ∀ (x : Node M) state, I x →
      I (Node.boot x.config x.storage state))
    (hact : ∀ now cause (x y : Node M) os, Move now cause x y os →
      Deed cause x y os → I x → I y) (run : Run D M) (i : ℕ) (n : NodeId) :
    I ((run.state i).nodes n) :=
  run.turn_invariant (I := fun _ => I) (fun _ => hinit _)
    (fun _ => hboot) (fun _ now cause _ ha => ha.keeps (hact now cause)) i n

theorem Run.node_invariant {I : Node M → Prop}
    (hstart : ∀ x : Node M, x.role = .follower → I x)
    (hmoves : ∀ now cause (x y : Node M) os, Moves now cause x y os → I x →
      I y) (run : Run D M) (i : ℕ) (n : NodeId) :
    I ((run.state i).nodes n) :=
  run.act_invariant (fun _ => hstart _ rfl) (fun _ _ _ => hstart _ rfl)
    (fun now cause x y os hm _ => hmoves now cause x y os hm.single) i n

theorem Run.rooted (run : Run D M) (i : ℕ) (n : NodeId) :
    ((run.state i).nodes n).Rooted :=
  run.node_invariant (fun x hr l hl => by rw [hr] at hl; cases hl)
    (fun _ _ _ _ _ h hx => h.rooted hx) i n

theorem Run.network_grows (run : Run D M) {i j : ℕ} (hij : i ≤ j) :
    (run.state i).rpcs <+: (run.state j).rpcs ∧
      (run.state i).replies <+: (run.state j).replies := by
  induction j, hij using Nat.le_induction with
  | base => exact ⟨List.prefix_rfl, List.prefix_rfl⟩
  | succ j _ ih =>
      cases run.did j with
      | idle hc =>
          rw [hc]
          exact ih
      | turn now cause h =>
          obtain ⟨answers, hreplies, -⟩ := h.replies
          rw [h.rpcs, hreplies]
          exact ⟨ih.1.trans ⟨_, rfl⟩, ih.2.trans ⟨_, rfl⟩⟩
      | restart h =>
          rw [h.rpcs, h.replies]
          exact ih

theorem Run.replies_sent (run : Run D M) (i : ℕ) :
    ∀ r ∈ (run.state i).replies, r.rpc ∈ (run.state i).rpcs := by
  induction i with
  | zero =>
      rw [run.init]
      exact List.forall_mem_nil _
  | succ i ih =>
      intro r hr
      cases run.did i with
      | idle hc =>
          rw [hc] at hr ⊢
          exact ih r hr
      | turn now cause h =>
          obtain ⟨answers, hreplies, hans⟩ := h.replies
          rw [hreplies] at hr
          rw [h.rpcs]
          exact List.mem_append_left _
            ((List.mem_append.mp hr).elim (ih r) (hans.sent r))
      | restart h =>
          rw [h.replies] at hr
          rw [h.rpcs]
          exact ih r hr

def Run.Leads (run : Run D M) (i : ℕ) (n : NodeId) (t : ℕ) : Prop :=
  ((run.state i).nodes n).isLeader = true ∧
    ((run.state i).nodes n).currentTerm = t

/-- In its leadership of `t`, as far as it has come after `i` steps, node `n`
has had `p` as a member. -/
def Run.MemberSince (run : Run D M) (n : NodeId) (t i : ℕ) (p : NodeId) :
    Prop :=
  ∃ j, j ≤ i ∧ run.Leads j n t ∧ p ∈ ((run.state j).nodes n).members.keySet

theorem Run.MemberSince.mono {n p : NodeId} {t i j : ℕ}
    (h : run.MemberSince n t i p) (hij : i ≤ j) : run.MemberSince n t j p := by
  obtain ⟨k, hk, h⟩ := h
  exact ⟨k, hk.trans hij, h⟩

namespace Run.Trace

theorem leads_succ (T : run.Trace) {i t : ℕ} {n : NodeId}
    (h : run.Leads (i + 1) n t) :
    run.Leads i n t ∨ (T.hist i).led t = none := by
  obtain ⟨hl, rfl⟩ := h
  by_cases hn : n = (run.effect i).node
  · subst hn
    obtain ⟨_, htr, -⟩ := (T.advance i).here
    exact htr.leader hl
  · rw [Leads, ← ((T.advance i).others n hn).1]
    exact .inl ⟨hl, rfl⟩

theorem leads_led (T : run.Trace) {i t : ℕ} {n : NodeId}
    (h : run.Leads i n t) : ∃ y, (T.hist i).led t = some y := by
  obtain ⟨b, hb, -⟩ := T.leader h.1
  exact ⟨_, h.2 ▸ hb⟩

/-- Whoever has led a term before and leads it now led it all the while. -/
theorem leads_of_le (T : run.Trace) {j i t : ℕ} {n m : NodeId} (hji : j ≤ i)
    (hj : run.Leads j m t) (hi : run.Leads (i + 1) n t) :
    run.Leads i n t := by
  refine (T.leads_succ hi).resolve_right fun hnone => ?_
  obtain ⟨y, hy⟩ := T.leads_led hj
  rw [(T.le hji).led hy] at hnone
  cases hnone

/-- A replication RPC of term `t` is from a leader of `t`. -/
theorem replicates_led (T : run.Trace) {i t : ℕ} {r : Rpc M}
    (hr : r ∈ (run.state i).rpcs) (ht : r.tag.Replicates t) :
    ∃ y, (T.hist i).led t = some y := by
  have hok := (T.inv i).rpcs r hr
  obtain ⟨src, epoch, dst, request, tag⟩ := r
  cases request with
  | requestVote a =>
      obtain ⟨rfl, -⟩ := hok
      exact ht.elim
  | preVote a =>
      obtain rfl : tag = _ := hok
      exact ht.elim
  | appendEntries a =>
      obtain ⟨ha, seq, rfl, -⟩ := hok
      obtain ⟨b, hb⟩ := ha.led
      exact ⟨_, (show a.term = t from ht) ▸ hb⟩
  | installSnapshot a =>
      obtain ⟨⟨P, hP⟩, rfl⟩ := hok
      obtain ⟨b, hb⟩ := hP.led
      exact ⟨_, (show a.term = t from ht) ▸ hb⟩

end Run.Trace

theorem Cause.answers_event {t : Nat} {p dst : NodeId} {tag : Tag}
    {result : RpcResult}
    (h : (Cause.reply (tag.event dst result) : Cause M).Answers t p) :
    tag.Replicates t ∧ dst = p := by
  cases tag with
  | append => exact h
  | installSnapshot => exact h
  | preVote => exact h.elim
  | vote => exact h.elim

theorem Run.answers_sent (run : Run D M) {i t : ℕ} {a : Action V}
    {n p : NodeId} {now : Instant} {cause : Cause M}
    (hc : (run.state i).Causes a n now cause) (ha : cause.Answers t p) :
    ∃ r ∈ (run.state i).rpcs, r.src = n ∧ r.dst = p ∧
      r.tag.Replicates t := by
  cases hc with
  | timeout => exact ha.elim
  | heartbeat => exact ha.elim
  | propose => exact ha.elim
  | read => exact ha.elim
  | deliver => exact ha.elim
  | reply hr =>
      obtain ⟨ht, hp⟩ := Cause.answers_event ha
      exact ⟨_, run.replies_sent i _ (List.mem_of_getElem? hr), rfl, hp, ht⟩
  | fail hr =>
      obtain ⟨ht, hp⟩ := Cause.answers_event ha
      exact ⟨_, List.mem_of_getElem? hr, rfl, hp, ht⟩

/-- What explains a record after an event makes the peer a member of the
leadership, if that was so before. -/
theorem Known.memberSince {i t : ℕ} {p : NodeId}
    (h : (run.state i).Turn (run.action i) (run.state (i + 1))
      (run.effect i) now cause)
    (hlead : run.Leads (i + 1) (run.effect i).node t)
    (hk : Known cause ((run.state i).nodes (run.effect i).node)
      ((run.state (i + 1)).nodes (run.effect i).node) p)
    (hrec : run.Leads i (run.effect i).node t → ∀ l,
      ((run.state i).nodes (run.effect i).node).role = .leader l →
      l.lastContact p ≠ none →
        run.MemberSince (run.effect i).node t i p)
    (hsent : ∀ r ∈ (run.state i).rpcs, r.src = (run.effect i).node →
      r.tag.Replicates t →
        run.MemberSince (run.effect i).node t (i + 1) r.dst) :
    run.MemberSince (run.effect i).node t (i + 1) p := by
  obtain ⟨l', hl'⟩ := Node.isLeader_iff.mp hlead.1
  rcases hk with ⟨l, hl, ht, hp⟩ | hp | hp | hp
  · have hi : run.Leads i (run.effect i).node t :=
      ⟨Node.isLeader_iff.mpr ⟨l, hl⟩, ht.symm.trans hlead.2⟩
    exact (hrec hi l hl hp).mono (Nat.le_succ i)
  · rcases h.moves.leader hl' with ⟨hl, ht⟩ | hcamp
    · exact ⟨i, Nat.le_succ i, ⟨hl, ht.trans hlead.2⟩, hp⟩
    · -- an election leaves the membership as it was
      rcases h.moves.members_of_leader hl' with hm | ⟨m, rfl, -⟩
      · exact ⟨i + 1, le_rfl, hlead, hm ▸ hp⟩
      · exact hcamp.elim
  · exact ⟨i + 1, le_rfl, hlead, hp⟩
  · obtain ⟨r, hr, hsrc, rfl, ht⟩ := run.answers_sent h.causes hp
    exact hsent r hr hsrc (hlead.2 ▸ ht)

/-- Everyone a leader has on record, and everyone it has sent to, has been a
member in its leadership. -/
theorem Run.known_members (run : Run D M) {i t : ℕ} {n : NodeId}
    (hlead : run.Leads i n t) :
    (∀ l, ((run.state i).nodes n).role = .leader l → ∀ p,
      l.lastContact p ≠ none → run.MemberSince n t i p) ∧
    ∀ r ∈ (run.state i).rpcs, r.src = n → r.tag.Replicates t →
      run.MemberSince n t i r.dst := by
  obtain ⟨T⟩ := run.exists_trace
  induction i with
  | zero =>
      have hl := hlead.1
      rw [run.init] at hl
      cases hl
  | succ i ih =>
      -- what was sent earlier in the term, was sent in this leadership
      have hold : ∀ r ∈ (run.state i).rpcs, r.src = n →
          r.tag.Replicates t → run.MemberSince n t (i + 1) r.dst := by
        intro r hr hsrc ht
        obtain ⟨y, hy⟩ := T.replicates_led hr ht
        have hi := (T.leads_succ hlead).resolve_right fun h => by
          rw [hy] at h
          cases h
        exact ((ih hi).2 r hr hsrc ht).mono (Nat.le_succ i)
      -- a step of another node leaves all of it as it was
      have hsame : (run.state (i + 1)).nodes n = (run.state i).nodes n →
          (∀ r ∈ (run.state (i + 1)).rpcs, r.src = n →
            r ∈ (run.state i).rpcs) →
          (∀ l, ((run.state (i + 1)).nodes n).role = .leader l → ∀ p,
            l.lastContact p ≠ none → run.MemberSince n t (i + 1) p) ∧
          ∀ r ∈ (run.state (i + 1)).rpcs, r.src = n → r.tag.Replicates t →
            run.MemberSince n t (i + 1) r.dst := by
        intro hnode hrpcs
        have hi : run.Leads i n t := by
          rw [Leads, ← hnode]
          exact hlead
        rw [hnode]
        exact ⟨fun l hl p hp => ((ih hi).1 l hl p hp).mono (Nat.le_succ i),
          fun r hr hsrc => hold r (hrpcs r hr hsrc) hsrc⟩
      cases run.did i with
      | idle hc => exact hsame (by rw [hc]) fun r hr _ => by rwa [hc] at hr
      | restart h =>
          by_cases hn : n = (run.effect i).node
          · subst hn
            have hl := hlead.1
            rw [Node.isLeader, Node.role_of_spawn h.node] at hl
            cases hl
          · exact hsame (h.others n hn) fun r hr _ => by rwa [h.rpcs] at hr
      | turn now cause h =>
          by_cases hn : n = (run.effect i).node
          · subst hn
            obtain ⟨l', hl'⟩ := Node.isLeader_iff.mp hlead.1
            have hconv : ∀ p, Known cause _ _ p → run.MemberSince
                (run.effect i).node t (i + 1) p := fun p hk =>
              hk.memberSince h hlead (fun hi l hl => (ih hi).1 l hl p) hold
            refine ⟨fun l hl p hp => hconv p (h.moves.known hl hp),
              fun r hr hsrc ht => ?_⟩
            rw [h.rpcs] at hr
            rcases List.mem_append.mp hr with hr | hr
            · exact hold r hr hsrc ht
            · exact hconv _ (h.moves.replicates (run.rooted i _) hl'
                (mem_filterMap_sent hr).2.2 (hlead.2 ▸ ht))
          · refine hsame (h.others n hn) fun r hr hsrc => ?_
            rw [h.rpcs] at hr
            refine (List.mem_append.mp hr).resolve_right fun hr => hn ?_
            rw [← hsrc, (mem_filterMap_sent hr).1]

theorem Run.contact_kept (run : Run D M) {j i t : ℕ} {n p : NodeId}
    (hji : j ≤ i) (hj : run.Leads j n t) (hi : run.Leads i n t)
    (hp : p ∈ ((run.state j).nodes n).members.keySet) (hne : p ≠ n)
    {l : LeaderState} (hl : ((run.state i).nodes n).role = .leader l) :
    l.lastContact p ≠ none := by
  obtain ⟨T⟩ := run.exists_trace
  induction i, hji using Nat.le_induction generalizing l with
  | base =>
      refine (run.rooted j n l hl).members p hp ?_
      rw [run.id_eq]
      exact hne
  | succ i hji ih =>
      have hi₀ := T.leads_of_le hji hj hi
      obtain ⟨l₀, hl₀⟩ := Node.isLeader_iff.mp hi₀.1
      have hp₀ := ih hi₀ hl₀
      cases run.did i with
      | idle hc =>
          rw [hc, hl₀] at hl
          cases hl
          exact hp₀
      | turn now cause h =>
          by_cases hn : n = (run.effect i).node
          · subst hn
            exact h.moves.keeps hl₀ hp₀ (hi.2.trans hi₀.2.symm) l hl
          · rw [h.others n hn, hl₀] at hl
            cases hl
            exact hp₀
      | restart h =>
          by_cases hn : n = (run.effect i).node
          · subst hn
            rw [Node.role_of_spawn h.node] at hl
            cases hl
          · rw [h.others n hn, hl₀] at hl
            cases hl
            exact hp₀

/-- A leader has a contact time for exactly the peers that have been members
in its leadership. -/
theorem Run.contact_iff (run : Run D M) {i : ℕ} {n p : NodeId}
    {l : LeaderState} (hl : ((run.state i).nodes n).role = .leader l)
    (hp : p ≠ n) : l.lastContact p ≠ none ↔
      run.MemberSince n ((run.state i).nodes n).currentTerm i p := by
  have hi : run.Leads i n ((run.state i).nodes n).currentTerm :=
    ⟨Node.isLeader_iff.mpr ⟨l, hl⟩, rfl⟩
  constructor
  · exact (run.known_members hi).1 l hl p
  · rintro ⟨j, hji, hj, hpj⟩
    exact run.contact_kept hji hj hi hpj hp hl

end RustKV
