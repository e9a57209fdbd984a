import RustKV.Consensus.Growth

/-!
# One server against the history

A server keeps a term, its vote in it, a log, a commit index and the part it
plays. `Replica.Ok` ties that state to the history: what it holds was
written by leaders, its vote is the recorded one, nothing is recorded for it
in terms it has not reached, what it acknowledged it still holds unless a
leader elected since lacked it, and a leader's log is its term's log.

Every step a server can take is one lemma here, with the history the step
leaves behind: adopting a term, stepping down, campaigning, granting a vote,
winning, appending as a leader, accepting a leader's log, moving the commit
index as a leader or after one. `Ok.frame` says that nobody else's good
order is disturbed by any of it.
-/

namespace Consensus

variable {ι ε : Type*}

inductive Part where
  | follower
  | candidate
  | leader
  deriving DecidableEq

/-- The state of one server, its log uncompacted. -/
structure Replica (ι ε : Type*) where
  term : ℕ
  voted : Option ι
  log : List ε
  commit : ℕ
  part : Part

/-- The log a server ends with after accepting the leader's first entries
`P`: its own if it already extends them. -/
noncomputable def spliced (P L : List ε) : List ε :=
  open Classical in if P <+: L then L else P

theorem spliced_of_isPrefix {P L : List ε} (h : P <+: L) :
    spliced P L = L := if_pos h

theorem spliced_of_not {P L : List ε} (h : ¬ P <+: L) :
    spliced P L = P := if_neg h

theorem isPrefix_spliced (P L : List ε) : P <+: spliced P L := by
  by_cases h : P <+: L
  · rw [spliced_of_isPrefix h]
    exact h
  · rw [spliced_of_not h]

/-- Another prefix of the same log survives the splice. -/
theorem isPrefix_spliced_of {P L S T : List ε} (hP : P <+: T) (hS : S <+: T)
    (hSL : S <+: L) : S <+: spliced P L := by
  by_cases h : P <+: L
  · rwa [spliced_of_isPrefix h]
  · rw [spliced_of_not h]
    rcases List.prefix_or_prefix_of_prefix hS hP with h' | h'
    · exact h'
    · exact absurd (h'.trans hSL) h

namespace Replica

open History

variable {R : Rules ι ε} {H H' : History ι ε} {n : ι} {r : Replica ι ε}

/-- A server in good order with the history. -/
structure Ok (R : Rules ι ε) (H : History ι ε) (n : ι) (r : Replica ι ε) :
    Prop where
  valid : H.Valid R r.log
  log_le : ∀ e ∈ r.log, R.term e ≤ r.term
  voted_eq : r.voted = (H.vote n r.term).map Prod.fst
  vote_future : ∀ t, r.term < t → H.vote n t = none
  cand_future : ∀ t, r.term < t → H.cand n t = none
  led_le : ∀ {t b}, H.led t = some (n, b) → t ≤ r.term
  ack_kept : ∀ {t k}, H.ack n t k →
    t ≤ r.term ∧ H.Kept t k r.log (r.term + 1)
  candidate : r.part = .candidate →
    H.cand n r.term = some r.log ∧ ∀ b, H.led r.term ≠ some (n, b)
  leader : r.part = .leader →
    ∃ b, H.led r.term = some (n, b) ∧ H.tlog r.term = r.log
  commit_le : r.commit ≤ r.log.length
  committed : H.CommittedAt r.term (r.log.take r.commit)
  /-- A leader's commit index is the last one it recorded. -/
  commit_max : r.part = .leader → ∀ k m, H.commit r.term k m → k ≤ r.commit
  commit_own : r.part = .leader → ∀ b, H.led r.term = some (n, b) →
    b.length < r.commit → ∃ m, H.commit r.term r.commit m

theorem Ok.empty (n : ι) :
    Ok R (History.empty : History ι ε) n ⟨0, none, [], 0, .follower⟩ where
  valid := Valid.nil
  log_le e he := by cases he
  voted_eq := rfl
  vote_future _ _ := rfl
  cand_future _ _ := rfl
  led_le h := by cases h
  ack_kept h := h.elim
  candidate h := by cases h
  leader h := by cases h
  commit_le := le_rfl
  committed := .inl rfl
  commit_max h := by cases h
  commit_own h := by cases h

/-- Whoever acknowledged what was committed still holds it. -/
theorem Ok.holds_commit [DecidableEq ι] (hW : H.Wf R) (h : r.Ok R H n)
    {t k m : ℕ} (hc : H.commit t k m) (ha : H.ack n t k) :
    (H.tlog t).take k <+: r.log := by
  rcases (h.ack_kept ha).2 with hp | ⟨t', n', b, ht, -, hl, hnot⟩
  · exact hp
  · exact absurd (hW.led_holds hl t k m ht hc) hnot

/-- A server in the leader's term whose log extends the leader's, an entry of
that term included, has just the leader's log. -/
theorem Ok.eq_tlog [DecidableEq ι] (hW : H.Wf R) (h : r.Ok R H n) {m : ι}
    {b : List ε} (hl : H.led r.term = some (m, b))
    (hb : b.length < (H.tlog r.term).length)
    (hpre : H.tlog r.term <+: r.log) : r.log = H.tlog r.term := by
  rcases hpre.length_le.eq_or_lt with heq | hlt
  · exact (hpre.eq_of_length heq).symm
  · -- the entry after it would be of that term too, and hence the leader's
    have hx : r.log[(H.tlog r.term).length - 1]? =
        some (H.tlog r.term)[(H.tlog r.term).length - 1] :=
      getElem?_of_isPrefix hpre (List.getElem?_eq_getElem _)
    have he : r.log[(H.tlog r.term).length]? =
        some r.log[(H.tlog r.term).length] := List.getElem?_eq_getElem _
    have hxt := (hW.led_log hl).2 _ _
      (List.getElem?_eq_getElem (by omega)) (Nat.le_sub_one_of_lt hb)
    have hmono := h.valid.term_mono hW (Nat.sub_le _ 1) hx he
    have hle := h.log_le _ (List.mem_of_getElem? he)
    obtain ⟨-, -, -, -, htake⟩ := h.valid _ _ he
    rw [show R.term r.log[(H.tlog r.term).length] = r.term by omega] at htake
    have := htake.length_le
    rw [List.length_take] at this
    omega

/-! ## Steps that leave no record -/

theorem Ok.adoptTerm (h : r.Ok R H n) {t : ℕ} (ht : r.term < t) :
    Ok R H n { r with term := t, voted := none, part := .follower } where
  valid := h.valid
  log_le e he := (h.log_le e he).trans ht.le
  voted_eq := by rw [h.vote_future t ht]; rfl
  vote_future u hu := h.vote_future u (ht.trans hu)
  cand_future u hu := h.cand_future u (ht.trans hu)
  led_le hl := (h.led_le hl).trans ht.le
  ack_kept ha := ⟨(h.ack_kept ha).1.trans ht.le,
    (h.ack_kept ha).2.weaken (Nat.succ_le_succ ht.le)⟩
  candidate hp := by cases hp
  leader hp := by cases hp
  commit_le := h.commit_le
  committed := h.committed.mono (Le.refl H) ht.le
  commit_max hp := by cases hp
  commit_own hp := by cases hp

theorem Ok.stepDown (h : r.Ok R H n) :
    Ok R H n { r with part := .follower } where
  valid := h.valid
  log_le := h.log_le
  voted_eq := h.voted_eq
  vote_future := h.vote_future
  cand_future := h.cand_future
  led_le := h.led_le
  ack_kept := h.ack_kept
  candidate hp := by cases hp
  leader hp := by cases hp
  commit_le := h.commit_le
  committed := h.committed
  commit_max hp := by cases hp
  commit_own hp := by cases hp

/-- A server that does not lead moves its commit index over a part it holds
and knows to be committed. -/
theorem Ok.learn (h : r.Ok R H n) {k : ℕ} (hp : r.part ≠ .leader)
    (hk : k ≤ r.log.length) (hc : H.CommittedAt r.term (r.log.take k)) :
    Ok R H n { r with commit := k } where
  valid := h.valid
  log_le := h.log_le
  voted_eq := h.voted_eq
  vote_future := h.vote_future
  cand_future := h.cand_future
  led_le := h.led_le
  ack_kept := h.ack_kept
  candidate := h.candidate
  leader := h.leader
  commit_le := hk
  committed := hc
  commit_max hl := absurd hl hp
  commit_own hl := absurd hl hp

theorem Ok.addHeard (h : r.Ok R H n) (m v : ι) (t q : ℕ) :
    r.Ok R (H.addHeard m t v q) n where
  valid := h.valid
  log_le := h.log_le
  voted_eq := h.voted_eq
  vote_future := h.vote_future
  cand_future := h.cand_future
  led_le := h.led_le
  ack_kept := h.ack_kept
  candidate := h.candidate
  leader := h.leader
  commit_le := h.commit_le
  committed := h.committed
  commit_max := h.commit_max
  commit_own := h.commit_own

end Replica

variable [DecidableEq ι] {R : Rules ι ε} {H H' : History ι ε} {n : ι}

namespace History

/-- What was committed up to a term lies in the log of that term's leader. -/
theorem Wf.committed_tlog (hW : H.Wf R) {t : ℕ} {x : ι × List ε}
    {P : List ε} (hl : H.led t = some x) (hc : H.CommittedAt t P) :
    P <+: H.tlog t := by
  rcases hc with rfl | ⟨t₀, k, m, ht, hcm, hp⟩
  · exact List.nil_prefix
  · rcases Nat.lt_or_ge t₀ t with hlt | hge
    · obtain ⟨p, b⟩ := x
      exact (hp.trans (hW.led_holds hl t₀ k m hlt hcm)).trans
        (hW.led_log hl).1
    · obtain rfl : t₀ = t := by omega
      exact hp.trans <| List.take_prefix _ _

theorem Wf.committed_comparable (hW : H.Wf R) {t t' : ℕ} {P P' : List ε}
    (hc : H.CommittedAt t P) (hc' : H.CommittedAt t' P') :
    P <+: P' ∨ P' <+: P := by
  rcases hc with rfl | ⟨s, k, m, -, hcm, hp⟩
  · exact .inl List.nil_prefix
  rcases hc' with rfl | ⟨s', k', m', -, hcm', hp'⟩
  · exact .inr List.nil_prefix
  obtain ⟨_, _, hl, -⟩ := hW.commit_ok hcm
  obtain ⟨_, _, hl', -⟩ := hW.commit_ok hcm'
  rcases le_total s s' with h | h
  · exact List.prefix_or_prefix_of_prefix
      (hW.committed_tlog hl' (.inr ⟨s, k, m, h, hcm, hp⟩))
      (hp'.trans <| List.take_prefix _ _)
  · exact List.prefix_or_prefix_of_prefix (hp.trans <| List.take_prefix _ _)
      (hW.committed_tlog hl (.inr ⟨s', k', m', h, hcm', hp'⟩))

end History

namespace Replica

open History

variable {r : Replica ι ε}

/-- Nobody else's records disturb a server. -/
theorem Ok.frame {m : ι} (hW : H.Wf R) (h : r.Ok R H m) (hmn : m ≠ n)
    (hf : Frame n H H') : r.Ok R H' m where
  valid := h.valid.mono hf.toLe
  log_le := h.log_le
  voted_eq := by rw [hf.vote_frame hmn]; exact h.voted_eq
  vote_future t ht := by rw [hf.vote_frame hmn]; exact h.vote_future t ht
  cand_future t ht := by rw [hf.cand_frame hmn]; exact h.cand_future t ht
  led_le hl := h.led_le (hf.led_frame hmn hl)
  ack_kept ha := by
    have ha' := hf.ack_frame hmn ha
    exact ⟨(h.ack_kept ha').1,
      (h.ack_kept ha').2.mono hf.toLe (hW.ack_led ha').1⟩
  candidate hp := by
    obtain ⟨h1, h2⟩ := h.candidate hp
    exact ⟨hf.cand h1, fun b hb => h2 b (hf.led_frame hmn hb)⟩
  leader hp := by
    obtain ⟨b, h1, h2⟩ := h.leader hp
    exact ⟨b, hf.led h1, (hf.tlog_frame hmn h1).trans h2⟩
  commit_le := h.commit_le
  committed := h.committed.mono hf.toLe le_rfl
  commit_max hp k l hc := by
    obtain ⟨b, h1, -⟩ := h.leader hp
    exact h.commit_max hp k l (hf.commit_frame hmn (hf.led h1) hc)
  commit_own hp b hb hlt := by
    obtain ⟨l, hl⟩ := h.commit_own hp b (hf.led_frame hmn hb) hlt
    exact ⟨l, hf.commit hl⟩

/-! ## Elections -/

theorem Ok.campaign (hW : H.Wf R) (h : r.Ok R H n) :
    ∃ H', Frame n H H' ∧ H'.Wf R ∧ SameLeaders H H' ∧
      H'.vote n (r.term + 1) = some (n, r.log) ∧
      Ok R H' n { r with term := r.term + 1, voted := some n
                         part := .candidate } := by
  have hterm : r.term < r.term + 1 := Nat.lt_succ_self _
  have hcand := h.cand_future _ hterm
  have hvote := h.vote_future _ hterm
  have hlog : ∀ e ∈ r.log, R.term e < r.term + 1 :=
    fun e he => Nat.lt_succ_of_le (h.log_le e he)
  have hW₁ := hW.addCand hcand h.valid hlog (Nat.succ_pos _)
  have hcand₁ : (H.addCand n (r.term + 1) r.log).cand n (r.term + 1) =
      some r.log := by simp [addCand]
  have hW₂ := hW₁.addVote (v := n) hvote
    (h.valid.mono (addCand_frame hcand).toLe) hcand₁ (.inr ⟨rfl, le_rfl⟩)
    (fun t₀ k ha ht => (h.ack_kept ha).2.weaken (by omega))
  refine ⟨_, (addCand_frame hcand).trans (addVote_frame hvote), hW₂,
    ⟨rfl, rfl, rfl, rfl, rfl⟩, by simp [addVote], ?_⟩
  refine
    { valid := h.valid.mono
        ((addCand_frame hcand).trans (addVote_frame hvote)).toLe
      log_le := fun e he => (hlog e he).le
      voted_eq := by simp [addVote]
      vote_future := fun t ht => ?_, cand_future := fun t ht => ?_
      led_le := fun hl => (h.led_le hl).trans hterm.le
      ack_kept := fun ha => ⟨(h.ack_kept ha).1.trans hterm.le,
        (h.ack_kept ha).2.weaken (by simp)⟩
      candidate := fun _ => ⟨hcand₁, fun b hb => ?_⟩
      leader := fun hp => by cases hp
      commit_le := h.commit_le
      committed := h.committed.mono
        ((addCand_frame hcand).trans (addVote_frame hvote)).toLe hterm.le
      commit_max := fun hp => by cases hp
      commit_own := fun hp => by cases hp }
  · rw [addVote_of_ne (Nat.ne_of_gt ht)]
    exact h.vote_future t (hterm.trans ht)
  · exact (addCand_of_ne (Nat.ne_of_gt ht)).trans
      (h.cand_future t (hterm.trans ht))
  · have := h.led_le (show H.led (r.term + 1) = some (n, b) from hb)
    omega

theorem Ok.grant (hW : H.Wf R) (h : r.Ok R H n) {c : ι} {L : List ε}
    (hc : H.cand c r.term = some L) (hup : R.UpToDate L r.log)
    (hv : r.voted = none ∨ r.voted = some c) :
    ∃ H', Frame n H H' ∧ H'.Wf R ∧ SameLeaders H H' ∧
      (∃ K, H'.vote n r.term = some (c, K)) ∧
      Ok R H' n { r with voted := some c } := by
  have hvoted := h.voted_eq
  rcases hv with hv | hv
  · rw [hv] at hvoted
    have hnone : H.vote n r.term = none := by
      cases hx : H.vote n r.term with
      | none => rfl
      | some x => rw [hx] at hvoted; cases hvoted
    refine ⟨_, addVote_frame (n := c) (K := r.log) hnone,
      hW.addVote hnone h.valid hc hup
        (fun t₀ k ha _ => (h.ack_kept ha).2),
      ⟨rfl, rfl, rfl, rfl, rfl⟩, ⟨r.log, by simp [addVote]⟩, ?_⟩
    exact
      { valid := h.valid.mono (addVote_frame hnone).toLe
        log_le := h.log_le
        voted_eq := by simp [addVote]
        vote_future := fun t ht => by
          rw [addVote_of_ne (Nat.ne_of_gt ht)]
          exact h.vote_future t ht
        cand_future := h.cand_future
        led_le := h.led_le
        ack_kept := h.ack_kept
        candidate := h.candidate
        leader := h.leader
        commit_le := h.commit_le
        committed := h.committed
        commit_max := h.commit_max
        commit_own := h.commit_own }
  · rw [hv] at hvoted
    obtain ⟨⟨c', K⟩, hK, hc'⟩ := Option.map_eq_some_iff.mp hvoted.symm
    simp only at hc'
    subst hc'
    refine ⟨H, Frame.refl n H, hW, SameLeaders.refl H, ⟨K, hK⟩, ?_⟩
    have hr : { r with voted := some c' } = r := by rw [← hv]
    rw [hr]
    exact h

/-- A candidate with a majority of its own configuration is the first to win
its term, and leads it. -/
theorem Ok.win (hW : H.Wf R) (h : r.Ok R H n) (hp : r.part = .candidate)
    {Q : Finset ι} (hQ : IsMajority Q (R.cfg r.log))
    (hv : ∀ v ∈ Q, ∃ K, H.vote v r.term = some (n, K)) :
    H.led r.term = none ∧ (H.elect r.term n r.log).Wf R ∧
      Ok R (H.elect r.term n r.log) n { r with part := .leader } := by
  obtain ⟨hcand, hnot⟩ := h.candidate hp
  have hwins : H.Wins R n r.term r.log := ⟨hcand, Q, hQ, hv⟩
  have hnone : H.led r.term = none := by
    cases hl : H.led r.term with
    | none => rfl
    | some x =>
        obtain ⟨m, b⟩ := x
        obtain rfl := hW.wins_unique (hW.wins_of_led hl) hwins
        exact absurd hl (hnot b)
  have hle : Le H (H.elect r.term n r.log) :=
    (elect_frame (n := n) hW hnone).toLe
  have hled : (H.elect r.term n r.log).led r.term = some (n, r.log) := by
    simp [elect]
  have hnocommit : ∀ k m, ¬ H.commit r.term k m := by
    intro k m hc
    obtain ⟨_, _, hl, -⟩ := hW.commit_ok hc
    rw [hnone] at hl
    cases hl
  refine ⟨hnone, hW.elect hnone hwins, ?_⟩
  refine
    { valid := h.valid.mono hle
      log_le := h.log_le
      voted_eq := h.voted_eq
      vote_future := h.vote_future
      cand_future := h.cand_future
      led_le := fun {t b} hl => ?_
      ack_kept := fun ha => ⟨(h.ack_kept ha).1,
        (h.ack_kept ha).2.mono hle (hW.ack_led ha).1⟩
      candidate := fun hp => by cases hp
      leader := fun _ => ⟨r.log, hled, by simp [elect]⟩
      commit_le := h.commit_le
      committed := h.committed.mono hle le_rfl
      commit_max := fun _ k m hc => absurd hc (hnocommit k m)
      commit_own := fun _ b hb hlt => ?_ }
  · by_cases ht : t = r.term
    · exact ht.le
    · simp only [elect, if_neg ht] at hl
      exact h.led_le hl
  · rw [hled] at hb
    obtain ⟨-, rfl⟩ : n = n ∧ r.log = b := by simpa using hb
    exact absurd h.commit_le (by simp only at hlt; omega)

/-! ## Logs -/

/-- A leader appends an entry of its own term; a configuration entry only one
server away, and past a commit covering all earlier ones. -/
theorem Ok.append (hW : H.Wf R) (h : r.Ok R H n) (hp : r.part = .leader)
    {e : ε} (ht : R.term e = r.term)
    (hcfg : ∀ C, R.config e = some C → Near (R.cfg r.log) C ∧
      ∃ k m, H.commit r.term k m ∧ ∀ i x, r.log[i]? = some x →
        R.config x ≠ none → i < k) :
    Frame n H (H.extend r.term e) ∧ (H.extend r.term e).Wf R ∧
      Ok R (H.extend r.term e) n { r with log := r.log ++ [e] } := by
  obtain ⟨b, hl, htl⟩ := h.leader hp
  have hf := extend_frame (e := e) hl
  have hW' := hW.extend hl ht (htl ▸ hcfg)
  have hnew : (H.extend r.term e).tlog r.term = r.log ++ [e] := by
    simp only [extend, if_true, htl]
  refine ⟨hf, hW', ?_⟩
  exact
    { valid := hnew ▸ hW'.tlog_valid r.term
      log_le := by
        intro x hx
        rcases List.mem_append.mp hx with hx | hx
        · exact h.log_le x hx
        · rw [List.mem_singleton.mp hx, ht]
      voted_eq := h.voted_eq
      vote_future := h.vote_future
      cand_future := h.cand_future
      led_le := h.led_le
      ack_kept := by
        intro t k ha
        refine ⟨(h.ack_kept ha).1, ?_⟩
        rcases (h.ack_kept ha).2.mono hf.toLe (hW.ack_led ha).1 with hk | hk
        · exact .inl (hk.trans (List.prefix_append _ _))
        · exact .inr hk
      candidate := fun hc => by rw [hp] at hc; cases hc
      leader := fun _ => ⟨b, hl, hnew⟩
      commit_le := h.commit_le.trans (by simp)
      committed := by
        simp only [List.take_append_of_le_length h.commit_le]
        exact h.committed.mono hf.toLe le_rfl
      commit_max := h.commit_max
      commit_own := h.commit_own }

/-- A follower in the term of a leader takes over the first `j` entries of
that leader's log, keeping its own suffix if it agrees. -/
theorem Ok.accept (hW : H.Wf R) (h : r.Ok R H n) (hp : r.part = .follower)
    {x : ι × List ε} (hl : H.led r.term = some x) {j : ℕ}
    (hj : j ≤ (H.tlog r.term).length) :
    (H.addAck n r.term j).Wf R ∧
      (spliced ((H.tlog r.term).take j) r.log).take r.commit =
        r.log.take r.commit ∧
      Ok R (H.addAck n r.term j) n
        { r with log := spliced ((H.tlog r.term).take j) r.log } := by
  set T := H.tlog r.term with hT
  have hPT : T.take j <+: T := List.take_prefix _ _
  have hle : Le H (H.addAck n r.term j) := addAck_frame.toLe
  -- the committed part lies in the leader's log, so the splice keeps it
  have hcT := hW.committed_tlog hl h.committed
  have hkeep : r.log.take r.commit <+: spliced (T.take j) r.log :=
    isPrefix_spliced_of hPT hcT <| List.take_prefix _ _
  have hlen : (r.log.take r.commit).length = r.commit := by
    rw [List.length_take]
    exact Nat.min_eq_left h.commit_le
  have hsame : (spliced (T.take j) r.log).take r.commit =
      r.log.take r.commit := by
    rw [take_eq_of_isPrefix hkeep hlen.ge, List.take_take, Nat.min_self]
  have hsub : ∀ e ∈ spliced (T.take j) r.log, R.term e ≤ r.term := by
    intro e he
    by_cases hpre : T.take j <+: r.log
    · rw [spliced_of_isPrefix hpre] at he
      exact h.log_le e he
    · rw [spliced_of_not hpre] at he
      obtain ⟨i, hi⟩ := List.getElem?_of_mem he
      exact hW.tlog_term_le (getElem?_of_isPrefix hPT hi)
  refine ⟨hW.addAck hl hj h.vote_future, hsame, ?_⟩
  refine
    { valid := ?_
      log_le := hsub
      voted_eq := h.voted_eq
      vote_future := h.vote_future
      cand_future := h.cand_future
      led_le := h.led_le
      ack_kept := ?_
      candidate := fun hc => by rw [hp] at hc; cases hc
      leader := fun hc => by rw [hp] at hc; cases hc
      commit_le := ?_
      committed := ?_
      commit_max := fun hc => by rw [hp] at hc; cases hc
      commit_own := fun hc => by rw [hp] at hc; cases hc }
  · by_cases hpre : T.take j <+: r.log
    · rw [spliced_of_isPrefix hpre]
      exact h.valid.mono hle
    · rw [spliced_of_not hpre]
      exact ((hW.tlog_valid r.term).shorten hPT).mono hle
  · intro t k ha
    rcases ha with ha | ⟨-, rfl, hk⟩
    · obtain ⟨htle, hkept⟩ := h.ack_kept ha
      refine ⟨htle, ?_⟩
      rcases hkept with hkp | hkp
      · -- lost only if the splice replaced the log, and then the leader of
        -- this term was elected without it
        by_cases hS : (H.tlog t).take k <+: T
        · exact .inl (isPrefix_spliced_of hPT hS hkp)
        · rcases Nat.lt_or_ge t r.term with hlt | hge
          · obtain ⟨p, b⟩ := x
            exact .inr ⟨r.term, p, b, hlt, Nat.lt_succ_self _, hl,
              fun hb => hS (hb.trans (hW.led_log hl).1)⟩
          · obtain rfl : t = r.term := by omega
            exact absurd hS <| not_not.mpr <| List.take_prefix _ _
      · exact .inr hkp
    · refine ⟨le_rfl, .inl ?_⟩
      refine List.IsPrefix.trans ?_ (isPrefix_spliced (T.take j) r.log)
      refine List.prefix_of_prefix_length_le ?_ hPT ?_
      · exact List.take_prefix _ _
      · rw [List.length_take, List.length_take]
        omega
  · have := hkeep.length_le
    simpa [hlen] using this
  · simp only [hsame]
    exact h.committed

/-! ## Commits -/

/-- A leader moves its commit index to an entry of its own term that a
majority of its configuration has acknowledged, itself included only as a
member. -/
theorem Ok.commitOwn (hW : H.Wf R) (h : r.Ok R H n) (hp : r.part = .leader)
    {k : ℕ} {e : ε} (hk : r.commit < k) (he : r.log[k - 1]? = some e)
    (ht : R.term e = r.term) {Q : Finset ι}
    (hQ : IsMajority Q (R.cfg r.log))
    (hack : ∀ v ∈ Q, v ≠ n → H.ack v r.term k) :
    Frame n H ((H.addAck n r.term r.log.length).addCommit
        r.term k r.log.length) ∧
      ((H.addAck n r.term r.log.length).addCommit
        r.term k r.log.length).Wf R ∧
      Ok R ((H.addAck n r.term r.log.length).addCommit
        r.term k r.log.length) n { r with commit := k } := by
  obtain ⟨b, hl, htl⟩ := h.leader hp
  have hkl := lt_length_of_getElem? he
  have hbk : b.length < k := by
    by_contra hge
    have hbase := hW.base_ok hl
    have hpre := (hW.led_log hl).1
    have hbe : b[k - 1]? = some e := by
      rw [← htl] at he
      obtain ⟨S, hS⟩ := hpre
      rw [← hS, List.getElem?_append_left (by omega)] at he
      exact he
    have := hbase.2 e (List.mem_of_getElem? hbe)
    omega
  have hW₁ := hW.addAck (v := n) hl (k := r.log.length) (by rw [htl])
    h.vote_future
  have hf₁ : Frame n H (H.addAck n r.term r.log.length) := addAck_frame
  have hl₁ : (H.addAck n r.term r.log.length).led r.term = some (n, b) := hl
  have htake : (H.tlog r.term).take r.log.length = r.log := by
    rw [htl, List.take_length]
  have hW₂ := hW₁.addCommit (m := r.log.length) hl₁ hbk (by omega)
    (by rw [show (H.addAck n r.term r.log.length).tlog r.term = r.log
          from htl])
    (Q := Q)
    (by
      rw [show ((H.addAck n r.term r.log.length).tlog r.term).take
          r.log.length = r.log from htake]
      exact hQ)
    (fun v hv => by
      by_cases hvn : v = n
      · exact .inr ⟨hvn, rfl, by omega⟩
      · exact .inl (hack v hv hvn))
  refine ⟨hf₁.trans (addCommit_frame hl₁), hW₂, ?_⟩
  refine
    { valid := h.valid
      log_le := h.log_le
      voted_eq := h.voted_eq
      vote_future := h.vote_future
      cand_future := h.cand_future
      led_le := h.led_le
      ack_kept := ?_
      candidate := h.candidate
      leader := h.leader
      commit_le := by simp only; omega
      committed := .inr ⟨r.term, k, r.log.length, le_rfl,
        .inr ⟨rfl, rfl, rfl⟩, ?_⟩
      commit_max := ?_
      commit_own := fun _ _ _ _ => ⟨r.log.length, .inr ⟨rfl, rfl, rfl⟩⟩ }
  · intro t j ha
    rcases ha with ha | ⟨-, rfl, hj⟩
    · exact h.ack_kept ha
    · refine ⟨le_rfl, .inl ?_⟩
      exact (congrArg (List.take j) htl).symm ▸ List.take_prefix _ _
  · exact (congrArg (List.take k) htl).symm ▸ List.prefix_rfl
  · intro _ j m hc
    rcases hc with hc | ⟨-, rfl, -⟩
    · exact (h.commit_max hp j m hc).trans hk.le
    · exact le_rfl

/-! ## Tags -/

theorem Ok.setSeq (h : r.Ok R H n) (t q : ℕ) : r.Ok R (H.setSeq n t q) n where
  valid := h.valid
  log_le := h.log_le
  voted_eq := h.voted_eq
  vote_future := h.vote_future
  cand_future := h.cand_future
  led_le := h.led_le
  ack_kept := h.ack_kept
  candidate := h.candidate
  leader := h.leader
  commit_le := h.commit_le
  committed := h.committed
  commit_max := h.commit_max
  commit_own := h.commit_own

end Replica

end Consensus
