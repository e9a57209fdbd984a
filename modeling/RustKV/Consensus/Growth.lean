import RustKV.Consensus.Completeness

/-!
# Writing one record

Each way a history can grow, with the facts the record must be written with.
The lemmas come in pairs: the new history is well formed (`Wf.…`), and it
grew by records of the writing server alone (`…_frame`). Nothing in here
looks at a server's state; `Replica.lean` shows that a server in good order
always has the facts at hand.
-/

namespace Consensus.History

variable {ι ε : Type*} [DecidableEq ι] {R : Rules ι ε} {H : History ι ε}

/-- `n` enters the election of `t` with the log `L`. -/
def addCand (H : History ι ε) (n : ι) (t : ℕ) (L : List ε) : History ι ε :=
  { H with cand := fun m u => if m = n ∧ u = t then some L else H.cand m u }

/-- `v`, holding `K`, votes for `n` in term `t`. -/
def addVote (H : History ι ε) (v : ι) (t : ℕ) (n : ι) (K : List ε) :
    History ι ε :=
  { H with
    vote := fun m u => if m = v ∧ u = t then some (n, K) else H.vote m u }

def elect (H : History ι ε) (t : ℕ) (n : ι) (b : List ε) : History ι ε :=
  { H with
    led := fun u => if u = t then some (n, b) else H.led u
    tlog := fun u => if u = t then b else H.tlog u }

def extend (H : History ι ε) (t : ℕ) (e : ε) : History ι ε :=
  { H with tlog := fun u => if u = t then H.tlog t ++ [e] else H.tlog u }

/-- `v` acknowledges the first `k` entries of term `t`'s log. -/
def addAck (H : History ι ε) (v : ι) (t k : ℕ) : History ι ε :=
  { H with ack := fun m u j => H.ack m u j ∨ (m = v ∧ u = t ∧ j ≤ k) }

/-- The leader of `t`, its log `m` long, moves its commit index to `k`. -/
def addCommit (H : History ι ε) (t k m : ℕ) : History ι ε :=
  { H with commit := fun u j l => H.commit u j l ∨ (u = t ∧ j = k ∧ l = m) }

/-- The leader `n` of `t` tags its messages with at least `q` from now on. -/
def setSeq (H : History ι ε) (n : ι) (t q : ℕ) : History ι ε :=
  { H with seq := fun m u => if m = n ∧ u = t then max (H.seq m u) q
      else H.seq m u }

/-- `v` answers a message that the leader `n` of `t` tagged `q`. -/
def addHeard (H : History ι ε) (n : ι) (t : ℕ) (v : ι) (q : ℕ) :
    History ι ε :=
  { H with heard := fun m u w p => H.heard m u w p ∨
      (m = n ∧ u = t ∧ w = v ∧ p = q) }

/-! ## Campaigns and votes -/

theorem addCand_of_ne {n m : ι} {t u : ℕ} {L : List ε} (h : u ≠ t) :
    (H.addCand n t L).cand m u = H.cand m u :=
  if_neg fun hmu => h hmu.2

theorem addVote_of_ne {v m n : ι} {t u : ℕ} {K : List ε} (h : u ≠ t) :
    (H.addVote v t n K).vote m u = H.vote m u :=
  if_neg fun hmu => h hmu.2

theorem addCand_frame {n : ι} {t : ℕ} {L : List ε}
    (h : H.cand n t = none) : Frame n H (H.addCand n t L) where
  toLe := { Le.refl H with
    cand := by
      intro m u K hK
      by_cases hmu : m = n ∧ u = t
      · obtain ⟨rfl, rfl⟩ := hmu
        rw [h] at hK
        cases hK
      · simp only [addCand, if_neg hmu]
        exact hK }
  cand_frame hm := by simp [addCand, hm]
  vote_frame _ := rfl
  led_frame _ h := h
  tlog_frame _ _ := rfl
  ack_frame _ h := h
  commit_frame _ _ h := h
  seq_frame _ := rfl

theorem Wf.addCand (hW : H.Wf R) {n : ι} {t : ℕ} {L : List ε}
    (h : H.cand n t = none) (hL : H.Valid R L)
    (hLt : ∀ e ∈ L, R.term e < t) (ht : 0 < t) : (H.addCand n t L).Wf R where
  cand_ok := by
    intro m u K hK
    by_cases hmu : m = n ∧ u = t
    · obtain ⟨rfl, rfl⟩ := hmu
      simp only [History.addCand, and_self, if_true, Option.some.injEq] at hK
      subst hK
      exact ⟨hL, hLt⟩
    · simp only [History.addCand, if_neg hmu] at hK
      exact hW.cand_ok hK
  cand_pos := by
    intro m u K hK
    by_cases hmu : m = n ∧ u = t
    · omega
    · simp only [History.addCand, if_neg hmu] at hK
      exact hW.cand_pos hK
  vote_ok hv := by
    obtain ⟨h1, K, h2, h3⟩ := hW.vote_ok hv
    exact ⟨h1, K, (addCand_frame h).cand h2, h3⟩
  vote_kept := hW.vote_kept
  led_won hl := by
    obtain ⟨h1, h2⟩ := hW.led_won hl
    exact ⟨(addCand_frame h).cand h1, h2⟩
  led_log := hW.led_log
  tlog_none := hW.tlog_none
  ack_led := hW.ack_led
  ack_down := hW.ack_down
  commit_ok := hW.commit_ok
  config_ok := hW.config_ok
  heard_le := hW.heard_le

theorem addVote_frame {v n : ι} {t : ℕ} {K : List ε}
    (h : H.vote v t = none) : Frame v H (H.addVote v t n K) where
  toLe := { Le.refl H with
    vote := by
      intro m u x hx
      by_cases hmu : m = v ∧ u = t
      · obtain ⟨rfl, rfl⟩ := hmu
        rw [h] at hx
        cases hx
      · simp only [addVote, if_neg hmu]
        exact hx }
  cand_frame _ := rfl
  vote_frame hm := by simp [addVote, hm]
  led_frame _ h := h
  tlog_frame _ _ := rfl
  ack_frame _ h := h
  commit_frame _ _ h := h
  seq_frame _ := rfl

theorem Wf.addVote (hW : H.Wf R) {v n : ι} {t : ℕ} {L K : List ε}
    (h : H.vote v t = none) (hK : H.Valid R K) (hL : H.cand n t = some L)
    (hup : R.UpToDate L K)
    (hkept : ∀ t₀ k, H.ack v t₀ k → t₀ < t → H.Kept t₀ k K (t + 1)) :
    (H.addVote v t n K).Wf R where
  cand_ok := hW.cand_ok
  cand_pos := hW.cand_pos
  vote_ok := by
    intro m u p J hJ
    by_cases hmu : m = v ∧ u = t
    · obtain ⟨rfl, rfl⟩ := hmu
      simp only [History.addVote, and_self, if_true, Option.some.injEq,
        Prod.mk.injEq] at hJ
      obtain ⟨rfl, rfl⟩ := hJ
      exact ⟨hK, L, hL, hup⟩
    · simp only [History.addVote, if_neg hmu] at hJ
      exact hW.vote_ok hJ
  vote_kept := by
    intro m u p J t₀ k hJ ha ht
    by_cases hmu : m = v ∧ u = t
    · obtain ⟨rfl, rfl⟩ := hmu
      simp only [History.addVote, and_self, if_true, Option.some.injEq,
        Prod.mk.injEq] at hJ
      obtain ⟨rfl, rfl⟩ := hJ
      exact hkept t₀ k ha ht
    · simp only [History.addVote, if_neg hmu] at hJ
      exact hW.vote_kept hJ ha ht
  led_won hl := by
    obtain ⟨h1, Q, hQ, hv⟩ := hW.led_won hl
    refine ⟨h1, Q, hQ, fun w hw => ?_⟩
    obtain ⟨J, hJ, hk⟩ := hv w hw
    exact ⟨J, (addVote_frame h).vote hJ, hk⟩
  led_log := hW.led_log
  tlog_none := hW.tlog_none
  ack_led := hW.ack_led
  ack_down := hW.ack_down
  commit_ok := hW.commit_ok
  config_ok := hW.config_ok
  heard_le := hW.heard_le

/-! ## Leaders and their logs -/

theorem elect_frame (hW : H.Wf R) {n : ι} {t : ℕ} {b : List ε}
    (h : H.led t = none) : Frame n H (H.elect t n b) where
  toLe := { Le.refl H with
    led := by
      intro u x hx
      have hu : u ≠ t := by rintro rfl; rw [h] at hx; cases hx
      simp only [elect, if_neg hu]
      exact hx
    tlog := by
      intro u
      by_cases hu : u = t
      · subst hu
        rw [hW.tlog_none h]
        exact List.nil_prefix
      · simp only [elect, if_neg hu]
        exact List.prefix_rfl }
  cand_frame _ := rfl
  vote_frame _ := rfl
  led_frame := by
    intro m u c hm hl
    by_cases hu : u = t
    · simp only [elect, if_pos hu, Option.some.injEq, Prod.mk.injEq] at hl
      exact absurd hl.1.symm hm
    · simpa only [elect, if_neg hu] using hl
  tlog_frame := by
    intro m u c hm hl
    have hu : u ≠ t := by rintro rfl; rw [h] at hl; cases hl
    simp only [elect, if_neg hu]
  ack_frame _ h := h
  commit_frame _ _ h := h
  seq_frame _ := rfl

theorem Wf.elect (hW : H.Wf R) {n : ι} {t : ℕ} {b : List ε}
    (h : H.led t = none) (hw : H.Wins R n t b) : (H.elect t n b).Wf R := by
  have hle : Le H (H.elect t n b) := (elect_frame (n := n) hW h).toLe
  have hold : ∀ {u : ℕ}, u ≠ t → (H.elect t n b).led u = H.led u ∧
      (H.elect t n b).tlog u = H.tlog u := by
    intro u hu
    simp only [History.elect, if_neg hu, and_self]
  have hnew : (H.elect t n b).led t = some (n, b) ∧
      (H.elect t n b).tlog t = b := by
    simp only [History.elect, if_true, and_self]
  refine
    { cand_ok := fun hc => ⟨(hW.cand_ok hc).1.mono hle, (hW.cand_ok hc).2⟩
      cand_pos := hW.cand_pos
      vote_ok := fun hv => ⟨(hW.vote_ok hv).1.mono hle, (hW.vote_ok hv).2⟩
      vote_kept := fun hv ha ht =>
        (hW.vote_kept hv ha ht).mono hle (hW.ack_led ha).1
      led_won := ?_, led_log := ?_, tlog_none := ?_, ack_led := ?_
      ack_down := hW.ack_down, commit_ok := ?_, config_ok := ?_
      heard_le := hW.heard_le }
  · intro u m c hl
    by_cases hu : u = t
    · subst hu
      rw [hnew.1] at hl
      obtain ⟨rfl, rfl⟩ : n = m ∧ b = c := by simpa using hl
      obtain ⟨hcand, Q, hQ, hv⟩ := hw
      refine ⟨hcand, Q, hQ, fun v hvQ => ?_⟩
      obtain ⟨K, hK⟩ := hv v hvQ
      refine ⟨K, hK, fun t₀ k ha ht => ?_⟩
      -- no leader of this term yet, so the voter lost nothing to one
      have hk : H.Kept t₀ k K u := by
        rcases hW.vote_kept hK ha ht with hp | ⟨t', m, c, h1, h2, h3, h4⟩
        · exact .inl hp
        · have hne : t' ≠ u := by rintro rfl; rw [h] at h3; cases h3
          exact .inr ⟨t', m, c, h1, by omega, h3, h4⟩
      exact hk.mono hle (hW.ack_led ha).1
    · rw [(hold hu).1] at hl
      obtain ⟨h1, Q, hQ, hv⟩ := hW.led_won hl
      refine ⟨h1, Q, hQ, fun v hvQ => ?_⟩
      obtain ⟨K, hK, hk⟩ := hv v hvQ
      exact ⟨K, hK, fun t₀ k ha ht => (hk t₀ k ha ht).mono hle
        (hW.ack_led ha).1⟩
  · intro u m c hl
    by_cases hu : u = t
    · subst hu
      rw [hnew.1] at hl
      obtain ⟨rfl, rfl⟩ : n = m ∧ b = c := by simpa using hl
      rw [hnew.2]
      refine ⟨List.prefix_rfl, fun i e he hi => ?_⟩
      exact absurd (lt_length_of_getElem? he) (by omega)
    · rw [(hold hu).1] at hl
      rw [(hold hu).2]
      exact hW.led_log hl
  · intro u hl
    by_cases hu : u = t
    · subst hu
      rw [hnew.1] at hl
      cases hl
    · rw [(hold hu).1] at hl
      rw [(hold hu).2]
      exact hW.tlog_none hl
  · intro v u k ha
    obtain ⟨hk, x, hx⟩ := hW.ack_led ha
    have hu : u ≠ t := by rintro rfl; rw [h] at hx; cases hx
    rw [(hold hu).1, (hold hu).2]
    exact ⟨hk, x, hx⟩
  · intro u k m hc
    obtain ⟨p, c, hl, hrest⟩ := hW.commit_ok hc
    have hu : u ≠ t := by rintro rfl; rw [h] at hl; cases hl
    rw [(hold hu).1, (hold hu).2]
    exact ⟨p, c, hl, hrest⟩
  · intro u m c j e C hl he hj hC
    by_cases hu : u = t
    · subst hu
      rw [hnew.1] at hl
      obtain ⟨rfl, rfl⟩ : n = m ∧ b = c := by simpa using hl
      rw [hnew.2] at he
      exact absurd (lt_length_of_getElem? he) (by omega)
    · rw [(hold hu).1] at hl
      rw [(hold hu).2] at he ⊢
      exact hW.config_ok hl he hj hC

omit [DecidableEq ι] in
theorem extend_frame {n : ι} {t : ℕ} {b : List ε} {e : ε}
    (hl : H.led t = some (n, b)) : Frame n H (H.extend t e) where
  toLe := { Le.refl H with
    tlog := by
      intro u
      by_cases hu : u = t
      · subst hu
        simp only [extend, if_true]
        exact List.prefix_append _ _
      · simp only [extend, if_neg hu]
        exact List.prefix_rfl }
  cand_frame _ := rfl
  vote_frame _ := rfl
  led_frame _ h := h
  tlog_frame := by
    intro m u c hm hm'
    have hu : u ≠ t := by
      rintro rfl
      rw [hl] at hm'
      exact hm (Prod.mk.inj (Option.some.inj hm')).1.symm
    simp only [extend, if_neg hu]
  ack_frame _ h := h
  commit_frame _ _ h := h
  seq_frame _ := rfl

theorem Wf.extend (hW : H.Wf R) {n : ι} {t : ℕ} {b : List ε} {e : ε}
    (hl : H.led t = some (n, b)) (ht : R.term e = t)
    (hcfg : ∀ C, R.config e = some C → Near (R.cfg (H.tlog t)) C ∧
      ∃ k m, H.commit t k m ∧ ∀ i x, (H.tlog t)[i]? = some x →
        R.config x ≠ none → i < k) :
    (H.extend t e).Wf R := by
  have hle : Le H (H.extend t e) := (extend_frame hl).toLe
  have hold : ∀ {u : ℕ}, u ≠ t → (H.extend t e).tlog u = H.tlog u := by
    intro u hu
    simp only [History.extend, if_neg hu]
  have hnew : (H.extend t e).tlog t = H.tlog t ++ [e] := by
    simp only [History.extend, if_true]
  refine
    { cand_ok := fun hc => ⟨(hW.cand_ok hc).1.mono hle, (hW.cand_ok hc).2⟩
      cand_pos := hW.cand_pos
      vote_ok := fun hv => ⟨(hW.vote_ok hv).1.mono hle, (hW.vote_ok hv).2⟩
      vote_kept := fun hv ha ht =>
        (hW.vote_kept hv ha ht).mono hle (hW.ack_led ha).1
      led_won := ?_, led_log := ?_, tlog_none := ?_, ack_led := ?_
      ack_down := hW.ack_down, commit_ok := ?_, config_ok := ?_
      heard_le := hW.heard_le }
  · intro u m c hu
    obtain ⟨h1, Q, hQ, hv⟩ := hW.led_won hu
    refine ⟨h1, Q, hQ, fun v hvQ => ?_⟩
    obtain ⟨K, hK, hk⟩ := hv v hvQ
    exact ⟨K, hK, fun t₀ k ha h0 => (hk t₀ k ha h0).mono hle
      (hW.ack_led ha).1⟩
  · intro u m c hu
    obtain ⟨hp, hown⟩ := hW.led_log hu
    refine ⟨hp.trans (hle.tlog u), fun i x hx hi => ?_⟩
    by_cases hut : u = t
    · subst hut
      rw [hnew] at hx
      rcases Nat.lt_or_ge i (H.tlog u).length with hlt | hge
      · rw [List.getElem?_append_left hlt] at hx
        exact hown i x hx hi
      · rw [List.getElem?_append_right hge] at hx
        have := List.mem_of_getElem? hx
        rw [List.mem_singleton] at this
        rw [this, ht]
    · rw [hold hut] at hx
      exact hown i x hx hi
  · intro u hu
    have hut : u ≠ t := by
      rintro rfl
      rw [show H.led u = none from hu] at hl
      cases hl
    rw [hold hut]
    exact hW.tlog_none hu
  · intro v u k ha
    obtain ⟨hk, hx⟩ := hW.ack_led ha
    exact ⟨hk.trans (hle.tlog u).length_le, hx⟩
  · intro u k m hc
    obtain ⟨p, c, hl', h1, h2, h3, h4⟩ := hW.commit_ok hc
    refine ⟨p, c, hl', h1, h2, h3.trans (hle.tlog u).length_le, ?_⟩
    rw [hle.take_eq h3]
    exact h4
  · intro u m c j x C hu hx hj hC
    by_cases hut : u = t
    · subst hut
      rw [hnew] at hx ⊢
      rcases Nat.lt_or_ge j (H.tlog u).length with hlt | hge
      · rw [List.getElem?_append_left hlt] at hx
        obtain ⟨hn, k, m', hc, hm, hprev⟩ := hW.config_ok hu hx hj hC
        rw [List.take_append_of_le_length (by omega)]
        refine ⟨hn, k, m', hc, hm, fun i y hi hy => ?_⟩
        rw [List.getElem?_append_left (by omega)] at hy
        exact hprev i y hi hy
      · have hjl := lt_length_of_getElem? hx
        rw [List.length_append, List.length_singleton] at hjl
        obtain rfl : j = (H.tlog u).length := by omega
        rw [List.getElem?_append_right hge, Nat.sub_self,
          List.getElem?_cons_zero, Option.some.injEq] at hx
        subst hx
        obtain ⟨hn, k, m', hc, hprev⟩ := hcfg C hC
        rw [List.take_append_of_le_length le_rfl, List.take_length]
        refine ⟨hn, k, m', hc, ?_, fun i y hi hy => ?_⟩
        · obtain ⟨_, _, _, _, _, h3, _⟩ := hW.commit_ok hc
          exact h3
        · rw [List.getElem?_append_left hi] at hy
          exact hprev i y hy
    · rw [hold hut] at hx ⊢
      exact hW.config_ok hu hx hj hC

/-! ## Acknowledgements, commits and answers -/

omit [DecidableEq ι] in
theorem addAck_frame {v : ι} {t k : ℕ} : Frame v H (H.addAck v t k) where
  toLe := { Le.refl H with ack := fun h => .inl h }
  cand_frame _ := rfl
  vote_frame _ := rfl
  led_frame _ h := h
  tlog_frame _ _ := rfl
  ack_frame hm h := h.resolve_right fun h' => hm h'.1
  commit_frame _ _ h := h
  seq_frame _ := rfl

theorem Wf.addAck (hW : H.Wf R) {v : ι} {t k : ℕ} {x : ι × List ε}
    (hl : H.led t = some x) (hk : k ≤ (H.tlog t).length)
    (hfut : ∀ t', t < t' → H.vote v t' = none) : (H.addAck v t k).Wf R where
  cand_ok := hW.cand_ok
  cand_pos := hW.cand_pos
  vote_ok := hW.vote_ok
  vote_kept := by
    intro m u p J t₀ j hJ ha ht
    rcases ha with ha | ⟨rfl, rfl, -⟩
    · exact hW.vote_kept hJ ha ht
    · exact absurd hJ (by
        rw [show (H.addAck m t₀ k).vote m u = none from hfut u ht]
        exact fun h => by cases h)
  led_won hl' := by
    obtain ⟨h1, Q, hQ, hv⟩ := hW.led_won hl'
    refine ⟨h1, Q, hQ, fun w hw => ?_⟩
    obtain ⟨J, hJ, hk'⟩ := hv w hw
    refine ⟨J, hJ, fun t₀ j ha ht => ?_⟩
    rcases ha with ha | ⟨rfl, rfl, -⟩
    · exact hk' t₀ j ha ht
    · exact absurd hJ (by rw [hfut _ ht]; exact fun h => by cases h)
  led_log := hW.led_log
  tlog_none := hW.tlog_none
  ack_led := by
    intro m u j ha
    rcases ha with ha | ⟨rfl, rfl, hj⟩
    · exact hW.ack_led ha
    · exact ⟨hj.trans hk, x, hl⟩
  ack_down := by
    intro m u j i ha hi
    rcases ha with ha | ⟨rfl, rfl, hj⟩
    · exact .inl (hW.ack_down ha hi)
    · exact .inr ⟨rfl, rfl, hi.trans hj⟩
  commit_ok hc := by
    obtain ⟨p, c, h1, h2, h3, h4, Q, hQ, ha⟩ := hW.commit_ok hc
    exact ⟨p, c, h1, h2, h3, h4, Q, hQ, fun w hw => .inl (ha w hw)⟩
  config_ok := hW.config_ok
  heard_le := hW.heard_le

omit [DecidableEq ι] in
theorem addCommit_frame {n : ι} {t k m : ℕ} {b : List ε}
    (hl : H.led t = some (n, b)) : Frame n H (H.addCommit t k m) where
  toLe := { Le.refl H with commit := fun h => .inl h }
  cand_frame _ := rfl
  vote_frame _ := rfl
  led_frame _ h := h
  tlog_frame _ _ := rfl
  ack_frame _ h := h
  commit_frame := by
    intro p u c j l hp hl' hc
    refine hc.resolve_right ?_
    rintro ⟨rfl, -, -⟩
    rw [show H.led u = some (p, c) from hl'] at hl
    exact hp (Prod.mk.inj (Option.some.inj hl)).1
  seq_frame _ := rfl

theorem Wf.addCommit (hW : H.Wf R) {n : ι} {t k m : ℕ} {b : List ε}
    {Q : Finset ι} (hl : H.led t = some (n, b)) (hb : b.length < k)
    (hkm : k ≤ m) (hm : m ≤ (H.tlog t).length)
    (hQ : IsMajority Q (R.cfg ((H.tlog t).take m)))
    (hack : ∀ v ∈ Q, H.ack v t k) : (H.addCommit t k m).Wf R where
  cand_ok := hW.cand_ok
  cand_pos := hW.cand_pos
  vote_ok := hW.vote_ok
  vote_kept := hW.vote_kept
  led_won := hW.led_won
  led_log := hW.led_log
  tlog_none := hW.tlog_none
  ack_led := hW.ack_led
  ack_down := hW.ack_down
  commit_ok := by
    intro u j l hc
    rcases hc with hc | ⟨rfl, rfl, rfl⟩
    · exact hW.commit_ok hc
    · exact ⟨n, b, hl, hb, hkm, hm, Q, hQ, hack⟩
  config_ok := by
    intro u p c j e C hu he hj hC
    obtain ⟨h1, k', m', hc, h2⟩ := hW.config_ok hu he hj hC
    exact ⟨h1, k', m', .inl hc, h2⟩
  heard_le := hW.heard_le

theorem setSeq_frame {n : ι} {t q : ℕ} : Frame n H (H.setSeq n t q) where
  toLe := { Le.refl H with
    seq := by
      intro m u
      by_cases hmu : m = n ∧ u = t
      · simp only [setSeq, if_pos hmu]
        exact le_max_left _ _
      · simp only [setSeq, if_neg hmu]
        exact le_rfl }
  cand_frame _ := rfl
  vote_frame _ := rfl
  led_frame _ h := h
  tlog_frame _ _ := rfl
  ack_frame _ h := h
  commit_frame _ _ h := h
  seq_frame hm := by simp [setSeq, hm]

theorem Wf.setSeq (hW : H.Wf R) (n : ι) (t q : ℕ) :
    (H.setSeq n t q).Wf R where
  cand_ok := hW.cand_ok
  cand_pos := hW.cand_pos
  vote_ok := hW.vote_ok
  vote_kept := hW.vote_kept
  led_won := hW.led_won
  led_log := hW.led_log
  tlog_none := hW.tlog_none
  ack_led := hW.ack_led
  ack_down := hW.ack_down
  commit_ok := hW.commit_ok
  config_ok := hW.config_ok
  heard_le hh := (hW.heard_le hh).trans ((setSeq_frame (n := n)).seq _ _)

omit [DecidableEq ι] in
theorem addHeard_frame {n v : ι} {t q : ℕ} (w : ι) :
    Frame w H (H.addHeard n t v q) where
  toLe := { Le.refl H with heard := fun h => .inl h }
  cand_frame _ := rfl
  vote_frame _ := rfl
  led_frame _ h := h
  tlog_frame _ _ := rfl
  ack_frame _ h := h
  commit_frame _ _ h := h
  seq_frame _ := rfl

theorem Wf.addHeard (hW : H.Wf R) {n v : ι} {t q : ℕ}
    (hq : q ≤ H.seq n t) : (H.addHeard n t v q).Wf R where
  cand_ok := hW.cand_ok
  cand_pos := hW.cand_pos
  vote_ok := hW.vote_ok
  vote_kept := hW.vote_kept
  led_won := hW.led_won
  led_log := hW.led_log
  tlog_none := hW.tlog_none
  ack_led := hW.ack_led
  ack_down := hW.ack_down
  commit_ok := hW.commit_ok
  config_ok := hW.config_ok
  heard_le := by
    intro m u w p hh
    rcases hh with hh | ⟨rfl, rfl, rfl, rfl⟩
    · exact hW.heard_le hh
    · exact hq

end Consensus.History
