import RustKV.Consensus.History
import Mathlib.Data.Nat.Find
import Mathlib.Tactic.WLOG

/-!
# Leader completeness and election safety, with changing configurations

Two results about a well-formed history. A later leader was elected with
everything an earlier one had committed (`led_holds`), and two
servers that each gathered a majority in one term are the same server
(`wins_unique`).

The first is a strong induction on the later term. The committing majority
and the electing one meet in a server that acknowledged, then voted; its
acknowledged part is still in the log it voted with unless a leader in
between lacked it, which the induction excludes; and a candidate at least as
up to date as that log holds the part too.

What the configurations add is that the two majorities need not be of the
same set. They meet when the configurations are at most one server apart,
and that is where the two admission rules come in. `near_of_backed` is the
crux: a configuration entry rests on a commit, and two logs that each hold
what the other's configuration entries rest on end in configurations at most
one apart, because an entry past their fork would bring its commit along.

`exists_backer` is the induction's step on its own: if a log lacks something
committed, every majority of the configuration it ends in has a server that
acknowledged something committed the log lacks. The commits are those of an
earlier history, so that it also says what a log of today lacks of what was
committed by some moment in the past.
-/

namespace Consensus

variable {ι ε : Type*} {R : Rules ι ε} {L K : List ε}

/-! ## Lists -/

theorem take_eq_of_isPrefix {k : ℕ} (h : L <+: K) (hk : k ≤ L.length) :
    K.take k = L.take k := by
  obtain ⟨S, rfl⟩ := h
  rw [List.take_append_of_le_length hk]

theorem getElem?_of_isPrefix {i : ℕ} {e : ε} (h : L <+: K)
    (he : L[i]? = some e) : K[i]? = some e := by
  obtain ⟨S, rfl⟩ := h
  rw [List.getElem?_append_left (List.getElem?_eq_some_iff.mp he).1, he]

theorem lt_length_of_getElem? {i : ℕ} {e : ε} (he : L[i]? = some e) :
    i < L.length := (List.getElem?_eq_some_iff.mp he).1

theorem getElem?_take_of_lt {i k : ℕ} (h : i < k) :
    (L.take k)[i]? = L[i]? := by
  rw [List.getElem?_take, if_pos h]

/-- The fork of two logs: the length of their longest common part. -/
theorem exists_fork (L K : List ε) : ∃ d, d ≤ L.length ∧ d ≤ K.length ∧
    L.take d = K.take d ∧ ∀ d', d' ≤ L.length → d' ≤ K.length →
      L.take d' = K.take d' → d' ≤ d := by
  classical
  let P : ℕ → Prop := fun d => d ≤ K.length ∧ L.take d = K.take d
  have h0 : P 0 := by simp [P]
  have hspec : P (Nat.findGreatest P L.length) :=
    Nat.findGreatest_spec (Nat.zero_le _) h0
  exact ⟨Nat.findGreatest P L.length, Nat.findGreatest_le _, hspec.1, hspec.2,
    fun d' h1 h2 h3 => Nat.le_findGreatest h1 ⟨h2, h3⟩⟩

/-! ## Configurations along a log -/

theorem cfg_take_eq_of_none {s m : ℕ} (hsm : s ≤ m)
    (h : ∀ i e, s ≤ i → i < m → L[i]? = some e → R.config e = none) :
    R.cfg (L.take m) = R.cfg (L.take s) := by
  have hsplit : L.take m = L.take s ++ (L.take m).drop s := by
    conv_lhs => rw [← List.take_append_drop s (L.take m)]
    rw [List.take_take, Nat.min_eq_left hsm]
  rw [hsplit]
  refine Rules.cfg_append_none fun e he => ?_
  obtain ⟨i, hi⟩ := List.getElem?_of_mem he
  rw [List.getElem?_drop] at hi
  have hlt := lt_length_of_getElem? hi
  rw [List.length_take] at hlt
  rw [getElem?_take_of_lt (by omega)] at hi
  exact h (s + i) e (by omega) (by omega) hi

theorem cfg_take_succ {j : ℕ} {e : ε} {C : Finset ι} (he : L[j]? = some e)
    (hc : R.config e = some C) : R.cfg (L.take (j + 1)) = C := by
  rw [List.take_add_one, he]
  simp [Rules.cfg_append_singleton, hc]

/-- A stretch of a log with at most one configuration entry, itself one
server away from what it replaces, moves the configuration by at most one
server. -/
theorem near_of_single [DecidableEq ι] {s m : ℕ} (hsm : s ≤ m)
    (hone : ∀ i j x y, s ≤ i → i < j → j < m → L[i]? = some x →
      L[j]? = some y → R.config x ≠ none → R.config y ≠ none → False)
    (hnear : ∀ j e C, s ≤ j → j < m → L[j]? = some e → R.config e = some C →
      Near (R.cfg (L.take j)) C) :
    Near (R.cfg (L.take s)) (R.cfg (L.take m)) := by
  by_cases hex : ∃ j e, s ≤ j ∧ j < m ∧ L[j]? = some e ∧ R.config e ≠ none
  · obtain ⟨j, e, hsj, hjm, he, hc⟩ := hex
    obtain ⟨C, hC⟩ := Option.ne_none_iff_exists'.mp hc
    have hbefore : R.cfg (L.take j) = R.cfg (L.take s) :=
      cfg_take_eq_of_none hsj fun i x h1 h2 hx => by
        by_contra hcx
        exact hone i j x e h1 h2 hjm hx he hcx hc
    have hafter : R.cfg (L.take m) = R.cfg (L.take (j + 1)) :=
      cfg_take_eq_of_none (by omega) fun i x h1 h2 hx => by
        by_contra hcx
        exact hone j i e x hsj (by omega) h2 he hx hc hcx
    rw [hafter, cfg_take_succ he hC, ← hbefore]
    exact hnear j e C hsj hjm he hC
  · refine Near.of_eq (cfg_take_eq_of_none hsm fun i e h1 h2 he => ?_).symm
    by_contra hc
    exact hex ⟨i, e, h1, h2, he, hc⟩

namespace History

variable {H H₀ : History ι ε}

/-! ## Terms along valid logs -/

theorem Valid.lt_tlog (hv : H.Valid R L) {i : ℕ} {e : ε}
    (he : L[i]? = some e) : i < (H.tlog (R.term e)).length := by
  obtain ⟨_, _, _, _, hp⟩ := hv i e he
  have hlen := hp.length_le
  have hi := lt_length_of_getElem? he
  rw [List.length_take] at hlen
  omega

/-- A non-empty valid log lies in the log of its last entry's leader, past
what that leader was elected with. -/
theorem Valid.last_led (hv : H.Valid R L) (hne : 0 < L.length) :
    ∃ n b, H.led (R.lastTerm L) = some (n, b) ∧ b.length < L.length ∧
      L <+: H.tlog (R.lastTerm L) := by
  obtain ⟨x, hx⟩ : ∃ x, L[L.length - 1]? = some x :=
    ⟨_, List.getElem?_eq_getElem (by omega)⟩
  obtain ⟨n, b, hl, hb, hpre⟩ := hv _ x hx
  rw [← Rules.lastTerm_of_getElem? hx (by omega)] at hl hpre
  rw [List.take_of_length_le (by omega)] at hpre
  exact ⟨n, b, hl, by omega, hpre⟩

/-- Log matching: the same term at the same place means the same log up to
there. -/
theorem Valid.matching (hL : H.Valid R L) (hK : H.Valid R K) {i : ℕ}
    {e x : ε} (he : L[i]? = some e) (hx : K[i]? = some x)
    (ht : R.term e = R.term x) : L.take (i + 1) = K.take (i + 1) := by
  obtain ⟨_, _, _, _, hp⟩ := hL i e he
  obtain ⟨_, _, _, _, hq⟩ := hK i x hx
  rw [ht] at hp
  have h1 := lt_length_of_getElem? he
  have h2 := lt_length_of_getElem? hx
  refine (List.prefix_of_prefix_length_le hp hq ?_).eq_of_length ?_ <;>
    simp only [List.length_take] <;> omega

/-- A valid log holds the part of its leaders' logs below each entry. -/
theorem Valid.holds_below (hv : H.Valid R L) {j k : ℕ} {e : ε}
    (he : L[j]? = some e) (hk : k ≤ j) :
    (H.tlog (R.term e)).take k <+: L := by
  obtain ⟨_, _, _, _, hpre⟩ := hv j e he
  have hj := lt_length_of_getElem? he
  rw [take_eq_of_isPrefix hpre (by rw [List.length_take]; omega),
    List.take_take, Nat.min_eq_left (by omega)]
  exact List.take_prefix _ _

theorem Valid.lastTerm_lt {t : ℕ} (ht : 0 < t)
    (hLt : ∀ e ∈ L, R.term e < t) : R.lastTerm L < t := by
  unfold Rules.lastTerm
  cases hlast : L.getLast? with
  | none => exact ht
  | some x => exact hLt x (List.mem_of_getLast? hlast)

variable [DecidableEq ι]

theorem Wf.base_ok (hW : H.Wf R) {t : ℕ} {n : ι} {b : List ε}
    (hl : H.led t = some (n, b)) : H.Valid R b ∧ ∀ e ∈ b, R.term e < t :=
  hW.cand_ok (hW.led_won hl).1

theorem Wf.tlog_term_le (hW : H.Wf R) {t i : ℕ} {e : ε}
    (he : (H.tlog t)[i]? = some e) : R.term e ≤ t := by
  cases hl : H.led t with
  | none => rw [hW.tlog_none hl] at he; simp at he
  | some x =>
      obtain ⟨n, b⟩ := x
      obtain ⟨hpre, hown⟩ := hW.led_log hl
      rcases Nat.lt_or_ge i b.length with hlt | hge
      · have hb : b[i]? = some e := by
          obtain ⟨S, hS⟩ := hpre
          rw [← hS, List.getElem?_append_left hlt] at he
          exact he
        exact ((hW.base_ok hl).2 e (List.mem_of_getElem? hb)).le
      · exact (hown i e he hge).le

theorem Wf.tlog_valid (hW : H.Wf R) (t : ℕ) : H.Valid R (H.tlog t) := by
  cases hl : H.led t with
  | none => rw [hW.tlog_none hl]; exact Valid.nil
  | some x =>
      obtain ⟨n, b⟩ := x
      obtain ⟨hpre, hown⟩ := hW.led_log hl
      intro i e he
      rcases Nat.lt_or_ge i b.length with hlt | hge
      · have hb : b[i]? = some e := by
          obtain ⟨S, hS⟩ := hpre
          rw [← hS, List.getElem?_append_left hlt] at he
          exact he
        rw [take_eq_of_isPrefix hpre hlt]
        exact (hW.base_ok hl).1 i e hb
      · rw [hown i e he hge]
        exact ⟨n, b, hl, hge, List.take_prefix _ _⟩

theorem Valid.term_mono (hW : H.Wf R) (hv : H.Valid R L) {i j : ℕ} {e x : ε}
    (hij : i ≤ j) (he : L[i]? = some e) (hx : L[j]? = some x) :
    R.term e ≤ R.term x := by
  obtain ⟨n, b, hl, hb, hpre⟩ := hv j x hx
  have hi : (L.take (j + 1))[i]? = some e := by
    rw [getElem?_take_of_lt (by omega), he]
  exact hW.tlog_term_le (getElem?_of_isPrefix hpre hi)

theorem Valid.term_le_lastTerm (hW : H.Wf R) (hv : H.Valid R L) {i : ℕ}
    {e : ε} (he : L[i]? = some e) : R.term e ≤ R.lastTerm L := by
  have hi := lt_length_of_getElem? he
  obtain ⟨x, hx⟩ : ∃ x, L[L.length - 1]? = some x :=
    ⟨_, List.getElem?_eq_getElem (by omega)⟩
  rw [Rules.lastTerm_of_getElem? hx (by omega)]
  exact hv.term_mono hW (by omega) he hx

/-! ## Commits -/

/-- The entry a commit index reached is of the committing leader's term. -/
theorem Wf.commit_last (hW : H.Wf R) {t k m : ℕ} (hc : H.commit t k m) :
    0 < k ∧ k ≤ m ∧ k ≤ (H.tlog t).length ∧
      ∃ e, (H.tlog t)[k - 1]? = some e ∧ R.term e = t := by
  obtain ⟨n, b, hl, hb, hkm, hm, -⟩ := hW.commit_ok hc
  have hlen : k - 1 < (H.tlog t).length := by omega
  refine ⟨by omega, hkm, by omega, (H.tlog t)[k - 1],
    List.getElem?_eq_getElem hlen, ?_⟩
  exact (hW.led_log hl).2 (k - 1) _ (List.getElem?_eq_getElem hlen) (by omega)

/-- A valid log that holds a part some leader committed has an entry of that
leader's term at its end. -/
theorem Wf.commit_entry (hW : H.Wf R) {t k m : ℕ} (hc : H.commit t k m)
    (hp : (H.tlog t).take k <+: L) :
    ∃ e, L[k - 1]? = some e ∧ R.term e = t := by
  obtain ⟨hk, -, -, e, he, ht⟩ := hW.commit_last hc
  refine ⟨e, getElem?_of_isPrefix hp ?_, ht⟩
  rw [getElem?_take_of_lt (by omega), he]

/-- `L` holds everything committed in the terms below `t`. -/
def HoldsCommitted (H : History ι ε) (t : ℕ) (L : List ε) : Prop :=
  ∀ s k m, s < t → H.commit s k m → (H.tlog s).take k <+: L

/-- The commit a configuration entry of a valid log rests on: it lies at or
below the entry, above every earlier configuration entry of the log, and in
every log that holds everything committed. -/
theorem Wf.config_commit (hW : H.Wf R) (hv : H.Valid R L) {j : ℕ} {e : ε}
    {C : Finset ι} (he : L[j]? = some e) (hc : R.config e = some C) :
    Near (R.cfg (L.take j)) C ∧ ∃ k m, H.commit (R.term e) k m ∧ k ≤ j ∧
      ∀ i x, i < j → L[i]? = some x → R.config x ≠ none → i < k := by
  obtain ⟨n, b, hl, hb, hpre⟩ := hv j e he
  have hj := lt_length_of_getElem? he
  have hjt : (H.tlog (R.term e))[j]? = some e :=
    getElem?_of_isPrefix hpre (by rw [getElem?_take_of_lt (by omega), he])
  obtain ⟨hnear, k, m, hcm, hmj, hprev⟩ := hW.config_ok hl hjt hb hc
  have htake : (H.tlog (R.term e)).take j = L.take j := by
    have := take_eq_of_isPrefix (k := j) hpre (by rw [List.length_take]; omega)
    rw [this, List.take_take, Nat.min_eq_left (by omega)]
  rw [htake] at hnear
  refine ⟨hnear, k, m, hcm, ?_, fun i x hi hx hcx => ?_⟩
  · have := (hW.commit_last hcm).2.1
    omega
  · refine hprev i x hi (getElem?_of_isPrefix hpre ?_) hcx
    rw [getElem?_take_of_lt (by omega), hx]

/-- `K` holds a commit that each configuration entry of `L` rests on. -/
def Backed (R : Rules ι ε) (H : History ι ε) (L K : List ε) : Prop :=
  ∀ j e, L[j]? = some e → R.config e ≠ none →
    ∃ k m, H.commit (R.term e) k m ∧ k ≤ j ∧
      (∀ i x, i < j → L[i]? = some x → R.config x ≠ none → i < k) ∧
      (H.tlog (R.term e)).take k <+: K

theorem Wf.backed (hW : H.Wf R) {t : ℕ} (hL : H.Valid R L)
    (hLt : ∀ e ∈ L, R.term e < t) (hKc : H.HoldsCommitted t K) :
    H.Backed R L K := by
  intro j e he hc
  obtain ⟨C, hC⟩ := Option.ne_none_iff_exists'.mp hc
  obtain ⟨-, k, m, hk, hkj, hprev⟩ := hW.config_commit hL he hC
  exact ⟨k, m, hk, hkj, hprev, hKc _ k m (hLt e (List.mem_of_getElem? he)) hk⟩

theorem Backed.mono (h : H₀.Backed R L K) (hW₀ : H₀.Wf R) (hle : Le H₀ H) :
    H.Backed R L K := by
  intro j e he hc
  obtain ⟨k, m, hk, hkj, hprev, hp⟩ := h j e he hc
  refine ⟨k, m, hle.commit hk, hkj, hprev, ?_⟩
  rwa [hle.take_eq (hW₀.commit_last hk).2.2.1]

/-- What both logs hold of a leader's commits lies before their fork. -/
theorem Wf.commit_le_fork (hW : H.Wf R) {d t k m : ℕ}
    (hmax : ∀ d', d' ≤ L.length → d' ≤ K.length →
      L.take d' = K.take d' → d' ≤ d)
    (hc : H.commit t k m) (hL : (H.tlog t).take k <+: L)
    (hK : (H.tlog t).take k <+: K) : k ≤ d := by
  have hlen : ((H.tlog t).take k).length = k := by
    rw [List.length_take]
    have := (hW.commit_last hc).2.2.1
    omega
  have h1 := hL.length_le
  have h2 := hK.length_le
  refine hmax k (by omega) (by omega) ?_
  rw [take_eq_of_isPrefix hL (by omega), take_eq_of_isPrefix hK (by omega)]

/-- Past the fork of two logs that back each other, only one side can carry
configuration entries. -/
theorem Wf.no_config_both_sides (hW : H.Wf R) {d : ℕ} (hL : H.Valid R L)
    (hK : H.Valid R K) (hLK : H.Backed R L K) (hKL : H.Backed R K L)
    (hmax : ∀ d', d' ≤ L.length → d' ≤ K.length →
      L.take d' = K.take d' → d' ≤ d)
    {i j : ℕ} {x y : ε} (hi : d ≤ i) (hj : d ≤ j) (hx : L[i]? = some x)
    (hy : K[j]? = some y) (hcx : R.config x ≠ none)
    (hcy : R.config y ≠ none) : False := by
  obtain ⟨k, m, hk, hki, -, hkK⟩ := hLK i x hx hcx
  obtain ⟨l, p, hl, hlj, -, hlL⟩ := hKL j y hy hcy
  -- each commit sits in both logs, below the other side's entry
  obtain ⟨a, ha, hat⟩ := hW.commit_entry hl hlL
  obtain ⟨c, hc, hct⟩ := hW.commit_entry hk hkK
  have hkd := hW.commit_le_fork hmax hk (hL.holds_below hx hki) hkK
  have hld := hW.commit_le_fork hmax hl hlL (hK.holds_below hy hlj)
  have hk0 := (hW.commit_last hk).1
  have hl0 := (hW.commit_last hl).1
  have h1 : R.term y ≤ R.term x := by
    rw [← hat]
    exact hL.term_mono hW (by omega) ha hx
  have h2 : R.term x ≤ R.term y := by
    rw [← hct]
    exact hK.term_mono hW (by omega) hc hy
  have hxy : R.term x = R.term y := le_antisymm h2 h1
  -- so both entries are one leader's, and the logs agree past the fork
  obtain ⟨_, _, _, _, hp⟩ := hL i x hx
  obtain ⟨_, _, _, _, hq⟩ := hK j y hy
  rw [hxy] at hp
  have hil := lt_length_of_getElem? hx
  have hjl := lt_length_of_getElem? hy
  obtain ⟨c, hdc, hci, hcj⟩ : ∃ c, d < c ∧ c ≤ i + 1 ∧ c ≤ j + 1 :=
    ⟨min i j + 1, by omega, by omega, by omega⟩
  have h3 := take_eq_of_isPrefix (k := c) hp (by rw [List.length_take]; omega)
  have h4 := take_eq_of_isPrefix (k := c) hq (by rw [List.length_take]; omega)
  rw [List.take_take, Nat.min_eq_left hci] at h3
  rw [List.take_take, Nat.min_eq_left hcj] at h4
  have := hmax c (by omega) (by omega) (h3.symm.trans h4)
  omega

/-- One side of the fork moves the configuration by at most one server when
the other side backs it and carries no configuration entry past the fork. -/
theorem Wf.near_one_side (hW : H.Wf R) {d : ℕ} (hL : H.Valid R L)
    (hLK : H.Backed R L K) (hdL : d ≤ L.length) (hdK : d ≤ K.length)
    (hd : L.take d = K.take d)
    (hmax : ∀ d', d' ≤ L.length → d' ≤ K.length →
      L.take d' = K.take d' → d' ≤ d)
    (hnone : ∀ j y, d ≤ j → K[j]? = some y → R.config y = none) :
    Near (R.cfg L) (R.cfg K) := by
  have hKd : R.cfg K = R.cfg (L.take d) := by
    rw [hd]
    conv_lhs => rw [← List.take_length (l := K)]
    exact cfg_take_eq_of_none hdK fun i e h1 _ he => hnone i e h1 he
  have hLl : R.cfg L = R.cfg (L.take L.length) := by rw [List.take_length]
  rw [hKd, hLl]
  refine (near_of_single hdL ?_ ?_).symm
  · -- a second entry past the fork would rest on a commit covering the first
    intro i j x y hi hij hj hx hy hcx hcy
    obtain ⟨k, m, hk, hkj, hprev, hkK⟩ := hLK j y hy hcy
    have hik := hprev i x hij hx hcx
    have hkd := hW.commit_le_fork hmax hk (hL.holds_below hy hkj) hkK
    omega
  · intro j e C hj _ he hC
    exact (hW.config_commit hL he hC).1

/-- Two logs that back each other end in configurations at most one server
apart. -/
theorem Wf.near_of_backed (hW : H.Wf R) (hL : H.Valid R L)
    (hK : H.Valid R K) (hLK : H.Backed R L K) (hKL : H.Backed R K L) :
    Near (R.cfg L) (R.cfg K) := by
  obtain ⟨d, hdL, hdK, hd, hmax⟩ := exists_fork L K
  by_cases hside : ∃ j y, d ≤ j ∧ K[j]? = some y ∧ R.config y ≠ none
  · obtain ⟨j, y, hj, hy, hcy⟩ := hside
    refine (hW.near_one_side hK hKL hdK hdL hd.symm
      (fun d' h1 h2 h3 => hmax d' h2 h1 h3.symm) fun i x hi hx => ?_).symm
    by_contra hcx
    exact hW.no_config_both_sides hL hK hLK hKL hmax hi hj hx hy hcx hcy
  · refine hW.near_one_side hL hLK hdL hdK hd hmax fun j y hj hy => ?_
    by_contra hcy
    exact hside ⟨j, y, hj, hy, hcy⟩

/-- The stretch of a leader's log between `s` and `m` moves the configuration
by at most one server when no earlier commit of that leader lies past `s`. -/
theorem Wf.near_same_leader (hW : H.Wf R) {t m s : ℕ} {n : ι} {b : List ε}
    (hl : H.led t = some (n, b)) (hbs : b.length ≤ s) (hsm : s ≤ m)
    (hcov : ∀ k l, H.commit t k l → l < m → k ≤ s) :
    Near (R.cfg ((H.tlog t).take s)) (R.cfg ((H.tlog t).take m)) := by
  refine near_of_single hsm ?_ ?_
  · intro i j x y hi hij hj hx hy hcx hcy
    obtain ⟨D, hD⟩ := Option.ne_none_iff_exists'.mp hcy
    obtain ⟨-, k, l, hk, hlj, hprev⟩ := hW.config_ok hl hy (by omega) hD
    have h1 := hprev i x hij hx hcx
    have h2 := hcov k l hk (by omega)
    omega
  · intro j e C hj _ he hC
    exact (hW.config_ok hl he (by omega) hC).1

/-- A log that ends inside the log of the leader of `t` without a part that
leader committed: if it holds every earlier commit of that leader, its
configuration is at most one server away from the commit's. -/
theorem Wf.near_inside (hW : H.Wf R) {t k m : ℕ} {b : List ε}
    (hc : H.commit t k m) (hb : H.Valid R b) (heq : R.lastTerm b = t)
    (hlack : ¬ (H.tlog t).take k <+: b)
    (hmin : ∀ k' m', H.commit t k' m' → m' < m → (H.tlog t).take k' <+: b) :
    Near (R.cfg ((H.tlog t).take m)) (R.cfg b) := by
  obtain ⟨n, bt, hl, hbk, hkm, hmt, -⟩ := hW.commit_ok hc
  have htpos := hW.cand_pos (hW.led_won hl).1
  have hpos : 0 < b.length := by
    rcases Nat.eq_zero_or_pos b.length with h0 | hpos
    · rw [List.length_eq_zero_iff.mp h0, Rules.lastTerm_nil] at heq
      omega
    · exact hpos
  obtain ⟨n', bt', hl', hlen, hpre⟩ := hb.last_led hpos
  rw [heq] at hl' hpre
  rw [hl] at hl'
  obtain ⟨rfl, rfl⟩ : n = n' ∧ bt = bt' := by simpa using hl'
  have hbk' : b.length < k := by
    by_contra hge
    refine hlack (List.prefix_of_prefix_length_le ?_ hpre ?_)
    · exact List.take_prefix _ _
    · rw [List.length_take]
      omega
  have hbe : (H.tlog t).take b.length = b := by
    rw [take_eq_of_isPrefix hpre le_rfl, List.take_length]
  conv_rhs => rw [← hbe]
  refine (hW.near_same_leader hl (by omega) (by omega) ?_).symm
  intro k' m' hc' hm'
  have hle := (hmin k' m' hc' hm').length_le
  have := (hW.commit_last hc').2.2.1
  rw [List.length_take] at hle
  omega

/-- A log older than `t` without a part the leader of `t` committed by the
time of `H₀`: the earliest such commit was made under the configuration that
leader was elected with, and the two logs back each other. -/
theorem Wf.near_older (hW₀ : H₀.Wf R) (hW : H.Wf R) (hle : Le H₀ H)
    {t k m : ℕ} {b : List ε} (hc : H₀.commit t k m) (hb : H.Valid R b)
    (hlt : R.lastTerm b < t)
    (hled : ∀ n' b', H.led t = some (n', b') → H.HoldsCommitted t b')
    (hbc : H₀.HoldsCommitted t b)
    (hmin : ∀ k' m', H₀.commit t k' m' → m' < m →
      (H₀.tlog t).take k' <+: b) :
    Near (R.cfg ((H₀.tlog t).take m)) (R.cfg b) := by
  obtain ⟨n, bt, hl, hbk, hkm, hmt, -⟩ := hW₀.commit_ok hc
  have hbase := hW₀.base_ok hl
  have hbe : (H₀.tlog t).take bt.length = bt := by
    rw [take_eq_of_isPrefix (hW₀.led_log hl).1 le_rfl, List.take_length]
  have hsame : R.cfg ((H₀.tlog t).take m) = R.cfg bt := by
    conv_rhs => rw [← hbe]
    refine cfg_take_eq_of_none (by omega) fun i e h1 h2 he => ?_
    by_contra hcfg
    obtain ⟨C, hC⟩ := Option.ne_none_iff_exists'.mp hcfg
    obtain ⟨-, k', m', hc', hm', -⟩ := hW₀.config_ok hl he h1 hC
    obtain ⟨x, hx, hxt⟩ := hW₀.commit_entry hc' (hmin k' m' hc' (by omega))
    have := hb.term_le_lastTerm hW hx
    omega
  rw [hsame]
  refine hW.near_of_backed (hbase.1.mono hle) hb
    ((hW₀.backed hbase.1 hbase.2 hbc).mono hW₀ hle)
    (hW.backed hb ?_ (hled n bt (hle.led hl)))
  intro e he
  obtain ⟨i, hi⟩ := List.getElem?_of_mem he
  exact (hb.term_le_lastTerm hW hi).trans_lt hlt

/-- A log that ends inside the log of the leader of `t`, short of a part that
was there at the time of `H₀`, is no newer than `H₀`. -/
theorem Wf.valid_of_lacks (hW₀ : H₀.Wf R) (hle : Le H₀ H) {t k : ℕ}
    {b : List ε} (hb : H.Valid R b) (heq : R.lastTerm b = t)
    (hlack : ¬ (H₀.tlog t).take k <+: b) : H₀.Valid R b := by
  rcases Nat.eq_zero_or_pos b.length with h0 | hpos
  · rw [List.length_eq_zero_iff.mp h0]
    exact Valid.nil
  · obtain ⟨_, _, _, _, hpre⟩ := hb.last_led hpos
    rw [heq] at hpre
    have hpart : (H₀.tlog t).take k <+: H.tlog t :=
      ((hle.tlog t).take k).trans <| List.take_prefix _ _
    have hin := (List.prefix_or_prefix_of_prefix hpre hpart).resolve_right
      hlack
    exact (hW₀.tlog_valid t).shorten (hin.trans <| List.take_prefix _ _)

/-! ## The two theorems -/

/-- A log that a voter's held part lies in, and that is at least as up to
date as the voter's, holds the part itself — when its own last entry is not
of a later term. -/
theorem Wf.upToDate_holds (hW : H.Wf R) {t k m : ℕ} {b K : List ε}
    (hc : H.commit t k m) (hb : H.Valid R b) (hK : H.Valid R K)
    (hlast : R.lastTerm b ≤ t) (hup : R.UpToDate b K)
    (hp : (H.tlog t).take k <+: K) : (H.tlog t).take k <+: b := by
  obtain ⟨hk, -, hkt, -⟩ := hW.commit_last hc
  obtain ⟨e, he, het⟩ := hW.commit_entry hc hp
  have hKt : t ≤ R.lastTerm K := het ▸ hK.term_le_lastTerm hW he
  have hKl := lt_length_of_getElem? he
  have hlen : K.length ≤ b.length ∧ R.lastTerm b = t := by
    rcases hup with h | ⟨h1, h2⟩
    · omega
    · exact ⟨h2, by omega⟩
  obtain ⟨_, _, _, _, hbt⟩ := hb.last_led (by omega)
  rw [hlen.2] at hbt
  refine List.prefix_of_prefix_length_le ?_ hbt ?_
  · exact List.take_prefix _ _
  · rw [List.length_take]
    omega

/-- A last entry of a later term brings along what its leader was elected
with. -/
theorem Wf.holds_of_later (hW : H.Wf R) {P b : List ε} (hb : H.Valid R b)
    (hne : 0 < R.lastTerm b)
    (hled : ∀ n' b', H.led (R.lastTerm b) = some (n', b') → P <+: b') :
    P <+: b := by
  have hpos : 0 < b.length := by
    rcases Nat.eq_zero_or_pos b.length with h0 | hpos
    · rw [List.length_eq_zero_iff.mp h0, Rules.lastTerm_nil] at hne
      omega
    · exact hpos
  obtain ⟨n', b', hl', hlen', hpre'⟩ := hb.last_led hpos
  exact (hled n' b' hl').trans
    (List.prefix_of_prefix_length_le (hW.led_log hl').1 hpre' (by omega))

/-- A log `b` that lacks something committed by the time of `H₀`: whichever
majority of the configuration it ends in one takes, a server of it has
acknowledged something committed by then that `b` lacks. -/
theorem Wf.exists_backer (hW₀ : H₀.Wf R) (hW : H.Wf R) (hle : Le H₀ H)
    {u : ℕ} {b : List ε} {Q : Finset ι} (hb : H.Valid R b)
    (hQ : IsMajority Q (R.cfg b)) (hbu : R.lastTerm b < u)
    (hled : ∀ t n' b', t < u → H.led t = some (n', b') →
      H.HoldsCommitted t b')
    {t k m : ℕ} (ht : t < u) (hc : H₀.commit t k m)
    (hlack : ¬ (H₀.tlog t).take k <+: b) :
    ∃ v ∈ Q, ∃ s l p, s < u ∧ R.lastTerm b ≤ s ∧ H₀.commit s l p ∧
      H₀.ack v s l ∧ ¬ (H₀.tlog s).take l <+: b := by
  induction t using Nat.strong_induction_on generalizing k m with
  | _ t ih =>
  by_cases hbc : H₀.HoldsCommitted t b
  swap
  · simp only [HoldsCommitted, not_forall] at hbc
    obtain ⟨s, l, p, hs, hcs, hlacks⟩ := hbc
    exact ih s hs (hs.trans ht) hcs hlacks
  -- the earliest commit of `t` that `b` lacks
  have hex : ∃ m k, H₀.commit t k m ∧ ¬ (H₀.tlog t).take k <+: b :=
    ⟨m, k, hc, hlack⟩
  classical
  obtain ⟨l, hcl, hlackl⟩ := Nat.find_spec hex
  have hmin : ∀ k' m', H₀.commit t k' m' → m' < Nat.find hex →
      (H₀.tlog t).take k' <+: b := by
    intro k' m' hc' hm'
    by_contra hl'
    exact Nat.find_min hex hm' ⟨k', hc', hl'⟩
  generalize Nat.find hex = p at hcl hmin
  have hkt := (hW₀.commit_last hcl).2.2.1
  have hlast : R.lastTerm b ≤ t := by
    by_contra hgt
    refine hlackl (hW.holds_of_later hb (by omega) fun n' b' hl' => ?_)
    rw [← hle.take_eq hkt]
    exact hled _ n' b' hbu hl' t l p (by omega) (hle.commit hcl)
  have hnear : Near (R.cfg ((H₀.tlog t).take p)) (R.cfg b) := by
    rcases Nat.lt_or_ge (R.lastTerm b) t with hlt | hge
    · exact hW₀.near_older hW hle hcl hb hlt (fun n' b' => hled t n' b' ht)
        hbc hmin
    · have heq := le_antisymm hlast hge
      exact hW₀.near_inside hcl (hW₀.valid_of_lacks hle hb heq hlackl)
        heq hlackl hmin
  obtain ⟨_, _, _, _, _, _, A, hA, hack⟩ := hW₀.commit_ok hcl
  obtain ⟨v, hvA, hvQ⟩ := IsMajority.exists_common hnear hA hQ
  exact ⟨v, hvQ, t, l, p, ht, hlast, hcl, hack v hvA, hlackl⟩

/-- One candidate of the induction. `b` was elected, or would be, in a term
`t'` by the majority `Q`; every leader below `u` holds what was committed
before it. Then `b` holds everything committed below `t'`. -/
theorem Wf.winner_holds (hW : H.Wf R) {t' u : ℕ} {b : List ε} {Q : Finset ι}
    (hb : H.Valid R b) (hbt : ∀ e ∈ b, R.term e < t') (htu : t' ≤ u)
    (hQ : IsMajority Q (R.cfg b))
    (hvote : ∀ v ∈ Q, ∃ K, H.Valid R K ∧ R.UpToDate b K ∧
      ∀ t₀ k, H.ack v t₀ k → t₀ < t' → H.Kept t₀ k K u)
    (hled : ∀ t'' n'' b'', t'' < u → H.led t'' = some (n'', b'') →
      H.HoldsCommitted t'' b'') :
    H.HoldsCommitted t' b := by
  intro t k m ht hc
  by_contra hbad
  have hbu : R.lastTerm b < t' := Valid.lastTerm_lt (by omega) hbt
  obtain ⟨v, hvQ, s, l, p, hs, hlast, hcs, hack, hlack⟩ :=
    hW.exists_backer hW (Le.refl H) hb hQ hbu
      (fun t n' b' h1 => hled t n' b' (by omega)) ht hc hbad
  obtain ⟨K, hK, hup, hkept⟩ := hvote v hvQ
  rcases hkept s l hack hs with hp | ⟨t'', n', b', h1, h2, h3, h4⟩
  · exact hlack (hW.upToDate_holds hcs hb hK hlast hup hp)
  · exact h4 (hled t'' n' b' h2 h3 s l p h1 hcs)

/-- Leader completeness: what a leader committed, every leader of a later
term was elected with. -/
theorem Wf.led_holds (hW : H.Wf R) {t : ℕ} {n : ι} {b : List ε}
    (hl : H.led t = some (n, b)) : H.HoldsCommitted t b := by
  induction t using Nat.strong_induction_on generalizing n b with
  | _ t ih =>
  obtain ⟨hcand, Q, hQ, hvote⟩ := hW.led_won hl
  have hb := hW.base_ok hl
  refine hW.winner_holds hb.1 hb.2 le_rfl hQ (fun v hv => ?_)
    (fun t'' _ _ h1 h2 => ih t'' h1 h2)
  obtain ⟨K, hK, hkept⟩ := hvote v hv
  obtain ⟨hKv, L, hL, hup⟩ := hW.vote_ok hK
  rw [hcand] at hL
  obtain rfl : b = L := by simpa using hL
  exact ⟨K, hKv, hup, hkept⟩

/-- A log at least as up to date as one that holds something committed holds
it too. -/
theorem Wf.committed_of_upToDate (hW : H.Wf R) {t k m : ℕ} {b K : List ε}
    (hc : H.commit t k m) (hb : H.Valid R b) (hK : H.Valid R K)
    (hup : R.UpToDate b K) (hp : (H.tlog t).take k <+: K) :
    (H.tlog t).take k <+: b := by
  rcases Nat.lt_or_ge t (R.lastTerm b) with hlt | hge
  · exact hW.holds_of_later hb (by omega) fun n' b' hl' =>
      hW.led_holds hl' t k m hlt hc
  · exact hW.upToDate_holds hc hb hK hge hup hp

/-- Whoever could be elected holds everything committed in earlier terms,
also when the term already has a leader. -/
theorem Wf.wins_holds (hW : H.Wf R) {t : ℕ} {n : ι} {b : List ε}
    (hw : H.Wins R n t b) : H.HoldsCommitted t b := by
  obtain ⟨hcand, Q, hQ, hvote⟩ := hw
  have hb := hW.cand_ok hcand
  refine hW.winner_holds hb.1 hb.2 (Nat.le_succ t) hQ (fun v hv => ?_)
    (fun t'' _ _ _ h2 => hW.led_holds h2)
  obtain ⟨K, hK⟩ := hvote v hv
  obtain ⟨hKv, L, hL, hup⟩ := hW.vote_ok hK
  rw [hcand] at hL
  obtain rfl : b = L := by simpa using hL
  exact ⟨K, hKv, hup, fun t₀ k ha ht => hW.vote_kept hK ha ht⟩

theorem Wf.wins_of_led (hW : H.Wf R) {t : ℕ} {n : ι} {b : List ε}
    (hl : H.led t = some (n, b)) : H.Wins R n t b := by
  obtain ⟨hcand, Q, hQ, hvote⟩ := hW.led_won hl
  refine ⟨hcand, Q, hQ, fun v hv => ?_⟩
  obtain ⟨K, hK, -⟩ := hvote v hv
  exact ⟨K, hK⟩

/-- Election safety: one term, one winner. -/
theorem Wf.wins_unique (hW : H.Wf R) {t : ℕ} {n n' : ι} {b b' : List ε}
    (hw : H.Wins R n t b) (hw' : H.Wins R n' t b') : n = n' := by
  have hb := hW.cand_ok hw.1
  have hb' := hW.cand_ok hw'.1
  have hnear : Near (R.cfg b) (R.cfg b') :=
    hW.near_of_backed hb.1 hb'.1 (hW.backed hb.1 hb.2 (hW.wins_holds hw'))
      (hW.backed hb'.1 hb'.2 (hW.wins_holds hw))
  obtain ⟨-, Q, hQ, hvote⟩ := hw
  obtain ⟨-, Q', hQ', hvote'⟩ := hw'
  obtain ⟨v, hv, hv'⟩ := IsMajority.exists_common hnear hQ hQ'
  obtain ⟨K, hK⟩ := hvote v hv
  obtain ⟨K', hK'⟩ := hvote' v hv'
  rw [hK] at hK'
  exact (Prod.mk.inj (Option.some.inj hK')).1

end History

end Consensus
