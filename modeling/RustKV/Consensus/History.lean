import RustKV.Consensus.Quorum
import Mathlib.Data.List.Basic
import Mathlib.Data.List.Infix

/-!
# The recorded history of a term-based replicated log

A server's state says little about how it came to be: a vote is overwritten
by the next term, a leader forgets its leadership, a log loses a suffix. The
safety argument of a term-based log wants what was true *then*, so this file
keeps it: who campaigned in which term and with what log, who voted for whom
while holding what log, who won a term, how far that winner's log has grown,
which servers acknowledged which part of it, and every time a leader moved
its commit index.

Nothing here says how servers run. `History.Wf` collects the facts each
record is written with, all of them local to the moment of writing: a vote
goes to a log at least as up to date as the voter's, a winner has a majority
of the configuration its own log ends in, a configuration entry differs from
its predecessor by one server and is appended only once its leader has
committed past every earlier one. `Completeness.lean` derives everything
else from these.

Logs are whole, from the first entry on; a compacted log is read through the
uncompacted one it stands for.
-/

namespace Consensus

variable {ι ε : Type*}

/-! ## How an entry is read -/

/-- What the protocol reads off an entry: the term it was created in and the
configuration it puts in effect, if it is a configuration entry. `init` is in
effect before the first one. -/
structure Rules (ι ε : Type*) where
  term : ε → ℕ
  config : ε → Option (Finset ι)
  init : Finset ι

namespace Rules

/-- The configuration a log ends in: its last configuration entry's, on
append and not on commit. -/
def cfg (R : Rules ι ε) (L : List ε) : Finset ι :=
  L.foldl (fun c e => (R.config e).getD c) R.init

/-- The term of a log's last entry; 0 for the empty log. -/
def lastTerm (R : Rules ι ε) (L : List ε) : ℕ :=
  (L.getLast?.map R.term).getD 0

/-- `L` is at least as up to date as `K`: a later last term, or the same one
and at least the length. -/
def UpToDate (R : Rules ι ε) (L K : List ε) : Prop :=
  R.lastTerm K < R.lastTerm L ∨
    (R.lastTerm K = R.lastTerm L ∧ K.length ≤ L.length)

variable {R : Rules ι ε} {L : List ε}

theorem cfg_append_singleton (e : ε) :
    R.cfg (L ++ [e]) = (R.config e).getD (R.cfg L) := by
  simp [cfg]

theorem cfg_append_none {K : List ε} (h : ∀ e ∈ K, R.config e = none) :
    R.cfg (L ++ K) = R.cfg L := by
  induction K generalizing L with
  | nil => simp
  | cons e K ih =>
      have hcons : L ++ e :: K = (L ++ [e]) ++ K := by simp
      rw [hcons, ih (fun x hx => h x (List.mem_cons_of_mem _ hx)),
        cfg_append_singleton, h e List.mem_cons_self]
      rfl

@[simp] theorem lastTerm_nil : R.lastTerm [] = 0 := rfl

@[simp] theorem lastTerm_append_singleton (e : ε) :
    R.lastTerm (L ++ [e]) = R.term e := by
  simp [lastTerm]

theorem lastTerm_of_getElem? {i : ℕ} {e : ε} (he : L[i]? = some e)
    (hi : i + 1 = L.length) : R.lastTerm L = R.term e := by
  have hlast : L.getLast? = some e := by
    rw [List.getLast?_eq_getElem?, ← hi]
    simpa using he
  simp [lastTerm, hlast]

end Rules

/-! ## The records -/

/-- Everything a run leaves behind. -/
structure History (ι ε : Type*) where
  /-- The log server `n` campaigned with in a term. -/
  cand : ι → ℕ → Option (List ε)
  /-- Whom a server voted for in a term, and the log it then held. -/
  vote : ι → ℕ → Option (ι × List ε)
  /-- The winner of a term and the log it won with. -/
  led : ℕ → Option (ι × List ε)
  /-- The log of a term's leader, as far as it has grown. -/
  tlog : ℕ → List ε
  /-- `ack v t k`: in term `t`, `v` held the first `k` entries of `tlog t`. -/
  ack : ι → ℕ → ℕ → Prop
  /-- `commit t k m`: the leader of `t`, its log then `m` long, moved its
  commit index to `k`. -/
  commit : ℕ → ℕ → ℕ → Prop
  /-- The highest tag the leader `n` of a term has put on a message. -/
  seq : ι → ℕ → ℕ
  /-- `heard n t v q`: `v`, still in term `t`, answered a message that the
  leader `n` of `t` had tagged `q`. -/
  heard : ι → ℕ → ι → ℕ → Prop

namespace History

/-- Before anything happened. -/
def empty : History ι ε where
  cand _ _ := none
  vote _ _ := none
  led _ := none
  tlog _ := []
  ack _ _ _ := False
  commit _ _ _ := False
  seq _ _ := 0
  heard _ _ _ _ := False

variable {R : Rules ι ε} {H H' H'' : History ι ε} {L K : List ε}

/-- Every entry sits in the log of the leader that created it, in front of
exactly the same entries. -/
def Valid (R : Rules ι ε) (H : History ι ε) (L : List ε) : Prop :=
  ∀ i e, L[i]? = some e → ∃ n b, H.led (R.term e) = some (n, b) ∧
    b.length ≤ i ∧ L.take (i + 1) <+: H.tlog (R.term e)

/-- The part `(tlog t).take k` that a server once acknowledged is still in
`L`, or a leader of a term between `t` and `u` was elected without it. -/
def Kept (H : History ι ε) (t k : ℕ) (L : List ε) (u : ℕ) : Prop :=
  (H.tlog t).take k <+: L ∨ ∃ t' n b, t < t' ∧ t' < u ∧
    H.led t' = some (n, b) ∧ ¬ (H.tlog t).take k <+: b

/-- A majority of the configuration `b` ends in voted for `n` in term `t`. -/
def Wins [DecidableEq ι] (R : Rules ι ε) (H : History ι ε) (n : ι) (t : ℕ)
    (b : List ε) : Prop :=
  H.cand n t = some b ∧ ∃ Q, IsMajority Q (R.cfg b) ∧
    ∀ v ∈ Q, ∃ K, H.vote v t = some (n, K)

/-- `P` is a prefix of what some leader of a term up to `t` committed. -/
def CommittedAt (H : History ι ε) (t : ℕ) (P : List ε) : Prop :=
  P = [] ∨ ∃ t₀ k m, t₀ ≤ t ∧ H.commit t₀ k m ∧ P <+: (H.tlog t₀).take k

/-- The facts the records are written with. -/
structure Wf [DecidableEq ι] (R : Rules ι ε) (H : History ι ε) : Prop where
  /-- A candidate's log is older than its term. -/
  cand_ok : ∀ {n t L}, H.cand n t = some L →
    H.Valid R L ∧ ∀ e ∈ L, R.term e < t
  cand_pos : ∀ {n t L}, H.cand n t = some L → 0 < t
  /-- A vote goes to a log at least as up to date as the voter's own. -/
  vote_ok : ∀ {v t n K}, H.vote v t = some (n, K) →
    H.Valid R K ∧ ∃ L, H.cand n t = some L ∧ R.UpToDate L K
  /-- What a voter had acknowledged it held when voting, up to leaders. -/
  vote_kept : ∀ {v t n K t₀ k}, H.vote v t = some (n, K) → H.ack v t₀ k →
    t₀ < t → H.Kept t₀ k K (t + 1)
  /-- A winner has its majority, every vote of it cast before the win. -/
  led_won : ∀ {t n b}, H.led t = some (n, b) → H.cand n t = some b ∧
    ∃ Q, IsMajority Q (R.cfg b) ∧ ∀ v ∈ Q, ∃ K, H.vote v t = some (n, K) ∧
      ∀ t₀ k, H.ack v t₀ k → t₀ < t → H.Kept t₀ k K t
  /-- A leader only appends, and only entries of its own term. -/
  led_log : ∀ {t n b}, H.led t = some (n, b) → b <+: H.tlog t ∧
    ∀ i e, (H.tlog t)[i]? = some e → b.length ≤ i → R.term e = t
  tlog_none : ∀ {t}, H.led t = none → H.tlog t = []
  ack_led : ∀ {v t k}, H.ack v t k →
    k ≤ (H.tlog t).length ∧ ∃ x, H.led t = some x
  ack_down : ∀ {v t k j}, H.ack v t k → j ≤ k → H.ack v t j
  /-- A commit index reaches an entry of the leader's own term that a
  majority of its log's configuration has acknowledged. -/
  commit_ok : ∀ {t k m}, H.commit t k m → ∃ n b, H.led t = some (n, b) ∧
    b.length < k ∧ k ≤ m ∧ m ≤ (H.tlog t).length ∧
    ∃ Q, IsMajority Q (R.cfg ((H.tlog t).take m)) ∧ ∀ v ∈ Q, H.ack v t k
  /-- One server at a time, and only after this leader has committed past
  every earlier configuration entry. -/
  config_ok : ∀ {t n b j e C}, H.led t = some (n, b) →
    (H.tlog t)[j]? = some e → b.length ≤ j → R.config e = some C →
    Near (R.cfg ((H.tlog t).take j)) C ∧ ∃ k m, H.commit t k m ∧ m ≤ j ∧
      ∀ i x, i < j → (H.tlog t)[i]? = some x → R.config x ≠ none → i < k
  heard_le : ∀ {n t v q}, H.heard n t v q → q ≤ H.seq n t

theorem Wf.empty [DecidableEq ι] : (empty : History ι ε).Wf R where
  cand_ok h := by simp [History.empty] at h
  cand_pos h := by simp [History.empty] at h
  vote_ok h := by simp [History.empty] at h
  vote_kept h := by simp [History.empty] at h
  led_won h := by simp [History.empty] at h
  led_log h := by simp [History.empty] at h
  tlog_none _ := rfl
  ack_led h := h.elim
  ack_down h := h.elim
  commit_ok h := h.elim
  config_ok h := by simp [History.empty] at h
  heard_le h := h.elim

/-! ## Growth

Records are only ever added. `Le` is that order; `Frame n` adds that every
new record was written by `n`. -/

/-- `H'` records at least what `H` does. -/
structure Le (H H' : History ι ε) : Prop where
  cand : ∀ {n t L}, H.cand n t = some L → H'.cand n t = some L
  vote : ∀ {v t x}, H.vote v t = some x → H'.vote v t = some x
  led : ∀ {t x}, H.led t = some x → H'.led t = some x
  tlog : ∀ t, H.tlog t <+: H'.tlog t
  ack : ∀ {v t k}, H.ack v t k → H'.ack v t k
  commit : ∀ {t k m}, H.commit t k m → H'.commit t k m
  seq : ∀ n t, H.seq n t ≤ H'.seq n t
  heard : ∀ {n t v q}, H.heard n t v q → H'.heard n t v q

/-- `H'` grew out of `H` by records of server `n` alone. -/
structure Frame (n : ι) (H H' : History ι ε) : Prop extends Le H H' where
  cand_frame : ∀ {m t}, m ≠ n → H'.cand m t = H.cand m t
  vote_frame : ∀ {m t}, m ≠ n → H'.vote m t = H.vote m t
  led_frame : ∀ {m t b}, m ≠ n → H'.led t = some (m, b) →
    H.led t = some (m, b)
  tlog_frame : ∀ {m t b}, m ≠ n → H.led t = some (m, b) →
    H'.tlog t = H.tlog t
  ack_frame : ∀ {m t k}, m ≠ n → H'.ack m t k → H.ack m t k
  commit_frame : ∀ {m t b k l}, m ≠ n → H'.led t = some (m, b) →
    H'.commit t k l → H.commit t k l
  seq_frame : ∀ {m t}, m ≠ n → H'.seq m t = H.seq m t

/-- Nothing about leaders changed: no election won, nothing appended,
committed or confirmed. -/
structure SameLeaders (H H' : History ι ε) : Prop where
  led : H'.led = H.led
  tlog : H'.tlog = H.tlog
  commit : H'.commit = H.commit
  seq : H'.seq = H.seq
  heard : H'.heard = H.heard

theorem SameLeaders.refl (H : History ι ε) : SameLeaders H H :=
  ⟨rfl, rfl, rfl, rfl, rfl⟩

theorem Le.refl (H : History ι ε) : Le H H :=
  ⟨id, id, id, fun _ => List.prefix_rfl, id, id, fun _ _ => le_rfl, id⟩

theorem Le.trans (h : Le H H') (h' : Le H' H'') : Le H H'' where
  cand x := h'.cand (h.cand x)
  vote x := h'.vote (h.vote x)
  led x := h'.led (h.led x)
  tlog t := (h.tlog t).trans (h'.tlog t)
  ack x := h'.ack (h.ack x)
  commit x := h'.commit (h.commit x)
  seq n t := (h.seq n t).trans (h'.seq n t)
  heard x := h'.heard (h.heard x)

theorem Frame.refl (n : ι) (H : History ι ε) : Frame n H H where
  toLe := Le.refl H
  cand_frame _ := rfl
  vote_frame _ := rfl
  led_frame _ h := h
  tlog_frame _ _ := rfl
  ack_frame _ h := h
  commit_frame _ _ h := h
  seq_frame _ := rfl

theorem Frame.trans {n : ι} (h : Frame n H H') (h' : Frame n H' H'') :
    Frame n H H'' where
  toLe := h.toLe.trans h'.toLe
  cand_frame hm := (h'.cand_frame hm).trans (h.cand_frame hm)
  vote_frame hm := (h'.vote_frame hm).trans (h.vote_frame hm)
  led_frame hm hl := h.led_frame hm (h'.led_frame hm hl)
  tlog_frame hm hl :=
    (h'.tlog_frame hm (h.led hl)).trans (h.tlog_frame hm hl)
  ack_frame hm ha := h.ack_frame hm (h'.ack_frame hm ha)
  commit_frame hm hl hc :=
    h.commit_frame hm (h'.led_frame hm hl) (h'.commit_frame hm hl hc)
  seq_frame hm := (h'.seq_frame hm).trans (h.seq_frame hm)

theorem Le.take_eq (h : Le H H') {t k : ℕ} (hk : k ≤ (H.tlog t).length) :
    (H'.tlog t).take k = (H.tlog t).take k := by
  obtain ⟨K, hK⟩ := h.tlog t
  rw [← hK, List.take_append_of_le_length hk]

theorem Valid.mono (hv : H.Valid R L) (h : Le H H') : H'.Valid R L := by
  intro i e he
  obtain ⟨n, b, hl, hb, hp⟩ := hv i e he
  exact ⟨n, b, h.led hl, hb, hp.trans (h.tlog _)⟩

theorem Kept.mono {t k u : ℕ} (hk : H.Kept t k L u) (h : Le H H')
    (hle : k ≤ (H.tlog t).length) : H'.Kept t k L u := by
  unfold Kept at hk ⊢
  rw [h.take_eq hle]
  rcases hk with hp | ⟨t', n, b, h1, h2, h3, h4⟩
  · exact .inl hp
  · exact .inr ⟨t', n, b, h1, h2, h.led h3, h4⟩

theorem Kept.weaken {t k u u' : ℕ} (hk : H.Kept t k L u) (hu : u ≤ u') :
    H.Kept t k L u' := by
  rcases hk with hp | ⟨t', n, b, h1, h2, h3, h4⟩
  · exact .inl hp
  · exact .inr ⟨t', n, b, h1, by omega, h3, h4⟩

theorem CommittedAt.mono {t t' : ℕ} {P : List ε} (hc : H.CommittedAt t P)
    (h : Le H H') (ht : t ≤ t') : H'.CommittedAt t' P := by
  rcases hc with rfl | ⟨t₀, k, m, h0, hcm, hp⟩
  · exact .inl rfl
  · refine .inr ⟨t₀, k, m, by omega, h.commit hcm, hp.trans ?_⟩
    exact (h.tlog t₀).take k

theorem CommittedAt.shorten {t : ℕ} {P P' : List ε}
    (hc : H.CommittedAt t P) (hp : P' <+: P) : H.CommittedAt t P' := by
  rcases hc with rfl | ⟨t₀, k, m, h0, hcm, hp'⟩
  · exact .inl (List.prefix_nil.mp hp)
  · exact .inr ⟨t₀, k, m, h0, hcm, hp.trans hp'⟩

/-! ## Reading valid logs -/

theorem Valid.nil : H.Valid R [] := by
  intro i e he
  simp at he

theorem Valid.shorten (hv : H.Valid R L) (hp : K <+: L) : H.Valid R K := by
  obtain ⟨S, rfl⟩ := hp
  intro i e he
  have hi : i < K.length := (List.getElem?_eq_some_iff.mp he).1
  have heL : (K ++ S)[i]? = some e := by
    rw [List.getElem?_append_left hi, he]
  obtain ⟨n, b, hl, hb, hpre⟩ := hv i e heL
  rw [List.take_append_of_le_length (by omega)] at hpre
  exact ⟨n, b, hl, hb, hpre⟩

end History

end Consensus
