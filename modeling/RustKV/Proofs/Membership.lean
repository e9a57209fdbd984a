import RustKV.Proofs.Log

/-!
# Which membership is in effect

A node keeps the membership in effect and the index it came from; both are
derived from storage at boot, after a truncation and after an installed
snapshot, and moved along on every append. Read through the uncompacted log
the rule is one line: the last configuration the log carries, else the one
the node was started with.
-/

namespace RustKV

open Rust Consensus

variable {V : Type} {M : StateMachine V} {D : Deployment}
  {F L : List (LogEntry V)} {i : ℕ}

theorem Indexed.pairwise (h : Indexed L) :
    L.Pairwise fun a b => a.index ≤ b.index := by
  rw [List.pairwise_iff_getElem]
  intro i j hi hj hij
  rw [h i _ (List.getElem?_eq_getElem hi), h j _ (List.getElem?_eq_getElem hj)]
  omega

theorem Indexed.le_of_mem_take (h : Indexed L) {e : LogEntry V}
    (he : e ∈ L.take i) : e.index ≤ i := by
  obtain ⟨j, hj⟩ := List.getElem?_of_mem he
  have hlt := lt_length_of_getElem? hj
  rw [List.length_take] at hlt
  rw [getElem?_take_of_lt (by omega)] at hj
  have := h j e hj
  omega

theorem Indexed.lt_of_mem_drop (h : Indexed L) {e : LogEntry V}
    (he : e ∈ L.drop i) : i < e.index := by
  obtain ⟨j, hj⟩ := List.getElem?_of_mem he
  rw [List.getElem?_drop] at hj
  have := h _ e hj
  omega

/-! ## The newest configuration of some entries -/

theorem newestConfig_append_singleton (e : LogEntry V) :
    newestConfig (L ++ [e]) =
      (e.configChange?.map fun m => (m, e.index)).or (newestConfig L) := by
  rw [newestConfig, List.reverse_append, List.findSome?_append]
  cases h : e.configChange? <;> simp [newestConfig, h]

theorem newestConfig_fst (L : List (LogEntry V)) :
    (newestConfig L).map Prod.fst = lastConfig L := by
  induction L using List.reverseRecOn with
  | nil => rfl
  | append_singleton L e ih =>
      rw [newestConfig_append_singleton, lastConfig_append,
        lastConfig_singleton]
      cases h : e.configChange? <;> simp [ih]

theorem newestConfig_index (h : L.Pairwise fun a b => a.index ≤ b.index)
    {m : Membership} (hm : newestConfig L = some (m, i)) {e : LogEntry V}
    (he : e ∈ L) (hc : e.configChange? ≠ none) : e.index ≤ i := by
  induction L using List.reverseRecOn with
  | nil => cases he
  | append_singleton L x ih =>
      rw [newestConfig_append_singleton] at hm
      rw [List.pairwise_append] at h
      cases hx : x.configChange? with
      | some c =>
          rw [hx] at hm
          obtain ⟨-, rfl⟩ : c = m ∧ x.index = i := by simpa using hm
          rcases List.mem_append.mp he with he | he
          · exact h.2.2 e he x (by simp)
          · rw [List.mem_singleton.mp he]
      | none =>
          rw [hx] at hm
          rcases List.mem_append.mp he with he | he
          · exact ih h.1 (by simpa using hm) he
          · rw [List.mem_singleton.mp he] at hc
            exact absurd hx hc

theorem exists_of_newestConfig {m : Membership}
    (hm : newestConfig L = some (m, i)) :
    ∃ e ∈ L, e.configChange? = some m ∧ e.index = i := by
  obtain ⟨e, he, hfound⟩ := List.exists_of_findSome?_eq_some hm
  obtain ⟨m', hm', heq⟩ := Option.map_eq_some_iff.mp hfound
  cases heq
  exact ⟨e, List.mem_reverse.mp he, hm', rfl⟩

/-! ## What a node derives -/

/-- `index` is where the membership in effect after `F` comes from, as far as
that lies above `boundary`. -/
structure Located (F : List (LogEntry V)) (index boundary : ℕ) : Prop where
  le : ∀ e ∈ F, e.configChange? ≠ none → e.index ≤ max index boundary
  carried : index ≤ boundary ∨
    ∃ e ∈ F, e.configChange? ≠ none ∧ e.index = index

theorem Located.append_none {index b : ℕ} {K : List (LogEntry V)}
    (h : Located F index b) (hnone : ∀ e ∈ K, e.configChange? = none) :
    Located (F ++ K) index b := by
  constructor
  · intro e he hc
    rcases List.mem_append.mp he with he | he
    · exact h.le e he hc
    · exact absurd (hnone e he) hc
  · rcases h.carried with hle | ⟨e, he, hc⟩
    · exact .inl hle
    · exact .inr ⟨e, List.mem_append_left _ he, hc⟩

theorem Located.append_self {b : ℕ} {e : LogEntry V} (hF : Indexed F)
    (hi : e.index = F.length + 1) (hc : e.configChange? ≠ none) :
    Located (F ++ [e]) e.index b := by
  refine ⟨fun y hy _ => le_max_of_le_left ?_, .inr ⟨e, by simp, hc, rfl⟩⟩
  rcases List.mem_append.mp hy with hy | hy
  · obtain ⟨j, hj⟩ := List.getElem?_of_mem hy
    have h1 := hF j y hj
    have h2 := lt_length_of_getElem? hj
    omega
  · rw [List.mem_singleton.mp hy]

theorem Located.take {index b q : ℕ} (h : Located F index b)
    (hnone : ∀ e ∈ F.drop q, e.configChange? = none) :
    Located (F.take q) index b := by
  constructor
  · exact fun e he => h.le e (List.mem_of_mem_take he)
  · rcases h.carried with hle | ⟨e, he, hc, hi⟩
    · exact .inl hle
    · rw [← List.take_append_drop q F, List.mem_append] at he
      exact .inr ⟨e, he.resolve_right fun he => hc (hnone e he), hc, hi⟩

theorem Located.raise {index b b' : ℕ} (h : Located F index b)
    (hb : b ≤ b') : Located F index b' :=
  ⟨fun e he hc => (h.le e he hc).trans (max_le_max le_rfl hb),
    h.carried.imp (·.trans hb) id⟩

theorem lastConfig_split (s : ℕ) (F : List (LogEntry V)) :
    lastConfig F = (lastConfig (F.drop s)).or (lastConfig (F.take s)) := by
  conv_lhs => rw [← List.take_append_drop s F]
  exact lastConfig_append _ _

theorem Represents.snapshot_membership {S : Storage V M.Payload}
    (h : Represents M S F) :
    S.snapshot.bind Snapshot.membership =
      lastConfig (F.take S.snapshotIndex) := by
  cases hs : S.snapshot with
  | none => simp [Storage.snapshotIndex, hs]
  | some snap => exact (h.snapshot snap hs).membership

def membersOf (config : RaftConfig) (F : List (LogEntry V)) : Membership :=
  (lastConfig F).getD config.bootMembership

theorem deriveMembership_fst {S : Storage V M.Payload}
    (h : Represents M S F) (config : RaftConfig) :
    (deriveMembership S config).1 = membersOf config F := by
  have hdrop := newestConfig_fst S.log
  rw [h.log] at hdrop
  rw [membersOf, lastConfig_split S.snapshotIndex, ← hdrop,
    ← h.snapshot_membership, deriveMembership, Storage.entries, h.log]
  cases newestConfig (F.drop S.snapshotIndex) with
  | some found => rfl
  | none => cases S.snapshot.bind Snapshot.membership <;> rfl

theorem newestConfig_eq_none :
    newestConfig L = none ↔ ∀ e ∈ L, e.configChange? = none := by
  rw [← lastConfig_eq_none, ← newestConfig_fst, Option.map_eq_none_iff]

theorem deriveMembership_snd {S : Storage V M.Payload}
    (h : Represents M S F) (config : RaftConfig) :
    Located F (deriveMembership S config).2 S.snapshotIndex := by
  have hlow : ∀ e ∈ F.take S.snapshotIndex, ∀ k,
      e.index ≤ max k S.snapshotIndex := fun e he k =>
    (h.indexed.le_of_mem_take he).trans (le_max_right _ _)
  have hsplit : ∀ e ∈ F, e ∈ F.take S.snapshotIndex ∨
      e ∈ F.drop S.snapshotIndex := fun e he => by
    rwa [← List.mem_append, List.take_append_drop]
  rw [deriveMembership, Storage.entries, h.log]
  cases hn : newestConfig (F.drop S.snapshotIndex) with
  | some found =>
      obtain ⟨x, hx, hcx, hix⟩ := exists_of_newestConfig hn
      refine ⟨fun e he hc => ?_, .inr ⟨x, List.mem_of_mem_drop hx,
        by rw [hcx]; exact Option.some_ne_none _, hix⟩⟩
      rcases hsplit e he with he | he
      · exact hlow e he _
      · exact le_max_of_le_left (newestConfig_index
          (h.indexed.pairwise.sublist (List.drop_sublist _ _)) hn he hc)
  | none =>
      have hle : ∀ k, ∀ e ∈ F, e.configChange? ≠ none →
          e.index ≤ max k S.snapshotIndex := by
        intro k e he hc
        rcases hsplit e he with he | he
        · exact hlow e he k
        · exact absurd (newestConfig_eq_none.mp hn e he) hc
      cases S.snapshot.bind Snapshot.membership with
      | some members => exact ⟨hle _, .inl le_rfl⟩
      | none => exact ⟨hle _, .inl (Nat.zero_le _)⟩

theorem findSome?_congr {α β : Type} {f g : α → Option β} {l : List α}
    (h : ∀ a ∈ l, f a = g a) : l.findSome? f = l.findSome? g := by
  induction l with
  | nil => rfl
  | cons a l ih =>
      rw [List.findSome?_cons, List.findSome?_cons,
        h a List.mem_cons_self,
        ih fun b hb => h b (List.mem_cons_of_mem _ hb)]

theorem membershipAt_eq {x : Node M} (h : Represents M x.storage F)
    (hs : x.storage.snapshotIndex ≤ i) :
    x.membershipAt i = lastConfig (F.take i) := by
  set s := x.storage.snapshotIndex with hsdef
  have hlog : x.storage.entries =
      (F.take i).drop s ++ F.drop i := by
    rw [Storage.entries, h.log, ← List.take_append_drop i F,
      List.drop_append, List.take_append_drop]
    rcases Nat.lt_or_ge F.length i with hlt | hge
    · simp [List.drop_eq_nil_of_le hlt.le, hsdef]
    · rw [List.length_take, Nat.min_eq_left hge,
        Nat.sub_eq_zero_of_le hs, List.drop_zero]
  have hhigh : (F.drop i).reverse.findSome? (fun e =>
      if e.index > i then none else e.configChange?) = none := by
    rw [List.findSome?_eq_none_iff]
    intro e he
    rw [if_pos (h.indexed.lt_of_mem_drop (List.mem_reverse.mp he))]
  have hlow : ((F.take i).drop s).reverse.findSome? (fun e =>
      if e.index > i then none else e.configChange?) =
        lastConfig ((F.take i).drop s) := by
    refine findSome?_congr fun e he => if_neg ?_
    have := h.indexed.le_of_mem_take (i := i)
      (List.mem_of_mem_drop (List.mem_reverse.mp he))
    omega
  rw [lastConfig_split s (F.take i), List.take_take, Nat.min_eq_left hs,
    ← h.snapshot_membership, Node.membershipAt, hlog, List.reverse_append,
    List.findSome?_append, hhigh, hlow]
  cases lastConfig ((F.take i).drop s) <;> rfl

theorem keySet_bootMembership (D : Deployment) (n : NodeId) :
    (D.config n).bootMembership.keySet = D.bootstrap ∨
      (D.config n).bootMembership.keySet = ∅ := by
  rw [RaftConfig.bootMembership]
  split
  · exact .inr rfl
  · next hj =>
      left
      rw [BTreeMap.keySet_collect, List.map_map, D.id_eq n,
        ← D.bootstrap_eq n (by simpa using hj)]
      congr 1
      exact List.map_id _

/-- A non-empty membership in effect is the log's configuration. -/
theorem membersOf_keySet (D : Deployment) (n : NodeId)
    (F : List (LogEntry V)) :
    (membersOf (D.config n) F).keySet = (rules D).cfg F ∨
      (membersOf (D.config n) F).keySet = ∅ := by
  rw [cfg_eq_lastConfig, membersOf]
  cases lastConfig F with
  | some m => exact .inl rfl
  | none => exact keySet_bootMembership D n

end RustKV
