import RustKV.Raft.Cluster
import RustKV.Proofs.Storage
import RustKV.Consensus.Replica

/-!
# Storage read through the uncompacted log

A node's storage keeps a snapshot and what comes after it. Every argument
about logs wants the whole log from the first entry on, so this file fixes
the log `F` a storage stands for (`Represents`) and says what each storage
operation is on `F`: a read is a read of `F`, an append an append, a
truncation a `take`; compacting leaves `F` alone and installing a snapshot
replaces it by what the snapshot was taken of, or keeps it.

The other half is how the consensus library reads an entry of this program
(`rules`), with the membership a log ends in (`lastConfig`) as the bridge to
the configuration the quorum argument speaks of.
-/

namespace RustKV

open Rust Consensus

variable {V : Type} {M : StateMachine V}

/-! ## Reading a log -/

/-- How the consensus argument reads an entry of this program. -/
def rules (D : Deployment) : Rules NodeId (LogEntry V) where
  term := LogEntry.term
  config e := e.configChange?.map BTreeMap.keySet
  init := D.bootstrap

abbrev Hist (V : Type) := History NodeId (LogEntry V)

def lastConfig (L : List (LogEntry V)) : Option Membership :=
  L.reverse.findSome? LogEntry.configChange?

/-- The term of the entry at a 1-based index, with the sentinel at 0. -/
def termAt (L : List (LogEntry V)) (i : Nat) : Option Nat :=
  if i = 0 then some 0 else L[i - 1]?.map LogEntry.term

def Indexed (L : List (LogEntry V)) : Prop :=
  ∀ i e, L[i]? = some e → e.index = i + 1

def StateMachine.replay (M : StateMachine V) (L : List (LogEntry V)) :
    M.State := L.foldl M.apply M.new

variable {D : Deployment} {F L K : List (LogEntry V)} {i k : ℕ}

@[simp] theorem lastConfig_nil : lastConfig ([] : List (LogEntry V)) = none :=
  rfl

theorem lastConfig_append (L K : List (LogEntry V)) :
    lastConfig (L ++ K) = (lastConfig K).or (lastConfig L) := by
  simp [lastConfig, List.findSome?_append]

theorem lastConfig_singleton (e : LogEntry V) :
    lastConfig [e] = e.configChange? := by
  cases h : e.configChange? <;> simp [lastConfig, h]

theorem lastConfig_eq_none :
    lastConfig L = none ↔ ∀ e ∈ L, e.configChange? = none := by
  simp [lastConfig, List.findSome?_eq_none_iff]

theorem cfg_eq_lastConfig (L : List (LogEntry V)) :
    (rules D).cfg L =
      ((lastConfig L).map BTreeMap.keySet).getD D.bootstrap := by
  induction L using List.reverseRecOn with
  | nil => rfl
  | append_singleton L e ih =>
      rw [Rules.cfg_append_singleton, ih, lastConfig_append,
        lastConfig_singleton]
      cases h : e.configChange? <;> simp [rules, h]

@[simp] theorem termAt_zero : termAt L 0 = some 0 := rfl

theorem termAt_succ (i : ℕ) :
    termAt L (i + 1) = L[i]?.map LogEntry.term := rfl

theorem termAt_of_pos (h : 0 < i) :
    termAt L i = L[i - 1]?.map LogEntry.term := if_neg (by omega)

theorem termAt_take (h : i ≤ k) : termAt (L.take k) i = termAt L i := by
  cases i with
  | zero => rfl
  | succ i => rw [termAt_succ, termAt_succ, getElem?_take_of_lt (by omega)]

theorem termAt_isPrefix (h : L <+: K) (hi : i ≤ L.length) :
    termAt K i = termAt L i := by
  rw [← termAt_take hi (L := K), take_eq_of_isPrefix h le_rfl,
    List.take_length]

theorem termAt_eq_some {t : Nat} (h : termAt L i = some t) (hi : 0 < i) :
    ∃ e, L[i - 1]? = some e ∧ e.term = t := by
  rw [termAt_of_pos hi] at h
  simpa using h

theorem le_length_of_termAt {t : Nat} (h : termAt L i = some t) :
    i ≤ L.length := by
  rcases Nat.eq_zero_or_pos i with rfl | hi
  · exact Nat.zero_le _
  · obtain ⟨e, he, -⟩ := termAt_eq_some h hi
    have := lt_length_of_getElem? he
    omega

theorem termAt_length : termAt L L.length = some ((rules D).lastTerm L) := by
  induction L using List.reverseRecOn with
  | nil => rfl
  | append_singleton L e _ =>
      rw [Rules.lastTerm_append_singleton, List.length_append,
        List.length_singleton, termAt_succ, List.getElem?_concat_length]
      rfl

theorem Indexed.shorten (h : Indexed L) (hp : K <+: L) : Indexed K :=
  fun i e he => h i e (getElem?_of_isPrefix hp he)

theorem Indexed.getElem?_of_mem (h : Indexed L) {e : LogEntry V}
    (he : e ∈ L) : 0 < e.index ∧ L[e.index - 1]? = some e := by
  obtain ⟨j, hj⟩ := List.getElem?_of_mem he
  have := h j e hj
  exact ⟨by omega, by rwa [this, Nat.add_sub_cancel]⟩

theorem Indexed.append_singleton (h : Indexed L) {e : LogEntry V}
    (he : e.index = L.length + 1) : Indexed (L ++ [e]) := by
  intro i x hx
  rcases Nat.lt_trichotomy i L.length with hi | hi | hi
  · exact h i x (by rwa [List.getElem?_append_left hi] at hx)
  · subst hi
    rw [List.getElem?_concat_length] at hx
    cases hx
    exact he
  · rw [List.getElem?_eq_none (by simp; omega)] at hx
    cases hx

/-- Equal terms at an index of two recorded logs make them equal up to it. -/
theorem take_eq_of_termAt {H : Hist V} (hL : H.Valid (rules D) L)
    (hK : H.Valid (rules D) K) {t : Nat} (hl : termAt L i = some t)
    (hk : termAt K i = some t) : L.take i = K.take i := by
  cases i with
  | zero => simp
  | succ i =>
      obtain ⟨e, he, het⟩ := termAt_eq_some hl (Nat.succ_pos i)
      obtain ⟨x, hx, hxt⟩ := termAt_eq_some hk (Nat.succ_pos i)
      exact hL.matching hK he hx (het.trans hxt.symm)

@[simp] theorem StateMachine.replay_append_singleton (e : LogEntry V) :
    M.replay (L ++ [e]) = M.apply (M.replay L) e := by
  simp [StateMachine.replay]

/-! ## What a storage stands for -/

/-- The storage `S` stands for the log `F`: it keeps what lies above its
boundary and knows the term there. -/
structure Storage.Covers {P : Type} (S : Storage V P)
    (F : List (LogEntry V)) : Prop where
  indexed : Indexed F
  log : S.log = F.drop S.snapshotIndex
  boundary_le : S.snapshotIndex ≤ F.length
  boundary : termAt F S.snapshotIndex = some S.snapshotTerm

namespace Storage.Covers

variable {P : Type} {S : Storage V P}

theorem lastIndex (h : S.Covers F) : S.lastIndex = F.length := by
  have := h.boundary_le
  rw [Storage.lastIndex, h.log, List.length_drop]
  omega

theorem entry (h : S.Covers F) (hi : S.snapshotIndex < i) :
    S.entry i = F[i - 1]? := by
  rw [Storage.entry_of_lt hi, h.log, List.getElem?_drop]
  congr 1
  omega

theorem entry_eq_some (h : S.Covers F) {e : LogEntry V}
    (he : S.entry i = some e) :
    S.snapshotIndex < i ∧ F[i - 1]? = some e := by
  have hlt := (Storage.boundary_of_entry he).1
  exact ⟨hlt, (h.entry hlt).symm.trans he⟩

theorem term (h : S.Covers F) (hi : S.snapshotIndex ≤ i) :
    S.term i = termAt F i := by
  rw [Storage.term]
  split
  · next heq => rw [heq, h.boundary]
  · next hne => rw [h.entry (by omega), termAt_of_pos (by omega)]

theorem term_eq_some (h : S.Covers F) {t : Nat} (ht : S.term i = some t) :
    S.snapshotIndex ≤ i ∧ termAt F i = some t := by
  rcases Nat.lt_or_ge i S.snapshotIndex with hlt | hge
  · rw [Storage.term_below hlt] at ht
    cases ht
  · exact ⟨hge, (h.term hge).symm.trans ht⟩

theorem lastTerm (h : S.Covers F) :
    termAt F F.length = some S.lastTerm := by
  have hb := h.boundary_le
  rw [Storage.lastTerm, h.log]
  rcases Nat.lt_or_ge S.snapshotIndex F.length with hlt | hge
  · rw [List.getLast?_drop, if_neg (by omega), termAt_of_pos (by omega),
      List.getLast?_eq_getElem?,
      List.getElem?_eq_getElem (show F.length - 1 < F.length by omega)]
    rfl
  · have heq : S.snapshotIndex = F.length := by omega
    rw [heq, List.drop_length, ← heq, h.boundary]
    rfl

theorem entriesFrom (h : S.Covers F) (hi : S.snapshotIndex < i) :
    S.entriesFrom i = F.drop (i - 1) := by
  rw [Storage.entriesFrom, Storage.pos_of_lt hi, Option.getD_some, h.log,
    List.drop_drop]
  congr 1
  omega

end Storage.Covers

/-- `snap` is what a node that applied exactly `P` would write. -/
structure IsSnapshot (M : StateMachine V) (snap : Snapshot M.Payload)
    (P : List (LogEntry V)) : Prop where
  pos : 0 < P.length
  index : snap.lastIncludedIndex = P.length
  term : termAt P P.length = some snap.lastIncludedTerm
  membership : snap.membership = lastConfig P
  state : snap.state = M.snapshot (M.replay P)

/-- The storage `S` holds the log `F`, a prefix of it as a snapshot. -/
structure Represents (M : StateMachine V) (S : Storage V M.Payload)
    (F : List (LogEntry V)) : Prop where
  indexed : Indexed F
  log : S.log = F.drop S.snapshotIndex
  boundary_le : S.snapshotIndex ≤ F.length
  snapshot : ∀ snap, S.snapshot = some snap →
    IsSnapshot M snap (F.take S.snapshotIndex)

namespace Represents

variable {S : Storage V M.Payload}

theorem empty : Represents M (Storage.empty : Storage V M.Payload) [] where
  indexed i e h := by simp at h
  log := rfl
  boundary_le := le_rfl
  snapshot _ h := by cases h

theorem saveHardState (h : Represents M S F) (hs : HardState) :
    Represents M (S.saveHardState hs) F :=
  ⟨h.indexed, h.log, h.boundary_le, h.snapshot⟩

theorem snapshotTerm (h : Represents M S F) :
    termAt F S.snapshotIndex = some S.snapshotTerm := by
  cases hs : S.snapshot with
  | none => simp [Storage.snapshotIndex, Storage.snapshotTerm, hs]
  | some snap =>
      have hsnap := h.snapshot snap hs
      have hterm := hsnap.term
      rw [List.length_take, Nat.min_eq_left h.boundary_le,
        termAt_take le_rfl] at hterm
      rw [hterm, Storage.snapshotTerm, hs]
      rfl

theorem covers (h : Represents M S F) : S.Covers F :=
  ⟨h.indexed, h.log, h.boundary_le, h.snapshotTerm⟩

theorem lastIndex (h : Represents M S F) : S.lastIndex = F.length :=
  h.covers.lastIndex

theorem entry (h : Represents M S F) (hi : S.snapshotIndex < i) :
    S.entry i = F[i - 1]? := h.covers.entry hi

theorem entry_eq_some (h : Represents M S F) {e : LogEntry V}
    (he : S.entry i = some e) :
    S.snapshotIndex < i ∧ F[i - 1]? = some e := h.covers.entry_eq_some he

theorem term (h : Represents M S F) (hi : S.snapshotIndex ≤ i) :
    S.term i = termAt F i := h.covers.term hi

theorem term_eq_some (h : Represents M S F) {t : Nat}
    (ht : S.term i = some t) :
    S.snapshotIndex ≤ i ∧ termAt F i = some t := h.covers.term_eq_some ht

theorem lastTerm (h : Represents M S F) :
    S.lastTerm = (rules D).lastTerm F :=
  Option.some.inj (h.covers.lastTerm.symm.trans termAt_length)

theorem entriesFrom (h : Represents M S F) (hi : S.snapshotIndex < i) :
    S.entriesFrom i = F.drop (i - 1) := h.covers.entriesFrom hi

/-! ### Writing -/

theorem append (h : Represents M S F) {es : List (LogEntry V)}
    (hi : Indexed (F ++ es)) :
    ∃ S', S.append es = .ok S' ∧ Represents M S' (F ++ es) ∧
      S'.hardState = S.hardState ∧ S'.snapshot = S.snapshot := by
  have hes : Numbered S.lastIndex es := by
    intro j e he
    have := hi (F.length + j) e (by
      rw [List.getElem?_append_right (by omega)]
      simpa using he)
    rw [h.lastIndex]
    omega
  have hb := h.boundary_le
  refine ⟨{ S with log := S.log ++ es }, Storage.append_eq_ok.mpr
    ⟨hes, rfl⟩, ?_, rfl, rfl⟩
  have hsame : ({ S with log := S.log ++ es } :
      Storage V M.Payload).snapshotIndex = S.snapshotIndex := rfl
  refine ⟨hi, ?_, ?_, fun snap hs => ?_⟩
  · rw [hsame, List.drop_append_of_le_length hb, ← h.log]
  · rw [hsame, List.length_append]
    omega
  · rw [hsame, List.take_append_of_le_length hb]
    exact h.snapshot snap hs

theorem truncateFrom (h : Represents M S F) (hi : S.snapshotIndex < i)
    (hl : i ≤ F.length) :
    ∃ S', S.truncateFrom i = .ok S' ∧ Represents M S' (F.take (i - 1)) ∧
      S'.hardState = S.hardState ∧ S'.snapshot = S.snapshot := by
  refine ⟨{ S with log := S.log.take (i - (S.snapshotIndex + 1)) },
    Storage.truncateFrom_eq_ok.mpr ⟨hi, rfl⟩, ?_, rfl, rfl⟩
  have hsame : ({ S with
      log := S.log.take (i - (S.snapshotIndex + 1)) } :
      Storage V M.Payload).snapshotIndex = S.snapshotIndex := rfl
  refine ⟨h.indexed.shorten <| List.take_prefix _ _, ?_, ?_,
    fun snap hs => ?_⟩
  · show S.log.take (i - (S.snapshotIndex + 1)) =
      (F.take (i - 1)).drop S.snapshotIndex
    rw [h.log, List.drop_take]
    congr 1
    omega
  · rw [hsame, List.length_take]
    omega
  · rw [hsame, List.take_take, Nat.min_eq_left (by omega)]
    exact h.snapshot snap hs

/-- Compacting to a captured prefix leaves the log the storage stands for
as it is. -/
theorem compactTo (h : Represents M S F) (hi : S.snapshotIndex < i)
    (hl : i ≤ F.length) {state : M.Payload} {membership : Option Membership}
    (hstate : state = M.snapshot (M.replay (F.take i)))
    (hmem : membership = lastConfig (F.take i)) :
    ∃ S', S.compactTo i state membership = .ok S' ∧ Represents M S' F ∧
      S'.hardState = S.hardState ∧ S'.snapshotIndex = i := by
  have hlen : i - 1 < F.length := by omega
  have he : F[i - 1]? = some F[i - 1] := List.getElem?_eq_getElem hlen
  refine ⟨{ S with
      snapshot := some ⟨i, F[i - 1].term, membership, state⟩
      log := S.entriesFrom (i + 1) }, ?_, ?_, rfl, rfl⟩
  · rw [Storage.compactTo, h.entry hi, he]
  · have htake : (F.take i).length = i := by
      rw [List.length_take]
      omega
    refine ⟨h.indexed, ?_, hl, fun snap hs => ?_⟩
    · rw [h.entriesFrom (by omega)]
      rfl
    · cases hs
      refine ⟨by simp only [Storage.snapshotIndex, Option.elim]; omega,
        htake.symm, ?_, hmem, hstate⟩
      simp only [Storage.snapshotIndex, Option.elim]
      rw [htake, termAt_take le_rfl, termAt_of_pos (by omega), he]
      rfl

/-- Installing a snapshot of `P`: the log stays if it agrees at the boundary,
and is `P` otherwise. -/
theorem installSnapshot (h : Represents M S F) {snap : Snapshot M.Payload}
    {P : List (LogEntry V)} (hsnap : IsSnapshot M snap P) (hP : Indexed P)
    (hi : S.snapshotIndex < P.length)
    (hagree : termAt F P.length = some snap.lastIncludedTerm → P <+: F) :
    ∃ S', S.installSnapshot snap = .ok S' ∧
      Represents M S' (if termAt F P.length = some snap.lastIncludedTerm
        then F else P) ∧
      S'.hardState = S.hardState ∧ S'.snapshotIndex = P.length := by
  refine ⟨{ S with snapshot := some snap, log := S.retainedBy snap }, ?_, ?_,
    rfl, hsnap.index⟩
  · rw [Storage.installSnapshot, if_neg (by rw [hsnap.index]; omega)]
  · have hb : ({ S with snapshot := some snap, log := S.retainedBy snap } :
        Storage V M.Payload).snapshotIndex = P.length := hsnap.index
    have hterm : S.term snap.lastIncludedIndex = termAt F P.length := by
      rw [hsnap.index, h.term hi.le]
    split
    · next heq =>
        have hpre := hagree heq
        refine ⟨h.indexed, ?_, ?_, fun snap' hs => ?_⟩
        · rw [hb]
          simp only [Storage.retainedBy]
          rw [if_pos (hterm.trans heq), hsnap.index,
            h.entriesFrom (by omega)]
          rfl
        · rw [hb]
          exact hpre.length_le
        · cases hs
          rw [hb, take_eq_of_isPrefix hpre le_rfl, List.take_length]
          exact hsnap
    · next hne =>
        refine ⟨hP, ?_, hb.le, fun snap' hs => ?_⟩
        · rw [hb]
          simp only [Storage.retainedBy]
          rw [if_neg (fun hc => hne (hterm.symm.trans hc)), List.drop_length]
        · cases hs
          rw [hb, List.take_length]
          exact hsnap

end Represents

end RustKV
