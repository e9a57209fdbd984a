import RustKV.Raft.Storage

/-!
# What the calls on `Storage` return

Each mutating call of `Raft/Storage.lean` either returns an error or one
particular storage. The lemmas here say which and when, one `iff` per call, so
that no proof has to take the code of a call apart again.

An append is the only call with a condition on its argument alone: the entries
must continue the log (`Numbered`).
-/

namespace RustKV

open Rust

variable {V P : Type} {s s' : Storage V P} {es : List (LogEntry V)}
  {a b i k : Nat}

/-! ## Consecutive indexes -/

/-- The entries continue a log that ends at index `a`. -/
def Numbered (a : Nat) (es : List (LogEntry V)) : Prop :=
  ∀ j e, es[j]? = some e → e.index = a + 1 + j

namespace Numbered

theorem nil : Numbered a ([] : List (LogEntry V)) := fun _ _ h => by cases h

theorem head {e : LogEntry V} (h : Numbered a (e :: es)) :
    e.index = a + 1 := h 0 e rfl

theorem tail {e : LogEntry V} (h : Numbered a (e :: es)) :
    Numbered (a + 1) es := fun j x hx => by
  have := h (j + 1) x hx
  omega

theorem cons {e : LogEntry V} (he : e.index = a + 1)
    (h : Numbered (a + 1) es) : Numbered a (e :: es) := by
  intro j x hx
  cases j with
  | zero =>
      cases hx
      exact he
  | succ j =>
      have := h j x hx
      omega

theorem drop (h : Numbered a es) (k : Nat) :
    Numbered (a + k) (es.drop k) := fun j e he => by
  rw [List.getElem?_drop] at he
  have := h _ e he
  omega

theorem take (h : Numbered a es) (k : Nat) : Numbered a (es.take k) :=
  fun j e he => h j e (by
    rw [List.getElem?_take] at he
    split at he
    · exact he
    · cases he)

theorem append {fs : List (LogEntry V)} (h : Numbered a es)
    (h' : Numbered (a + es.length) fs) : Numbered a (es ++ fs) := by
  intro j e he
  rcases Nat.lt_or_ge j es.length with hlt | hge
  · rw [List.getElem?_append_left hlt] at he
    exact h j e he
  · rw [List.getElem?_append_right hge] at he
    have := h' _ e he
    omega

theorem checkContiguous :
    Storage.checkContiguous (a + 1) es = .ok () ↔ Numbered a es := by
  induction es generalizing a with
  | nil => exact ⟨fun _ => nil, fun _ => rfl⟩
  | cons e es ih =>
      rw [Storage.checkContiguous]
      by_cases he : e.index = a + 1
      · rw [if_neg (not_not.mpr he), ih]
        exact ⟨cons he, tail⟩
      · rw [if_pos he]
        refine ⟨fun h => ?_, fun h => absurd h.head he⟩
        cases h

theorem filter_eq_drop (h : Numbered a es) (b : Nat) :
    es.filter (b < ·.index) = es.drop (b - a) := by
  induction es generalizing a with
  | nil => simp
  | cons e es ih =>
      have he := h.head
      have ih := ih h.tail
      rcases Nat.lt_or_ge a b with hlt | hge
      · rw [List.filter_cons_of_neg (by simpa using by omega), ih,
          show b - a = (b - (a + 1)) + 1 by omega, List.drop_succ_cons]
      · rw [List.filter_cons_of_pos (by simpa using by omega), ih,
          show b - (a + 1) = 0 by omega, show b - a = 0 by omega]
        rfl

theorem mem_drop (h : Numbered a es) {e : LogEntry V} (he : e ∈ es)
    (hb : b < e.index) : e ∈ es.drop (b - a) := by
  rw [← h.filter_eq_drop]
  exact List.mem_filter.mpr ⟨he, decide_eq_true hb⟩

theorem mem_take (h : Numbered a es) {e : LogEntry V} (he : e ∈ es)
    (hb : e.index < b) : e ∈ es.take (b - (a + 1)) := by
  obtain ⟨j, hj⟩ := List.getElem?_of_mem he
  have := h j e hj
  refine List.mem_of_getElem? (i := j) ?_
  rw [List.getElem?_take, if_pos (by omega)]
  exact hj

end Numbered

/-! ## Positions -/

namespace Storage

theorem pos_of_lt (h : s.snapshotIndex < i) :
    s.pos i = some (i - (s.snapshotIndex + 1)) := if_pos h

theorem pos_of_le (h : i ≤ s.snapshotIndex) : s.pos i = none :=
  if_neg (Nat.not_lt_of_le h)

theorem entriesFrom_of_le (h : i ≤ s.snapshotIndex) :
    s.entriesFrom i = s.entries := by
  rw [entriesFrom, pos_of_le h]
  rfl

theorem entriesFrom_succ (h : s.snapshotIndex ≤ i) :
    s.entriesFrom (i + 1) = s.log.drop (i - s.snapshotIndex) := by
  have hpos : s.pos (i + 1) = some (i + 1 - (s.snapshotIndex + 1)) :=
    pos_of_lt (Nat.lt_succ_of_le h)
  rw [entriesFrom, hpos, Option.getD_some, Nat.add_sub_add_right]

theorem entry_of_le (h : i ≤ s.snapshotIndex) : s.entry i = none := by
  rw [entry, pos_of_le h]
  rfl

theorem entry_of_lt (h : s.snapshotIndex < i) :
    s.entry i = s.log[i - (s.snapshotIndex + 1)]? := by
  rw [entry, pos_of_lt h, Option.bind_some]

theorem term_below (h : i < s.snapshotIndex) : s.term i = none := by
  rw [term, if_neg h.ne, entry_of_le h.le]
  rfl

theorem boundary_of_entry {e : LogEntry V} (h : s.entry i = some e) :
    s.snapshotIndex < i ∧ i ≤ s.lastIndex := by
  rcases Nat.lt_or_ge s.snapshotIndex i with hlt | hge
  · rw [entry_of_lt hlt] at h
    have := (List.getElem?_eq_some_iff.mp h).1
    rw [lastIndex]
    exact ⟨hlt, by omega⟩
  · rw [entry_of_le hge] at h
    cases h

theorem exists_entry (hb : s.snapshotIndex < i) (hi : i ≤ s.lastIndex) :
    ∃ e, s.entry i = some e := by
  rw [lastIndex] at hi
  rw [entry_of_lt hb]
  exact ⟨_, List.getElem?_eq_getElem (by omega)⟩

/-! ## Calls -/

theorem append_eq_ok : s.append es = .ok s' ↔
    Numbered s.lastIndex es ∧ s' = { s with log := s.log ++ es } := by
  rw [append]
  cases es with
  | nil =>
      rw [if_pos (by rfl), List.append_nil]
      exact ⟨fun h => ⟨.nil, (Except.ok.inj h).symm⟩,
        fun h => congrArg _ h.2.symm⟩
  | cons e es =>
      rw [if_neg (by exact Bool.false_ne_true)]
      rw [← Numbered.checkContiguous]
      cases checkContiguous (s.lastIndex + 1) (e :: es) with
      | error err =>
          refine ⟨fun h => ?_, fun h => ?_⟩
          · cases h
          · cases h.1
      | ok u => exact ⟨fun h => ⟨rfl, (Except.ok.inj h).symm⟩,
          fun h => congrArg _ h.2.symm⟩

theorem truncateFrom_eq_ok : s.truncateFrom i = .ok s' ↔
    s.snapshotIndex < i ∧
      s' = { s with log := s.log.take (i - (s.snapshotIndex + 1)) } := by
  rw [truncateFrom]
  rcases Nat.lt_or_ge s.snapshotIndex i with hlt | hge
  · rw [pos_of_lt hlt]
    simp only [hlt, true_and]
    split
    · next hend =>
        rw [lastIndex] at hend
        rw [List.take_of_length_le (by omega)]
        exact ⟨fun h => (Except.ok.inj h).symm, fun h => congrArg _ h.symm⟩
    · exact ⟨fun h => (Except.ok.inj h).symm, fun h => congrArg _ h.symm⟩
  · rw [pos_of_le hge]
    refine ⟨fun h => ?_, fun h => absurd h.1 (Nat.not_lt_of_le hge)⟩
    cases h

theorem compactTo_eq_ok {state : P} {membership : Option Membership} :
    s.compactTo i state membership = .ok s' ↔
      ∃ e, s.entry i = some e ∧ s' = { s with
        snapshot := some ⟨i, e.term, membership, state⟩
        log := s.log.drop (i - s.snapshotIndex) } := by
  rw [compactTo]
  cases he : s.entry i with
  | none =>
      refine ⟨fun h => ?_, fun h => ?_⟩
      · cases h
      · simp at h
  | some e =>
      have hb := (boundary_of_entry he).1
      simp only [Option.some.injEq, exists_eq_left', entriesFrom_succ hb.le]
      exact ⟨fun h => (Except.ok.inj h).symm, fun h => congrArg _ h.symm⟩

theorem installSnapshot_eq_ok {snap : Snapshot P} :
    s.installSnapshot snap = .ok s' ↔
      s.snapshotIndex < snap.lastIncludedIndex ∧ s' = { s with
        snapshot := some snap
        log := if s.term snap.lastIncludedIndex =
            some snap.lastIncludedTerm then
          s.log.drop (snap.lastIncludedIndex - s.snapshotIndex) else [] } := by
  rw [installSnapshot]
  split
  · next hle =>
      refine ⟨fun h => ?_, fun h => absurd h.1 (Nat.not_lt_of_le hle)⟩
      cases h
  · next hlt =>
      have hb := Nat.lt_of_not_le hlt
      rw [retainedBy, entriesFrom_succ hb.le]
      exact ⟨fun h => ⟨hb, (Except.ok.inj h).symm⟩,
        fun h => congrArg _ h.2.symm⟩

/-! ## Entries across calls -/

theorem term_of_lt (h : s.snapshotIndex < i) :
    s.term i = (s.entry i).map LogEntry.term := by
  rw [term, if_neg (by omega)]

theorem entry_append {es : List (LogEntry V)} (h : s.append es = .ok s')
    (hi : i ≤ s.lastIndex) : s'.entry i = s.entry i := by
  obtain ⟨-, hs⟩ := append_eq_ok.mp h
  have hb : s'.snapshotIndex = s.snapshotIndex := by rw [hs]; rfl
  have hlog : s'.log = s.log ++ es := by rw [hs]
  rw [lastIndex] at hi
  rcases Nat.lt_or_ge s.snapshotIndex i with hlt | hge
  · rw [entry_of_lt hlt, entry_of_lt (hb.trans_lt hlt), hb, hlog,
      List.getElem?_append_left (by omega)]
  · rw [entry_of_le hge, entry_of_le (hge.trans_eq hb.symm)]

theorem entry_append_last {e : LogEntry V} (h : s.append [e] = .ok s') :
    e.index = s.lastIndex + 1 ∧ s'.entry e.index = some e := by
  obtain ⟨hes, hs⟩ := append_eq_ok.mp h
  have hb : s'.snapshotIndex = s.snapshotIndex := by rw [hs]; rfl
  have hlog : s'.log = s.log ++ [e] := by rw [hs]
  have he : e.index = s.lastIndex + 1 := hes.head
  refine ⟨he, ?_⟩
  rw [lastIndex] at he
  rw [entry_of_lt (by omega), hb, hlog,
    show e.index - (s.snapshotIndex + 1) = s.log.length by omega]
  exact List.getElem?_concat_length

theorem entry_truncateFrom (h : s.truncateFrom k = .ok s') :
    s'.entry i = if i < k then s.entry i else none := by
  obtain ⟨hk, hs⟩ := truncateFrom_eq_ok.mp h
  have hb : s'.snapshotIndex = s.snapshotIndex := by rw [hs]; rfl
  have hlog : s'.log = s.log.take (k - (s.snapshotIndex + 1)) := by rw [hs]
  rcases Nat.lt_or_ge s.snapshotIndex i with hlt | hge
  · rw [entry_of_lt hlt, entry_of_lt (hb.trans_lt hlt), hb, hlog,
      List.getElem?_take]
    congr 1
    exact propext (by omega)
  · rw [entry_of_le hge, entry_of_le (hge.trans_eq hb.symm), ite_self]

theorem entry_compactTo {state : P} {membership : Option Membership}
    (h : s.compactTo k state membership = .ok s') (hi : k < i) :
    s'.entry i = s.entry i := by
  obtain ⟨e, he, hs⟩ := compactTo_eq_ok.mp h
  have hb : s'.snapshotIndex = k := by rw [hs]; rfl
  have hlog : s'.log = s.log.drop (k - s.snapshotIndex) := by rw [hs]
  have hlt := (boundary_of_entry he).1
  rw [entry_of_lt (show s.snapshotIndex < i by omega),
    entry_of_lt (hb.trans_lt hi), hb, hlog, List.getElem?_drop]
  congr 1
  omega

theorem entry_installSnapshot {snap : Snapshot P}
    (h : s.installSnapshot snap = .ok s')
    (hi : snap.lastIncludedIndex < i) :
    s'.entry i = s.entry i ∨ s'.entry i = none := by
  obtain ⟨hlt, hs⟩ := installSnapshot_eq_ok.mp h
  have hb : s'.snapshotIndex = snap.lastIncludedIndex := by rw [hs]; rfl
  rw [entry_of_lt (show s.snapshotIndex < i by omega),
    entry_of_lt (hb.trans_lt hi), hb]
  refine (em (s.term snap.lastIncludedIndex =
    some snap.lastIncludedTerm)).imp (fun heq => ?_) fun hne => ?_
  · have hlog : s'.log =
        s.log.drop (snap.lastIncludedIndex - s.snapshotIndex) := by
      rw [hs, if_pos heq]
    rw [hlog, List.getElem?_drop]
    congr 1
    omega
  · rw [hs, if_neg hne]
    rfl

end Storage

end RustKV
