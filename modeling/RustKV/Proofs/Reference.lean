import RustKV.Proofs.Disk
import RustKV.Proofs.Log

/-!
# The compacted log and the log behind it

`Storage` keeps a snapshot and what comes after it, and does all its arithmetic
relative to a boundary that moves. `Reference` is the same object with nothing
taken away: the whole log from the first entry on, and the boundary as a mark
in it. Its calls are what one would write down for a plain list, and its
refusals are about the mark and the end of the list only.

The two run in step (`Reference.Shows.call`): whatever the calls, `Storage`
answers from the retained part what the reference answers from the whole, it
refuses exactly the calls the reference refuses, and a refused call leaves
memory and disk alone.

What a snapshot from elsewhere stands for, nobody here knows. `Histories` gives
every snapshot some log that ends in its last entry, and the result holds for
each such choice.
-/

namespace RustKV

open Rust

variable {V P : Type} {J : Json V P} {s s' : Storage V P} {a i : Nat}
  {es F : List (LogEntry V)}

/-! ## The reference -/

/-- A log for every snapshot to be of. -/
structure Histories (V P : Type) where
  log : Snapshot P → List (LogEntry V)
  indexed : ∀ snap, Indexed (log snap)
  length : ∀ snap, (log snap).length = snap.lastIncludedIndex
  term : ∀ snap, 0 < snap.lastIncludedIndex →
    termAt (log snap) snap.lastIncludedIndex = some snap.lastIncludedTerm

/-- There is always one: nothing but no-ops. -/
instance : Inhabited (Histories V P) where
  default :=
    { log := fun snap => (List.range snap.lastIncludedIndex).map fun j =>
        ⟨snap.lastIncludedTerm, j + 1, .noop⟩
      indexed := fun snap j e he => by
        rw [List.getElem?_map] at he
        obtain ⟨k, hk, rfl⟩ := Option.map_eq_some_iff.mp he
        obtain ⟨hlt, hk⟩ := List.getElem?_eq_some_iff.mp hk
        rw [← hk, List.getElem_range]
      length := fun snap => by simp
      term := fun snap hpos => by
        rw [termAt_of_pos hpos, List.getElem?_map, List.getElem?_range]
        · rfl
        · omega }

/-- The log as if nothing had been compacted, and how far it has been. -/
structure Reference (V : Type) where
  log : List (LogEntry V)
  boundary : Nat

instance (a : Nat) (es : List (LogEntry V)) : Decidable (Numbered a es) :=
  decidable_of_iff _ Numbered.checkContiguous

namespace Reference

def empty : Reference V := ⟨[], 0⟩

/-- The calls that are errors: an append that leaves a gap, a cut or a
snapshot at or below the boundary, a compaction outside the retained log. -/
def Refuses (R : Reference V) : StorageOp V P → Prop
  | .saveHardState _ => False
  | .append es => ¬ Numbered R.log.length es
  | .truncateFrom start => start ≤ R.boundary
  | .compactTo i _ _ => i ≤ R.boundary ∨ R.log.length < i
  | .installSnapshot snap => snap.lastIncludedIndex ≤ R.boundary

instance (R : Reference V) (op : StorageOp V P) : Decidable (R.Refuses op) := by
  cases op <;> unfold Refuses <;> infer_instance

/-- What the other calls do. A snapshot that does not match replaces the log
by its history. -/
def perform (Hs : Histories V P) (R : Reference V) :
    StorageOp V P → Reference V
  | .saveHardState _ => R
  | .append es => ⟨R.log ++ es, R.boundary⟩
  | .truncateFrom start => ⟨R.log.take (start - 1), R.boundary⟩
  | .compactTo i _ _ => ⟨R.log, i⟩
  | .installSnapshot snap =>
      ⟨if termAt R.log snap.lastIncludedIndex = some snap.lastIncludedTerm
        then R.log else Hs.log snap, snap.lastIncludedIndex⟩

def call (Hs : Histories V P) (R : Reference V) (op : StorageOp V P) :
    Reference V :=
  if R.Refuses op then R else R.perform Hs op

def run (Hs : Histories V P) (ops : List (StorageOp V P)) : Reference V :=
  ops.foldl (call Hs) empty

end Reference

/-! ## In step -/

/-- The storage is what is left of the reference. -/
structure Reference.Shows (R : Reference V) (s : Storage V P) : Prop where
  boundary : s.snapshotIndex = R.boundary
  covers : s.Covers R.log

theorem Except.exists_error {ε α : Type} {x : Except ε α}
    (h : ∀ y, x ≠ .ok y) : ∃ e, x = .error e := by
  cases x with
  | error e => exact ⟨e, rfl⟩
  | ok y => exact absurd rfl (h y)

theorem Indexed.append (h : Indexed F) (hes : Numbered F.length es) :
    Indexed (F ++ es) := by
  intro j e he
  rcases Nat.lt_or_ge j F.length with hlt | hge
  · rw [List.getElem?_append_left hlt] at he
    exact h j e he
  · rw [List.getElem?_append_right hge] at he
    have := hes _ e he
    omega

namespace Storage.Covers

theorem append (h : s.Covers F) (hes : Numbered F.length es) :
    ({ s with log := s.log ++ es } : Storage V P).Covers (F ++ es) where
  indexed := h.indexed.append hes
  log := by
    show s.log ++ es = (F ++ es).drop s.snapshotIndex
    rw [List.drop_append_of_le_length h.boundary_le, h.log]
  boundary_le := by
    rw [List.length_append]
    exact Nat.le_add_right_of_le h.boundary_le
  boundary := (termAt_isPrefix ⟨es, rfl⟩ h.boundary_le).trans h.boundary

theorem truncateFrom (h : s.Covers F) (hi : s.snapshotIndex < i) :
    ({ s with log := s.log.take (i - (s.snapshotIndex + 1)) } :
      Storage V P).Covers (F.take (i - 1)) where
  indexed := h.indexed.shorten <| List.take_prefix _ _
  log := by
    show s.log.take (i - (s.snapshotIndex + 1)) =
      (F.take (i - 1)).drop s.snapshotIndex
    rw [h.log, List.drop_take]
    congr 1
    omega
  boundary_le := by
    show s.snapshotIndex ≤ (F.take (i - 1)).length
    have := h.boundary_le
    rw [List.length_take]
    omega
  boundary := (termAt_take (by
    show s.snapshotIndex ≤ i - 1
    omega)).trans h.boundary

theorem raise (h : s.Covers F) (snap : Snapshot P)
    (hb : s.snapshotIndex ≤ snap.lastIncludedIndex)
    (hle : snap.lastIncludedIndex ≤ F.length)
    (ht : termAt F snap.lastIncludedIndex = some snap.lastIncludedTerm) :
    ({ s with
      snapshot := some snap
      log := s.log.drop (snap.lastIncludedIndex - s.snapshotIndex) } :
      Storage V P).Covers F where
  indexed := h.indexed
  log := by
    show s.log.drop _ = F.drop snap.lastIncludedIndex
    rw [h.log, List.drop_drop, Nat.add_sub_cancel' hb]
  boundary_le := hle
  boundary := ht

theorem replace (Hs : Histories V P) {snap : Snapshot P}
    (hpos : 0 < snap.lastIncludedIndex) :
    ({ s with snapshot := some snap, log := [] } : Storage V P).Covers
      (Hs.log snap) where
  indexed := Hs.indexed snap
  log := by
    show [] = (Hs.log snap).drop snap.lastIncludedIndex
    rw [← Hs.length snap, List.drop_length]
  boundary_le := (Hs.length snap).ge
  boundary := Hs.term snap hpos

end Storage.Covers

namespace Reference.Shows

variable {R : Reference V}

/-- One call: refused on both sides, or done on both sides. -/
theorem call (h : R.Shows s) (J : Json V P) (Hs : Histories V P)
    (op : StorageOp V P) :
    (R.Refuses op ∧ ∃ err, op.run J s = .error err) ∨
      (¬ R.Refuses op ∧ ∃ ws s', op.run J s = .ok (ws, s') ∧
        (R.perform Hs op).Shows s') := by
  have hlast := h.covers.lastIndex
  have hb := h.boundary
  have hle := h.covers.boundary_le
  have hfail : ∀ {f : Storage V P → List Write × Storage V P}
      {r : Except StorageError (Storage V P)}, (∀ s', r ≠ .ok s') →
      ∃ err, r.map f = .error err := by
    intro f r hr
    obtain ⟨err, rfl⟩ := Except.exists_error hr
    exact ⟨err, rfl⟩
  have hdone : ∀ {R' : Reference V} {f : Storage V P → List Write}
      {r : Except StorageError (Storage V P)} {s' : Storage V P},
      r = .ok s' → R'.Shows s' →
      ∃ ws s', r.map (fun s' => (f s', s')) = .ok (ws, s') ∧
        R'.Shows s' := by
    rintro R' f r s' rfl h'
    exact ⟨_, s', rfl, h'⟩
  by_cases href : R.Refuses op
  · refine .inl ⟨href, ?_⟩
    cases op with
    | saveHardState hs => exact href.elim
    | append es =>
        refine hfail fun s' hs' => href ?_
        exact hlast ▸ (Storage.append_eq_ok.mp hs').1
    | truncateFrom start =>
        refine hfail fun s' hs' => ?_
        have := (Storage.truncateFrom_eq_ok.mp hs').1
        exact absurd href (by simp only [Refuses]; omega)
    | compactTo i state membership =>
        refine hfail fun s' hs' => ?_
        obtain ⟨e, he, -⟩ := Storage.compactTo_eq_ok.mp hs'
        have := Storage.boundary_of_entry he
        exact absurd href (by simp only [Refuses]; omega)
    | installSnapshot snap =>
        refine hfail fun s' hs' => ?_
        have := (Storage.installSnapshot_eq_ok.mp hs').1
        exact absurd href (by simp only [Refuses]; omega)
  · refine .inr ⟨href, ?_⟩
    cases op with
    | saveHardState hs =>
        exact ⟨_, _, rfl, hb, h.covers.indexed, h.covers.log, hle,
          h.covers.boundary⟩
    | append es =>
        have hes : Numbered R.log.length es := not_not.mp href
        exact hdone (Storage.append_eq_ok.mpr ⟨hlast ▸ hes, rfl⟩)
          ⟨hb, h.covers.append hes⟩
    | truncateFrom start =>
        have hlt : s.snapshotIndex < start := by
          simp only [Refuses] at href
          omega
        exact hdone (Storage.truncateFrom_eq_ok.mpr ⟨hlt, rfl⟩)
          ⟨hb, h.covers.truncateFrom hlt⟩
    | compactTo i state membership =>
        simp only [Refuses, not_or, Nat.not_le, Nat.not_lt] at href
        have hlt : s.snapshotIndex < i := hb ▸ href.1
        obtain ⟨e, he⟩ := Storage.exists_entry hlt (hlast ▸ href.2)
        have ht : termAt R.log i = some e.term := by
          rw [termAt_of_pos (by omega), ← h.covers.entry hlt, he]
          rfl
        exact hdone (Storage.compactTo_eq_ok.mpr ⟨e, he, rfl⟩)
          ⟨rfl, h.covers.raise ⟨i, e.term, membership, state⟩ hlt.le href.2
            ht⟩
    | installSnapshot snap =>
        have hlt : s.snapshotIndex < snap.lastIncludedIndex := by
          simp only [Refuses] at href
          omega
        refine hdone (Storage.installSnapshot_eq_ok.mpr ⟨hlt, rfl⟩)
          ⟨rfl, ?_⟩
        rw [h.covers.term hlt.le, perform]
        split
        · next heq =>
            exact h.covers.raise _ hlt.le (le_length_of_termAt heq) heq
        · exact .replace Hs (by omega)

/-- What is left of the reference is what the calls leave on disk and in
memory. -/
theorem step (h : R.Shows s) (Hs : Histories V P) (d : Dir)
    (op : StorageOp V P) :
    ∃ x, Disk.step J ⟨d, s⟩ (.call op) = .ok x ∧
      (R.call Hs op).Shows x.mem := by
  simp only [Disk.step, Reference.call]
  rcases h.call J Hs op with ⟨href, err, hrun⟩ | ⟨href, ws, s', hrun, h'⟩
  · rw [hrun, if_pos href]
    exact ⟨_, rfl, h⟩
  · rw [hrun, if_neg href]
    exact ⟨_, rfl, h'⟩

theorem foldlM (Hs : Histories V P) (ops : List (StorageOp V P))
    (x : Disk V P) (h : R.Shows x.mem) :
    ∃ x', ops.foldlM (fun x op => x.step J (.call op)) x = .ok x' ∧
      (ops.foldl (Reference.call Hs) R).Shows x'.mem := by
  induction ops generalizing x R with
  | nil => exact ⟨x, rfl, h⟩
  | cons op ops ih =>
      obtain ⟨x₁, hx₁, h₁⟩ := h.step (J := J) Hs x.dir op
      obtain ⟨x', hx', h'⟩ := ih x₁ h₁
      refine ⟨x', ?_, h'⟩
      rw [List.foldlM_cons, hx₁]
      exact hx'

end Reference.Shows

/-! ## The result -/

/-- Every read of the storage, in terms of the reference. -/
structure Storage.Reads (s : Storage V P) (R : Reference V) : Prop where
  indexed : Indexed R.log
  boundary : s.snapshotIndex = R.boundary
  lastIndex : s.lastIndex = R.log.length
  lastTerm : some s.lastTerm = termAt R.log R.log.length
  entries : s.entries = R.log.drop R.boundary
  term_boundary : s.term R.boundary = termAt R.log R.boundary
  above : ∀ i, R.boundary < i → s.term i = termAt R.log i ∧
    s.entry i = R.log[i - 1]? ∧ s.entriesFrom i = R.log.drop (i - 1)
  below : ∀ i, i ≤ R.boundary → s.entry i = none ∧
    s.entriesFrom i = s.entries ∧ (i ≠ R.boundary → s.term i = none)

theorem Reference.Shows.reads {R : Reference V} (h : R.Shows s) :
    s.Reads R where
  indexed := h.covers.indexed
  boundary := h.boundary
  lastIndex := h.covers.lastIndex
  lastTerm := h.covers.lastTerm.symm
  entries := h.boundary ▸ h.covers.log
  term_boundary := h.covers.term h.boundary.le
  above i hi := by
    rw [← h.boundary] at hi
    exact ⟨h.covers.term hi.le, h.covers.entry hi, h.covers.entriesFrom hi⟩
  below i hi := by
    rw [← h.boundary] at hi ⊢
    exact ⟨Storage.entry_of_le hi, Storage.entriesFrom_of_le hi,
      fun hne => Storage.term_below (Nat.lt_of_le_of_ne hi hne)⟩

/-- The compacted log refines the full one: after any calls, every read is a
read of the reference log; the next call is an error exactly if the reference
refuses it; and an error changes neither memory nor disk. -/
theorem compacted_log_refines (J : Json V P) (Hs : Histories V P)
    (path : String) (ops : List (StorageOp V P)) :
    ∃ x, ops.foldlM (fun x op => x.step J (.call op)) (Disk.init path) =
        .ok x ∧
      x.mem.Reads (Reference.run Hs ops) ∧
      ∀ op, ((∃ err, op.run J x.mem = .error err) ↔
          (Reference.run Hs ops).Refuses op) ∧
        ∀ err, op.run J x.mem = .error err → x.step J (.call op) = .ok x := by
  have hempty : Reference.empty.Shows (Disk.init path : Disk V P).mem :=
    ⟨rfl, ⟨fun j e h => (by cases h), rfl, le_rfl, rfl⟩⟩
  obtain ⟨x, hx, h⟩ := hempty.foldlM (J := J) Hs ops
  refine ⟨x, hx, h.reads, fun op => ⟨⟨fun herr => ?_, fun href => ?_⟩,
    fun err herr => ?_⟩⟩
  · obtain ⟨err, herr⟩ := herr
    rcases h.call J Hs op with ⟨href, -⟩ | ⟨-, ws, s', hok, -⟩
    · exact href
    · rw [hok] at herr
      cases herr
  · exact (h.call J Hs op).elim (fun h => h.2) fun h => absurd href h.1
  · simp only [Disk.step, herr]

end RustKV
