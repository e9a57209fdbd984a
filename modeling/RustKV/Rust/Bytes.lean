import Mathlib.Data.List.Basic
import Mathlib.Data.UInt

/-!
# Byte strings: lines and encodings

What a program that keeps records in files relies on: `slice::split_inclusive`
to cut a file into lines, and a serializer whose output reads back.

A `Codec` is the contract of such a serializer, and all that is ever assumed
of one. A `Wire` is a way to build some: an encoding that knows where it ends,
so that encodings can be put one after the other.
-/

namespace Rust

variable {α β : Type}

def newline : UInt8 := 10

/-! ## Lines -/

/-- `slice::split_inclusive`: the chunks that end with an element satisfying
`p`, and what is left after the last of them if anything is. -/
def splitInclusive (p : α → Bool) : List α → List (List α)
  | [] => []
  | x :: rest =>
      if p x then [x] :: splitInclusive p rest
      else
        match splitInclusive p rest with
        | [] => [[x]]
        | chunk :: chunks => (x :: chunk) :: chunks

variable {p : α → Bool} {l rest : List α} {x : α}

theorem splitInclusive_append (hl : ∀ y ∈ l, p y = false) (hx : p x = true) :
    splitInclusive p (l ++ x :: rest) =
      (l ++ [x]) :: splitInclusive p rest := by
  induction l with
  | nil => simp [splitInclusive, hx]
  | cons y l ih =>
      have hy := hl y List.mem_cons_self
      have ih := ih fun z hz => hl z (List.mem_cons_of_mem _ hz)
      simp only [List.cons_append, splitInclusive, hy, ih]
      rfl

theorem splitInclusive_rest (hl : ∀ y ∈ l, p y = false) (hne : l ≠ []) :
    splitInclusive p l = [l] := by
  induction l with
  | nil => exact absurd rfl hne
  | cons y l ih =>
      have hy := hl y List.mem_cons_self
      simp only [splitInclusive, hy]
      cases l with
      | nil => rfl
      | cons z l =>
          rw [ih (fun w hw => hl w (List.mem_cons_of_mem _ hw))
            (List.cons_ne_nil _ _)]
          rfl

theorem flatten_splitInclusive (p : α → Bool) (l : List α) :
    (splitInclusive p l).flatten = l := by
  induction l with
  | nil => rfl
  | cons x l ih =>
      rw [splitInclusive]
      split
      · rw [List.flatten_cons, ih]
        rfl
      · split
        · next hnil =>
            rw [hnil] at ih
            rw [← ih]
            rfl
        · next chunk chunks hc =>
            rw [hc] at ih
            rw [← ih]
            rfl

variable {t : List α}

theorem isPrefix_splitInclusive (ht : ∀ y ∈ t, p y = false) (hne : t ≠ [])
    (h : t <+: l) :
    ∃ chunk chunks, splitInclusive p l = chunk :: chunks ∧ t <+: chunk := by
  induction l generalizing t with
  | nil => exact absurd (List.prefix_nil.mp h) hne
  | cons x l ih =>
      cases t with
      | nil => exact absurd rfl hne
      | cons y t =>
          obtain ⟨rfl, hrest⟩ := List.cons_prefix_cons.mp h
          have hy := ht y List.mem_cons_self
          have ht' : ∀ z ∈ t, p z = false :=
            fun z hz => ht z (List.mem_cons_of_mem y hz)
          rw [splitInclusive, hy]
          simp only [Bool.false_eq_true, if_false]
          by_cases hnil : t = []
          · subst hnil
            split
            · exact ⟨_, _, rfl, List.prefix_rfl⟩
            · next chunk chunks hc => exact ⟨_, _, rfl, by simp⟩
          · obtain ⟨chunk, chunks, hc, hpre⟩ := ih ht' hnil hrest
            rw [hc]
            exact ⟨_, _, rfl, List.cons_prefix_cons.mpr ⟨rfl, hpre⟩⟩

/-- What has no end of a chunk in it lies within one chunk. -/
theorem isInfix_splitInclusive (ht : ∀ y ∈ t, p y = false) (hne : t ≠ [])
    (h : t <:+: l) : ∃ chunk ∈ splitInclusive p l, t <:+: chunk := by
  induction l with
  | nil => exact absurd (List.eq_nil_of_infix_nil h) hne
  | cons x l ih =>
      rcases List.infix_cons_iff.mp h with h | h
      · obtain ⟨chunk, chunks, hc, hpre⟩ := isPrefix_splitInclusive ht hne h
        rw [hc]
        exact ⟨chunk, List.mem_cons_self, hpre.isInfix⟩
      · obtain ⟨chunk, hmem, hin⟩ := ih h
        rw [splitInclusive]
        split
        · exact ⟨chunk, List.mem_cons_of_mem _ hmem, hin⟩
        · split
          · next hnil =>
              rw [hnil] at hmem
              cases hmem
          · next first chunks hc =>
              rw [hc] at hmem
              rcases List.mem_cons.mp hmem with rfl | hmem
              · exact ⟨_, List.mem_cons_self, List.infix_cons hin⟩
              · exact ⟨chunk, List.mem_cons_of_mem _ hmem, hin⟩

/-! ## Encodings -/

/-- A serializer for values that go on a line of their own. -/
structure Codec (α : Type) where
  encode : α → List UInt8
  decode : List UInt8 → Except String α
  decode_encode : ∀ a, decode (encode a) = .ok a
  /-- White space at the end is skipped. -/
  decode_line : ∀ a, decode (encode a ++ [newline]) = .ok a
  newline_notMem : ∀ a, newline ∉ encode a

/-- An encoding that can be read off the front of a byte string. -/
structure Wire (α : Type) where
  put : α → List UInt8
  get : List UInt8 → Option (α × List UInt8)
  get_put : ∀ a rest, get (put a ++ rest) = some (a, rest)
  newline_notMem : ∀ a, newline ∉ put a

namespace Wire

/-- A line holds one value and nothing else. -/
def codec (w : Wire α) : Codec α where
  encode := w.put
  decode bytes :=
    match w.get bytes with
    | some (a, []) => .ok a
    | some (a, [b]) =>
        if b = newline then .ok a else .error "trailing characters"
    | some _ => .error "trailing characters"
    | none => .error "expected value"
  decode_encode a := by
    have h := w.get_put a []
    rw [List.append_nil] at h
    rw [h]
  decode_line a := by
    rw [w.get_put]
    simp
  newline_notMem := w.newline_notMem

def bytes (s : String) : List UInt8 := s.toByteArray.data.toList

/-- The bytes after `pre`, if that is how they start. -/
def strip : List UInt8 → List UInt8 → Option (List UInt8)
  | [], bytes => some bytes
  | _ :: _, [] => none
  | x :: pre, b :: bytes => if x = b then strip pre bytes else none

theorem strip_append (pre bytes : List UInt8) :
    strip pre (pre ++ bytes) = some bytes := by
  induction pre with
  | nil => rfl
  | cons x pre ih => rw [List.cons_append, strip, if_pos rfl, ih]

def unit : Wire Unit where
  put _ := []
  get bytes := some ((), bytes)
  get_put _ _ := rfl
  newline_notMem _ := List.not_mem_nil

/-- A value between two fixed texts. -/
def wrap (pre : String) (w : Wire α) (post : String)
    (hpre : newline ∉ bytes pre := by decide)
    (hpost : newline ∉ bytes post := by decide) : Wire α where
  put a := bytes pre ++ (w.put a ++ bytes post)
  get l := (strip (bytes pre) l).bind fun r => (w.get r).bind fun x =>
    (strip (bytes post) x.2).map fun r' => (x.1, r')
  get_put a rest := by
    rw [List.append_assoc, strip_append, Option.bind_some,
      List.append_assoc, w.get_put, Option.bind_some, strip_append]
    rfl
  newline_notMem a h := by
    rcases List.mem_append.mp h with h | h
    · exact hpre h
    · exact (List.mem_append.mp h).elim (w.newline_notMem a) hpost

def pair (v : Wire α) (w : Wire β) : Wire (α × β) where
  put x := v.put x.1 ++ w.put x.2
  get bytes := (v.get bytes).bind fun x =>
    (w.get x.2).map fun y => ((x.1, y.1), y.2)
  get_put x rest := by
    rw [List.append_assoc, v.get_put, Option.bind_some, w.get_put]
    rfl
  newline_notMem x h := (List.mem_append.mp h).elim
    (v.newline_notMem x.1) (w.newline_notMem x.2)

theorem put_pair_append (v : Wire α) (w : Wire β) (x : α × β)
    (rest : List UInt8) : (v.pair w).put x ++ rest =
      v.put x.1 ++ (w.put x.2 ++ rest) :=
  List.append_assoc _ _ _

/-- Either of two, the first not to be found in front of the second. -/
def sum (v : Wire α) (w : Wire β)
    (h : ∀ b rest, v.get (w.put b ++ rest) = none) : Wire (α ⊕ β) where
  put := Sum.elim v.put w.put
  get bytes :=
    match v.get bytes with
    | some x => some (.inl x.1, x.2)
    | none => (w.get bytes).map fun x => (.inr x.1, x.2)
  get_put x rest := by
    cases x with
    | inl a =>
        rw [Sum.elim_inl, v.get_put]
    | inr b =>
        rw [Sum.elim_inr, h, w.get_put]
        rfl
  newline_notMem x := by
    cases x with
    | inl a => exact v.newline_notMem a
    | inr b => exact w.newline_notMem b

/-- Values of `α` through an encoding of `β`. -/
def comap (f : α → β) (g : β → α) (h : ∀ a, g (f a) = a) (w : Wire β) :
    Wire α where
  put a := w.put (f a)
  get bytes := (w.get bytes).map fun x => (g x.1, x.2)
  get_put a rest := by rw [w.get_put, Option.map_some, h]
  newline_notMem a := w.newline_notMem (f a)

end Wire

end Rust
