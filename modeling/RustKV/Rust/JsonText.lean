import RustKV.Rust.Bytes

/-!
# JSON text

The pieces JSON values are written from, each an encoding that reads back:
decimal numbers up to the mark that ends them, strings in quotes, and lists
with commas in between. They are written compactly and with the short
escapes, as `serde_json` writes them. Read is only what was written so, not
all the spellings JSON allows.
-/

namespace Rust

namespace Wire

variable {α : Type}

theorem comma_ne_newline : (44 : UInt8) ≠ newline := by decide

theorem quote_ne_newline : (34 : UInt8) ≠ newline := by decide

/-! ## Numbers -/

def digit (n : Nat) : UInt8 := UInt8.ofNat (48 + n)

theorem toNat_digit {n : Nat} (h : n < 10) : (digit n).toNat = 48 + n := by
  rw [digit, UInt8.toNat_ofNat']
  omega

theorem digit_ne_newline {n : Nat} (h : n < 10) : digit n ≠ newline := by
  intro heq
  have hval := congrArg UInt8.toNat heq
  rw [toNat_digit h] at hval
  have : newline.toNat = 10 := rfl
  omega

/-- The decimal digits of `n`, for any `fuel` above it. -/
def digits : Nat → Nat → List UInt8
  | 0, _ => []
  | fuel + 1, n =>
      if n < 10 then [digit n] else digits fuel (n / 10) ++ [digit (n % 10)]

theorem newline_notMem_digits (fuel n : Nat) :
    newline ∉ digits fuel n := by
  induction fuel generalizing n with
  | zero => exact List.not_mem_nil
  | succ fuel ih =>
      intro h
      rw [digits] at h
      split at h
      · next hlt =>
          exact digit_ne_newline hlt (List.mem_singleton.mp h).symm
      · rcases List.mem_append.mp h with h | h
        · exact ih _ h
        · exact digit_ne_newline (Nat.mod_lt n (by omega))
            (List.mem_singleton.mp h).symm

/-- Reads digits up to `stop`, carrying on from the number `acc`. -/
def getDecimal (stop : UInt8) (acc : Nat) :
    List UInt8 → Option (Nat × List UInt8)
  | [] => none
  | b :: rest =>
      if 48 ≤ b.toNat ∧ b.toNat < 58 then
        getDecimal stop (acc * 10 + (b.toNat - 48)) rest
      else if b = stop then some (acc, rest)
      else none

theorem getDecimal_digit {stop : UInt8} {acc n : Nat} (h : n < 10)
    (rest : List UInt8) : getDecimal stop acc (digit n :: rest) =
      getDecimal stop (acc * 10 + n) rest := by
  rw [getDecimal, toNat_digit h, if_pos (by omega), Nat.add_sub_cancel_left]

theorem getDecimal_digits {stop : UInt8} {fuel acc n : Nat} (h : n < fuel)
    (rest : List UInt8) : getDecimal stop acc (digits fuel n ++ rest) =
      getDecimal stop (acc * 10 ^ (digits fuel n).length + n) rest := by
  induction fuel generalizing n rest with
  | zero => omega
  | succ fuel ih =>
      rw [digits]
      split
      · next hlt =>
          rw [List.singleton_append, getDecimal_digit hlt]
          rfl
      · next hge =>
          rw [List.append_assoc, ih (by omega), List.singleton_append,
            getDecimal_digit (Nat.mod_lt _ (by omega)), List.length_append,
            List.length_singleton, Nat.pow_succ]
          congr 1
          rw [Nat.add_mul, Nat.mul_assoc]
          omega

/-- A number and the mark that ends it. -/
def decimal (stop : UInt8)
    (h : ¬ (48 ≤ stop.toNat ∧ stop.toNat < 58) := by decide)
    (hn : stop ≠ newline := by decide) : Wire Nat where
  put n := digits (n + 1) n ++ [stop]
  get := getDecimal stop 0
  get_put n rest := by
    rw [List.append_assoc, getDecimal_digits (Nat.lt_succ_self n),
      List.singleton_append, getDecimal, if_neg h, if_pos rfl,
      Nat.zero_mul, Nat.zero_add]
  newline_notMem n hmem := by
    rcases List.mem_append.mp hmem with hmem | hmem
    · exact newline_notMem_digits _ _ hmem
    · exact hn (List.mem_singleton.mp hmem).symm

/-! ## Lists -/

/-- Reads values up to the byte `stop`, for `fuel` above their number. -/
def getMany (stop : UInt8) (w : Wire α) :
    Nat → List UInt8 → Option (List α × List UInt8)
  | 0, _ => none
  | fuel + 1, bytes =>
      match strip [stop] bytes with
      | some rest => some ([], rest)
      | none => (w.get bytes).bind fun x =>
          (getMany stop w fuel x.2).map fun y => (x.1 :: y.1, y.2)

section Many

variable {stop : UInt8} {w : Wire α}
  (h : ∀ a rest, strip [stop] (w.put a ++ rest) = none)
include h

theorem length_le_flatMap_put (l : List α) :
    l.length ≤ (l.flatMap w.put).length := by
  induction l with
  | nil => exact Nat.le_refl 0
  | cons a l ih =>
      have : w.put a ≠ [] := by
        intro hnil
        have hstop := h a [stop]
        rw [hnil, List.nil_append, strip, if_pos rfl] at hstop
        cases hstop
      have := List.length_pos_iff.mpr this
      rw [List.flatMap_cons, List.length_append, List.length_cons]
      omega

theorem getMany_flatMap_put {fuel : Nat} (l : List α)
    (hf : l.length < fuel) (rest : List UInt8) :
    getMany stop w fuel (l.flatMap w.put ++ stop :: rest) =
      some (l, rest) := by
  induction l generalizing fuel with
  | nil =>
      obtain ⟨fuel, rfl⟩ := Nat.exists_eq_add_one.mpr hf
      rw [List.flatMap_nil, List.nil_append, getMany, strip, if_pos rfl]
      rfl
  | cons a l ih =>
      obtain ⟨fuel, rfl⟩ := Nat.exists_eq_add_one.mpr (Nat.zero_lt_of_lt hf)
      rw [List.flatMap_cons, List.append_assoc, getMany, h, w.get_put,
        Option.bind_some, ih (by simpa using hf), Option.map_some]

end Many

/-- Values one after the other up to a byte none of them starts with. -/
def many (stop : UInt8) (w : Wire α) (hn : stop ≠ newline)
    (h : ∀ a rest, strip [stop] (w.put a ++ rest) = none) :
    Wire (List α) where
  put l := l.flatMap w.put ++ [stop]
  get bytes := getMany stop w bytes.length bytes
  get_put l rest := by
    have := length_le_flatMap_put h l
    rw [List.append_assoc, List.singleton_append, getMany_flatMap_put h l]
    rw [List.length_append, List.length_cons]
    omega
  newline_notMem l hmem := by
    rcases List.mem_append.mp hmem with hmem | hmem
    · obtain ⟨a, -, hmem⟩ := List.mem_flatMap.mp hmem
      exact w.newline_notMem a hmem
    · exact hn (List.mem_singleton.mp hmem).symm

/-- A value with a mark in front. -/
def after (b : UInt8) (w : Wire α) (hn : b ≠ newline) : Wire α where
  put a := b :: w.put a
  get bytes := (strip [b] bytes).bind w.get
  get_put a rest := by
    rw [List.cons_append, strip, if_pos rfl, strip, Option.bind_some,
      w.get_put]
  newline_notMem a h := (List.mem_cons.mp h).elim (fun heq => hn heq.symm)
    (w.newline_notMem a)

/-- Values with commas in between, up to a byte none of them starts with. -/
def commas (stop : UInt8) (w : Wire α)
    (h : ∀ a rest, strip [stop] (w.put a ++ rest) = none)
    (hn : stop ≠ newline := by decide) (hc : stop ≠ 44 := by decide) :
    Wire (List α) :=
  ((unit.after stop hn).sum
    (w.pair (many stop (w.after 44 comma_ne_newline) hn
      fun _ _ => if_neg hc))
    fun b rest => by
      rw [put_pair_append]
      exact congrArg (Option.bind · unit.get) (h b.1 _)).comap
    (fun
      | [] => .inl ()
      | a :: l => .inr (a, l))
    (Sum.elim (fun _ => []) fun x => x.1 :: x.2)
    fun l => by cases l <;> rfl

/-! ## Strings -/

def hex (n : UInt8) : UInt8 := if n < 10 then 48 + n else 87 + n

def unhex (b : UInt8) : UInt8 := if b < 58 then b - 48 else b - 87

/-- A byte of a string: quotes, backslashes and control characters are
escaped. -/
def escape (b : UInt8) : List UInt8 :=
  if b = 34 ∨ b = 92 then [92, b]
  else if b = 8 then [92, 98]
  else if b = 9 then [92, 116]
  else if b = 10 then [92, 110]
  else if b = 12 then [92, 102]
  else if b = 13 then [92, 114]
  else if b < 32 then [92, 117, 48, 48, hex (b / 16), hex (b % 16)]
  else [b]

/-- The byte an escape stands for, from the letter after the backslash. -/
def unescape (c : UInt8) (rest : List UInt8) :
    Option (UInt8 × List UInt8) :=
  if c = 34 ∨ c = 92 then some (c, rest)
  else if c = 98 then some (8, rest)
  else if c = 116 then some (9, rest)
  else if c = 110 then some (10, rest)
  else if c = 102 then some (12, rest)
  else if c = 114 then some (13, rest)
  else
    match rest with
    | _ :: _ :: hi :: lo :: rest => some (16 * unhex hi + unhex lo, rest)
    | _ => none

def getChar : List UInt8 → Option (UInt8 × List UInt8)
  | [] => none
  | [b] => some (b, [])
  | b :: c :: rest =>
      if b = 92 then unescape c rest else some (b, c :: rest)

theorem unhex_hex {b : UInt8} (h : b < 32) :
    16 * unhex (hex (b / 16)) + unhex (hex (b % 16)) = b := by
  have hall : ∀ n : Fin 32, 16 * unhex (hex (UInt8.ofNat n / 16)) +
      unhex (hex (UInt8.ofNat n % 16)) = UInt8.ofNat n := by
    decide
  have hb := hall ⟨b.toNat, h⟩
  rwa [UInt8.ofNat_toNat] at hb

theorem getChar_escape (b : UInt8) (rest : List UInt8) :
    getChar (escape b ++ rest) = some (b, rest) := by
  rw [escape]
  split
  · next h => exact if_pos h
  · next h =>
      split_ifs with h8 h9 h10 h12 h13 h32
      · rw [h8]; rfl
      · rw [h9]; rfl
      · rw [h10]; rfl
      · rw [h12]; rfl
      · rw [h13]; rfl
      · exact congrArg (fun c => some (c, rest)) (unhex_hex h32)
      · cases rest with
        | nil => rfl
        | cons c rest => exact if_neg fun h92 => h (.inr h92)

theorem strip_escape (b : UInt8) (rest : List UInt8) :
    strip [34] (escape b ++ rest) = none := by
  rw [escape]
  split
  · rfl
  · next h =>
      split_ifs
      iterate 6 rfl
      exact if_neg fun h34 => h (.inl h34.symm)

theorem newline_notMem_escape (b : UInt8) : newline ∉ escape b := by
  have hall : ∀ n : Fin 256, newline ∉ escape (UInt8.ofNat n) := by
    decide +kernel
  have hb := hall ⟨b.toNat, b.toNat_lt⟩
  rwa [UInt8.ofNat_toNat] at hb

def char : Wire UInt8 where
  put := escape
  get := getChar
  get_put := getChar_escape
  newline_notMem := newline_notMem_escape

/-- A string in quotes, as the bytes of its UTF-8 form. -/
def string : Wire String where
  put s := ((many 34 char quote_ne_newline strip_escape).after 34
    quote_ne_newline).put (bytes s)
  get l := (((many 34 char quote_ne_newline strip_escape).after 34
    quote_ne_newline).get l).bind fun x =>
      (String.fromUTF8? ⟨x.1.toArray⟩).map fun s => (s, x.2)
  get_put s rest := by
    rw [get_put, Option.bind_some, bytes, Array.toArray_toList]
    exact congrArg (Option.map _) (dif_pos s.isValidUTF8)
  newline_notMem s := newline_notMem _ _

end Wire

end Rust
