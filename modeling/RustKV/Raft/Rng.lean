import Mathlib.Data.BitVec
import Mathlib.Data.Rat.Floor
import Mathlib.Algebra.Order.Floor.Semiring

/-!
# The generator of the simulator and the timers (`rng.rs`)

SplitMix64: a 64-bit counter with a fixed odd step, and a mixing function over
it. Every draw moves the counter once, whatever is drawn.

A probability is a rational number here. Every finite `f64` is one, and the
fraction it is compared with has 53 bits and is exact; an infinity behaves like
a number beyond 0 or 1.
-/

namespace RustKV

structure SplitMix64 where
  state : BitVec 64
  deriving DecidableEq, Repr

namespace SplitMix64

def new (seed : BitVec 64) : SplitMix64 := ⟨seed⟩

/-- The step of the counter. -/
def gamma : BitVec 64 := 0x9E3779B97F4A7C15#64

/-- The word a counter stands for. -/
def mix (z : BitVec 64) : BitVec 64 :=
  let z := (z ^^^ (z >>> 30)) * 0xBF58476D1CE4E5B9#64
  let z := (z ^^^ (z >>> 27)) * 0x94D049BB133111EB#64
  z ^^^ (z >>> 31)

def nextU64 (r : SplitMix64) : BitVec 64 × SplitMix64 :=
  let state := r.state + gamma
  (mix state, ⟨state⟩)

/-- A draw from `lo..=hi`; `none` if the range is empty, which is asserted
against. -/
def nextRange (r : SplitMix64) (lo hi : BitVec 64) :
    Option (BitVec 64 × SplitMix64) :=
  if lo ≤ hi then
    let span := hi - lo + 1#64
    let (x, r') := r.nextU64
    -- the span of all words wraps to 0
    if span = 0#64 then some (x, r') else some (lo + x % span, r')
  else none

/-- True with probability `p`: the top 53 bits against it. -/
def nextBool (r : SplitMix64) (p : ℚ) : Bool × SplitMix64 :=
  let (x, r') := r.nextU64
  (((x >>> 11).toNat : ℚ) / 2 ^ 53 < p, r')

/-- The generator after `i` draws. -/
def skip (r : SplitMix64) : Nat → SplitMix64
  | 0 => r
  | i + 1 => (r.skip i).nextU64.2

example : ((new 42#64).skip 2).nextU64.1 = 0x47526757130F9F52#64 := by decide

end SplitMix64

end RustKV
