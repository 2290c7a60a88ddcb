import Mathlib.Algebra.Ring.Defs
import Mathlib.Data.Nat.Bitwise

/-!
# The x-only ladder

Two points `Q` and `Q'` of a Montgomery curve are kept by their x-coordinates,
each a fraction `x / z`; `u` is the x-coordinate of `Q' - Q`. A step goes to
`2 Q` and `Q + Q'`, and a bit of the scalar says which of the two points is
doubled. The definitions are polynomials, over any commutative ring.
-/

namespace GecRelay.Foundation

structure Rung (F : Type*) where
  x2 : F
  z2 : F
  x3 : F
  z3 : F

variable {F : Type*}

def Rung.swap (s : Rung F) : Rung F := ⟨s.x3, s.z3, s.x2, s.z2⟩

def Rung.swapIf (b : Bool) (s : Rung F) : Rung F := if b then s.swap else s

variable [CommRing F]

/-- `2 Q` and `Q + Q'`. -/
def ladderStep (a24 u : F) (s : Rung F) : Rung F :=
  let aa := (s.x2 + s.z2) ^ 2
  let bb := (s.x2 - s.z2) ^ 2
  let e := aa - bb
  let da := (s.x3 - s.z3) * (s.x2 + s.z2)
  let cb := (s.x3 + s.z3) * (s.x2 - s.z2)
  ⟨aa * bb, e * (aa + a24 * e), (da + cb) ^ 2, u * (da - cb) ^ 2⟩

def ladderBit (a24 u : F) (b : Bool) (s : Rung F) : Rung F :=
  (ladderStep a24 u (s.swapIf b)).swapIf b

/-- The bits of `k` below bit `t`, from the top. -/
def ladderFrom (a24 u : F) (k : ℕ) : ℕ → Rung F → Rung F
  | 0, s => s
  | t + 1, s => ladderFrom a24 u k t (ladderBit a24 u (k.testBit t) s)

/-- The ladder over `n` bits of `k`. -/
def ladder (a24 u : F) (n k : ℕ) : Rung F := ladderFrom a24 u k n ⟨1, 0, u, 1⟩

end GecRelay.Foundation
