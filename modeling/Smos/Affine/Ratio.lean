import Mathlib.Data.Nat.Notation

/-!
Scaling of 64-bit values by a ratio of 32-bit values (`affine/ratio.cc`: `ScaleUInt64`,
`Ratio::Scale`).

The product has 96 bits and is divided as two limbs.  The limbs are written once for any type with
the operators of the code, so that the machine's numbers can be compared with the unbounded ones.
-/
namespace Smos.Affine

inductive Round
  | down
  | up
  | towardsZero
  | awayFromZero
deriving DecidableEq

inductive Direction
  | down
  | up
deriving DecidableEq

/-- The values of the variables of `ScaleUInt64`, in the order in which they are computed. -/
structure Limbs (α : Type) where
  highProduct : α
  lowProduct : α
  high : α
  low : α
  highQ : α
  highR : α
  lowAll : α
  lowQ : α
  lowR : α
deriving DecidableEq

def Limbs.map {α β : Type} (f : α → β) (l : Limbs α) : Limbs β :=
  ⟨f l.highProduct, f l.lowProduct, f l.high, f l.low, f l.highQ, f l.highR, f l.lowAll, f l.lowQ,
    f l.lowR⟩

section Limbs

variable {α : Type} [Add α] [Mul α] [Div α] [Mod α] [AndOp α] [OrOp α] [ShiftLeft α] [ShiftRight α]
  [∀ n, OfNat α n]

def limbs (value numerator denominator : α) : Limbs α :=
  let highProduct := numerator * (value >>> 32)
  let lowProduct := numerator * (value &&& 0xffffffff)
  -- the high end of low moves into the low end of high
  let high := highProduct + (lowProduct >>> 32)
  let low := lowProduct &&& 0xffffffff
  let highQ := high / denominator
  let highR := high % denominator
  let lowAll := low ||| (highR <<< 32)
  ⟨highProduct, lowProduct, high, low, highQ, highR, lowAll, lowAll / denominator,
    lowAll % denominator⟩

/-- The quotient in one word, which is computed if its high limb is not over the limit. -/
def Limbs.result (l : Limbs α) : α := (l.highQ <<< 32) ||| l.lowQ

end Limbs

def scaleUInt64 (roundDir : Direction) (overflowLimit64 value : UInt64)
    (numerator denominator : UInt32) : UInt64 :=
  let l := limbs value numerator.toUInt64 denominator.toUInt64
  if l.highQ > overflowLimit64 >>> 32 then overflowLimit64
  else if l.result ≥ overflowLimit64 then overflowLimit64
  else if roundDir = .up ∧ l.lowR ≠ 0 then l.result + 1
  else l.result

/-- `Ratio::Scale`.  The distance of a negative value from zero is passed on, and the sign is
flipped again on the way out.  Nothing is a failed assertion. -/
def scale (roundBehavior : Round) (value : Int64) (numerator denominator : UInt32) :
    Option Int64 :=
  if denominator = 0 then none
  else if 0 ≤ value then
    let limit := Int64.maxValue.toUInt64
    let round := if roundBehavior = .down ∨ roundBehavior = .towardsZero then .down else .up
    some (scaleUInt64 round limit value.toUInt64 numerator denominator).toInt64
  else
    let limit := Int64.minValue.toUInt64
    let round := if roundBehavior = .down ∨ roundBehavior = .awayFromZero then .up else .down
    some (-scaleUInt64 round limit (-value.toUInt64) numerator denominator).toInt64

end Smos.Affine
