import Mathlib.Data.Rat.Defs

/-!
# Confidence values

A confidence is a score with the band it falls in. The scores are exact here: the floating point
numbers are read as the decimal fractions they are written as.
-/
namespace Axe.Facts

inductive ConfidenceBand
  | high | medium | low | unknown
  deriving DecidableEq

def ConfidenceBand.fromScore (score : Rat) : ConfidenceBand :=
  if 85 / 100 ≤ score then .high
  else if 60 / 100 ≤ score then .medium
  else if 35 / 100 ≤ score then .low
  else .unknown

structure Confidence where
  band : ConfidenceBand
  score : Rat
  deriving DecidableEq

/-- A score is brought into the range from zero to one. -/
def clamped (score : Rat) : Rat := if score < 0 then 0 else if 1 < score then 1 else score

def Confidence.fromScore (score : Rat) : Confidence :=
  ⟨ConfidenceBand.fromScore (clamped score), clamped score⟩

end Axe.Facts
