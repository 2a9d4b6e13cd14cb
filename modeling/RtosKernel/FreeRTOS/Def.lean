import Mathlib

/-! # The common definitions of FreeRTOS -/
namespace RtosKernel.FreeRTOS.Def

/-- `configASSERT`, where a failed assertion is `none`. -/
def configAssert (p : Prop) [Decidable p] : Option Unit := if p then some () else none

@[simp] theorem configAssert_of {p : Prop} [Decidable p] (h : p) : configAssert p = some () := if_pos h

theorem of_configAssert {p : Prop} [Decidable p] {u : Unit} (h : configAssert p = some u) : p := by
  unfold configAssert at h
  split at h
  · assumption
  · cases h

end RtosKernel.FreeRTOS.Def
