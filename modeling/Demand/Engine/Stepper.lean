/-! Steps one after the other: each is reported, and a report can be the last. -/

namespace Demand

/-- Takes steps `ι` from states `σ` and gives reports `ρ`. -/
structure Stepper (σ ι ρ : Type) where
  step : σ → ι → ρ × σ
  /-- Whether another step can follow the one with this report. -/
  goesOn : ι → ρ → Bool

/-- The reports of steps one after the other, up to the last that is taken. -/
def Stepper.run {σ ι ρ : Type} (m : Stepper σ ι ρ) (s : σ) : List ι → List ρ
  | [] => []
  | i :: steps =>
    let taken := m.step s i
    taken.1 :: if m.goesOn i taken.1 then m.run taken.2 steps else []

end Demand
