/-! Lists without repetition, in the order in which their members were first seen. -/

namespace Demand.FirstSeen

variable {α : Type} [DecidableEq α]

/-- Puts a member last, unless it is there. -/
def add (xs : List α) (x : α) : List α :=
  if x ∈ xs then xs else xs ++ [x]

/-- Adds one member after the other. -/
def addAll (xs ys : List α) : List α :=
  ys.foldl add xs

/-- The members of a list, each where it is first seen. -/
def ofList (ys : List α) : List α :=
  addAll [] ys

/-- The members of the first list, and after them those that only the second has. -/
def union (xs ys : List α) : List α :=
  xs ++ ys.filter fun y => y ∉ xs

@[simp] theorem mem_add {xs : List α} {x y : α} : y ∈ add xs x ↔ y ∈ xs ∨ y = x := by
  unfold add
  split
  · rename_i h
    constructor
    · exact Or.inl
    · rintro (h' | rfl)
      · exact h'
      · exact h
  · simp

@[simp] theorem mem_addAll {xs ys : List α} {y : α} : y ∈ addAll xs ys ↔ y ∈ xs ∨ y ∈ ys := by
  unfold addAll
  induction ys generalizing xs with
  | nil => simp
  | cons z zs ih => simp [ih, or_assoc]

@[simp] theorem mem_ofList {ys : List α} {y : α} : y ∈ ofList ys ↔ y ∈ ys := by
  simp [ofList]

@[simp] theorem mem_union {xs ys : List α} {y : α} : y ∈ union xs ys ↔ y ∈ xs ∨ y ∈ ys := by
  by_cases h : y ∈ xs <;> simp [union, h]

theorem nodup_add {xs : List α} (h : xs.Nodup) (x : α) : (add xs x).Nodup := by
  unfold add
  split
  · exact h
  · rename_i hx
    rw [List.nodup_append]
    refine ⟨h, by simp, ?_⟩
    intro a ha b hb
    rw [List.mem_singleton] at hb
    rintro rfl
    exact hx (hb ▸ ha)

theorem nodup_addAll {xs : List α} (h : xs.Nodup) (ys : List α) : (addAll xs ys).Nodup := by
  unfold addAll
  induction ys generalizing xs with
  | nil => exact h
  | cons y ys ih => exact ih (nodup_add h y)

theorem nodup_ofList (ys : List α) : (ofList ys).Nodup :=
  nodup_addAll (by simp) ys

end Demand.FirstSeen
