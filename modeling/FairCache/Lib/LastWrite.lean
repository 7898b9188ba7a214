import Mathlib.Data.List.Induction

/-!
# The last write of a run

`lastWrite write ops` : the last value that `write` finds in a list of operations, with what it is after one more of them
(`lastWrite_concat`) and where it stands (`lastWrite_eq_some_iff`).
-/

namespace FairCache.Lib

variable {Op V : Type}

/-- The last value written. -/
def lastWrite (write : Op → Option V) (ops : List Op) : Option V := (ops.filterMap write).getLast?

variable {write : Op → Option V}

@[simp] theorem lastWrite_nil : lastWrite write [] = none := rfl

/-- One more operation. -/
theorem lastWrite_concat (ops : List Op) (op : Op) :
    lastWrite write (ops ++ [op]) = (write op).or (lastWrite write ops) := by
  unfold lastWrite
  rw [List.filterMap_append]
  cases h : write op with
  | none => simp [h]
  | some v => simp [h]

/-- What comes after a write. -/
theorem lastWrite_append_cons {op : Op} {v : V} (h : write op = some v) (before after : List Op) :
    lastWrite write (before ++ op :: after) = some ((lastWrite write after).getD v) := by
  unfold lastWrite
  rw [List.filterMap_append, List.filterMap_cons_some h]
  cases hafter : after.filterMap write with
  | nil => simp
  | cons w ws => simp [List.getLast?_eq_some_getLast]

theorem lastWrite_eq_none {ops : List Op} (h : ∀ op ∈ ops, write op = none) : lastWrite write ops = none := by
  unfold lastWrite
  rw [List.filterMap_eq_nil_iff.mpr h]
  rfl

/-- **Where the last write stands.** -/
theorem lastWrite_eq_some_iff {ops : List Op} {v : V} :
    lastWrite write ops = some v ↔
      ∃ before op after, ops = before ++ op :: after ∧ write op = some v ∧ ∀ o ∈ after, write o = none := by
  constructor
  · intro h
    induction ops using List.reverseRecOn with
    | nil => cases h
    | append_singleton ops op ih =>
      rw [lastWrite_concat] at h
      cases hop : write op with
      | none =>
        rw [hop, Option.none_or] at h
        obtain ⟨before, o, after, rfl, ho, hafter⟩ := ih h
        refine ⟨before, o, after ++ [op], by simp, ho, fun o' ho' => ?_⟩
        rcases List.mem_append.mp ho' with ho' | ho'
        · exact hafter o' ho'
        · rw [List.mem_singleton.mp ho', hop]
      | some w =>
        rw [hop, Option.some_or] at h
        exact ⟨ops, op, [], rfl, hop.trans h, fun o ho => absurd ho List.not_mem_nil⟩
  · rintro ⟨before, op, after, rfl, hop, hafter⟩
    rw [lastWrite_append_cons hop, lastWrite_eq_none hafter]
    rfl

end FairCache.Lib
