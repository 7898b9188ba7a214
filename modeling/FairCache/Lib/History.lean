import FairCache.Lib.Run
import Mathlib.Logic.Function.Basic

/-!
# What was written last

The operations of a system write values under keys: `writes s op` lists what `op` writes in the state `s`. A system
that holds a part of what was written (`Holds m s`, for the map `m` that the writes make) holds what the last write of
the run left.

* `writeAll m kvs` : the map after the writes `kvs`;
* `LastWrite step writes s₀ ops k v s op` : `op`, executed in `s`, is the last operation of the run that writes `k`,
  and it writes `v`;
* `exists_lastWrite` : what the map has at the end of a run.
-/

namespace FairCache.Lib

variable {σ ω ε K V : Type} [DecidableEq K]

/-- The map after some writes. -/
def writeAll : (K → Option V) → List (K × V) → K → Option V
  | m, [] => m
  | m, (k, v) :: kvs => writeAll (Function.update m k (some v)) kvs

theorem writeAll_eq_some {m : K → Option V} {kvs : List (K × V)} {k : K} {v : V} (h : writeAll m kvs k = some v) :
    (k, v) ∈ kvs ∨ k ∉ kvs.map Prod.fst ∧ m k = some v := by
  induction kvs generalizing m with
  | nil => exact Or.inr ⟨List.not_mem_nil, h⟩
  | cons kv kvs ih =>
    rw [writeAll] at h
    rcases ih h with hmem | ⟨hnot, hm⟩
    · exact Or.inl (List.mem_cons_of_mem _ hmem)
    · by_cases hk : k = kv.1
      · subst hk
        rw [Function.update_self] at hm
        cases hm
        exact Or.inl List.mem_cons_self
      · rw [Function.update_of_ne hk] at hm
        refine Or.inr ⟨?_, hm⟩
        rw [List.map_cons, List.mem_cons, not_or]
        exact ⟨hk, hnot⟩

variable (step : σ → ω → Except ε σ) (writes : σ → ω → List (K × V))

/-- `op`, executed in `s`, is the last operation of the run that writes `k`, and it writes `v`. -/
def LastWrite (s₀ : σ) (ops : List ω) (k : K) (v : V) (s : σ) (op : ω) : Prop :=
  ∃ ops₁ ops₂ t, ops = ops₁ ++ op :: ops₂ ∧ Reaches step s₀ ops₁ s ∧ (k, v) ∈ writes s op ∧ step s op = .ok t ∧
    Along step (fun s op => k ∉ (writes s op).map Prod.fst) t ops₂

variable {step writes}

omit [DecidableEq K] in
theorem LastWrite.mem {s₀ s : σ} {op : ω} {ops : List ω} {k : K} {v : V} (h : LastWrite step writes s₀ ops k v s op) :
    (k, v) ∈ writes s op := by
  obtain ⟨_, _, _, -, -, hw, -⟩ := h
  exact hw

omit [DecidableEq K] in
theorem LastWrite.cons {s₀ s₁ s : σ} {op₀ op : ω} {ops : List ω} {k : K} {v : V} (h₀ : step s₀ op₀ = .ok s₁)
    (h : LastWrite step writes s₁ ops k v s op) : LastWrite step writes s₀ (op₀ :: ops) k v s op := by
  obtain ⟨ops₁, ops₂, t, rfl, hr, hw, hop, ha⟩ := h
  exact ⟨op₀ :: ops₁, ops₂, t, rfl, reaches_cons.mpr ⟨s₁, h₀, hr⟩, hw, hop, ha⟩

/-- **What the map has at the end of a run was written last, or was there and not written.** -/
theorem exists_lastWrite (Holds : (K → Option V) → σ → Prop)
    (hstep : ∀ m s op s', Holds m s → step s op = .ok s' → Holds (writeAll m (writes s op)) s') {ops : List ω} :
    ∀ {m : K → Option V} {s t : σ}, Holds m s → Reaches step s ops t →
      ∃ m', Holds m' t ∧ ∀ k v, m' k = some v →
        (∃ s' op, LastWrite step writes s ops k v s' op) ∨
          (Along step (fun s op => k ∉ (writes s op).map Prod.fst) s ops ∧ m k = some v) := by
  induction ops with
  | nil => intro m s t hs hr; exact ⟨m, reaches_nil.mp hr ▸ hs, fun k v h => Or.inr ⟨trivial, h⟩⟩
  | cons op ops ih =>
    intro m s t hs hr
    obtain ⟨s₁, hop, hr⟩ := reaches_cons.mp hr
    obtain ⟨m', hm', hlast⟩ := ih (hstep m s op s₁ hs hop) hr
    refine ⟨m', hm', fun k v hkv => ?_⟩
    rcases hlast k v hkv with ⟨s', op', h⟩ | ⟨hnot, hk⟩
    · exact Or.inl ⟨s', op', h.cons hop⟩
    · rcases writeAll_eq_some hk with hw | ⟨hw, hm⟩
      · exact Or.inl ⟨s, op, [], ops, s₁, rfl, reaches_nil.mpr rfl, hw, hop, hnot⟩
      · refine Or.inr ⟨⟨hw, fun s' hs' => ?_⟩, hm⟩
        obtain rfl : s₁ = s' := Except.ok.inj (hop.symm.trans hs')
        exact hnot

end FairCache.Lib
