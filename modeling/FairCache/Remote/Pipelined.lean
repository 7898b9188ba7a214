import FairCache.Remote.Backend
import Mathlib.Data.List.Basic

/-!
# The pipelined batched read

The pipelined `batched_get` drops the keys the store does not hold instead of answering `None` for them, so its results
shift. It agrees with the plain reads exactly when every key of the batch can be read.

* `fetched` : what the workers make of a key; `pipelinedReturns_iff` : the results of every schedule;
* `Readable` : the store holds bytes under the key, and they deserialize;
* `pipelined_agrees_iff` : agreement with `get` over all schedules.
-/

namespace FairCache.LMCRemoteBackend

open Lib

variable {V : Type} {b : LMCRemoteBackend V} {keys : List CacheEngineKey}

/-- What the workers make of a key: nothing, a result, or the exception that kills one of them. -/
def fetched (b : LMCRemoteBackend V) (key : CacheEngineKey) : Option (Except PyError (Option V)) :=
  if b.contains key then
    match b.connection.get key.toString with
    | none => some (.error (.assertionError "isinstance(data, bytes)"))
    | some data => some ((b.fromBytes data).map some)
  else none

theorem outcome_eq (item : ℕ × CacheEngineKey) :
    Pipeline.outcome b.networkWorker b.deserializeWorker item = b.fetched item.2 := by
  unfold Pipeline.outcome networkWorker fetched
  split_ifs
  · cases b.connection.get item.2.toString <;> rfl
  · rfl

/-- The results of a batch are what was fetched, in order and without gaps. -/
theorem expected_eq (keys : List CacheEngineKey) :
    Pipeline.expected b.networkWorker b.deserializeWorker (enumerate keys) = keys.filterMap b.fetched := by
  unfold Pipeline.expected enumerate
  rw [List.filterMap_map]
  calc keys.zipIdx.filterMap _ = keys.zipIdx.filterMap (b.fetched ∘ Prod.fst) :=
        List.filterMap_congr fun x _ => outcome_eq (x.2, x.1)
    _ = (keys.zipIdx.map Prod.fst).filterMap b.fetched := (List.filterMap_map ..).symm
    _ = keys.filterMap b.fetched := by rw [List.zipIdx_map_fst]

/-- The results of every schedule that returns. -/
theorem pipelinedReturns_ok {results : List (Option V)} (h : b.PipelinedReturns keys results) :
    results.map .ok = keys.filterMap b.fetched := by
  obtain ⟨schedule, s, hrun, hs⟩ := h
  rw [← expected_eq]
  exact Pipeline.returned_ok hrun hs

/-- If no worker raises, every schedule returns. -/
theorem pipelinedFinishes_of_ok (h : ∀ e, .error e ∉ keys.filterMap b.fetched) : b.PipelinedFinishes keys := by
  intro schedule s hrun hstuck
  refine Pipeline.stuck_returned (Pipeline.reaches_inv hrun) hstuck fun e => ?_
  rw [expected_eq]
  exact h e

/-- If every schedule returns, some schedule does. -/
theorem PipelinedFinishes.exists_returns (h : b.PipelinedFinishes keys) : ∃ results, b.PipelinedReturns keys results := by
  obtain ⟨schedule, s, hrun, hstuck⟩ :=
    Pipeline.exists_stuck (f := b.networkWorker) (g := b.deserializeWorker) (pipelinedInit V keys)
  obtain ⟨results, hs⟩ := h schedule s hrun hstuck
  exact ⟨results, schedule, s, hrun, hs⟩

/-! ## Agreement with the plain reads -/

/-- The store holds bytes under the key, and they deserialize. -/
def Readable (b : LMCRemoteBackend V) (key : CacheEngineKey) : Prop :=
  ∃ data v, b.connection.content key.toString = some data ∧ data ≠ [] ∧ b.fromBytes data = .ok v

/-- The batched read agrees with the plain one: every schedule returns, and its results are those of `get`. -/
structure PipelinedAgrees (b : LMCRemoteBackend V) (keys : List CacheEngineKey) : Prop where
  finishes : b.PipelinedFinishes keys
  results_eq : ∀ results, b.PipelinedReturns keys results → results.map .ok = keys.map b.get

/-- Readable keys are those whose fetch is the plain read, which returns. -/
theorem readable_iff (key : CacheEngineKey) :
    b.Readable key ↔ b.fetched key = some (b.get key) ∧ ∃ v, b.get key = .ok v := by
  unfold Readable fetched get contains RemoteConnector.holds RemoteConnector.get
  cases hc : b.connection.content key.toString with
  | none => simp
  | some data =>
    cases data with
    | nil => cases hd : b.connection.debugWrapper <;> cases hf : b.fromBytes [] <;> simp [hf, Except.map]
    | cons byte data => cases hf : b.fromBytes (byte :: data) <;> simp [hf, Except.map]

theorem filterMap_eq_map_iff {A B : Type} {f : A → Option B} {g : A → B} {l : List A} :
    l.filterMap f = l.map g ↔ ∀ a ∈ l, f a = some (g a) := by
  constructor
  · intro h
    have hlength : (l.filterMap f).length = l.length := by rw [h, List.length_map]
    have hsome := List.filterMap_length_eq_length.mp hlength
    induction l with
    | nil => simp
    | cons a l ih =>
      obtain ⟨x, hx⟩ := Option.isSome_iff_exists.mp (hsome a List.mem_cons_self)
      rw [List.filterMap_cons_some hx, List.map_cons, List.cons.injEq] at h
      have hl := ih h.2 (by rw [h.2, List.length_map]) fun a ha => hsome a (List.mem_cons_of_mem _ ha)
      intro a' ha'
      rcases List.mem_cons.mp ha' with rfl | ha'
      · rw [hx, h.1]
      · exact hl a' ha'
  · intro h
    rw [← List.filterMap_eq_map]
    exact List.filterMap_congr h

/-- **The pipelined batched read agrees with the plain one** exactly when every key of the batch is readable. -/
theorem pipelined_agrees_iff : b.PipelinedAgrees keys ↔ ∀ key ∈ keys, b.Readable key := by
  constructor
  · rintro ⟨hfinishes, hagrees⟩
    obtain ⟨results, hreturns⟩ := hfinishes.exists_returns
    have hget := hagrees results hreturns
    have hfetched := filterMap_eq_map_iff.mp ((pipelinedReturns_ok hreturns).symm.trans hget)
    intro key hkey
    refine (readable_iff key).mpr ⟨hfetched key hkey, ?_⟩
    have hmem : b.get key ∈ results.map Except.ok := hget ▸ List.mem_map_of_mem hkey
    obtain ⟨v, -, hv⟩ := List.mem_map.mp hmem
    exact ⟨v, hv.symm⟩
  · intro h
    have hfetched : keys.filterMap b.fetched = keys.map b.get :=
      filterMap_eq_map_iff.mpr fun key hkey => ((readable_iff key).mp (h key hkey)).1
    refine ⟨pipelinedFinishes_of_ok fun e he => ?_, fun results hreturns => ?_⟩
    · rw [hfetched] at he
      obtain ⟨key, hkey, hget⟩ := List.mem_map.mp he
      obtain ⟨v, hv⟩ := ((readable_iff key).mp (h key hkey)).2
      rw [hv] at hget
      cases hget
    · rw [pipelinedReturns_ok hreturns, hfetched]

/-! ## A run on concrete inputs -/

/-- A store that holds one byte under the key of `hash`. -/
def holding (hash : String) (byte : UInt8) : LMCRemoteBackend (List UInt8) :=
  { connection :=
      { content := fun key => if key = (CacheEngineKey.ofHash hash).toString then some [byte] else none
        debugWrapper := false }
    fromBytes := .ok }

theorem holding_returns :
    (holding "1" 7).PipelinedReturns [CacheEngineKey.ofHash "0", CacheEngineKey.ofHash "1"] [some [7]] := by
  let schedule : List Pipeline.Thread :=
    [.caller, .caller, .caller, .first, .first, .first, .first, .first, .first, .caller, .second, .second, .second,
      .caller]
  have hrun : ∃ s, Reaches (holding "1" 7).pipelinedStep
      (pipelinedInit _ [CacheEngineKey.ofHash "0", CacheEngineKey.ofHash "1"]) schedule s ∧
      s.caller = .returned [some [7]] := by decide +kernel
  exact ⟨schedule, hrun⟩

/-- The store lacks the first key and holds the second: the batched read answers the chunk of the second key in first
place, and nothing in second place. -/
theorem pipelined_shifts_results :
    let b := holding "1" 7
    let keys := [CacheEngineKey.ofHash "0", CacheEngineKey.ofHash "1"]
    b.PipelinedReturns keys [some [7]] ∧ keys.map b.get = [.ok none, .ok (some [7])] :=
  ⟨holding_returns, by decide +kernel⟩

end FairCache.LMCRemoteBackend
