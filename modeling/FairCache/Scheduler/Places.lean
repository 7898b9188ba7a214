import FairCache.Lib.Outcome
import FairCache.Scheduler.BlockLaws
import FairCache.Scheduler.Loops
import Mathlib.Data.Multiset.MapFold

/-!
# Where a group is

While the scheduler works, each group is at one place, and the place says how far its tokens are computed and where its
blocks are.

* `Place`, `At` : the places, and what holds of a group there;
* `Placed` : all groups are at their places, and no other sequence has a table; `Placed.update` : one group moves;
  `placesOf` : groups at one place.
-/

namespace FairCache

open Lib

/-! ## Groups -/

namespace SequenceGroup

variable {T : Type} (g : SequenceGroup T)

/-- How far the tokens of a group are computed once it was scheduled: all but the last, or with chunks fewer. -/
def Progress (chunked : Bool) : Prop :=
  (g.stage = .decode ∧ g.numComputedTokens + 1 = g.getLen) ∨
    (chunked = true ∧ g.stage = .prefill ∧ 0 ≤ g.numComputedTokens ∧ g.numComputedTokens < g.getLen)

/-- Before, nothing is computed. -/
def Fresh : Prop := g.stage = .prefill ∧ g.numComputedTokens = 0

variable {g} {chunked : Bool}

theorem Progress.chunks (h : g.Progress chunked) : g.Progress true := h.imp_right fun h => ⟨rfl, h.2⟩

theorem Progress.seqNumNewTokens (h : g.Progress chunked) :
    0 < g.seqNumNewTokens ∧ g.seqNumNewTokens + g.numComputedTokens = g.getLen := by
  unfold SequenceGroup.seqNumNewTokens getNumUncomputedTokens
  rcases h with ⟨hstage, h⟩ | ⟨-, hstage, h₀, h⟩
  · rw [if_pos hstage]
    omega
  · rw [if_neg (by rw [hstage]; decide)]
    omega

theorem Fresh.seqNumNewTokens (h : g.Fresh) : g.seqNumNewTokens = g.getLen := by
  unfold SequenceGroup.seqNumNewTokens getNumUncomputedTokens
  rw [if_neg (by rw [h.1]; decide), h.2, sub_zero]

theorem getLen_pos (h : g.request.promptTokenIds ≠ []) : 0 < g.getLen := by
  unfold getLen getTokenIds
  have := List.length_pos_iff.mpr h
  rw [List.length_append]
  omega

theorem nBlocks_pos {blockSize : ℕ} (hsize : blockSize ≠ 0) (h : 0 < g.getLen) : (g.seqBlocks blockSize).nBlocks ≠ 0 := by
  have : 1 ≤ (g.getLen + blockSize - 1) / blockSize := (Nat.le_div_iff_mul_le (by omega)).mpr (by omega)
  exact Nat.one_le_iff_ne_zero.mp this

end SequenceGroup

/-- The request fits the model. -/
def NewRequest.Valid {T : Type} (config : SchedulerConfig) (r : NewRequest T) : Prop :=
  r.promptTokenIds ≠ [] ∧ ∃ limit, getPromptLimit config (SequenceGroup.new r) = .ok limit

/-! ## Places -/

/-- A group waits, runs, is scheduled in this step, is swapped, is stopped before its output is processed, was swapped and
does not fit any more, or is gone. -/
inductive Place
  | waiting
  | running
  | scheduled
  | swapped
  | stopped
  | infeasible
  | gone
  deriving DecidableEq

section Places
variable {T B : Type} (config : SchedulerConfig) (t : BlockTables B)

/-- What holds of a group at a place. -/
def At (b : B) : Place → SequenceGroup T → Prop
  | .waiting, g => g.Fresh ∧ t.Absent b g.seqId
  | .running, g => g.Progress config.chunkedPrefillEnabled ∧ t.Covers b .gpu (g.seqBlocks config.blockSize)
  | .scheduled, g =>
    (g.Fresh ∨ g.Progress config.chunkedPrefillEnabled) ∧
      t.Holds b g.seqId .gpu (g.seqBlocks config.blockSize).nBlocks
  | .swapped, g => g.Progress config.chunkedPrefillEnabled ∧ t.Covers b .cpu (g.seqBlocks config.blockSize)
  | .stopped, _ => True
  | .infeasible, g => t.Covers b .cpu (g.seqBlocks config.blockSize)
  | .gone, g => t.Absent b g.seqId

/-- All groups are at their places: their ids are distinct, their requests fit, and no other sequence has a table. -/
structure Placed (Sound : B → Prop) (b : B) (groups : Multiset (Place × SequenceGroup T)) : Prop where
  sound : Sound b
  seqIds : (groups.map fun x => x.2.seqId).Nodup
  requestIds : (groups.map fun x => x.2.requestId).Nodup
  valid : ∀ x ∈ groups, x.2.request.Valid config
  at_place : ∀ x ∈ groups, At config t b x.1 x.2
  absent : ∀ i, i ∉ groups.map (fun x => x.2.seqId) → t.Absent b i

variable {config t} {Sound : B → Prop} {b b' : B}

theorem BlockTables.OnlyAt.at_place {i : ℕ} (h : t.OnlyAt i b b') {p : Place} {g : SequenceGroup T} (hi : g.seqId ≠ i)
    (hg : At config t b p g) : At config t b' p g := by
  cases p with
  | waiting => exact ⟨hg.1, (h _ hi).2 hg.2⟩
  | running => exact ⟨hg.1, h.covers hi hg.2⟩
  | scheduled => exact ⟨hg.1, (h _ hi).1 _ _ hg.2⟩
  | swapped => exact ⟨hg.1, h.covers hi hg.2⟩
  | stopped => trivial
  | infeasible => exact h.covers hi hg
  | gone => exact (h _ hi).2 hg

variable {p : Place} {g : SequenceGroup T} {rest : Multiset (Place × SequenceGroup T)}

theorem Placed.head (h : Placed config t Sound b ({(p, g)} + rest)) :
    At config t b p g ∧ g.request.Valid config ∧ ∀ x ∈ rest, x.2.seqId ≠ g.seqId ∧ x.2.requestId ≠ g.requestId := by
  rw [Multiset.singleton_add] at h
  have hseq := h.seqIds
  have hreq := h.requestIds
  rw [Multiset.map_cons, Multiset.nodup_cons] at hseq hreq
  refine ⟨h.at_place _ (Multiset.mem_cons_self _ _), h.valid _ (Multiset.mem_cons_self _ _), fun x hx => ⟨?_, ?_⟩⟩
  · exact fun heq => hseq.1 (heq ▸ Multiset.mem_map_of_mem _ hx)
  · exact fun heq => hreq.1 (heq ▸ Multiset.mem_map_of_mem _ hx)

/-- Groups of two queues have different ids. -/
theorem Placed.ids_ne {groups : Multiset (Place × SequenceGroup T)} (h : Placed config t Sound b (groups + rest))
    {x y : Place × SequenceGroup T} (hx : x ∈ groups) (hy : y ∈ rest) :
    x.2.seqId ≠ y.2.seqId ∧ x.2.requestId ≠ y.2.requestId := by
  have hseq := h.seqIds
  have hreq := h.requestIds
  rw [Multiset.map_add, Multiset.nodup_add] at hseq hreq
  refine ⟨fun heq => ?_, fun heq => ?_⟩
  · exact Multiset.disjoint_left.mp hseq.2.2 (Multiset.mem_map_of_mem _ hx) (heq ▸ Multiset.mem_map_of_mem _ hy)
  · exact Multiset.disjoint_left.mp hreq.2.2 (Multiset.mem_map_of_mem _ hx) (heq ▸ Multiset.mem_map_of_mem _ hy)

/-- A new group waits. -/
theorem Placed.enter {groups : Multiset (Place × SequenceGroup T)} (h : Placed config t Sound b groups)
    (hvalid : g.request.Valid config) (hfresh : g.Fresh)
    (hnew : ∀ x ∈ groups, x.2.seqId ≠ g.seqId ∧ x.2.requestId ≠ g.requestId) :
    Placed config t Sound b ({(.waiting, g)} + groups) := by
  have hseq : g.seqId ∉ groups.map fun x => x.2.seqId := fun hmem => by
    obtain ⟨x, hx, heq⟩ := Multiset.mem_map.mp hmem
    exact (hnew x hx).1 heq
  have hreq : g.requestId ∉ groups.map fun x => x.2.requestId := fun hmem => by
    obtain ⟨x, hx, heq⟩ := Multiset.mem_map.mp hmem
    exact (hnew x hx).2 heq
  rw [Multiset.singleton_add]
  refine ⟨h.sound, ?_, ?_, fun x hx => ?_, fun x hx => ?_, fun i hi => h.absent i fun hmem => hi ?_⟩
  · rw [Multiset.map_cons]
    exact Multiset.nodup_cons.mpr ⟨hseq, h.seqIds⟩
  · rw [Multiset.map_cons]
    exact Multiset.nodup_cons.mpr ⟨hreq, h.requestIds⟩
  · rcases Multiset.mem_cons.mp hx with rfl | hx
    · exact hvalid
    · exact h.valid x hx
  · rcases Multiset.mem_cons.mp hx with rfl | hx
    · exact ⟨hfresh, h.absent _ hseq⟩
    · exact h.at_place x hx
  · rw [Multiset.map_cons]
    exact Multiset.mem_cons_of_mem hmem

/-- **One group moves**: the operation changes its table only. -/
theorem Placed.update (h : Placed config t Sound b ({(p, g)} + rest)) (p' : Place) (g' : SequenceGroup T)
    (hrequest : g'.request = g.request) (hs : Sound b') (honly : t.OnlyAt g.seqId b b')
    (hat : At config t b' p' g') : Placed config t Sound b' ({(p', g')} + rest) := by
  obtain ⟨-, hvalid, hother⟩ := h.head
  have hids : ({(p', g')} + rest).map (fun x => x.2.seqId) = ({(p, g)} + rest).map fun x => x.2.seqId := by
    rw [Multiset.map_add, Multiset.map_add]
    exact congrArg (fun r : NewRequest T => {r.seqId} + rest.map fun x => x.2.seqId) hrequest
  have hreqs : ({(p', g')} + rest).map (fun x => x.2.requestId) = ({(p, g)} + rest).map fun x => x.2.requestId := by
    rw [Multiset.map_add, Multiset.map_add]
    exact congrArg (fun r : NewRequest T => {r.requestId} + rest.map fun x => x.2.requestId) hrequest
  refine ⟨hs, hids ▸ h.seqIds, hreqs ▸ h.requestIds, fun x hx => ?_, fun x hx => ?_, fun i hi => ?_⟩
  · rcases Multiset.mem_add.mp hx with hx | hmem
    · rw [Multiset.mem_singleton.mp hx]
      exact hrequest ▸ hvalid
    · exact h.valid x (Multiset.mem_add.mpr (Or.inr hmem))
  · rcases Multiset.mem_add.mp hx with hx | hmem
    · rw [Multiset.mem_singleton.mp hx]
      exact hat
    · exact honly.at_place (hother x hmem).1 (h.at_place x (Multiset.mem_add.mpr (Or.inr hmem)))
  · rw [hids] at hi
    refine (honly i fun heq => hi ?_).2 (h.absent i hi)
    rw [heq]
    exact Multiset.mem_map_of_mem _ (Multiset.mem_add.mpr (Or.inl (Multiset.mem_singleton_self _)))

/-- A group is at another place without a call. -/
theorem Placed.move (h : Placed config t Sound b ({(p, g)} + rest)) (p' : Place) (g' : SequenceGroup T)
    (hrequest : g'.request = g.request) (hat : At config t b p' g') : Placed config t Sound b ({(p', g')} + rest) :=
  h.update p' g' hrequest h.sound (fun _ _ => ⟨fun _ _ => id, id⟩) hat

/-- A group that is gone is nobody's. -/
theorem Placed.leave (h : Placed config t Sound b ({(.gone, g)} + rest)) : Placed config t Sound b rest := by
  have hsub : rest ≤ {(Place.gone, g)} + rest := Multiset.le_add_left _ _
  obtain ⟨hgone, -, -⟩ := h.head
  refine ⟨h.sound, Multiset.nodup_of_le (Multiset.map_le_map hsub) h.seqIds,
    Multiset.nodup_of_le (Multiset.map_le_map hsub) h.requestIds, fun x hx => h.valid x (Multiset.mem_of_le hsub hx),
    fun x hx => h.at_place x (Multiset.mem_of_le hsub hx), fun i hi => ?_⟩
  by_cases hg : i = g.seqId
  · exact hg ▸ hgone
  · refine h.absent i fun hmem => ?_
    rw [Multiset.map_add, Multiset.mem_add] at hmem
    exact hmem.elim (fun h => hg (Multiset.mem_singleton.mp h)) hi

end Places

/-! ## Groups at one place -/

section PlacesOf
variable {T : Type} (p : Place) (g : SequenceGroup T) (l l' : List (SequenceGroup T))

/-- Some groups at one place. -/
def placesOf : Multiset (Place × SequenceGroup T) := Multiset.ofList (l.map (p, ·))

@[simp] theorem placesOf_nil : placesOf p ([] : List (SequenceGroup T)) = 0 := rfl

@[simp] theorem placesOf_cons : placesOf p (g :: l) = {(p, g)} + placesOf p l := rfl

@[simp] theorem placesOf_append : placesOf p (l ++ l') = placesOf p l + placesOf p l' := by
  unfold placesOf
  rw [List.map_append, Multiset.coe_add]

variable {p g l l'}

theorem placesOf_perm (h : l.Perm l') : placesOf p l = placesOf p l' := Multiset.coe_eq_coe.mpr (h.map _)

@[simp] theorem placesOf_reverse : placesOf p l.reverse = placesOf p l := placesOf_perm (List.reverse_perm l)

theorem mem_placesOf {x : Place × SequenceGroup T} : x ∈ placesOf p l ↔ x.1 = p ∧ x.2 ∈ l := by
  unfold placesOf
  rw [Multiset.mem_coe, List.mem_map]
  constructor
  · rintro ⟨g, hg, rfl⟩
    exact ⟨rfl, hg⟩
  · rintro ⟨hp, hg⟩
    exact ⟨x.2, hg, Prod.ext hp.symm rfl⟩

theorem map_placesOf {α : Type} (f : SequenceGroup T → α) : (placesOf p l).map (fun x => f x.2) = Multiset.ofList (l.map f) := by
  rw [placesOf, Multiset.map_coe, List.map_map]
  rfl

/-- Groups of one queue have different ids. -/
theorem Placed.nodup_ids {B : Type} {config : SchedulerConfig} {t : BlockTables B} {Sound : B → Prop} {b : B}
    {rest : Multiset (Place × SequenceGroup T)} (h : Placed config t Sound b (placesOf p l + rest)) :
    (l.map SequenceGroup.seqId).Nodup ∧ (l.map SequenceGroup.requestId).Nodup := by
  have hseq := h.seqIds
  have hreq := h.requestIds
  rw [Multiset.map_add, Multiset.nodup_add, map_placesOf] at hseq hreq
  exact ⟨hseq.1, hreq.1⟩

/-- Groups that are gone are nobody's. -/
theorem Placed.leaveAll {B : Type} {config : SchedulerConfig} {t : BlockTables B} {Sound : B → Prop} {b : B}
    {rest : Multiset (Place × SequenceGroup T)} (h : Placed config t Sound b (placesOf .gone l + rest)) :
    Placed config t Sound b rest := by
  induction l with
  | nil => simpa using h
  | cons g l ih =>
    rw [placesOf_cons, add_assoc] at h
    exact ih h.leave

/-- Some groups move together. -/
theorem Placed.forall₂ {B : Type} {config : SchedulerConfig} {t : BlockTables B} {Sound : B → Prop} {b : B}
    {xs : List (Place × SequenceGroup T)} (ys : List (Place × SequenceGroup T)) (hl : List.Forall₂ (fun x y : Place × SequenceGroup T =>
      y.2.request = x.2.request ∧ (At config t b x.1 x.2 → At config t b y.1 y.2)) xs ys) :
    ∀ {rest : Multiset (Place × SequenceGroup T)}, Placed config t Sound b (Multiset.ofList xs + rest) →
      Placed config t Sound b (Multiset.ofList ys + rest) := by
  induction hl with
  | nil => exact fun h => h
  | @cons x y xs ys hx _ ih =>
    intro rest h
    rw [← Multiset.cons_coe, ← Multiset.singleton_add, add_assoc] at h
    have hmoved := h.move y.1 y.2 hx.1 (hx.2 h.head.1)
    rw [← Multiset.cons_coe, ← Multiset.singleton_add, add_assoc, add_left_comm]
    exact ih (by rwa [add_left_comm])

end PlacesOf

end FairCache
