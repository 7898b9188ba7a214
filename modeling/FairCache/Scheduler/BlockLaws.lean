import FairCache.Scheduler.Groups

/-!
# What the scheduler relies on

* `BlockTables` : what the scheduler knows of a block manager: which sequences have a table, and where;
* `BlockSpaceManager.Laws` : after the question that goes with it, an operation returns, and it changes the table of its
  sequence only;
* `BlockSpaceManagerV1.laws` : the first block manager meets them.
-/

namespace FairCache

open Lib

variable {B : Type}

/-- What the states of a block manager say of a sequence: its table has some blocks of one device, or it has none. -/
structure BlockTables (B : Type) where
  Holds : B → ℕ → Device → ℕ → Prop
  Absent : B → ℕ → Prop

/-- What is known of other sequences stays. -/
def BlockTables.OnlyAt (t : BlockTables B) (i : ℕ) (b b' : B) : Prop :=
  ∀ j, j ≠ i → (∀ d n, t.Holds b j d n → t.Holds b' j d n) ∧ (t.Absent b j → t.Absent b' j)

/-- The table of a sequence has its blocks, all but perhaps the last. -/
def BlockTables.Covers (t : BlockTables B) (b : B) (d : Device) (q : SeqBlocks) : Prop :=
  ∃ n, t.Holds b q.seqId d n ∧ n ≤ q.nBlocks ∧ q.nBlocks ≤ n + 1

theorem BlockTables.OnlyAt.covers {t : BlockTables B} {i : ℕ} {b b' : B} (h : t.OnlyAt i b b') {d : Device} {q : SeqBlocks}
    (hi : q.seqId ≠ i) (hq : t.Covers b d q) : t.Covers b' d q := by
  obtain ⟨n, hn, hle⟩ := hq
  exact ⟨n, (h _ hi).1 d n hn, hle⟩

/-- What a block manager keeps to. -/
structure BlockSpaceManager.Laws (bm : BlockSpaceManager B) (t : BlockTables B) (Sound : B → Prop) : Prop where
  allocate : ∀ {b q}, Sound b → t.Absent b q.seqId → bm.canAllocate b q = .ok → ∃ b', bm.allocate b q = .ok b' ∧ Sound b' ∧
    t.OnlyAt q.seqId b b' ∧ t.Holds b' q.seqId .gpu q.nBlocks
  appendSlots : ∀ {b q}, Sound b → t.Covers b .gpu q → q.nBlocks ≠ 0 → bm.canAppendSlots b q = true →
    ∃ copied b', bm.appendSlots b q = .ok (copied, b') ∧ Sound b' ∧ t.OnlyAt q.seqId b b' ∧
      t.Holds b' q.seqId .gpu q.nBlocks
  canSwapIn : ∀ {b q}, Sound b → t.Covers b .cpu q → ∃ status, bm.canSwapIn b q = .ok status
  swapIn : ∀ {b q}, Sound b → t.Covers b .cpu q → q.nBlocks ≠ 0 → bm.canSwapIn b q = .ok .ok →
    ∃ moved b₁ copied b', bm.swapIn b q = .ok (moved, b₁) ∧ bm.appendSlots b₁ q = .ok (copied, b') ∧ Sound b' ∧
      t.OnlyAt q.seqId b b' ∧ t.Holds b' q.seqId .gpu q.nBlocks
  canSwapOut : ∀ {b q}, Sound b → t.Covers b .gpu q → ∃ can, bm.canSwapOut b q = .ok can
  swapOut : ∀ {b q n}, Sound b → t.Holds b q.seqId .gpu n → bm.canSwapOut b q = .ok true →
    ∃ moved b', bm.swapOut b q = .ok (moved, b') ∧ Sound b' ∧ t.OnlyAt q.seqId b b' ∧ t.Holds b' q.seqId .cpu n
  free : ∀ {b} q, Sound b → ∃ b', bm.free b q = .ok b' ∧ Sound b' ∧ t.OnlyAt q.seqId b b' ∧ t.Absent b' q.seqId

/-! ## The first block manager -/

namespace BlockSpaceManagerV1

/-- What it says of a sequence. -/
def tables : BlockTables BlockSpaceManagerV1 := ⟨Holds, fun s i => i ∉ s.blockTables⟩

theorem Frame.onlyAt {i : ℕ} {s s' : BlockSpaceManagerV1} (h : Frame [i] s s') : tables.OnlyAt i s s' := by
  intro j hj
  have hnot : j ∉ [i] := fun hmem => hj (List.mem_singleton.mp hmem)
  refine ⟨fun d n hn => h.holds hnot hn, fun hn => ?_⟩
  exact AList.lookup_eq_none.mp ((h.lookup j hnot).trans (AList.lookup_eq_none.mpr hn))

/-- **The first block manager meets the laws.** -/
theorem laws : manager.Laws tables Consistent where
  allocate {s q} hs hq hcan := by
    obtain ⟨s', hrun, hs', hframe, hholds⟩ := allocate_ok hs (List.cons_ne_nil q.seqId []) (List.nodup_singleton _)
      (fun i hi => List.mem_singleton.mp hi ▸ hq) hcan
    exact ⟨s', hrun, hs', hframe.onlyAt, hholds _ (List.mem_singleton.mpr rfl)⟩
  appendSlots {s q} hs hq hpos hcan := by
    obtain ⟨n, hn, hle, hge⟩ := hq
    have hroom : 1 ≤ s.numFree .gpu := of_decide_eq_true hcan
    obtain ⟨copied, s', hrun, hs', hframe, hholds, -⟩ := appendSlots_ok hs ⟨n, hn, hle, hge, hpos⟩ (by omega)
    exact ⟨copied, s', hrun, hs', hframe.onlyAt, hholds⟩
  canSwapIn {s q} _ hq := by
    obtain ⟨n, hn, -⟩ := hq
    have hok := getPhysicalBlocks_ok fun i (hi : i ∈ [q.seqId]) => ⟨n, List.mem_singleton.mp hi ▸ hn⟩
    exact ⟨_, show s.canSwapIn [q.seqId] = _ by rw [canSwapIn, hok]; rfl⟩
  swapIn {s q} hs hq hpos hcan := by
    obtain ⟨n, hn, hle, hge⟩ := hq
    obtain ⟨moved, s₁, s', hrun, happ, hs', hframe, hholds⟩ := swapIn_ok hs
      (show ([q].map SeqBlocks.seqId).Nodup from List.nodup_singleton _)
      (fun q' hq' => by rw [List.mem_singleton.mp hq']; exact ⟨n, hn, hle, hge, hpos⟩) hcan
    rw [appendGroup, List.foldlM_cons] at happ
    obtain ⟨s₂, hone, happ⟩ := bind_ok happ
    obtain ⟨⟨copied, s₃⟩, hcopied, rfl⟩ := map_ok hone
    cases happ
    exact ⟨moved, s₁, copied, _, hrun, hcopied, hs', hframe.onlyAt, hholds q List.mem_cons_self⟩
  canSwapOut {s q} _ hq := by
    obtain ⟨n, hn, -⟩ := hq
    have hok := getPhysicalBlocks_ok fun i (hi : i ∈ [q.seqId]) => ⟨n, List.mem_singleton.mp hi ▸ hn⟩
    exact ⟨_, show s.canSwapOut [q.seqId] = _ by rw [canSwapOut, hok]; rfl⟩
  swapOut {s q n} hs hq hcan := by
    obtain ⟨moved, s', hrun, hs', hframe, hholds⟩ := swapOut_ok hs (List.nodup_singleton _)
      (fun i hi => ⟨n, List.mem_singleton.mp hi ▸ hq⟩) hcan
    exact ⟨moved, s', hrun, hs', hframe.onlyAt, hholds _ (List.mem_singleton.mpr rfl) n hq⟩
  free {s} q hs := by
    obtain ⟨s', hrun, hs', hframe, hnone⟩ := free_ok hs q.seqId
    exact ⟨s', hrun, hs', hframe.onlyAt, AList.lookup_eq_none.mp hnone⟩

end BlockSpaceManagerV1

end FairCache
