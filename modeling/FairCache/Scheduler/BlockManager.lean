import FairCache.Lib.References
import FairCache.Scheduler.Preemption
import Mathlib.Data.Finset.Union
import Mathlib.Order.Interval.Finset.Nat
import Mathlib.Tactic.Abel

/-!
# The block manager

`BlockSpaceManagerV1` without prefix caching and sliding windows: it maps the logical blocks of the sequences to physical
blocks of the GPU and the CPU, which the sequences of a group share until one of them writes.

* `allocate`, `appendSlots`, `fork`, `swapOut`, `swapIn`, `free` : the operations; `canAllocate`, .. : what the scheduler
  asks before;
* `references` : the references that the block tables hold; `Consistent` : the reference counts are exact;
* `Allowed` : what the scheduler keeps to; `everyState_consistent` : then no operation raises, in any run.
-/

namespace FairCache

open Lib

inductive Device
  | gpu
  | cpu
  deriving DecidableEq

/-- A physical block. Its reference count is in the allocator. -/
structure PhysicalTokenBlock where
  device : Device
  blockNumber : ℕ
  deriving DecidableEq

/-- What the block manager reads of a sequence. -/
structure SeqBlocks where
  seqId : ℕ
  nBlocks : ℕ
  deriving DecidableEq

/-- The manager: the two `UncachedBlockAllocator`s, with the free blocks from the end of their lists on, and the block
table of each sequence. -/
structure BlockSpaceManagerV1 where
  numBlocks : Device → ℕ
  watermarkBlocks : ℕ
  allocator : References Device PhysicalTokenBlock
  blockTables : Dict ℕ (List PhysicalTokenBlock)

namespace BlockSpaceManagerV1

/-- A manager with all blocks free. -/
def new (numGpuBlocks numCpuBlocks watermarkBlocks : ℕ) : BlockSpaceManagerV1 :=
  let numBlocks : Device → ℕ
    | .gpu => numGpuBlocks
    | .cpu => numCpuBlocks
  { numBlocks := numBlocks, watermarkBlocks := watermarkBlocks
    allocator := { free := fun d => (List.range (numBlocks d)).reverse.map (⟨d, ·⟩), count := fun _ => 0 }
    blockTables := ∅ }

variable (s : BlockSpaceManagerV1)

/-- `get_num_free_blocks`. -/
def numFree (d : Device) : ℕ := (s.allocator.free d).length

/-! ## The operations -/

/-- `block_tables[seq_id]`. -/
def blockTable (seqId : ℕ) : Except PyError (List PhysicalTokenBlock) :=
  match s.blockTables.lookup seqId with
  | none => .error .keyError
  | some table => .ok table

/-- `allocator.allocate()`, with the reference count that the block gets. -/
def allocateBlock (d : Device) (refCount : ℕ) (a : References Device PhysicalTokenBlock) :
    Except PyError (PhysicalTokenBlock × References Device PhysicalTokenBlock) :=
  match a.take d refCount with
  | none => .error (.valueError "Out of memory! No free blocks are available.")
  | some r => .ok r

/-- What freeing a free block raises. -/
def doubleFree (b : PhysicalTokenBlock) : PyError :=
  let device := match b.device with
    | .gpu => "Device.GPU"
    | .cpu => "Device.CPU"
  .valueError ("Double free! PhysicalTokenBlock(device=" ++ device ++ ", block_number=" ++ toString b.blockNumber ++
    ", num_hashed_tokens=0, ref_count=0, last_accessed=-1, computed=False) is already freed.")

/-- `allocator.free(block)`, on the device of the block. -/
def freeBlock (a : References Device PhysicalTokenBlock) (b : PhysicalTokenBlock) :
    Except PyError (References Device PhysicalTokenBlock) :=
  match a.drop PhysicalTokenBlock.device b with
  | none => .error (doubleFree b)
  | some a => .ok a

/-- `can_allocate` : with a watermark of blocks that stay free. -/
def canAllocate (nBlocks : ℕ) : AllocStatus :=
  if s.numBlocks .gpu < nBlocks + s.watermarkBlocks then .never
  else if nBlocks + s.watermarkBlocks ≤ s.numFree .gpu then .ok
  else .later

/-- `_allocate_sequence` : a table of new blocks. -/
def allocateSequence (refCount : ℕ) : ℕ → References Device PhysicalTokenBlock →
    Except PyError (List PhysicalTokenBlock × References Device PhysicalTokenBlock)
  | 0, a => .ok ([], a)
  | n + 1, a => do
    let (b, a) ← allocateBlock .gpu refCount a
    let (table, a) ← allocateSequence refCount n a
    .ok (b :: table, a)

/-- `allocate` : the waiting sequences of a group share one table. -/
def allocate (seqIds : List ℕ) (nBlocks : ℕ) : Except PyError BlockSpaceManagerV1 :=
  match seqIds with
  | [] => .error .indexError
  | _ :: _ => do
    let (table, a) ← allocateSequence seqIds.length nBlocks s.allocator
    .ok { s with allocator := a, blockTables := seqIds.foldl (fun tables i => tables.set i table) s.blockTables }

/-- `can_append_slots` : a free block for each running sequence. -/
def canAppendSlots (numSeqs : ℕ) : Bool := numSeqs ≤ s.numFree .gpu

/-- `append_slots` : a new block where the last one is full, and a copy where it is shared. It returns the blocks to
copy. -/
def appendSlots (seq : SeqBlocks) : Except PyError (List (ℕ × ℕ) × BlockSpaceManagerV1) := do
  let table ← s.blockTable seq.seqId
  if table.length < seq.nBlocks then
    if table.length + 1 ≠ seq.nBlocks then .error (.assertionError "")
    else do
      let (b, a) ← allocateBlock .gpu 1 s.allocator
      .ok ([], { s with allocator := a, blockTables := s.blockTables.set seq.seqId (table ++ [b]) })
  else
    match table.getLast? with
    | none => .error .indexError
    | some last =>
      if last.device ≠ .gpu then .error (.assertionError "")
      else if s.allocator.count last = 1 then .ok ([], s)
      else do
        let (b, a) ← allocateBlock .gpu 1 s.allocator
        let a ← freeBlock a last
        .ok ([(last.blockNumber, b.blockNumber)],
          { s with allocator := a, blockTables := s.blockTables.set seq.seqId (table.dropLast ++ [b]) })

/-- `fork` : the child shares the blocks of its parent. -/
def fork (parent child : ℕ) : BlockSpaceManagerV1 :=
  match s.blockTables.lookup parent with
  | none => s
  | some src =>
    { s with
      blockTables := s.blockTables.set child src
      allocator := src.dedup.foldl References.addRef s.allocator }

/-- `_get_physical_blocks` of the sequences of a group that are not finished. -/
def getPhysicalBlocks (seqIds : List ℕ) : Except PyError (List PhysicalTokenBlock) :=
  (seqIds.mapM s.blockTable).map fun tables => tables.flatten.dedup

/-- `can_swap_in` : with a free block more for each sequence. -/
def canSwapIn (seqIds : List ℕ) : Except PyError AllocStatus :=
  (s.getPhysicalBlocks seqIds).map fun blocks =>
    let numRequiredBlocks := blocks.length + seqIds.length
    if s.numBlocks .gpu < numRequiredBlocks then .never
    else if numRequiredBlocks + s.watermarkBlocks ≤ s.numFree .gpu then .ok
    else .later

/-- `can_swap_out`. -/
def canSwapOut (seqIds : List ℕ) : Except PyError Bool :=
  (s.getPhysicalBlocks seqIds).map fun blocks => blocks.length ≤ s.numFree .cpu

/-- `_swap_block_table` : a block that another sequence brought over is shared again; `mapping` says where to. -/
def swapBlockTable (dest : Device) : List PhysicalTokenBlock → Dict PhysicalTokenBlock PhysicalTokenBlock →
    References Device PhysicalTokenBlock →
    Except PyError (List PhysicalTokenBlock × Dict PhysicalTokenBlock PhysicalTokenBlock ×
      References Device PhysicalTokenBlock)
  | [], mapping, a => .ok ([], mapping, a)
  | fromBlock :: blockTable, mapping, a => do
    let (toBlock, mapping, a) ← match mapping.lookup fromBlock with
      | some toBlock => .ok (toBlock, mapping, a.addRef toBlock)
      | none => (allocateBlock dest 1 a).map fun r => (r.1, mapping.set fromBlock r.1, r.2)
    let a ← freeBlock a fromBlock
    let (newBlockTable, mapping, a) ← swapBlockTable dest blockTable mapping a
    .ok (toBlock :: newBlockTable, mapping, a)

/-- The loop of `swap_in` and `swap_out` over the sequences of a group. -/
def swapTables (dest : Device) : List ℕ → Dict PhysicalTokenBlock PhysicalTokenBlock → BlockSpaceManagerV1 →
    Except PyError (Dict PhysicalTokenBlock PhysicalTokenBlock × BlockSpaceManagerV1)
  | [], mapping, s => .ok (mapping, s)
  | i :: seqIds, mapping, s => do
    let table ← s.blockTable i
    let (table, mapping, a) ← swapBlockTable dest table mapping s.allocator
    swapTables dest seqIds mapping { s with allocator := a, blockTables := s.blockTables.set i table }

/-- `swap_in` and `swap_out`, which return the numbers of the blocks to be moved. -/
def swap (dest : Device) (seqIds : List ℕ) : Except PyError (List (ℕ × ℕ) × BlockSpaceManagerV1) :=
  (swapTables dest seqIds ∅ s).map fun r => (r.1.entries.map fun e => (e.1.blockNumber, e.2.blockNumber), r.2)

def swapIn (seqIds : List ℕ) : Except PyError (List (ℕ × ℕ) × BlockSpaceManagerV1) := s.swap .gpu seqIds

def swapOut (seqIds : List ℕ) : Except PyError (List (ℕ × ℕ) × BlockSpaceManagerV1) := s.swap .cpu seqIds

/-- `free` : a sequence without a table is free already. -/
def free (seqId : ℕ) : Except PyError BlockSpaceManagerV1 :=
  match s.blockTables.lookup seqId with
  | none => .ok s
  | some table =>
    (table.dedup.foldlM freeBlock s.allocator).map fun a =>
      { s with allocator := a, blockTables := s.blockTables.erase seqId }

/-! ## Exact reference counts -/

/-- All blocks. -/
def blocks : Finset PhysicalTokenBlock :=
  (Finset.range (s.numBlocks .gpu)).image (⟨.gpu, ·⟩) ∪ (Finset.range (s.numBlocks .cpu)).image (⟨.cpu, ·⟩)

/-- The references that block tables hold. -/
def references (tables : Dict ℕ (List PhysicalTokenBlock)) : Multiset PhysicalTokenBlock :=
  Dict.sumBy (fun _ table => Multiset.ofList table) tables

/-- The reference counts are exact, what has no reference is free, and no table has a block twice. -/
structure Consistent : Prop where
  exact : References.Exact PhysicalTokenBlock.device s.blocks s.allocator (references s.blockTables)
  nodup : ∀ i table, s.blockTables.lookup i = some table → table.Nodup

variable {s}

theorem mem_blocks {b : PhysicalTokenBlock} : b ∈ s.blocks ↔ b.blockNumber < s.numBlocks b.device := by
  obtain ⟨d, n⟩ := b
  cases d <;> simp [blocks]

section References
variable {tables : Dict ℕ (List PhysicalTokenBlock)} {i : ℕ} {table : List PhysicalTokenBlock}

theorem references_of_lookup (h : tables.lookup i = some table) :
    references tables = table + references (tables.erase i) := Dict.sumBy_erase _ h

theorem references_set (table : List PhysicalTokenBlock) :
    references (tables.set i table) = table + references (tables.erase i) := Dict.sumBy_set _ _ _ _

theorem references_set_of_notMem (h : i ∉ tables) (table : List PhysicalTokenBlock) :
    references (tables.set i table) = table + references tables := by
  rw [references_set, Dict.erase_of_notMem h]

theorem mem_references_of_lookup (h : tables.lookup i = some table) {b : PhysicalTokenBlock} (hb : b ∈ table) :
    b ∈ references tables := by
  rw [references_of_lookup h]
  exact Multiset.mem_add.mpr (Or.inl hb)

end References

theorem consistent_new (numGpuBlocks numCpuBlocks watermarkBlocks : ℕ) :
    (new numGpuBlocks numCpuBlocks watermarkBlocks).Consistent := by
  constructor
  · constructor
    · intro d
      exact ((List.nodup_reverse.mpr List.nodup_range).map fun m n h => (PhysicalTokenBlock.mk.inj h).2)
    · rintro d ⟨d', n⟩
      rw [mem_blocks]
      simp only [new, List.mem_map, List.mem_reverse, List.mem_range, PhysicalTokenBlock.mk.injEq]
      constructor
      · rintro ⟨m, hm, rfl, rfl⟩
        exact ⟨rfl, hm, trivial⟩
      · rintro ⟨rfl, hn, -⟩
        exact ⟨n, hn, rfl, rfl⟩
    · exact fun _ => rfl
    · exact fun _ h => absurd h (Multiset.notMem_zero _)
  · intro i table h
    cases h

section Pool
variable {all : Finset PhysicalTokenBlock} {a : References Device PhysicalTokenBlock} {held : Multiset PhysicalTokenBlock}

/-- `References.Exact` for blocks. -/
abbrev ExactBlocks (all : Finset PhysicalTokenBlock) (a : References Device PhysicalTokenBlock)
    (held : Multiset PhysicalTokenBlock) : Prop := References.Exact PhysicalTokenBlock.device all a held

/-- A block is allocated while there are free ones; nobody holds it. -/
theorem allocateBlock_ok (ha : ExactBlocks all a held) {d : Device} {refCount : ℕ} (href : refCount ≠ 0)
    (hfree : (a.free d).length ≠ 0) : ∃ b a', allocateBlock d refCount a = .ok (b, a') ∧ b.device = d ∧ b ∉ held ∧
      ExactBlocks all a' (held + Multiset.replicate refCount b) ∧ (a.free d).length = (a'.free d).length + 1 ∧
      ∀ j, j ≠ d → a'.free j = a.free j := by
  obtain ⟨b, a', htake⟩ := References.take_isSome refCount (fun h => hfree (by rw [h]; rfl))
  obtain ⟨hkind, -, hnot⟩ := ha.of_take htake
  obtain ⟨hlen, hother⟩ := References.take_length_free htake
  exact ⟨b, a', by rw [allocateBlock, htake], hkind, hnot, ha.take href htake, hlen, hother⟩

theorem freeBlock_ok {b : PhysicalTokenBlock} (ha : ExactBlocks all a (b ::ₘ held)) : ∃ a', freeBlock a b = .ok a' ∧
    ExactBlocks all a' held ∧ ∀ d, (a.free d).length ≤ (a'.free d).length := by
  obtain ⟨a', hdrop, ha'⟩ := ha.drop
  exact ⟨a', by rw [freeBlock, hdrop], ha', References.drop_length_free hdrop⟩

/-- A table of new blocks is allocated while there are enough free ones. -/
theorem allocateSequence_ok {refCount : ℕ} (href : refCount ≠ 0) (n : ℕ) : ∀ {a held}, ExactBlocks all a held →
    n ≤ (a.free .gpu).length → ∃ table a', allocateSequence refCount n a = .ok (table, a') ∧
      ExactBlocks all a' (held + refCount • (table : Multiset PhysicalTokenBlock)) ∧ table.length = n ∧ table.Nodup ∧
      ∀ b ∈ table, b.device = .gpu ∧ b ∉ held := by
  induction n with
  | zero => intro a held ha _; exact ⟨[], a, rfl, by simpa using ha, rfl, List.nodup_nil, by simp⟩
  | succ n ih =>
    intro a held ha hfree
    obtain ⟨b, a₁, hb, hgpu, hnot, ha₁, hlen, -⟩ := allocateBlock_ok (d := .gpu) ha href (by omega)
    obtain ⟨table, a', htable, ha', htlen, hnodup, hnew⟩ := ih ha₁ (by omega)
    refine ⟨b :: table, a', by simp [allocateSequence, hb, htable, bind, Except.bind], ?_, by simp [htlen], ?_, ?_⟩
    · rw [← Multiset.cons_coe, ← Multiset.singleton_add, nsmul_add, Multiset.nsmul_singleton, ← add_assoc]
      exact ha'
    · refine List.nodup_cons.mpr ⟨fun hmem => ?_, hnodup⟩
      exact (hnew b hmem).2 (Multiset.mem_add.mpr (Or.inr (Multiset.mem_replicate.mpr ⟨href, rfl⟩)))
    · intro c hc
      rcases List.mem_cons.mp hc with rfl | hc
      · exact ⟨hgpu, hnot⟩
      · exact ⟨(hnew c hc).1, fun h => (hnew c hc).2 (Multiset.mem_add.mpr (Or.inl h))⟩

/-- Dropping a reference to each block of a list. -/
theorem foldlM_freeBlock (table : List PhysicalTokenBlock) : ∀ {a}, ExactBlocks all a (table + held) →
    ∃ a', table.foldlM freeBlock a = .ok a' ∧ ExactBlocks all a' held := by
  induction table with
  | nil => intro a ha; exact ⟨a, rfl, by simpa using ha⟩
  | cons b table ih =>
    intro a ha
    rw [← Multiset.cons_coe, Multiset.cons_add] at ha
    obtain ⟨a₁, hb, ha₁, -⟩ := freeBlock_ok ha
    obtain ⟨a', htable, ha'⟩ := ih ha₁
    exact ⟨a', by simp [List.foldlM_cons, hb, htable, bind, Except.bind], ha'⟩

/-- Adding a reference to each. -/
theorem foldl_addRef (table : List PhysicalTokenBlock) : ∀ {a held}, ExactBlocks all a held → (∀ b ∈ table, b ∈ held) →
    ExactBlocks all (table.foldl References.addRef a) (table + held) := by
  induction table with
  | nil => intro a held ha _; simpa using ha
  | cons b table ih =>
    intro a held ha hmem
    have ha₁ := ha.addRef (hmem b List.mem_cons_self)
    have := ih ha₁ fun c hc => Multiset.mem_cons_of_mem (hmem c (List.mem_cons_of_mem b hc))
    rwa [Multiset.add_cons, ← Multiset.cons_add, Multiset.cons_coe] at this

end Pool

/-! ## What the operations do -/

/-- A sequence has a table of `n` blocks, all on one device. -/
def Holds (s : BlockSpaceManagerV1) (i : ℕ) (d : Device) (n : ℕ) : Prop :=
  ∃ table, s.blockTables.lookup i = some table ∧ table.length = n ∧ ∀ b ∈ table, b.device = d

/-- All tables but those of some sequences are what they were. -/
structure Frame (seqIds : List ℕ) (s s' : BlockSpaceManagerV1) : Prop where
  numBlocks : s'.numBlocks = s.numBlocks
  watermarkBlocks : s'.watermarkBlocks = s.watermarkBlocks
  lookup : ∀ i, i ∉ seqIds → s'.blockTables.lookup i = s.blockTables.lookup i

theorem Frame.refl (seqIds : List ℕ) (s : BlockSpaceManagerV1) : Frame seqIds s s := ⟨rfl, rfl, fun _ _ => rfl⟩

theorem Frame.trans {ids ids' : List ℕ} {s s' s'' : BlockSpaceManagerV1} (h : Frame ids s s') (h' : Frame ids' s' s'') :
    Frame (ids ++ ids') s s'' := by
  refine ⟨h'.numBlocks.trans h.numBlocks, h'.watermarkBlocks.trans h.watermarkBlocks, fun i hi => ?_⟩
  rw [List.mem_append, not_or] at hi
  rw [h'.lookup i hi.2, h.lookup i hi.1]

theorem Frame.holds {ids : List ℕ} {s s' : BlockSpaceManagerV1} (h : Frame ids s s') {i n : ℕ} {d : Device}
    (hi : i ∉ ids) (hs : s.Holds i d n) : s'.Holds i d n := by
  unfold Holds
  rw [h.lookup i hi]
  exact hs

theorem Frame.blocks {ids : List ℕ} {s s' : BlockSpaceManagerV1} (h : Frame ids s s') : s'.blocks = s.blocks := by
  unfold BlockSpaceManagerV1.blocks
  rw [h.numBlocks]

theorem blockTable_ok {i : ℕ} {table : List PhysicalTokenBlock} (h : s.blockTables.lookup i = some table) :
    s.blockTable i = .ok table := by
  unfold blockTable
  rw [h]

section Share
variable {tables : Dict ℕ (List PhysicalTokenBlock)} {table : List PhysicalTokenBlock}

theorem lookup_foldl_set (seqIds : List ℕ) (j : ℕ) : ∀ (tables : Dict ℕ (List PhysicalTokenBlock)),
    (seqIds.foldl (fun tables i => tables.set i table) tables).lookup j =
      if j ∈ seqIds then some table else tables.lookup j := by
  induction seqIds with
  | nil => intro tables; rfl
  | cons i seqIds ih =>
    intro tables
    rw [List.foldl_cons, ih, Dict.lookup_set]
    by_cases hj : j ∈ seqIds
    · rw [if_pos hj, if_pos (List.mem_cons_of_mem _ hj)]
    · rw [if_neg hj]
      by_cases hji : j = i
      · rw [if_pos hji, if_pos (hji ▸ List.mem_cons_self)]
      · rw [if_neg hji, if_neg (by rw [List.mem_cons]; tauto)]

theorem references_foldl_set (seqIds : List ℕ) : ∀ (tables : Dict ℕ (List PhysicalTokenBlock)), seqIds.Nodup →
    (∀ i ∈ seqIds, i ∉ tables) → references (seqIds.foldl (fun tables i => tables.set i table) tables) =
      references tables + seqIds.length • Multiset.ofList table := by
  induction seqIds with
  | nil => intro tables _ _; simp
  | cons i seqIds ih =>
    intro tables hnodup hfresh
    rw [List.nodup_cons] at hnodup
    rw [List.foldl_cons, ih (tables.set i table) hnodup.2, references_set_of_notMem (hfresh i List.mem_cons_self),
      List.length_cons, succ_nsmul, add_comm (Multiset.ofList table), add_assoc, add_comm (Multiset.ofList table)]
    intro j hj hmem
    rcases (Dict.mem_set _ _ _ _).mp hmem with rfl | hmem
    · exact hnodup.1 hj
    · exact hfresh j (List.mem_cons_of_mem _ hj) hmem

end Share

/-- **Where `can_allocate` says so, the sequences get a table of new blocks.** -/
theorem allocate_ok (hs : s.Consistent) {seqIds : List ℕ} {n : ℕ} (hne : seqIds ≠ []) (hnodup : seqIds.Nodup)
    (hfresh : ∀ i ∈ seqIds, i ∉ s.blockTables) (hcan : s.canAllocate n = .ok) : ∃ s', s.allocate seqIds n = .ok s' ∧
      s'.Consistent ∧ Frame seqIds s s' ∧ ∀ i ∈ seqIds, s'.Holds i .gpu n := by
  have hfree : n ≤ (s.allocator.free .gpu).length := by
    unfold canAllocate at hcan
    split_ifs at hcan with h₁ h₂
    exact Nat.le_trans (Nat.le_add_right _ _) h₂
  obtain ⟨table, a, htable, ha, hlen, htnodup, hnew⟩ :=
    allocateSequence_ok (List.length_pos_iff.mpr hne).ne' n hs.exact hfree
  obtain ⟨i, seqIds, rfl⟩ := List.exists_cons_of_ne_nil hne
  let tables := (i :: seqIds).foldl (fun tables i => tables.set i table) s.blockTables
  refine ⟨{ s with allocator := a, blockTables := tables }, by rw [allocate, htable]; rfl, ⟨?_, fun j t hj => ?_⟩,
    ⟨rfl, rfl, fun j hj => ?_⟩, fun j hj => ?_⟩
  · rw [← references_foldl_set _ _ hnodup hfresh] at ha
    exact ha
  · rw [lookup_foldl_set] at hj
    split_ifs at hj with hmem
    · cases hj
      exact htnodup
    · exact hs.nodup j t hj
  · rw [lookup_foldl_set, if_neg hj]
  · refine ⟨table, ?_, hlen, fun b hb => (hnew b hb).1⟩
    rw [lookup_foldl_set, if_pos hj]

/-- A sequence whose table, on the GPU, has all its blocks but for the last one perhaps. -/
def Appendable (s : BlockSpaceManagerV1) (seq : SeqBlocks) : Prop :=
  ∃ n, s.Holds seq.seqId .gpu n ∧ n ≤ seq.nBlocks ∧ seq.nBlocks ≤ n + 1 ∧ seq.nBlocks ≠ 0

/-- **With a free block a sequence gets its slot**: afterwards its table has all its blocks. -/
theorem appendSlots_ok (hs : s.Consistent) {seq : SeqBlocks} (hseq : s.Appendable seq) (hfree : s.numFree .gpu ≠ 0) :
    ∃ copied s', s.appendSlots seq = .ok (copied, s') ∧ s'.Consistent ∧ Frame [seq.seqId] s s' ∧
      s'.Holds seq.seqId .gpu seq.nBlocks ∧ s.numFree .gpu ≤ s'.numFree .gpu + 1 := by
  obtain ⟨n, ⟨table, hlookup, rfl, hgpu⟩, hle, hge, hpos⟩ := hseq
  have hexact := hs.exact
  rw [references_of_lookup hlookup] at hexact
  have hframe : ∀ (a : References Device PhysicalTokenBlock) (t : List PhysicalTokenBlock),
      Frame [seq.seqId] s { s with allocator := a, blockTables := s.blockTables.set seq.seqId t } := fun a t =>
    ⟨rfl, rfl, fun i hi => Dict.lookup_set_ne _ _ (List.ne_of_not_mem_cons hi)⟩
  have hset : ∀ (a : References Device PhysicalTokenBlock) (t : List PhysicalTokenBlock), t.Nodup →
      ExactBlocks s.blocks a (t + references (s.blockTables.erase seq.seqId)) →
      Consistent { s with allocator := a, blockTables := s.blockTables.set seq.seqId t } := by
    intro a t ht ha
    rw [← references_set] at ha
    refine ⟨ha, fun i t' hi => ?_⟩
    rw [Dict.lookup_set] at hi
    split_ifs at hi with hi'
    · cases hi
      exact ht
    · exact hs.nodup i t' hi
  unfold appendSlots
  rw [blockTable_ok hlookup]
  simp only [bind, Except.bind]
  by_cases hlt : table.length < seq.nBlocks
  · -- a new block
    rw [if_pos hlt, if_neg (by omega)]
    obtain ⟨b, a, hb, hdev, hnot, ha, hlen, -⟩ := allocateBlock_ok (d := .gpu) hexact one_ne_zero hfree
    rw [hb]
    have hnodup : (table ++ [b]).Nodup := by
      refine List.nodup_append.mpr ⟨hs.nodup _ _ hlookup, List.nodup_singleton b, fun c hc d hd heq => ?_⟩
      rw [List.mem_singleton] at hd
      exact hnot (Multiset.mem_add.mpr (Or.inl (hd ▸ heq ▸ hc)))
    refine ⟨[], _, rfl, hset a _ hnodup ?_, hframe a _, ⟨_, Dict.lookup_set_self _ _ _, ?_, ?_⟩, ?_⟩
    · rw [Multiset.replicate_one, add_right_comm] at ha
      rw [← Multiset.coe_add, Multiset.coe_singleton]
      exact ha
    · rw [List.length_append, List.length_singleton]
      omega
    · intro c hc
      rcases List.mem_append.mp hc with hc | hc
      · exact hgpu c hc
      · rw [List.mem_singleton.mp hc, hdev]
    · exact hlen.le
  · rw [if_neg hlt]
    have hne : table ≠ [] := fun h => by
      rw [h, List.length_nil] at hlt
      omega
    have hsplit := List.dropLast_append_getLast hne
    rw [List.getLast?_eq_getLast_of_ne_nil hne]
    dsimp only
    rw [if_neg (not_not.mpr (hgpu _ (List.getLast_mem hne)))]
    split_ifs with hone
    · -- the last block is not shared
      refine ⟨[], s, rfl, hs, Frame.refl _ _, ⟨table, hlookup, by omega, hgpu⟩, by omega⟩
    · -- the last block is copied
      obtain ⟨b, a, hb, hdev, hnot, ha, hlen, -⟩ := allocateBlock_ok (d := .gpu) hexact one_ne_zero hfree
      have hmove : (table : Multiset PhysicalTokenBlock) + references (s.blockTables.erase seq.seqId) +
          Multiset.replicate 1 b = table.getLast hne ::ₘ
            ((table.dropLast ++ [b] : List PhysicalTokenBlock) + references (s.blockTables.erase seq.seqId)) := by
        nth_rewrite 1 [← hsplit]
        rw [← Multiset.coe_add, ← Multiset.coe_add, Multiset.coe_singleton, Multiset.coe_singleton,
          Multiset.replicate_one, ← Multiset.singleton_add]
        abel
      rw [hmove] at ha
      obtain ⟨a', hdrop, ha', hmono⟩ := freeBlock_ok ha
      rw [hb]
      dsimp only
      rw [hdrop]
      have hnodup : (table.dropLast ++ [b]).Nodup := by
        have hold := hs.nodup _ _ hlookup
        rw [← hsplit] at hold
        refine List.nodup_append.mpr ⟨(List.nodup_append.mp hold).1, List.nodup_singleton b, fun c hc d hd heq => ?_⟩
        rw [List.mem_singleton] at hd
        exact hnot (Multiset.mem_add.mpr (Or.inl (hd ▸ heq ▸ List.mem_of_mem_dropLast hc)))
      refine ⟨_, _, rfl, hset a' _ hnodup ha', hframe a' _, ⟨_, Dict.lookup_set_self _ _ _, ?_, ?_⟩, ?_⟩
      · have := congrArg List.length hsplit
        rw [List.length_append, List.length_singleton] at this ⊢
        omega
      · intro c hc
        rcases List.mem_append.mp hc with hc | hc
        · exact hgpu c (List.mem_of_mem_dropLast hc)
        · rw [List.mem_singleton.mp hc, hdev]
      · exact hlen.le.trans (Nat.succ_le_succ (hmono .gpu))

/-- `append_slots` for the sequences of a group. -/
def appendGroup (s : BlockSpaceManagerV1) (seqs : List SeqBlocks) : Except PyError BlockSpaceManagerV1 :=
  seqs.foldlM (fun s seq => (s.appendSlots seq).map (·.2)) s

/-- **With a free block for each sequence all get their slots.** -/
theorem appendGroup_ok (seqs : List SeqBlocks) : ∀ {s : BlockSpaceManagerV1}, s.Consistent →
    (seqs.map SeqBlocks.seqId).Nodup → (∀ q ∈ seqs, s.Appendable q) → seqs.length ≤ s.numFree .gpu →
    ∃ s', s.appendGroup seqs = .ok s' ∧ s'.Consistent ∧ Frame (seqs.map SeqBlocks.seqId) s s' ∧
      ∀ q ∈ seqs, s'.Holds q.seqId .gpu q.nBlocks := by
  induction seqs with
  | nil => intro s hs _ _ _; exact ⟨s, rfl, hs, Frame.refl _ _, by simp⟩
  | cons q seqs ih =>
    intro s hs hnodup hseqs hfree
    rw [List.map_cons, List.nodup_cons] at hnodup
    rw [List.length_cons] at hfree
    obtain ⟨copied, s₁, hq, hs₁, hframe, hholds, hless⟩ :=
      appendSlots_ok hs (hseqs q List.mem_cons_self) (by omega)
    have happ : ∀ p ∈ seqs, s₁.Appendable p := fun p hp => by
      obtain ⟨n, hn, hle⟩ := hseqs p (List.mem_cons_of_mem q hp)
      refine ⟨n, hframe.holds (fun h => hnodup.1 ?_) hn, hle⟩
      exact List.mem_singleton.mp h ▸ List.mem_map_of_mem hp
    obtain ⟨s', hrest, hs', hframe', hholds'⟩ := ih hs₁ hnodup.2 happ (by omega)
    refine ⟨s', ?_, hs', hframe.trans hframe', fun p hp => ?_⟩
    · rw [appendGroup, List.foldlM_cons, hq]
      exact hrest
    · rcases List.mem_cons.mp hp with rfl | hp
      · exact hframe'.holds hnodup.1 hholds
      · exact hholds' p hp

/-- A forked sequence shares all blocks of its parent. -/
theorem fork_ok (hs : s.Consistent) {parent child : ℕ} (hchild : child ∉ s.blockTables) :
    (s.fork parent child).Consistent ∧ Frame [child] s (s.fork parent child) := by
  unfold fork
  cases hlookup : s.blockTables.lookup parent with
  | none => exact ⟨hs, Frame.refl _ _⟩
  | some src =>
    have hnodup := hs.nodup _ _ hlookup
    dsimp only
    refine ⟨⟨?_, fun i t hi => ?_⟩, rfl, rfl, fun i hi => Dict.lookup_set_ne _ _ (List.ne_of_not_mem_cons hi)⟩
    · rw [references_set_of_notMem hchild]
      dsimp only
      rw [hnodup.dedup]
      exact foldl_addRef src hs.exact fun b hb => mem_references_of_lookup hlookup hb
    · rw [Dict.lookup_set] at hi
      split_ifs at hi
      · cases hi
        exact hnodup
      · exact hs.nodup i t hi

/-- **A sequence is freed**, and has no table any more. -/
theorem free_ok (hs : s.Consistent) (i : ℕ) : ∃ s', s.free i = .ok s' ∧ s'.Consistent ∧ Frame [i] s s' ∧
    s'.blockTables.lookup i = none := by
  unfold free
  cases hlookup : s.blockTables.lookup i with
  | none => exact ⟨s, rfl, hs, Frame.refl _ _, hlookup⟩
  | some table =>
    have hexact := hs.exact
    rw [references_of_lookup hlookup] at hexact
    obtain ⟨a, hfold, ha⟩ := foldlM_freeBlock table hexact
    refine ⟨{ s with allocator := a, blockTables := s.blockTables.erase i }, ?_, ⟨ha, fun j t hj => ?_⟩,
      ⟨rfl, rfl, fun j hj => AList.lookup_erase_ne (List.ne_of_not_mem_cons hj)⟩, AList.lookup_erase _ _⟩
    · dsimp only
      rw [(hs.nodup _ _ hlookup).dedup, hfold]
      rfl
    · exact hs.nodup j t (Dict.lookup_erase_eq_some.mp hj).2

/-! ## Swapping -/

/-- The blocks that were brought over are held, on their new device, and no two were brought to one place. -/
structure Mapped (mapping : Dict PhysicalTokenBlock PhysicalTokenBlock) (dest : Device)
    (held : Multiset PhysicalTokenBlock) : Prop where
  held : ∀ b c, mapping.lookup b = some c → c ∈ held ∧ c.device = dest
  inj : ∀ b b' c, mapping.lookup b = some c → mapping.lookup b' = some c → b = b'

/-- The blocks of a table that were not brought over yet. -/
def unmapped (mapping : Dict PhysicalTokenBlock PhysicalTokenBlock) (table : List PhysicalTokenBlock) :
    Finset PhysicalTokenBlock := table.toFinset.filter (· ∉ mapping)

/-- **A table is brought over** while there are free blocks for what is not there yet. -/
theorem swapBlockTable_ok {all : Finset PhysicalTokenBlock} {dest : Device} (table : List PhysicalTokenBlock) :
    ∀ {mapping : Dict PhysicalTokenBlock PhysicalTokenBlock} {a : References Device PhysicalTokenBlock}
      {held : Multiset PhysicalTokenBlock}, ExactBlocks all a (table + held) → Mapped mapping dest held → table.Nodup →
      (unmapped mapping table).card ≤ (a.free dest).length →
      ∃ table' mapping' a', swapBlockTable dest table mapping a = .ok (table', mapping', a') ∧
        ExactBlocks all a' (table' + held) ∧ Mapped mapping' dest (table' + held) ∧
        table.map mapping'.lookup = table'.map some ∧ (∀ b, b ∈ mapping' ↔ b ∈ mapping ∨ b ∈ table) ∧
        (∀ b c, mapping.lookup b = some c → mapping'.lookup b = some c) ∧
        (a.free dest).length ≤ (a'.free dest).length + (unmapped mapping table).card := by
  induction table with
  | nil =>
    intro mapping a held ha hm _ _
    refine ⟨[], mapping, a, rfl, ha, by simpa using hm, rfl, by simp, fun _ _ h => h, Nat.le_add_right _ _⟩
  | cons b table ih =>
    intro mapping a held ha hm hnodup hfree
    rw [List.nodup_cons] at hnodup
    cases hb : mapping.lookup b with
    | some c =>
      -- another sequence brought the block over
      have hmem := Dict.mem_of_lookup hb
      obtain ⟨hc, hdev⟩ := hm.held b c hb
      have ha₁ := ha.addRef (Multiset.mem_add.mpr (Or.inr hc))
      have hmove : c ::ₘ (Multiset.ofList (b :: table) + held) = b ::ₘ (Multiset.ofList table + c ::ₘ held) := by
        rw [← Multiset.cons_coe, Multiset.cons_add, Multiset.add_cons, Multiset.cons_swap]
      rw [hmove] at ha₁
      obtain ⟨a₂, hdrop, ha₂, hmono⟩ := freeBlock_ok ha₁
      have hsame : unmapped mapping (b :: table) = unmapped mapping table := by
        unfold unmapped
        rw [List.toFinset_cons, Finset.filter_insert, if_neg (not_not.mpr hmem)]
      rw [hsame] at hfree ⊢
      have hm₁ : Mapped mapping dest (c ::ₘ held) :=
        ⟨fun x y h => ⟨Multiset.mem_cons_of_mem (hm.held x y h).1, (hm.held x y h).2⟩, hm.inj⟩
      obtain ⟨table', mapping', a', hrun, ha', hm', hmap, hkeys, hext, hlen⟩ :=
        ih ha₂ hm₁ hnodup.2 (hfree.trans (hmono dest))
      have hshift : Multiset.ofList table' + c ::ₘ held = Multiset.ofList (c :: table') + held := by
        rw [← Multiset.cons_coe, Multiset.cons_add, Multiset.add_cons]
      rw [hshift] at ha' hm'
      refine ⟨c :: table', mapping', a', ?_, ha', hm', ?_, fun x => ?_, hext, hlen.trans' (hmono dest)⟩
      · simp [swapBlockTable, hb, hdrop, hrun, bind, Except.bind]
      · rw [List.map_cons, List.map_cons, hmap, hext b c hb]
      · rw [hkeys, List.mem_cons]
        constructor
        · exact fun h => h.imp_right Or.inr
        · rintro (h | rfl | h)
          · exact Or.inl h
          · exact Or.inl hmem
          · exact Or.inr h
    | none =>
      have hnot : b ∉ mapping := fun h => by
        obtain ⟨c, hc⟩ := (Dict.mem_iff_lookup _ _).mp h
        rw [hb] at hc
        cases hc
      have hcard : (unmapped mapping (b :: table)).card = (unmapped mapping table).card + 1 := by
        unfold unmapped
        rw [List.toFinset_cons, Finset.filter_insert, if_pos hnot, Finset.card_insert_of_notMem]
        exact fun h => hnodup.1 (List.mem_toFinset.mp (Finset.mem_filter.mp h).1)
      rw [hcard] at hfree ⊢
      obtain ⟨c, a₁, halloc, hdev, hfresh, ha₁, hlen₁, -⟩ :=
        allocateBlock_ok (d := dest) ha one_ne_zero (by omega)
      have hmove : Multiset.ofList (b :: table) + held + Multiset.replicate 1 c =
          b ::ₘ (Multiset.ofList table + c ::ₘ held) := by
        rw [← Multiset.cons_coe, Multiset.replicate_one, ← Multiset.singleton_add, ← Multiset.singleton_add,
          ← Multiset.singleton_add]
        abel
      rw [hmove] at ha₁
      obtain ⟨a₂, hdrop, ha₂, hmono⟩ := freeBlock_ok ha₁
      have hnotHeld : c ∉ held := fun h => hfresh (Multiset.mem_add.mpr (Or.inr h))
      have hm₁ : Mapped (mapping.set b c) dest (c ::ₘ held) := by
        constructor
        · intro x y h
          rw [Dict.lookup_set] at h
          split_ifs at h with hx
          · cases h
            exact ⟨Multiset.mem_cons_self _ _, hdev⟩
          · exact ⟨Multiset.mem_cons_of_mem (hm.held x y h).1, (hm.held x y h).2⟩
        · intro x x' y h h'
          rw [Dict.lookup_set] at h h'
          split_ifs at h h' with hx hx'
          · exact hx.trans hx'.symm
          · cases h
            exact absurd (hm.held x' _ h').1 hnotHeld
          · cases h'
            exact absurd (hm.held x _ h).1 hnotHeld
          · exact hm.inj x x' y h h'
      have hsame : unmapped (mapping.set b c) table = unmapped mapping table := by
        unfold unmapped
        refine Finset.filter_congr fun x hx => ?_
        rw [Dict.mem_set, not_or]
        refine and_iff_right fun h => hnodup.1 ?_
        rw [← h]
        exact List.mem_toFinset.mp hx
      have hmono := hmono dest
      obtain ⟨table', mapping', a', hrun, ha', hm', hmap, hkeys, hext, hlen⟩ :=
        ih ha₂ hm₁ hnodup.2 (by rw [hsame]; omega)
      have hshift : Multiset.ofList table' + c ::ₘ held = Multiset.ofList (c :: table') + held := by
        rw [← Multiset.cons_coe, Multiset.cons_add, Multiset.add_cons]
      rw [hshift] at ha' hm'
      rw [hsame] at hlen
      refine ⟨c :: table', mapping', a', ?_, ha', hm', ?_, fun x => ?_, fun x y h => ?_, by omega⟩
      · simp [swapBlockTable, hb, halloc, hdrop, hrun, bind, Except.bind, Except.map]
      · rw [List.map_cons, List.map_cons, hmap, hext b c (Dict.lookup_set_self _ _ _)]
      · rw [hkeys, Dict.mem_set, List.mem_cons]
        tauto
      · refine hext x y ?_
        rw [Dict.lookup_set_ne _ _ fun heq => ?_]
        · exact h
        · rw [heq, hb] at h
          cases h

/-- The blocks of some sequences, one table after the other. -/
def tablesOf (s : BlockSpaceManagerV1) (seqIds : List ℕ) : List PhysicalTokenBlock :=
  seqIds.flatMap fun i => (s.blockTables.lookup i).getD []

theorem card_unmapped_append {mapping mapping' : Dict PhysicalTokenBlock PhysicalTokenBlock}
    {table rest : List PhysicalTokenBlock} (hkeys : ∀ b, b ∈ mapping' ↔ b ∈ mapping ∨ b ∈ table) :
    (unmapped mapping (table ++ rest)).card = (unmapped mapping table).card + (unmapped mapping' rest).card := by
  rw [← Finset.card_union_of_disjoint]
  · congr 1
    ext b
    simp only [unmapped, Finset.mem_union, Finset.mem_filter, List.mem_toFinset, List.mem_append, hkeys]
    tauto
  · rw [Finset.disjoint_left]
    intro b hb hb'
    simp only [unmapped, Finset.mem_filter, List.mem_toFinset, hkeys] at hb hb'
    exact hb'.2 (Or.inr hb.1)

/-- **The sequences of a group are swapped** while there are free blocks for all their blocks together: they keep their
numbers of blocks, and share what they shared. -/
theorem swapTables_ok {src dest : Device} (hne : src ≠ dest) (seqIds : List ℕ) :
    ∀ {mapping : Dict PhysicalTokenBlock PhysicalTokenBlock} {s : BlockSpaceManagerV1}, s.Consistent →
      Mapped mapping dest (references s.blockTables) → seqIds.Nodup → (∀ i ∈ seqIds, ∃ n, s.Holds i src n) →
      (unmapped mapping (s.tablesOf seqIds)).card ≤ s.numFree dest →
      ∃ mapping' s', swapTables dest seqIds mapping s = .ok (mapping', s') ∧ s'.Consistent ∧ Frame seqIds s s' ∧
        (∀ i ∈ seqIds, ∀ n, s.Holds i src n → s'.Holds i dest n) ∧
        s.numFree dest ≤ s'.numFree dest + (unmapped mapping (s.tablesOf seqIds)).card := by
  induction seqIds with
  | nil =>
    intro mapping s hs _ _ _ _
    exact ⟨mapping, s, rfl, hs, Frame.refl _ _, by simp, Nat.le_add_right _ _⟩
  | cons i seqIds ih =>
    intro mapping s hs hm hnodup hheld hfree
    rw [List.nodup_cons] at hnodup
    obtain ⟨n, table, hlookup, hlen, hdev⟩ := hheld i List.mem_cons_self
    have hexact := hs.exact
    rw [references_of_lookup hlookup] at hexact hm
    have hm₀ : Mapped mapping dest (references (s.blockTables.erase i)) := by
      refine ⟨fun b c h => ?_, hm.inj⟩
      obtain ⟨hc, hcdev⟩ := hm.held b c h
      refine ⟨(Multiset.mem_add.mp hc).resolve_left fun hmem => hne ?_, hcdev⟩
      rw [← hdev c hmem, hcdev]
    have htables : s.tablesOf (i :: seqIds) = table ++ s.tablesOf seqIds := by
      rw [tablesOf, List.flatMap_cons, hlookup]
      rfl
    rw [htables] at hfree ⊢
    have hle : (unmapped mapping table).card ≤ s.numFree dest := by
      refine Nat.le_trans (Finset.card_le_card fun b hb => ?_) hfree
      simp only [unmapped, Finset.mem_filter, List.mem_toFinset, List.mem_append] at hb ⊢
      exact ⟨Or.inl hb.1, hb.2⟩
    obtain ⟨table', mapping', a', hrun, ha', hm', hmap, hkeys, -, hless⟩ :=
      swapBlockTable_ok table hexact hm₀ (hs.nodup _ _ hlookup) hle
    rw [card_unmapped_append hkeys] at hfree ⊢
    have hnodup' : table'.Nodup := by
      refine List.Nodup.of_map some ?_
      rw [← hmap]
      refine (hs.nodup _ _ hlookup).map_on fun b hb b' _ heq => ?_
      obtain ⟨c, hc⟩ := (Dict.mem_iff_lookup _ _).mp ((hkeys b).mpr (Or.inr hb))
      exact hm'.inj b b' c hc (heq ▸ hc)
    have hdev' : ∀ c ∈ table', c.device = dest := fun c hc => by
      obtain ⟨b, -, hb⟩ := List.mem_map.mp (hmap ▸ List.mem_map_of_mem (f := some) hc)
      exact (hm'.held b c hb).2
    let s₁ : BlockSpaceManagerV1 := { s with allocator := a', blockTables := s.blockTables.set i table' }
    have hs₁ : s₁.Consistent := by
      refine ⟨(references_set table').symm ▸ ha', fun j t hj => ?_⟩
      rw [Dict.lookup_set] at hj
      split_ifs at hj
      · cases hj
        exact hnodup'
      · exact hs.nodup j t hj
    have hframe : Frame [i] s s₁ := ⟨rfl, rfl, fun j hj => Dict.lookup_set_ne _ _ (List.ne_of_not_mem_cons hj)⟩
    have hother : ∀ j ∈ seqIds, j ∉ [i] := fun j hj h => hnodup.1 (List.mem_singleton.mp h ▸ hj)
    have htables₁ : s₁.tablesOf seqIds = s.tablesOf seqIds :=
      List.flatMap_congr fun j hj => by rw [hframe.lookup j (hother j hj)]
    have hfree₁ : (unmapped mapping' (s₁.tablesOf seqIds)).card ≤ s₁.numFree dest := by
      rw [htables₁]
      have : s.numFree dest ≤ s₁.numFree dest + (unmapped mapping table).card := hless
      omega
    obtain ⟨mapping'', s', hrest, hs', hframe', hheld', hless'⟩ :=
      ih hs₁ ((references_set table').symm ▸ hm') hnodup.2
        (fun j hj => (hheld j (List.mem_cons_of_mem i hj)).imp fun _ h => hframe.holds (hother j hj) h) hfree₁
    rw [htables₁] at hless'
    refine ⟨mapping'', s', ?_, hs', hframe.trans hframe', fun j hj m hjm => ?_, ?_⟩
    · rw [swapTables, blockTable_ok hlookup]
      simp only [bind, Except.bind]
      rw [hrun]
      exact hrest
    · rcases List.mem_cons.mp hj with rfl | hj
      · obtain ⟨t, ht, rfl, -⟩ := hjm
        rw [hlookup] at ht
        cases ht
        refine hframe'.holds hnodup.1 ⟨table', Dict.lookup_set_self _ _ _, ?_, hdev'⟩
        have hlen := congrArg List.length hmap
        rw [List.length_map, List.length_map] at hlen
        exact hlen.symm
      · exact hheld' j hj m (hframe.holds (hother j hj) hjm)
    · have : s.numFree dest ≤ s₁.numFree dest + (unmapped mapping table).card := hless
      omega

theorem getPhysicalBlocks_ok {seqIds : List ℕ} {d : Device} (h : ∀ i ∈ seqIds, ∃ n, s.Holds i d n) :
    s.getPhysicalBlocks seqIds = .ok (s.tablesOf seqIds).dedup := by
  have hmap : seqIds.mapM s.blockTable = .ok (seqIds.map fun i => (s.blockTables.lookup i).getD []) := by
    rw [mapM_ok_iff, List.map_map]
    refine List.map_congr_left fun i hi => ?_
    obtain ⟨n, table, hlookup, -⟩ := h i hi
    rw [Function.comp_apply, blockTable_ok hlookup, hlookup, Option.getD_some]
  rw [getPhysicalBlocks, hmap, tablesOf, List.flatMap_def]
  rfl

/-- The sequences of a group are swapped where there is a free block for each of their blocks. -/
theorem swap_ok (hs : s.Consistent) {src dest : Device} (hne : src ≠ dest) {seqIds : List ℕ} (hnodup : seqIds.Nodup)
    (hheld : ∀ i ∈ seqIds, ∃ n, s.Holds i src n) (hfree : (s.tablesOf seqIds).dedup.length ≤ s.numFree dest) :
    ∃ moved s', s.swap dest seqIds = .ok (moved, s') ∧ s'.Consistent ∧ Frame seqIds s s' ∧
      (∀ i ∈ seqIds, ∀ n, s.Holds i src n → s'.Holds i dest n) ∧
      s.numFree dest ≤ s'.numFree dest + (s.tablesOf seqIds).dedup.length := by
  have hcard : (unmapped ∅ (s.tablesOf seqIds)).card = (s.tablesOf seqIds).dedup.length := by
    unfold unmapped
    rw [Finset.filter_true_of_mem fun b _ => AList.notMem_empty b, List.card_toFinset]
  have hempty : Mapped ∅ dest (references s.blockTables) := by
    constructor
    · intro b c h
      cases h
    · intro b b' c h
      cases h
  obtain ⟨mapping, s', hrun, hs', hframe, hheld', hless⟩ :=
    swapTables_ok hne seqIds hs hempty hnodup hheld (hcard ▸ hfree)
  exact ⟨_, s', by rw [swap, hrun]; rfl, hs', hframe, hheld', hcard ▸ hless⟩

/-! ## Runs -/

/-- What the scheduler does with the sequences of a group: it starts them, gives them slots for their next tokens, forks
one, swaps them out, swaps them in and gives them slots, or frees one. -/
inductive Op
  | allocate (seqIds : List ℕ) (nBlocks : ℕ)
  | appendSlots (seqs : List SeqBlocks)
  | fork (parent child : ℕ)
  | swapOut (seqIds : List ℕ)
  | swapIn (seqs : List SeqBlocks)
  | free (seqId : ℕ)

def step (s : BlockSpaceManagerV1) : Op → Except PyError BlockSpaceManagerV1
  | .allocate seqIds nBlocks => s.allocate seqIds nBlocks
  | .appendSlots seqs => s.appendGroup seqs
  | .fork parent child => .ok (s.fork parent child)
  | .swapOut seqIds => (s.swapOut seqIds).map (·.2)
  | .swapIn seqs => do
    let (_, s) ← s.swapIn (seqs.map SeqBlocks.seqId)
    s.appendGroup seqs
  | .free seqId => s.free seqId

/-- What the scheduler keeps to: it asks before each operation, starts sequences that are new, and gives slots to running
sequences, one token at a time. -/
def Allowed (s : BlockSpaceManagerV1) : Op → Prop
  | .allocate seqIds nBlocks =>
    seqIds ≠ [] ∧ seqIds.Nodup ∧ (∀ i ∈ seqIds, i ∉ s.blockTables) ∧ s.canAllocate nBlocks = .ok
  | .appendSlots seqs =>
    (seqs.map SeqBlocks.seqId).Nodup ∧ (∀ q ∈ seqs, s.Appendable q) ∧ s.canAppendSlots seqs.length = true
  | .fork _ child => child ∉ s.blockTables
  | .swapOut seqIds => seqIds.Nodup ∧ (∀ i ∈ seqIds, ∃ n, s.Holds i .gpu n) ∧ s.canSwapOut seqIds = .ok true
  | .swapIn seqs =>
    (seqs.map SeqBlocks.seqId).Nodup ∧
      (∀ q ∈ seqs, ∃ n, s.Holds q.seqId .cpu n ∧ n ≤ q.nBlocks ∧ q.nBlocks ≤ n + 1 ∧ q.nBlocks ≠ 0) ∧
      s.canSwapIn (seqs.map SeqBlocks.seqId) = .ok .ok
  | .free _ => True

theorem swapOut_ok (hs : s.Consistent) {seqIds : List ℕ} (hnodup : seqIds.Nodup)
    (hheld : ∀ i ∈ seqIds, ∃ n, s.Holds i .gpu n) (hcan : s.canSwapOut seqIds = .ok true) :
    ∃ moved s', s.swapOut seqIds = .ok (moved, s') ∧ s'.Consistent ∧ Frame seqIds s s' ∧
      ∀ i ∈ seqIds, ∀ n, s.Holds i .gpu n → s'.Holds i .cpu n := by
  rw [canSwapOut, getPhysicalBlocks_ok hheld] at hcan
  have hfree := of_decide_eq_true (Except.ok.inj hcan)
  obtain ⟨moved, s', hrun, hs', hframe, hheld', -⟩ := swap_ok hs (show Device.gpu ≠ .cpu by decide) hnodup hheld hfree
  exact ⟨moved, s', hrun, hs', hframe, hheld'⟩

/-- **After `can_swap_in` a group is swapped in, and each sequence gets its slot.** -/
theorem swapIn_ok (hs : s.Consistent) {seqs : List SeqBlocks} (hnodup : (seqs.map SeqBlocks.seqId).Nodup)
    (hheld : ∀ q ∈ seqs, ∃ n, s.Holds q.seqId .cpu n ∧ n ≤ q.nBlocks ∧ q.nBlocks ≤ n + 1 ∧ q.nBlocks ≠ 0)
    (hcan : s.canSwapIn (seqs.map SeqBlocks.seqId) = .ok .ok) :
    ∃ moved s₁ s', s.swapIn (seqs.map SeqBlocks.seqId) = .ok (moved, s₁) ∧ s₁.appendGroup seqs = .ok s' ∧
      s'.Consistent ∧ Frame (seqs.map SeqBlocks.seqId) s s' ∧ ∀ q ∈ seqs, s'.Holds q.seqId .gpu q.nBlocks := by
  have hcpu : ∀ i ∈ seqs.map SeqBlocks.seqId, ∃ n, s.Holds i .cpu n := fun i hi => by
    obtain ⟨q, hq, rfl⟩ := List.mem_map.mp hi
    obtain ⟨n, hn, -⟩ := hheld q hq
    exact ⟨n, hn⟩
  rw [canSwapIn, getPhysicalBlocks_ok hcpu, List.length_map] at hcan
  have hroom : (s.tablesOf (seqs.map SeqBlocks.seqId)).dedup.length + seqs.length ≤ s.numFree .gpu := by
    have hcan := Except.ok.inj hcan
    dsimp only at hcan
    split_ifs at hcan with h₁ h₂
    omega
  obtain ⟨moved, s₁, hrun, hs₁, hframe, hgpu, hless⟩ :=
    swap_ok hs (show Device.cpu ≠ .gpu by decide) hnodup hcpu (by omega)
  obtain ⟨s', happ, hs', hframe', hholds⟩ := appendGroup_ok seqs hs₁ hnodup (fun q hq => by
    obtain ⟨n, hn, hle⟩ := hheld q hq
    exact ⟨n, hgpu q.seqId (List.mem_map_of_mem hq) n hn, hle⟩) (by omega)
  refine ⟨moved, s₁, s', hrun, happ, hs', ⟨?_, ?_, fun i hi => ?_⟩, hholds⟩
  · exact hframe'.numBlocks.trans hframe.numBlocks
  · exact hframe'.watermarkBlocks.trans hframe.watermarkBlocks
  · rw [hframe'.lookup i hi, hframe.lookup i hi]

theorem Consistent.step (hs : s.Consistent) {op : Op} (hop : s.Allowed op) :
    ∃ s', s.step op = .ok s' ∧ s'.Consistent := by
  cases op with
  | allocate seqIds nBlocks =>
    obtain ⟨hne, hnodup, hfresh, hcan⟩ := hop
    obtain ⟨s', hrun, hs', -⟩ := allocate_ok hs hne hnodup hfresh hcan
    exact ⟨s', hrun, hs'⟩
  | appendSlots seqs =>
    obtain ⟨hnodup, happ, hcan⟩ := hop
    obtain ⟨s', hrun, hs', -⟩ := appendGroup_ok seqs hs hnodup happ (of_decide_eq_true hcan)
    exact ⟨s', hrun, hs'⟩
  | fork parent child => exact ⟨_, rfl, (fork_ok hs hop).1⟩
  | swapOut seqIds =>
    obtain ⟨hnodup, hheld, hcan⟩ := hop
    obtain ⟨moved, s', hrun, hs', -⟩ := swapOut_ok hs hnodup hheld hcan
    exact ⟨s', by rw [BlockSpaceManagerV1.step, hrun]; rfl, hs'⟩
  | swapIn seqs =>
    obtain ⟨hnodup, hheld, hcan⟩ := hop
    obtain ⟨moved, s₁, s', hrun, happ, hs', -⟩ := swapIn_ok hs hnodup hheld hcan
    exact ⟨s', by rw [BlockSpaceManagerV1.step, hrun]; exact happ, hs'⟩
  | free seqId =>
    obtain ⟨s', hrun, hs', -⟩ := free_ok hs seqId
    exact ⟨s', hrun, hs'⟩

/-- `Holds` can be decided, of some length that satisfies `P`. -/
instance decidableHolds (s : BlockSpaceManagerV1) (i : ℕ) (d : Device) (P : ℕ → Prop) [DecidablePred P] :
    Decidable (∃ n, s.Holds i d n ∧ P n) :=
  match h : s.blockTables.lookup i with
  | none => .isFalse fun ⟨_, ⟨_, hlookup, _⟩, _⟩ => by cases h.symm.trans hlookup
  | some table =>
    decidable_of_iff ((∀ b ∈ table, b.device = d) ∧ P table.length)
      ⟨fun ⟨hd, hP⟩ => ⟨_, ⟨table, h, rfl, hd⟩, hP⟩, fun ⟨_, ⟨_, hlookup, hlen, hd⟩, hP⟩ => by
        cases h.symm.trans hlookup
        exact ⟨hd, hlen ▸ hP⟩⟩

instance (s : BlockSpaceManagerV1) (i : ℕ) (d : Device) : Decidable (∃ n, s.Holds i d n) :=
  decidable_of_iff (∃ n, s.Holds i d n ∧ True) (by simp only [and_true])

instance decidableAllowed (s : BlockSpaceManagerV1) : ∀ op, Decidable (s.Allowed op)
  | .allocate _ _ => inferInstanceAs (Decidable (_ ∧ _ ∧ _ ∧ _))
  | .appendSlots _ =>
    have (q : SeqBlocks) : Decidable (s.Appendable q) := inferInstanceAs (Decidable (∃ n, s.Holds q.seqId .gpu n ∧ _))
    inferInstanceAs (Decidable (_ ∧ _ ∧ _))
  | .fork _ _ => inferInstanceAs (Decidable (¬ _))
  | .swapOut _ => inferInstanceAs (Decidable (_ ∧ _ ∧ _))
  | .swapIn _ => inferInstanceAs (Decidable (_ ∧ _ ∧ _))
  | .free _ => .isTrue trivial

/-- A prompt is started and forked, each sequence gets the next slot (the first in a copy), both leave for the CPU and
come back, and are freed. -/
def forkedRun : List Op :=
  [.allocate [0] 2, .fork 0 1, .appendSlots [⟨0, 2⟩, ⟨1, 3⟩], .swapOut [0, 1], .swapIn [⟨0, 3⟩, ⟨1, 3⟩], .free 0, .free 1]

end BlockSpaceManagerV1

end FairCache
