import FairCache.Evictor.Lru
import FairCache.Experimental.Allocator
import Mathlib.Data.Finset.Insert

/-!
# The ledger of the experimental disk backend

`LocalDiskBackend` charges a chunk when its put is submitted and records it when its save ends.

* `updateOnPut`, `remove`, `submitPutTask` : the calls; `write`, `insertKey`, `finish` : the sections of a save;
* `step` : one of them; `Ledger` : the ledger is what is recorded and what is charged for saves;
* `everyState_ledger` : when every step is regular, no step raises and the ledger is right in every state.

`update_on_put` and `insert_key` run one after the other here, and what the allocator counts is not modelled.
-/

namespace FairCache

open Lib

/-- `get_size` : the buffer is of bytes. -/
def TensorMemoryObj.getSize (o : TensorMemoryObj) : ℕ := o.rawData.size

/-- `get_physical_size`. -/
def TensorMemoryObj.getPhysicalSize (o : TensorMemoryObj) : ℕ := o.metadata.phySize

namespace Experimental

/-- How far `async_save_bytes_to_disk` got. -/
inductive SavePhase
  | submitted
  | written
  | inserted
  deriving DecidableEq

/-- A save in progress. -/
structure SaveTask where
  key : CacheEngineKey
  memoryObj : TensorMemoryObj
  phase : SavePhase

/-- What is charged for a save: nothing once it is recorded. -/
def SaveTask.charge (save : SaveTask) : ℕ := if save.phase = .inserted then 0 else save.memoryObj.getPhysicalSize

/-- `LocalDiskBackend` with its `LRUEvictor`, the files that exist and the saves in progress. -/
structure LocalDiskBackend where
  path : String
  dict : Dict CacheEngineKey DiskCacheMetadata
  maxCacheSize : ℕ
  currentCacheSize : ℤ
  putTasks : List CacheEngineKey
  files : Finset String
  saves : List SaveTask

namespace LocalDiskBackend

def new (path : String) (maxCacheSize : ℕ) : LocalDiskBackend :=
  { path := path, dict := ∅, maxCacheSize := maxCacheSize, currentCacheSize := 0, putTasks := [], files := ∅, saves := [] }

/-- `_key_to_path`. -/
def keyToPath (b : LocalDiskBackend) (key : CacheEngineKey) : String := b.path ++ LMCLocalDiskBackend.fileName key

/-- `update_on_put` : the victims and the new ledger, or `none` for a chunk that exceeds the limit. Its loop is that of
the other disk backend. -/
def updateOnPut (b : LocalDiskBackend) (cacheSize : ℕ) : Except PyError (Option (List CacheEngineKey × ℤ)) :=
  if b.maxCacheSize < cacheSize then .ok none
  else
    (LMCLocalDiskBackend.evictLoop b.maxCacheSize cacheSize b.currentCacheSize b.dict.entries).map fun r =>
      some (r.1, r.2 + cacheSize)

/-- `remove` : the entry goes first, then the file, which has to be there. -/
def remove (b : LocalDiskBackend) (key : CacheEngineKey) : Except PyError LocalDiskBackend :=
  match b.dict.lookup key with
  | none => .error .keyError
  | some metadata =>
    if metadata.path ∈ b.files then .ok { b with dict := b.dict.erase key, files := b.files.erase metadata.path }
    else .error (.exception "FileNotFoundError")

/-- `submit_put_task`. -/
def submitPutTask (b : LocalDiskBackend) (key : CacheEngineKey) (memoryObj : TensorMemoryObj) :
    Except PyError LocalDiskBackend :=
  if memoryObj.valid = false then .error (.assertionError "")
  else
    match b.updateOnPut memoryObj.getPhysicalSize with
    | .error e => .error e
    | .ok none => .ok b
    | .ok (some (evictKeys, currentCacheSize)) => do
      let b ← evictKeys.foldlM remove { b with currentCacheSize := currentCacheSize }
      return { b with
        putTasks := b.putTasks ++ [key]
        saves := b.saves ++ [{ key := key, memoryObj := memoryObj, phase := .submitted }] }

/-- The file of a save is written. -/
def write (b : LocalDiskBackend) (i : ℕ) (save : SaveTask) : LocalDiskBackend :=
  { b with files := insert (b.keyToPath save.key) b.files, saves := b.saves.set i { save with phase := .written } }

/-- `insert_key`. -/
def insertKey (b : LocalDiskBackend) (i : ℕ) (save : SaveTask) : LocalDiskBackend :=
  { b with
    dict := (b.dict.erase save.key).set save.key
      { path := b.keyToPath save.key, size := save.memoryObj.getSize }
    saves := b.saves.set i { save with phase := .inserted } }

/-- The end of a save. -/
def finish (b : LocalDiskBackend) (i : ℕ) (save : SaveTask) : LocalDiskBackend :=
  { b with putTasks := b.putTasks.erase save.key, saves := b.saves.eraseIdx i }

/-- The next section of a save. -/
def resume (b : LocalDiskBackend) (i : ℕ) : LocalDiskBackend :=
  match b.saves[i]? with
  | none => b
  | some save =>
    match save.phase with
    | .submitted => b.write i save
    | .written => b.insertKey i save
    | .inserted => b.finish i save

/-- A put is submitted, or a save goes on. -/
inductive Op
  | submit (key : CacheEngineKey) (memoryObj : TensorMemoryObj)
  | resume (i : ℕ)

/-- The state after it. -/
def step (b : LocalDiskBackend) : Op → Except PyError LocalDiskBackend
  | .submit key memoryObj => b.submitPutTask key memoryObj
  | .resume i => .ok (b.resume i)

/-! ## The ledger -/

/-- What is recorded. -/
def recorded (b : LocalDiskBackend) : ℕ := (b.dict.values.map (·.size)).sum

/-- What is charged for the puts still being saved. -/
def charged (b : LocalDiskBackend) : ℕ := (b.saves.map SaveTask.charge).sum

/-- The ledger is the recorded sizes and the charged ones. -/
def Ledger (b : LocalDiskBackend) : Prop := b.currentCacheSize = b.recorded + b.charged

/-- No other resident key, and no save that has been written and not been recorded, has the key's file. -/
structure SoleFile (b : LocalDiskBackend) (key : CacheEngineKey) : Prop where
  resident : ∀ k ∈ b.dict, k ≠ key → b.keyToPath k ≠ b.keyToPath key
  written : ∀ save ∈ b.saves, save.phase = .written → b.keyToPath save.key ≠ b.keyToPath key

/-- Whom the evictor chooses. -/
def victims (b : LocalDiskBackend) (cacheSize : ℕ) : List CacheEngineKey :=
  match b.updateOnPut cacheSize with
  | .ok (some (evictKeys, _)) => evictKeys
  | _ => []

/-- A put finds room next to the puts in progress and evicts no file that somebody else needs; a save records as much as
was charged for it, under a key that is not resident. -/
def Regular (b : LocalDiskBackend) : Op → Prop
  | .submit _ memoryObj => memoryObj.valid = true ∧
    (memoryObj.getPhysicalSize ≤ b.maxCacheSize → b.charged + memoryObj.getPhysicalSize ≤ b.maxCacheSize ∧
      ∀ key ∈ b.victims memoryObj.getPhysicalSize, b.SoleFile key)
  | .resume i => ∀ save ∈ b.saves[i]?, save.phase = .written →
      save.memoryObj.getSize = save.memoryObj.getPhysicalSize ∧ save.key ∉ b.dict

instance : DecidablePred Ledger := fun _ => inferInstanceAs (Decidable (_ = _))

instance (b : LocalDiskBackend) (key : CacheEngineKey) : Decidable (b.SoleFile key) :=
  decidable_of_iff
    ((∀ k ∈ b.dict.keys, k ≠ key → b.keyToPath k ≠ b.keyToPath key) ∧
      ∀ save ∈ b.saves, save.phase = .written → b.keyToPath save.key ≠ b.keyToPath key)
    ⟨fun ⟨h₁, h₂⟩ => ⟨h₁, h₂⟩, fun h => ⟨h.resident, h.written⟩⟩

instance (b : LocalDiskBackend) : ∀ op, Decidable (b.Regular op)
  | .submit _ memoryObj => inferInstanceAs (Decidable (_ ∧ (_ → _ ∧ ∀ key ∈ b.victims memoryObj.getPhysicalSize, _)))
  | .resume i => inferInstanceAs (Decidable (∀ save ∈ b.saves[i]?, _))

/-- The invariant: the ledger is right, and whatever is resident or written has its file. -/
structure Inv (b : LocalDiskBackend) : Prop where
  ledger : b.Ledger
  paths : ∀ key metadata, b.dict.lookup key = some metadata → metadata.path = b.keyToPath key
  resident : ∀ key ∈ b.dict, b.keyToPath key ∈ b.files
  written : ∀ save ∈ b.saves, save.phase = .written → b.keyToPath save.key ∈ b.files

/-! ## A save goes on -/

theorem sum_charge_set {saves : List SaveTask} {i : ℕ} {save : SaveTask} (h : saves[i]? = some save) (save' : SaveTask) :
    ((saves.set i save').map SaveTask.charge).sum + save.charge = (saves.map SaveTask.charge).sum + save'.charge := by
  obtain ⟨hi, hsave⟩ := List.getElem?_eq_some_iff.mp h
  have hsplit : saves = saves.take i ++ save :: saves.drop (i + 1) := by
    rw [← hsave, List.getElem_cons_drop, List.take_append_drop]
  rw [List.set_eq_take_append_cons_drop, if_pos hi]
  conv_rhs => rw [hsplit]
  simp only [List.map_append, List.map_cons, List.sum_append, List.sum_cons]
  omega

theorem sum_charge_eraseIdx {saves : List SaveTask} {i : ℕ} {save : SaveTask} (h : saves[i]? = some save) :
    ((saves.eraseIdx i).map SaveTask.charge).sum + save.charge = (saves.map SaveTask.charge).sum := by
  obtain ⟨hi, hsave⟩ := List.getElem?_eq_some_iff.mp h
  have hsplit : saves = saves.take i ++ save :: saves.drop (i + 1) := by
    rw [← hsave, List.getElem_cons_drop, List.take_append_drop]
  rw [List.eraseIdx_eq_take_drop_succ]
  conv_rhs => rw [hsplit]
  simp only [List.map_append, List.map_cons, List.sum_append, List.sum_cons]
  omega

variable {b : LocalDiskBackend}

theorem Inv.write (h : b.Inv) {i : ℕ} {save : SaveTask} (hsave : b.saves[i]? = some save)
    (hphase : save.phase = .submitted) : (b.write i save).Inv := by
  have hcharge : ({ save with phase := .written } : SaveTask).charge = save.charge := by
    simp [SaveTask.charge, hphase]
  have hsum := sum_charge_set hsave { save with phase := .written }
  rw [hcharge] at hsum
  refine { ledger := ?_, paths := h.paths, resident := fun key hkey => ?_, written := fun s hs hwritten => ?_ }
  · have hledger := h.ledger
    unfold Ledger charged at *
    show b.currentCacheSize = b.recorded + ((b.saves.set i { save with phase := .written }).map SaveTask.charge).sum
    omega
  · exact Finset.mem_insert_of_mem (h.resident key hkey)
  · rcases List.mem_or_eq_of_mem_set hs with hs | rfl
    · exact Finset.mem_insert_of_mem (h.written s hs hwritten)
    · exact Finset.mem_insert_self _ _

/-- A new entry adds its size. -/
theorem sum_size_set {d : Dict CacheEngineKey DiskCacheMetadata} {key : CacheEngineKey} (h : key ∉ d)
    (metadata : DiskCacheMetadata) :
    ((d.set key metadata).values.map (·.size)).sum = metadata.size + (d.values.map (·.size)).sum := by
  have hperm := ((Dict.values_set_perm d key metadata).map (·.size)).sum_eq
  rwa [Dict.erase_of_notMem h, List.map_cons, List.sum_cons] at hperm

theorem Inv.insertKey (h : b.Inv) {i : ℕ} {save : SaveTask} (hsave : b.saves[i]? = some save)
    (hphase : save.phase = .written) (hsize : save.memoryObj.getSize = save.memoryObj.getPhysicalSize)
    (hnew : save.key ∉ b.dict) : (b.insertKey i save).Inv := by
  have hfile := h.written save (List.mem_of_getElem? hsave) hphase
  have hdict : (b.insertKey i save).dict =
      b.dict.set save.key { path := b.keyToPath save.key, size := save.memoryObj.getSize } := by
    rw [← Dict.erase_of_notMem hnew]
    rfl
  refine
    { ledger := ?_
      paths := fun key metadata hlookup => ?_
      resident := fun key hkey => ?_
      written := fun s hs hisWritten => ?_ }
  · have hledger := h.ledger
    have hcharge : save.charge = save.memoryObj.getPhysicalSize := by
      simp [SaveTask.charge, hphase]
    have hzero : ({ save with phase := .inserted } : SaveTask).charge = 0 := rfl
    have hsum := sum_charge_set hsave { save with phase := .inserted }
    rw [hzero, hcharge] at hsum
    unfold Ledger recorded charged at *
    rw [hdict, sum_size_set hnew]
    show b.currentCacheSize = (save.memoryObj.getSize + (b.dict.values.map (·.size)).sum : ℕ) +
      ((b.saves.set i { save with phase := .inserted }).map SaveTask.charge).sum
    omega
  · rw [hdict, Dict.lookup_set] at hlookup
    split_ifs at hlookup with heq
    · cases hlookup
      rw [heq]
      rfl
    · exact h.paths key metadata hlookup
  · rw [hdict, Dict.mem_set] at hkey
    rcases hkey with rfl | hkey
    · exact hfile
    · exact h.resident key hkey
  · rcases List.mem_or_eq_of_mem_set hs with hs | rfl
    · exact h.written s hs hisWritten
    · cases hisWritten

theorem Inv.finish (h : b.Inv) {i : ℕ} {save : SaveTask} (hsave : b.saves[i]? = some save)
    (hphase : save.phase = .inserted) : (b.finish i save).Inv := by
  have hsum := sum_charge_eraseIdx hsave
  have hcharge : save.charge = 0 := by
    simp [SaveTask.charge, hphase]
  refine { ledger := ?_, paths := h.paths, resident := h.resident, written := fun s hs hwritten => ?_ }
  · have hledger := h.ledger
    unfold Ledger charged at *
    show b.currentCacheSize = b.recorded + ((b.saves.eraseIdx i).map SaveTask.charge).sum
    omega
  · exact h.written s (List.mem_of_mem_eraseIdx hs) hwritten

/-- **A section of a save keeps the invariant.** -/
theorem Inv.resume (h : b.Inv) {i : ℕ} (hop : b.Regular (.resume i)) : (b.resume i).Inv := by
  unfold LocalDiskBackend.resume
  cases hsave : b.saves[i]? with
  | none => exact h
  | some save =>
    dsimp only
    cases hphase : save.phase with
    | submitted => exact h.write hsave hphase
    | written => exact h.insertKey hsave hphase (hop save hsave hphase).1 (hop save hsave hphase).2
    | inserted => exact h.finish hsave hphase

/-! ## A put is submitted -/

/-- With the right ledger and room next to the puts in progress, the evictor takes the front of the dictionary. -/
theorem updateOnPut_eq (h : b.Ledger) {cacheSize : ℕ} (hroom : b.charged + cacheSize ≤ b.maxCacheSize) :
    ∃ n, b.updateOnPut cacheSize =
      .ok (some (b.dict.keys.take n,
        (((b.dict.values.map (·.size)).drop n).sum + b.charged : ℕ) + (cacheSize : ℤ))) := by
  have hsizes : (b.dict.entries.map fun e => (⟨e.1, .diskCacheMetadata e.2⟩ : Sigma fun _ : CacheEngineKey => KvData)).map
      (fun e => getSize e.2) = (b.dict.values.map (·.size)).map .ok := by
    rw [Dict.values, List.map_map, List.map_map, List.map_map]
    rfl
  obtain ⟨n, -, hloop⟩ := LRUEvictor.evictLoop_eq b.charged hroom hsizes
  have hledger : b.currentCacheSize = ((b.dict.values.map (·.size)).sum + b.charged : ℕ) := by
    rw [h]
    rfl
  have hkeys : ((b.dict.entries.map fun e =>
      (⟨e.1, .diskCacheMetadata e.2⟩ : Sigma fun _ : CacheEngineKey => KvData)).take n).map (·.1) =
      b.dict.keys.take n := by
    rw [← List.map_take, List.map_map]
    exact List.map_take
  rw [LRUEvictor.evictLoop_diskCacheMetadata, hkeys] at hloop
  refine ⟨n, ?_⟩
  rw [updateOnPut, if_neg (by omega), hledger, hloop]
  rfl

/-- Resident keys with files of their own are removed, one after the other. -/
theorem foldlM_remove {ks : List CacheEngineKey} (hnodup : ks.Nodup) :
    ∀ {b : LocalDiskBackend}, (∀ key ∈ ks, key ∈ b.dict) →
      (∀ key metadata, b.dict.lookup key = some metadata → metadata.path = b.keyToPath key) →
      (∀ key ∈ ks, b.keyToPath key ∈ b.files) →
      (∀ j ∈ ks, ∀ k ∈ ks, k ≠ j → b.keyToPath k ≠ b.keyToPath j) →
      ∃ files, ks.foldlM remove b = .ok { b with dict := ks.foldl Dict.erase b.dict, files := files } ∧
        ∀ p ∈ b.files, (∀ key ∈ ks, p ≠ b.keyToPath key) → p ∈ files := by
  induction ks with
  | nil => exact fun _ _ _ _ => ⟨_, rfl, fun p hp _ => hp⟩
  | cons k ks ih =>
    intro b hmem hpaths hfiles hsole
    obtain ⟨hk, hks⟩ := List.nodup_cons.mp hnodup
    obtain ⟨metadata, hlookup⟩ := (Dict.mem_iff_lookup _ _).mp (hmem k List.mem_cons_self)
    have hpath := hpaths k metadata hlookup
    let b' : LocalDiskBackend := { b with dict := b.dict.erase k, files := b.files.erase (b.keyToPath k) }
    have hremove : b.remove k = .ok b' := by
      rw [remove, hlookup]
      dsimp only
      rw [hpath, if_pos (hfiles k List.mem_cons_self)]
    have hne : ∀ key ∈ ks, key ≠ k := fun key hkey heq => hk (heq ▸ hkey)
    obtain ⟨files, hrun, hkeep⟩ := ih hks (b := b')
      (fun key hkey => AList.mem_erase.mpr ⟨hne key hkey, hmem key (List.mem_cons_of_mem _ hkey)⟩)
      (fun key metadata hkey => hpaths key metadata (Dict.lookup_erase_eq_some.mp hkey).2)
      (fun key hkey => Finset.mem_erase.mpr ⟨hsole k List.mem_cons_self key (List.mem_cons_of_mem _ hkey) (hne key hkey),
        hfiles key (List.mem_cons_of_mem _ hkey)⟩)
      (fun j hj key hkey => hsole j (List.mem_cons_of_mem _ hj) key (List.mem_cons_of_mem _ hkey))
    refine ⟨files, ?_, fun p hp hother => ?_⟩
    · rw [List.foldlM_cons, hremove]
      exact hrun
    · exact hkeep p (Finset.mem_erase.mpr ⟨hother k List.mem_cons_self, hp⟩)
        (fun key hkey => hother key (List.mem_cons_of_mem _ hkey))

/-- What is left after the front of the dictionary was deleted. -/
theorem mem_entries_of_kept {d : Dict CacheEngineKey DiskCacheMetadata} {n : ℕ} {key : CacheEngineKey}
    {metadata : DiskCacheMetadata} (h : ((d.keys.take n).foldl Dict.erase d).lookup key = some metadata) :
    d.lookup key = some metadata ∧ key ∉ d.keys.take n := by
  rw [Dict.lookup_eq_some_iff, Dict.entries_foldl_erase, List.mem_filter, decide_eq_true_eq] at h
  exact ⟨(Dict.lookup_eq_some_iff _ _ _).mpr h.1, h.2⟩

/-- The sizes that are left. -/
theorem sum_size_kept (d : Dict CacheEngineKey DiskCacheMetadata) (n : ℕ) :
    (((d.keys.take n).foldl Dict.erase d).values.map (·.size)) = (d.values.map (·.size)).drop n := by
  rw [Dict.values, Dict.entries_foldl_erase_take, Dict.values, List.map_drop, List.map_drop]

/-- **A regular submission returns and keeps the invariant.** -/
theorem Inv.submitPutTask (h : b.Inv) {key : CacheEngineKey} {memoryObj : TensorMemoryObj}
    (hop : b.Regular (.submit key memoryObj)) : ∃ b', b.submitPutTask key memoryObj = .ok b' ∧ b'.Inv := by
  obtain ⟨hvalid, hregular⟩ := hop
  unfold LocalDiskBackend.submitPutTask
  rw [if_neg (by rw [hvalid]; decide)]
  by_cases hfit : memoryObj.getPhysicalSize ≤ b.maxCacheSize
  · obtain ⟨hroom, hsole⟩ := hregular hfit
    obtain ⟨n, hput⟩ := updateOnPut_eq h.ledger hroom
    have hvictims : ∀ k ∈ b.dict.keys.take n, b.SoleFile k := by
      intro k hk
      apply hsole k
      rw [victims, hput]
      exact hk
    have hmem : ∀ k ∈ b.dict.keys.take n, k ∈ b.dict := fun k hk => AList.mem_keys.mpr (List.mem_of_mem_take hk)
    obtain ⟨files, hrun, hkeep⟩ := foldlM_remove (b.dict.keys_nodup.sublist (List.take_sublist n _))
      (b := { b with currentCacheSize :=
        (((b.dict.values.map (·.size)).drop n).sum + b.charged : ℕ) + (memoryObj.getPhysicalSize : ℤ) })
      hmem h.paths (fun k hk => h.resident k (hmem k hk)) (fun j hj k hk => (hvictims j hj).resident k (hmem k hk))
    rw [hput]
    refine ⟨_, by simp only [hrun, bind, Except.bind]; rfl, ?_⟩
    refine
      { ledger := ?_
        paths := fun k metadata hlookup => h.paths k metadata (mem_entries_of_kept hlookup).1
        resident := fun k hk => ?_
        written := fun s hs hisWritten => ?_ }
    · have hcharged : ((b.saves ++ [(⟨key, memoryObj, .submitted⟩ : SaveTask)]).map SaveTask.charge).sum = b.charged + memoryObj.getPhysicalSize := by
        rw [List.map_append, List.sum_append]
        rfl
      unfold Ledger recorded
      show (((((b.dict.values.map (·.size)).drop n).sum + b.charged : ℕ) : ℤ) + memoryObj.getPhysicalSize) =
        (((b.dict.keys.take n).foldl Dict.erase b.dict).values.map (·.size)).sum +
          ((b.saves ++ [(⟨key, memoryObj, .submitted⟩ : SaveTask)]).map SaveTask.charge).sum
      rw [sum_size_kept, hcharged]
      push_cast
      ring
    · -- who stays has a file of its own
      obtain ⟨metadata, hlookup⟩ := (Dict.mem_iff_lookup _ _).mp hk
      obtain ⟨hold, hnot⟩ := mem_entries_of_kept hlookup
      have hold' := Dict.mem_of_lookup hold
      exact hkeep _ (h.resident k hold') fun j hj => (hvictims j hj).resident k hold' fun heq => hnot (heq ▸ hj)
    · rcases List.mem_append.mp hs with hs | hs
      · exact hkeep _ (h.written s hs hisWritten) fun j hj => (hvictims j hj).written s hs hisWritten
      · rw [List.mem_singleton.mp hs] at hisWritten
        cases hisWritten
  · have hput : b.updateOnPut memoryObj.getPhysicalSize = .ok none := if_pos (Nat.not_le.mp hfit)
    rw [hput]
    exact ⟨b, rfl, h⟩

/-- What `allocate` returns for `rawSize` bytes at the start of the buffer. -/
def objOfSize (rawSize : ℕ) : TensorMemoryObj :=
  { rawData := ⟨0, rawSize⟩
    metadata :=
      { shape := [rawSize], dtype := ⟨1, by decide⟩, address := 0
        phySize := TensorMemoryAllocator.computeAlignedSize rawSize, refCount := 1, fmt := .kvBlob }
    valid := true }

/-- An object of two bytes is charged as 512 and recorded as two; an object that is put again under its key is charged
twice; and with a limit of 512 bytes a put raises while another one is being saved. -/
theorem repeated_put_breaks_ledger :
    ¬ EveryState LocalDiskBackend.step Ledger (new "/cache/" 1024)
        [.submit (.ofHash "a") (objOfSize 2), .resume 0, .resume 0] ∧
      ¬ EveryState LocalDiskBackend.step Ledger (new "/cache/" 1024)
        [.submit (.ofHash "a") (objOfSize 512), .resume 0, .resume 0, .resume 0,
          .submit (.ofHash "a") (objOfSize 512), .resume 0, .resume 0] ∧
      raised? LocalDiskBackend.step (new "/cache/" 512)
        [.submit (.ofHash "a") (objOfSize 512), .submit (.ofHash "b") (objOfSize 512)] = some .stopIteration := by
  decide +kernel

/-- **When every step is regular, no step raises, and in every state the ledger is what is recorded and what is charged
for the puts still being saved.** -/
theorem everyState_ledger {path : String} {maxCacheSize : ℕ} {ops : List Op}
    (h : Along LocalDiskBackend.step Regular (new path maxCacheSize) ops) :
    EveryState LocalDiskBackend.step Ledger (new path maxCacheSize) ops := by
  have hstart : (new path maxCacheSize).Inv :=
    { ledger := rfl
      paths := fun _ _ hlookup => by cases hlookup
      resident := fun _ hkey => absurd hkey (AList.notMem_empty _)
      written := fun _ hs => absurd hs List.not_mem_nil }
  have hstep : ∀ (b : LocalDiskBackend) op, b.Inv → b.Regular op → ∃ b', b.step op = .ok b' ∧ b'.Inv := by
    intro b op hinv hop
    cases op with
    | submit key memoryObj => exact hinv.submitPutTask hop
    | resume i => exact ⟨b.resume i, rfl, hinv.resume hop⟩
  exact (everyState_of_returns hstep hstart h).imp fun _ hinv => hinv.ledger

/-- Two chunks of 512 bytes, one after the other, with room for one: the first is evicted for the second. -/
theorem everyState_ledger_two_puts :
    EveryState LocalDiskBackend.step Ledger (new "/cache/" 512)
      [.submit (.ofHash "a") (objOfSize 512), .resume 0, .resume 0, .resume 0,
        .submit (.ofHash "b") (objOfSize 512), .resume 0, .resume 0, .resume 0] :=
  everyState_ledger (by decide +kernel)

end LocalDiskBackend

end Experimental

end FairCache
