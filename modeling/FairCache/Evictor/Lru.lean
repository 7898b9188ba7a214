import FairCache.Disk.Backend
import FairCache.Lib.Recency
import FairCache.Local.Backend

/-!
# The LRU evictor

* `getSize`, `LRUEvictor.updateOnGet`, `LRUEvictor.updateOnPut` : the evictor over any dictionary of KV objects;
  the backends for local memory and for the disk have their own copies of its loop (`evictLoop_kvObj`, ..);
* `LruCache.step` : a cache that is read and put into, with its uses;
* `updateOnPut_eq` : the victims are the shortest prefix that makes room; `LruCache.recency` : in every run the
  dictionary is in the order of last use; `updateOnPut_lru` : so the victims are the least recently used keys.
-/

namespace FairCache

open Lib

/-- What an evictor may find in a dictionary; `other` is a value of another class. -/
inductive KvData
  | tensor (shape : List ℕ) (elementSize : ℕ)
  | bytearray (data : List UInt8)
  | kvObj (kvObj : KVObj)
  | diskCacheMetadata (metadata : DiskCacheMetadata)
  | other (type : String)

/-- `get_size`. -/
def getSize : KvData → Except PyError ℕ
  | .tensor shape elementSize => .ok (shape.prod * elementSize)
  | .bytearray data => .ok data.length
  | .kvObj kvObj => .ok kvObj.size
  | .diskCacheMetadata metadata => .ok metadata.size
  | .other type => .error (.exception ("Encountered unknown kv data type " ++ type ++ "!"))

/-- The limit and the ledger, a float that is only added to and subtracted from. -/
structure LRUEvictor where
  maxCacheSize : ℕ
  currentCacheSize : ℤ

namespace LRUEvictor

variable {K : Type} [DecidableEq K]

/-- `update_on_get` : the entry moves to the end. -/
def updateOnGet (key : K) (cacheDict : Dict K KvData) : Except PyError (Dict K KvData) :=
  if key ∈ cacheDict then .ok (cacheDict.moveToEnd key) else .error .keyError

/-- The loop of `update_on_put` over what is left of the dictionary's iterator: the victims and the ledger. -/
def evictLoop (maxCacheSize cacheSize : ℕ) (currentCacheSize : ℤ) :
    List (Sigma fun _ : K => KvData) → Except PyError (List K × ℤ)
  | [] => if maxCacheSize < cacheSize + currentCacheSize then .error .stopIteration else .ok ([], currentCacheSize)
  | e :: iter =>
    if maxCacheSize < cacheSize + currentCacheSize then do
      let evictCacheSize ← getSize e.2
      let (evictKeys, currentCacheSize) ← evictLoop maxCacheSize cacheSize (currentCacheSize - evictCacheSize) iter
      return (e.1 :: evictKeys, currentCacheSize)
    else .ok ([], currentCacheSize)

/-- `update_on_put`. -/
def updateOnPut (ev : LRUEvictor) (cacheDict : Dict K KvData) (cacheSize : ℕ) :
    Except PyError (List K × PutStatus × LRUEvictor) :=
  if ev.maxCacheSize < cacheSize then .ok ([], .illegal, ev)
  else do
    let (evictKeys, currentCacheSize) ← evictLoop ev.maxCacheSize cacheSize ev.currentCacheSize cacheDict.entries
    return (evictKeys, .legal, { ev with currentCacheSize := currentCacheSize + cacheSize })

end LRUEvictor

/-! ## A cache that uses it -/

/-- A dictionary with its evictor, and the uses so far, the latest first. -/
structure LruCache (K : Type) [DecidableEq K] where
  evictor : LRUEvictor
  cacheDict : Dict K KvData
  uses : List K

namespace LruCache

variable {K : Type} [DecidableEq K]

def new (K : Type) [DecidableEq K] (maxCacheSize : ℕ) : LruCache K :=
  { evictor := { maxCacheSize := maxCacheSize, currentCacheSize := 0 }, cacheDict := ∅, uses := [] }

/-- A read of a key, or a put. -/
inductive Op (K : Type)
  | get (key : K)
  | put (key : K) (kvObj : KvData)

/-- A put removes the victims, and the old object under the key, before it inserts the new one. -/
def step (c : LruCache K) : Op K → Except PyError (LruCache K)
  | .get key => do
    let cacheDict ← LRUEvictor.updateOnGet key c.cacheDict
    return { c with cacheDict := cacheDict, uses := key :: c.uses }
  | .put key kvObj => do
    let cacheSize ← getSize kvObj
    let (evictKeys, status, evictor) ← c.evictor.updateOnPut c.cacheDict cacheSize
    match status with
    | .illegal => return c
    | .legal =>
      let kept := (evictKeys.foldl Dict.erase c.cacheDict).erase key
      return { evictor := evictor, cacheDict := kept.set key kvObj, uses := key :: c.uses }

end LruCache

/-! ## The victims -/

namespace LRUEvictor

section
variable {K : Type}

/-- **The loop ends with the shortest prefix that makes room**, where the ledger is the total size of the entries and
what is charged for something else. -/
theorem evictLoop_eq {maxCacheSize cacheSize : ℕ} (charged : ℕ) (hfit : charged + cacheSize ≤ maxCacheSize)
    {iter : List (Sigma fun _ : K => KvData)} {sizes : List ℕ}
    (hsizes : iter.map (fun e => getSize e.2) = sizes.map .ok) :
    ∃ n, MakesRoom maxCacheSize (charged + cacheSize) sizes n ∧
      evictLoop maxCacheSize cacheSize (sizes.sum + charged : ℕ) iter =
        .ok ((iter.take n).map (·.1), ((sizes.drop n).sum + charged : ℕ)) := by
  induction iter generalizing sizes with
  | nil =>
    obtain rfl : sizes = [] := by simpa using hsizes.symm
    refine ⟨0, MakesRoom.zero (by simpa using hfit), ?_⟩
    rw [evictLoop, if_neg (by rw [List.sum_nil]; omega)]
    rfl
  | cons e iter ih =>
    cases sizes with
    | nil => cases hsizes
    | cons size sizes =>
      obtain ⟨hfirst, hrest⟩ := List.cons.inj hsizes
      have hsize : getSize e.2 = .ok size := hfirst
      by_cases hfull : maxCacheSize < (size :: sizes).sum + (charged + cacheSize)
      · -- one more entry goes, and the ledger is that of the others
        obtain ⟨n, hroom, hloop⟩ := ih hrest
        refine ⟨n + 1, hroom.succ hfull, ?_⟩
        have hledger : (((size :: sizes).sum + charged : ℕ) : ℤ) - size = (sizes.sum + charged : ℕ) := by
          rw [List.sum_cons]
          omega
        rw [evictLoop, if_pos (by omega), hsize]
        simp only [bind, Except.bind, hledger, hloop]
        rfl
      · refine ⟨0, MakesRoom.zero (by omega), ?_⟩
        rw [evictLoop, if_neg (by omega)]
        rfl

/-- The victims stand in the front of the dictionary. -/
theorem evictLoop_take {maxCacheSize cacheSize : ℕ} {cur cur' : ℤ} {iter : List (Sigma fun _ : K => KvData)}
    {evictKeys : List K} (h : evictLoop maxCacheSize cacheSize cur iter = .ok (evictKeys, cur')) :
    ∃ n, evictKeys = (iter.take n).map (·.1) := by
  induction iter generalizing cur cur' evictKeys with
  | nil =>
    rw [evictLoop] at h
    split_ifs at h
    cases h
    exact ⟨0, rfl⟩
  | cons e iter ih =>
    rw [evictLoop] at h
    split_ifs at h
    · obtain ⟨size, _, h⟩ := bind_ok h
      obtain ⟨⟨evictKeys', cur''⟩, hrest, h⟩ := bind_ok h
      obtain ⟨n, rfl⟩ := ih hrest
      cases h
      exact ⟨n + 1, rfl⟩
    · cases h
      exact ⟨0, rfl⟩

/-- The local backend's loop. -/
theorem evictLoop_kvObj (maxCacheSize cacheSize : ℕ) (cur : ℤ) (iter : List (Sigma fun _ : K => KVObj)) :
    evictLoop maxCacheSize cacheSize cur (iter.map fun e => ⟨e.1, .kvObj e.2⟩) =
      LMCLocalBackend.evictLoop maxCacheSize cacheSize cur iter := by
  induction iter generalizing cur with
  | nil => rfl
  | cons e iter ih =>
    rw [List.map_cons, evictLoop, LMCLocalBackend.evictLoop]
    split_ifs
    · simp only [getSize, bind, Except.bind, ih]
      cases LMCLocalBackend.evictLoop maxCacheSize cacheSize (cur - e.2.size) iter with
      | error e => rfl
      | ok r => rfl
    · rfl

/-- The disk backend's loop. -/
theorem evictLoop_diskCacheMetadata (maxCacheSize cacheSize : ℕ) (cur : ℤ)
    (iter : List (Sigma fun _ : CacheEngineKey => DiskCacheMetadata)) :
    evictLoop maxCacheSize cacheSize cur (iter.map fun e => ⟨e.1, .diskCacheMetadata e.2⟩) =
      LMCLocalDiskBackend.evictLoop maxCacheSize cacheSize cur iter := by
  induction iter generalizing cur with
  | nil => rfl
  | cons e iter ih =>
    rw [List.map_cons, evictLoop, LMCLocalDiskBackend.evictLoop]
    split_ifs
    · simp only [getSize, bind, Except.bind, ih]
      cases LMCLocalDiskBackend.evictLoop maxCacheSize cacheSize (cur - e.2.size) iter with
      | error e => rfl
      | ok r => rfl
    · rfl

/-- **The shortest prefix of the dictionary that makes room is evicted**, where the ledger is the total size. -/
theorem updateOnPut_eq {ev : LRUEvictor} {cacheDict : Dict K KvData} {sizes : List ℕ} {cacheSize : ℕ}
    (hsizes : cacheDict.values.mapM getSize = .ok sizes) (hledger : ev.currentCacheSize = sizes.sum)
    (hfit : cacheSize ≤ ev.maxCacheSize) :
    ∃ n, MakesRoom ev.maxCacheSize cacheSize sizes n ∧
      ev.updateOnPut cacheDict cacheSize =
        .ok (cacheDict.keys.take n, .legal, { ev with currentCacheSize := (sizes.drop n).sum + cacheSize }) := by
  rw [mapM_ok_iff, Dict.values, List.map_map] at hsizes
  obtain ⟨n, hroom, hloop⟩ := evictLoop_eq 0 (Nat.zero_add cacheSize ▸ hfit) hsizes
  rw [Nat.zero_add] at hroom
  simp only [Nat.add_zero] at hloop
  refine ⟨n, hroom, ?_⟩
  rw [updateOnPut, if_neg (Nat.not_lt.mpr hfit), hledger, hloop]
  have hkeys : (cacheDict.entries.take n).map (·.1) = cacheDict.keys.take n := List.map_take
  simp only [bind, Except.bind, hkeys]
  rfl

/-- Whatever the ledger says, the victims are the front of the dictionary. -/
theorem updateOnPut_take {ev ev' : LRUEvictor} {cacheDict : Dict K KvData} {cacheSize : ℕ} {evictKeys : List K}
    {status : PutStatus} (h : ev.updateOnPut cacheDict cacheSize = .ok (evictKeys, status, ev')) :
    ∃ n, evictKeys = cacheDict.keys.take n := by
  unfold updateOnPut at h
  split_ifs at h
  · cases h
    exact ⟨0, rfl⟩
  · obtain ⟨⟨evictKeys', cur'⟩, hloop, h⟩ := bind_ok h
    obtain ⟨n, rfl⟩ := evictLoop_take hloop
    cases h
    exact ⟨n, List.map_take⟩

end

end LRUEvictor

/-! ## Runs -/

namespace LruCache

variable {K : Type} [DecidableEq K]

/-- The keys left after some were deleted. -/
theorem keys_erase_sublist (d : Dict K KvData) (key : K) : (d.erase key).keys.Sublist d.keys := by
  show ((d.erase key).entries.map Sigma.fst).Sublist (d.entries.map Sigma.fst)
  rw [Dict.entries_erase]
  exact List.filter_sublist.map _

theorem keys_foldl_erase_sublist (d : Dict K KvData) (ks : List K) : (ks.foldl Dict.erase d).keys.Sublist d.keys := by
  show ((ks.foldl Dict.erase d).entries.map Sigma.fst).Sublist (d.entries.map Sigma.fst)
  rw [Dict.entries_foldl_erase]
  exact List.filter_sublist.map _

/-- What is set after it was deleted stands at the end. -/
theorem recency_set {uses : List K} {d : Dict K KvData} (h : Recency uses d.keys) (key : K) (kvObj : KvData) :
    Recency (key :: uses) ((d.erase key).set key kvObj).keys := by
  have hnot : key ∉ (d.erase key).keys := fun hk => (AList.mem_erase.mp (AList.mem_keys.mpr hk)).1 rfl
  rw [Dict.keys_set, if_neg (fun hk => hnot (AList.mem_keys.mp hk))]
  exact (h.sublist (keys_erase_sublist d key)).touch hnot

/-- The dictionary is in the order of last use. -/
def InOrder (c : LruCache K) : Prop := Recency c.uses c.cacheDict.keys

/-- **A step keeps the dictionary in the order of last use.** -/
theorem inOrder_step {c c' : LruCache K} {op : Op K} (h : c.InOrder) (hs : c.step op = .ok c') : c'.InOrder := by
  cases op with
  | get key =>
    obtain ⟨cacheDict, hget, hs⟩ := bind_ok hs
    cases hs
    unfold LRUEvictor.updateOnGet at hget
    split_ifs at hget with hkey
    cases hget
    obtain ⟨kvObj, hlookup⟩ := (Dict.mem_iff_lookup _ _).mp hkey
    show Recency (key :: c.uses) (c.cacheDict.moveToEnd key).keys
    rw [Dict.moveToEnd, hlookup]
    exact recency_set h key kvObj
  | put key kvObj =>
    obtain ⟨cacheSize, _, hs⟩ := bind_ok hs
    obtain ⟨⟨evictKeys, status, evictor⟩, _, hs⟩ := bind_ok hs
    cases status with
    | illegal =>
      cases hs
      exact h
    | legal =>
      cases hs
      exact recency_set (h.sublist (keys_foldl_erase_sublist _ evictKeys)) key kvObj

/-- So it is in every state of a run. -/
theorem inOrder_of_reaches {maxCacheSize : ℕ} {ops : List (Op K)} {c : LruCache K}
    (h : Reaches step (new K maxCacheSize) ops c) : c.InOrder := by
  have hstep : ∀ (c : LruCache K) op c', c.InOrder → c.step op = .ok c' → c'.InOrder := fun _ _ _ => inOrder_step
  have hstart : (new K maxCacheSize).InOrder := Recency.nil []
  exact reaches_kept hstep hstart h

end LruCache

/-! ## The ledger of a run -/

namespace LruCache

variable {K : Type} [DecidableEq K]

/-- The size of an object, if it has one. -/
def bytes (kvObj : KvData) : ℕ := match getSize kvObj with | .ok size => size | .error _ => 0

/-- The ledger is the total size, within the limit. -/
structure Ledgered (c : LruCache K) : Prop where
  sized : ∀ kvObj ∈ c.cacheDict.values, getSize kvObj = .ok (bytes kvObj)
  ledger : c.evictor.currentCacheSize = (c.cacheDict.values.map bytes).sum
  le : (c.cacheDict.values.map bytes).sum ≤ c.evictor.maxCacheSize

/-- The operation reads a key that is there, or puts an object with a size under a key that is not. -/
def Regular (c : LruCache K) : Op K → Prop
  | .get key => key ∈ c.cacheDict
  | .put key kvObj => key ∉ c.cacheDict ∧ getSize kvObj = .ok (bytes kvObj)

theorem Ledgered.mapM_getSize {c : LruCache K} (h : c.Ledgered) :
    c.cacheDict.values.mapM getSize = .ok (c.cacheDict.values.map bytes) := by
  rw [mapM_ok_iff, List.map_map]
  exact List.map_congr_left h.sized

theorem updateOnGet_ok {key : K} {d : Dict K KvData} (h : key ∈ d) :
    LRUEvictor.updateOnGet key d = .ok (d.moveToEnd key) := if_pos h

/-- **A regular operation returns, and the ledger is right after it.** -/
theorem ledgered_step {c : LruCache K} {op : Op K} (h : c.Ledgered) (hop : c.Regular op) :
    ∃ c', c.step op = .ok c' ∧ c'.Ledgered := by
  cases op with
  | get key =>
    have hperm := Dict.values_moveToEnd_perm c.cacheDict key
    refine ⟨{ c with cacheDict := c.cacheDict.moveToEnd key, uses := key :: c.uses }, ?_, ?_⟩
    · simp only [step, updateOnGet_ok hop, bind, Except.bind]
      rfl
    · exact
        { sized := fun kvObj hmem => h.sized kvObj (hperm.mem_iff.mp hmem)
          ledger := h.ledger.trans (congrArg Nat.cast (hperm.map bytes).sum_eq.symm)
          le := (hperm.map bytes).sum_eq.trans_le h.le }
  | put key kvObj =>
    obtain ⟨hnew, hsize⟩ := hop
    by_cases hfit : bytes kvObj ≤ c.evictor.maxCacheSize
    · obtain ⟨n, hroom, hput⟩ := LRUEvictor.updateOnPut_eq h.mapM_getSize h.ledger hfit
      -- the victims are the front of the dictionary, and the key is not among the others
      have hkept : (((c.cacheDict.keys.take n).foldl Dict.erase c.cacheDict).erase key).entries =
          c.cacheDict.entries.drop n := by
        rw [Dict.erase_of_notMem, Dict.entries_foldl_erase_take]
        exact fun hmem => hnew ((keys_foldl_erase_sublist _ _).subset hmem)
      have hvalues : ((((c.cacheDict.keys.take n).foldl Dict.erase c.cacheDict).erase key).set key kvObj).values.Perm
          (kvObj :: c.cacheDict.values.drop n) := by
        apply (Dict.values_set_perm _ key kvObj).trans
        rw [Dict.erase_of_notMem (fun hmem => (AList.mem_erase.mp hmem).1 rfl), Dict.values, hkept, Dict.values,
          List.map_drop]
      let kept := ((c.cacheDict.keys.take n).foldl Dict.erase c.cacheDict).erase key
      let evictor := { c.evictor with currentCacheSize := ((c.cacheDict.values.map bytes).drop n).sum + bytes kvObj }
      refine ⟨{ evictor := evictor, cacheDict := kept.set key kvObj, uses := key :: c.uses }, ?_, ?_⟩
      · simp only [step, hsize, hput, bind, Except.bind]
        rfl
      · have hsum := (hvalues.map bytes).sum_eq
        rw [List.map_cons, List.sum_cons, List.map_drop] at hsum
        have hfits := hroom.fits
        refine { sized := fun v hv => ?_, ledger := ?_, le := ?_ }
        · rcases List.mem_cons.mp (hvalues.mem_iff.mp hv) with rfl | hv
          · exact hsize
          · exact h.sized v (List.mem_of_mem_drop hv)
        · show (((c.cacheDict.values.map bytes).drop n).sum : ℤ) + bytes kvObj = _
          rw [hsum]
          push_cast
          ring
        · exact hsum.trans_le (show _ ≤ c.evictor.maxCacheSize by omega)
    · refine ⟨c, ?_, h⟩
      have hput : c.evictor.updateOnPut c.cacheDict (bytes kvObj) = .ok ([], .illegal, c.evictor) :=
        if_pos (Nat.not_le.mp hfit)
      simp only [step, hsize, hput, bind, Except.bind]
      rfl

/-- **So a run of regular operations never raises, and its ledger is right in every state.** -/
theorem everyState_ledgered {maxCacheSize : ℕ} {ops : List (Op K)}
    (h : Along step Regular (new K maxCacheSize) ops) : EveryState step Ledgered (new K maxCacheSize) ops := by
  have hstart : (new K maxCacheSize).Ledgered :=
    { sized := fun _ hmem => absurd hmem List.not_mem_nil, ledger := rfl, le := Nat.zero_le _ }
  exact everyState_of_returns (fun _ _ hinv hop => ledgered_step hinv hop) hstart h

end LruCache

/-- **The LRU evictor chooses exactly.** For every dictionary whose total size is the ledger and every object within
the limit it returns the shortest prefix that makes room, and the ledger is what stays and the object, within the
limit; and in every run of reads and puts whatever it evicts was last used before whatever it keeps. -/
theorem LRUEvictor.updateOnPut_exact {K : Type} [DecidableEq K] :
    (∀ (ev : LRUEvictor) (cacheDict : Dict K KvData) (sizes : List ℕ) (cacheSize : ℕ),
      cacheDict.values.mapM getSize = .ok sizes → ev.currentCacheSize = sizes.sum → cacheSize ≤ ev.maxCacheSize →
      ∃ n, ev.updateOnPut cacheDict cacheSize =
          .ok (cacheDict.keys.take n, .legal, { ev with currentCacheSize := (sizes.drop n).sum + cacheSize }) ∧
        n ≤ sizes.length ∧ (sizes.drop n).sum + cacheSize ≤ ev.maxCacheSize ∧
        ∀ m < n, ev.maxCacheSize < (sizes.drop m).sum + cacheSize) ∧
    ∀ (maxCacheSize : ℕ) (ops : List (LruCache.Op K)) (c : LruCache K),
      Reaches LruCache.step (LruCache.new K maxCacheSize) ops c →
      ∀ (cacheSize : ℕ) (evictKeys : List K) (status : PutStatus) (ev' : LRUEvictor),
        c.evictor.updateOnPut c.cacheDict cacheSize = .ok (evictKeys, status, ev') →
        ∀ j ∈ evictKeys, ∀ k ∈ c.cacheDict.keys, k ∉ evictKeys → c.uses.idxOf k < c.uses.idxOf j := by
  refine ⟨?_, ?_⟩
  · intro ev cacheDict sizes cacheSize hsizes hledger hfit
    obtain ⟨n, hroom, hput⟩ := updateOnPut_eq hsizes hledger hfit
    exact ⟨n, hput, hroom.le_length, hroom.fits, hroom.shortest⟩
  · intro maxCacheSize ops c hrun cacheSize evictKeys status ev' hput j hj k hk hnot
    obtain ⟨n, rfl⟩ := updateOnPut_take hput
    exact (LruCache.inOrder_of_reaches hrun).front hj hk hnot

/-- With 90 bytes of 100 in use, a put of 60 evicts the blocks of 40 and 30 bytes and keeps the one of 20; and after a
read of the older of two blocks the other one is the victim. -/
theorem LRUEvictor.updateOnPut_exact_blocks :
    (∃ n, LRUEvictor.updateOnPut { maxCacheSize := 100, currentCacheSize := 90 }
        ((((∅ : Dict ℕ KvData).set 1 (.tensor [5, 4] 2)).set 2 (.kvObj ⟨0, 30, 1⟩)).set 3 (.tensor [5] 4)) 60 =
          .ok ([1, 2, 3].take n, .legal,
            { maxCacheSize := 100, currentCacheSize := (([40, 30, 20] : List ℕ).drop n).sum + 60 }) ∧
        n ≤ 3 ∧ (([40, 30, 20] : List ℕ).drop n).sum + 60 ≤ 100 ∧
        ∀ m < n, 100 < (([40, 30, 20] : List ℕ).drop m).sum + 60) ∧
      ([1, 2, 1] : List ℕ).idxOf 1 < ([1, 2, 1] : List ℕ).idxOf 2 := by
  refine ⟨LRUEvictor.updateOnPut_exact.1 _ _ [40, 30, 20] 60 rfl rfl (by decide), ?_⟩
  exact LRUEvictor.updateOnPut_exact.2 100 [.put 1 (.tensor [40] 1), .put 2 (.tensor [40] 1), .get 1]
    { evictor := { maxCacheSize := 100, currentCacheSize := 80 }
      cacheDict := ((∅ : Dict ℕ KvData).set 2 (.tensor [40] 1)).set 1 (.tensor [40] 1)
      uses := [1, 2, 1] }
    rfl 50 [2] .legal { maxCacheSize := 100, currentCacheSize := 90 } rfl 2 (by decide) 1 (by decide) (by decide)

end FairCache
