import FairCache.Experimental.RefCounts

/-!
# When the reference counts balance

* `Balanced s` : with no task outstanding, every object counts its key in the hot cache and the references that callers
  hold, and what counts none is freed;
* `Tidy s` : nothing is leaked, no object is under two keys, and no caller holds a decompressed object;
* `everyState_balanced` : in a run of clean steps the counts balance in every state.
-/

namespace FairCache

open Lib

namespace StorageManager

variable {K : Type}

/-- **The reference counts balance.** -/
def Balanced (s : StorageManager K) : Prop :=
  s.diskPuts = [] → s.remotePuts = [] → s.prefetchTasks = ∅ →
    (∀ i < s.heap.objs.length,
      s.heap.refCount i = (if i ∈ s.hotCache.values then 1 else 0) + s.callers.count i ∧
        (s.heap.refCount i = 0 → s.heap.isValid i = false)) ∧
      ∀ count ∈ s.decoded, count = 1

/-- Nothing is leaked, and no object is under two keys. -/
structure Tidy (s : StorageManager K) : Prop where
  accounted : s.Accounted []
  nodup : s.hotCache.values.Nodup
  decoded : s.decoded = []

theorem tidy_new (bufferSize : ℕ) (useHot : Bool) (maxDiskSize : Option ℕ) (serde : Option Serde) :
    (new K bufferSize useHot maxDiskSize serde).Tidy :=
  ⟨accounted_new _ _ _ _, List.nodup_nil, rfl⟩

variable {s s' : StorageManager K}

theorem Tidy.balanced (ht : s.Tidy) : s.Balanced := by
  intro hdisk hremote _
  refine ⟨fun i _ => ?_, fun count hcount => ?_⟩
  · obtain ⟨hcount, hvalid⟩ := ht.accounted i
    rw [hcount]
    rw [List.append_nil, count_refs, hdisk, hremote, ht.nodup.count] at hvalid ⊢
    refine ⟨?_, fun hzero => Bool.eq_false_iff.mpr fun h => ?_⟩
    · by_cases hi : i ∈ s.hotCache.values
      · simp [hi]
      · simp [hi]
    · have hpos := hvalid.mp h
      omega
  · rw [ht.decoded] at hcount
    cases hcount

variable [DecidableEq K] {key : K} {obj : ℕ}

theorem nodup_set {d : Dict K ℕ} (hd : d.values.Nodup) (hobj : ∀ key', key' ≠ key → d.lookup key' ≠ some obj) :
    (d.set key obj).values.Nodup := by
  rw [(Dict.values_set_perm d key obj).nodup_iff, List.nodup_cons]
  constructor
  · intro hmem
    obtain ⟨e, he, heq⟩ := List.mem_map.mp hmem
    obtain ⟨hne, hlook⟩ := Dict.lookup_erase_eq_some.mp ((Dict.lookup_eq_some_iff _ _ _).mpr he)
    exact hobj e.1 hne (heq ▸ hlook)
  · exact hd.sublist ((List.kerase_sublist key d.entries).map _)

/-- A new object is under no key. -/
theorem Tidy.fresh (ht : s.Tidy) {shape : List ℕ} {dtype : Dtype} {heap : Heap}
    (halloc : s.heap.allocateObj shape dtype = (some obj, heap)) (key' : K) : s.hotCache.lookup key' ≠ some obj := by
  intro hlook
  obtain ⟨-, hnot, -⟩ := ht.accounted.allocateObj halloc
  exact hnot (mem_refs_of_hot ((Dict.lookup_eq_some_iff _ _ _).mp hlook))

theorem nodup_updateHotCache (hs : s.hotCache.values.Nodup) (hobj : ∀ key', s.hotCache.lookup key' ≠ some obj) :
    (s.updateHotCache key obj).hotCache.values.Nodup := by
  unfold StorageManager.updateHotCache
  split_ifs
  · exact nodup_set hs fun key' _ => hobj key'
  · exact hs

/-! ## What a clean step keeps -/

/-- A put enters its object under one key. -/
theorem put_frame (hs : s.put key obj = .ok s') :
    s'.hotCache = (s.putHot key obj).hotCache ∧ s'.decoded = s.decoded := by
  have hhot : (s.putHot key obj).decoded = s.decoded := by
    unfold StorageManager.putHot
    split_ifs
    · cases s.hotCache.lookup key with
      | none => rfl
      | some old => rfl
    · rfl
  unfold StorageManager.put at hs
  dsimp only at hs
  split_ifs at hs
  · cases hs
    exact ⟨rfl, hhot⟩
  · obtain ⟨s₁, hs₁, hs⟩ := bind_ok hs
    cases hs
    have hdisk : s₁.hotCache = (s.putHot key obj).hotCache ∧ s₁.decoded = (s.putHot key obj).decoded := by
      unfold StorageManager.submitDisk at hs₁
      split at hs₁
      · cases hs₁; exact ⟨rfl, rfl⟩
      · split at hs₁
        · cases hs₁
        · split_ifs at hs₁
          split at hs₁
          · cases hs₁
          · cases hs₁; exact ⟨rfl, rfl⟩
          · cases hs₁; exact ⟨rfl, rfl⟩
    have hremote : (s₁.submitRemote key obj).hotCache = s₁.hotCache ∧ (s₁.submitRemote key obj).decoded = s₁.decoded := by
      unfold StorageManager.submitRemote
      split
      · exact ⟨rfl, rfl⟩
      · exact ⟨rfl, rfl⟩
    exact ⟨hremote.1.trans hdisk.1, hremote.2.trans (hdisk.2.trans hhot)⟩

theorem nodup_putHot (hs : s.hotCache.values.Nodup)
    (hobj : s.useHot = true → ∀ key', key' ≠ key → s.hotCache.lookup key' ≠ some obj) :
    (s.putHot key obj).hotCache.values.Nodup := by
  unfold StorageManager.putHot
  split_ifs with huse
  swap
  · exact hs
  cases s.hotCache.lookup key with
  | none => exact nodup_set hs (hobj huse)
  | some old =>
    refine nodup_set (hs.sublist ((List.kerase_sublist key s.hotCache.entries).map _)) fun key' hne h => ?_
    exact hobj huse key' hne (Dict.lookup_erase_eq_some.mp h).2

theorem Tidy.fresh_getDisk (ht : s.Tidy) {s₁ : StorageManager K} (hdisk : s.getDisk key = (some obj, s₁))
    (key' : K) : s.hotCache.lookup key' ≠ some obj := by
  unfold StorageManager.getDisk at hdisk
  split at hdisk
  · cases hdisk
  · split at hdisk
    · cases hdisk
    · rename_i entry _
      rcases halloc : s.heap.allocateObj entry.shape entry.dtype with ⟨obj', heap⟩
      rw [halloc] at hdisk
      cases hdisk
      exact ht.fresh halloc key'

theorem Tidy.nodup_getRemote (ht : s.Tidy) {answer : Option RemoteAnswer}
    (hclean : ∀ r a, s.remote = some r → answer = some a → ¬ s.Wasted r a) :
    (s.getRemote key answer).hotCache.values.Nodup := by
  unfold StorageManager.getRemote
  split
  swap
  · exact ht.nodup
  rename_i r a hr
  cases hserde : r.serde with
  | naive =>
    rcases halloc : s.heap.allocateObj a.shape a.dtype with ⟨obj, heap⟩
    cases obj with
    | none => exact ht.nodup
    | some obj =>
      dsimp only
      split_ifs
      · exact nodup_updateHotCache (s := { s with heap := heap }) ht.nodup (ht.fresh halloc)
      · exact ht.nodup
  | cachegen =>
    dsimp only
    rw [if_neg fun hreceived => hclean r a hr rfl (Or.inr ⟨hserde, hreceived⟩)]
    exact ht.nodup

/-- A get enters a new object, if any. -/
theorem Tidy.nodup_get (ht : s.Tidy) {answer : Option RemoteAnswer} (hs : s.get key answer = .ok s')
    (hclean : s.Clean (.get key answer)) : s'.hotCache.values.Nodup := by
  unfold StorageManager.get at hs
  split_ifs at hs
  cases hlook : s.hotCache.lookup key with
  | some obj =>
    rw [hlook] at hs
    cases hs
    exact (Dict.values_moveToEnd_perm s.hotCache key).nodup_iff.mpr ht.nodup
  | none =>
    rw [hlook] at hs
    obtain ⟨hown, hheap, hremote, hhot, hdecoded⟩ := ht.accounted.getDisk key
    rcases hdisk : s.getDisk key with ⟨obj, s₁⟩
    rw [hdisk] at hown hheap hremote hhot hdecoded hs
    dsimp only at hown hheap hremote hhot hdecoded hs
    have hnodup : s₁.hotCache.values.Nodup := hhot ▸ ht.nodup
    cases obj with
    | some obj =>
      cases hs
      exact nodup_updateHotCache hnodup (hhot ▸ ht.fresh_getDisk hdisk)
    | none =>
      cases hs
      have hnot : key ∉ s.hotCache := AList.lookup_eq_none.mp hlook
      have hused := (hclean.resolve_left hnot).resolve_left fun h => h (congrArg Prod.fst hdisk)
      refine Tidy.nodup_getRemote ⟨hown, hnodup, hdecoded.trans ht.decoded⟩ fun r a hr hans => ?_
      have hw := hused r (hremote ▸ hr) a hans
      unfold Wasted at hw ⊢
      rwa [hheap rfl]

theorem prefetch_frame (s : StorageManager K) (key : K) :
    (s.prefetch key).hotCache = s.hotCache ∧ (s.prefetch key).decoded = s.decoded := by
  unfold StorageManager.prefetch
  split_ifs
  · exact ⟨rfl, rfl⟩
  · split
    · exact ⟨rfl, rfl⟩
    · split
      · exact ⟨rfl, rfl⟩
      · exact ⟨rfl, rfl⟩

theorem finishDiskPut_frame (s : StorageManager K) (n : ℕ) :
    (s.finishDiskPut n).hotCache = s.hotCache ∧ (s.finishDiskPut n).decoded = s.decoded := by
  unfold StorageManager.finishDiskPut
  split
  · exact ⟨rfl, rfl⟩
  · split
    · exact ⟨rfl, rfl⟩
    · exact ⟨rfl, rfl⟩

theorem finishRemotePut_frame (s : StorageManager K) (n : ℕ) :
    (s.finishRemotePut n).hotCache = s.hotCache ∧ (s.finishRemotePut n).decoded = s.decoded := by
  unfold StorageManager.finishRemotePut
  split
  · exact ⟨rfl, rfl⟩
  · exact ⟨rfl, rfl⟩

theorem finishPrefetch_decoded (s : StorageManager K) (key : K) (loaded : Bool) :
    (s.finishPrefetch key loaded).decoded = s.decoded := by
  unfold StorageManager.finishPrefetch
  split
  · rfl
  · dsimp only
    split
    · rfl
    · split_ifs
      · split
        · rfl
        · rfl
      · rfl

/-- **A clean step leaves everything tidy.** -/
theorem Tidy.step (ht : s.Tidy) {op : Op K} (hheld : s.Held op) (hclean : s.Clean op) (hs : s.step op = .ok s') :
    s'.Tidy := by
  obtain ⟨new, hnew, hnone⟩ := ht.accounted.step hheld hs
  rw [hnone hclean] at hnew
  cases op with
  | allocate shape dtype =>
    obtain ⟨r, hs⟩ := step_allocate hs
    obtain ⟨victims, heap', -, -, -, rfl⟩ := ht.accounted.allocate_ok hs
    refine ⟨hnew, ht.nodup.sublist ?_, ht.decoded⟩
    have hkept := Dict.entries_foldl_erase s.hotCache (victims.map (·.1))
    unfold Dict.values
    rw [hkept]
    exact List.filter_sublist.map _
  | put key obj =>
    obtain ⟨hhot, hdecoded⟩ := put_frame hs
    refine ⟨hnew, ?_, hdecoded.trans ht.decoded⟩
    rw [hhot]
    refine nodup_putHot ht.nodup fun huse key' hne hlook => hne ?_
    exact hclean.2 huse ⟨key', obj⟩ ((Dict.lookup_eq_some_iff _ _ _).mp hlook) rfl
  | get key answer =>
    obtain ⟨_, _, hdecoded⟩ := ht.accounted.get hs
    refine ⟨hnew, ht.nodup_get hs hclean, ?_⟩
    refine ((hdecoded ?_).2).trans ht.decoded
    exact hclean.imp_right (Or.imp_right fun hused r a hr hans => hused r hr a hans)
  | prefetch key =>
    cases hs
    obtain ⟨hhot, hdecoded⟩ := prefetch_frame s key
    exact ⟨hnew, hhot ▸ ht.nodup, hdecoded.trans ht.decoded⟩
  | finishDiskPut n =>
    cases hs
    obtain ⟨hhot, hdecoded⟩ := finishDiskPut_frame s n
    exact ⟨hnew, hhot ▸ ht.nodup, hdecoded.trans ht.decoded⟩
  | finishRemotePut n =>
    cases hs
    obtain ⟨hhot, hdecoded⟩ := finishRemotePut_frame s n
    exact ⟨hnew, hhot ▸ ht.nodup, hdecoded.trans ht.decoded⟩
  | finishPrefetch key loaded =>
    cases hs
    obtain ⟨_, _, hhot⟩ := ht.accounted.finishPrefetch key loaded
    have hsame := (hhot fun shape dtype htask => hclean (shape, dtype) htask).2
    exact ⟨hnew, hsame ▸ ht.nodup, (finishPrefetch_decoded s key loaded).trans ht.decoded⟩
  | release obj =>
    cases hs
    exact ⟨hnew, ht.nodup, ht.decoded⟩
  | releaseDecoded n =>
    cases hs
    refine ⟨hnew, ht.nodup, ?_⟩
    show s.decoded.eraseIdx n = []
    rw [ht.decoded]
    rfl

instance (s : StorageManager K) (r : RemoteBackend K) (a : RemoteAnswer) : Decidable (s.Wasted r a) :=
  inferInstanceAs (Decidable (_ ∧ _ ∧ ¬ _ = _ ∨ _ ∧ _))

instance (s : StorageManager K) : ∀ op, Decidable (s.Clean op)
  | .put _ _ => inferInstanceAs (Decidable ((_ ∨ ∀ r ∈ s.remote, _) ∧ (_ → ∀ e ∈ s.hotCache.entries, _ → _)))
  | .get _ answer => inferInstanceAs (Decidable (_ ∨ _ ∨ ∀ r ∈ s.remote, ∀ a ∈ answer, ¬ _))
  | .finishPrefetch key _ => inferInstanceAs (Decidable (∀ t ∈ s.prefetchTasks.lookup key, _ = _))
  | .allocate _ _ | .prefetch _ | .finishDiskPut _ | .finishRemotePut _ | .release _ | .releaseDecoded _ =>
    .isTrue trivial

end StorageManager

end FairCache
