import FairCache.Experimental.StorageManager

/-!
# The reference counts of the storage manager

* `Counts h refs` : `refs` names an object once for each reference that is held to it. `Counts.up`, `Counts.down`,
  `Counts.allocateObj` : what the operations of the allocator do to the references;
* `StorageManager.refs` : the references of the hot cache, the callers and the tasks; `Accounted s leaked` : with those that
  nobody drops any more, these are all;
* `evictLoop_eq`, `Accounted.allocate_ok` : what the eviction loop of `allocate` frees;
* `Clean` : a step that leaks nothing. `Accounted.step` : every step accounts for its references, and a clean one leaks none.
-/

namespace FairCache

open Lib

namespace Heap

variable {h h' : Heap} {refs refs' : List ℕ} {i : ℕ}

/-- `is_valid`. -/
def isValid (h : Heap) (i : ℕ) : Bool := h.objs[i]?.any TensorMemoryObj.valid

/-- **Every object counts its references, and it is valid as long as there is one.** -/
def Counts (h : Heap) (refs : List ℕ) : Prop :=
  ∀ i, h.refCount i = refs.count i ∧ (h.isValid i = true ↔ 0 < refs.count i)

theorem Counts.congr (hc : h.Counts refs) (heq : ∀ i, refs.count i = refs'.count i) : h.Counts refs' :=
  fun i => heq i ▸ hc i

theorem counts_new (n : ℕ) : (new n).Counts [] := fun _ => ⟨rfl, by simp [isValid, new]⟩

/-- What is held is an object. -/
theorem Counts.exists_of_mem (hc : h.Counts refs) (hi : i ∈ refs) :
    ∃ o, h.objs[i]? = some o ∧ o.valid = true ∧ o.metadata.refCount = refs.count i := by
  obtain ⟨hcount, hvalid⟩ := hc i
  have hv := hvalid.mpr (List.count_pos_iff.mpr hi)
  unfold isValid at hv
  unfold refCount at hcount
  cases ho : h.objs[i]? with
  | none => rw [ho] at hv; exact absurd hv Bool.false_ne_true
  | some o =>
    rw [ho] at hv hcount
    exact ⟨o, rfl, hv, hcount⟩

theorem lt_of_getElem? {o : TensorMemoryObj} (ho : h.objs[i]? = some o) : i < h.objs.length :=
  (List.getElem?_eq_some_iff.mp ho).1

/-- One object is replaced. -/
theorem counts_set {a : TensorMemoryAllocator} {o : TensorMemoryObj} (hc : h.Counts refs) (hi : i < h.objs.length)
    (hother : ∀ j, j ≠ i → refs.count j = refs'.count j) (hcount : o.metadata.refCount = refs'.count i)
    (hvalid : o.valid = true ↔ 0 < refs'.count i) : Counts { allocator := a, objs := h.objs.set i o } refs' := by
  intro j
  unfold refCount isValid
  by_cases hj : j = i
  · subst hj
    rw [List.getElem?_set_self hi]
    exact ⟨hcount, hvalid⟩
  · rw [List.getElem?_set_ne (Ne.symm hj), ← hother j hj]
    exact hc j

/-- One more reference. -/
theorem Counts.up (hc : h.Counts refs) (hi : i ∈ refs) : (h.up i).Counts (i :: refs) := by
  obtain ⟨o, ho, hvalid, hcount⟩ := hc.exists_of_mem hi
  unfold Heap.up
  rw [ho]
  refine counts_set hc (lt_of_getElem? ho) (fun j hj => ?_) ?_ ?_
  · rw [List.count_cons_of_ne (Ne.symm hj)]
  · rw [List.count_cons_self]
    show o.metadata.refCount + 1 = _
    omega
  · rw [List.count_cons_self]
    exact ⟨fun _ => Nat.succ_pos _, fun _ => hvalid⟩

/-- One reference less; the last one frees the object. -/
theorem Counts.down (hc : h.Counts (i :: refs)) : (h.down i).Counts refs := by
  obtain ⟨o, ho, hvalid, hcount⟩ := hc.exists_of_mem List.mem_cons_self
  rw [List.count_cons_self] at hcount
  unfold Heap.down
  rw [ho]
  unfold TensorMemoryAllocator.refCountDown
  dsimp only
  split_ifs with hzero
  · have hnone : refs.count i = 0 := by omega
    unfold TensorMemoryAllocator.free
    rw [if_pos hvalid]
    refine counts_set hc (lt_of_getElem? ho) (fun j hj => ?_) ?_ ?_
    · rw [List.count_cons_of_ne (Ne.symm hj)]
    · rw [hnone]
      exact hzero
    · rw [hnone]
      exact iff_of_false Bool.false_ne_true (Nat.lt_irrefl 0)
  · refine counts_set hc (lt_of_getElem? ho) (fun j hj => ?_) ?_ ?_
    · rw [List.count_cons_of_ne (Ne.symm hj)]
    · show o.metadata.refCount - 1 = _
      omega
    · exact iff_of_true hvalid (by omega)

/-- A refused allocation changes nothing. -/
theorem allocateObj_none {shape : List ℕ} {dtype : Dtype} (ha : h.allocateObj shape dtype = (none, h')) : h' = h := by
  unfold allocateObj TensorMemoryAllocator.allocate at ha
  dsimp only at ha
  cases hfind : h.allocator.explicitList.find? fun block =>
      TensorMemoryAllocator.computeAlignedSize (TensorMemoryAllocator.computeRawSize shape dtype) ≤ block.size with
  | none =>
    rw [hfind] at ha
    exact (Prod.mk.inj ha).2.symm
  | some block =>
    rw [hfind] at ha
    exact absurd (Prod.mk.inj ha).1 (Option.some_ne_none _)

/-- An object that is allocated has one reference. -/
theorem Counts.allocateObj (hc : h.Counts refs) {shape : List ℕ} {dtype : Dtype}
    (ha : h.allocateObj shape dtype = (some i, h')) : h'.Counts (i :: refs) ∧ i ∉ refs ∧ i = h.objs.length := by
  unfold Heap.allocateObj TensorMemoryAllocator.allocate at ha
  dsimp only at ha
  cases hfind : h.allocator.explicitList.find? fun block =>
      TensorMemoryAllocator.computeAlignedSize (TensorMemoryAllocator.computeRawSize shape dtype) ≤ block.size with
  | none =>
    rw [hfind] at ha
    exact absurd (Prod.mk.inj ha).1.symm (Option.some_ne_none _)
  | some block =>
    rw [hfind] at ha
    obtain ⟨hi, rfl⟩ := Prod.mk.inj ha
    obtain rfl := Option.some.inj hi
    have hnew : refs.count h.objs.length = 0 := by
      have hzero := (hc h.objs.length).1
      unfold refCount at hzero
      rw [List.getElem?_eq_none (le_refl _)] at hzero
      exact Int.ofNat_eq_zero.mp hzero.symm
    refine ⟨fun j => ?_, List.count_eq_zero.mp hnew, rfl⟩
    unfold refCount isValid
    rcases lt_trichotomy j h.objs.length with hj | rfl | hj
    · rw [List.getElem?_append_left hj, List.count_cons_of_ne (Nat.ne_of_gt hj)]
      exact hc j
    · rw [List.getElem?_concat_length, List.count_cons_self, hnew]
      exact ⟨rfl, iff_of_true rfl Nat.one_pos⟩
    · have hout := hc j
      unfold refCount isValid at hout
      rw [List.getElem?_eq_none (le_of_lt hj)] at hout
      rw [List.getElem?_eq_none (by rw [List.length_append]; exact hj), List.count_cons_of_ne (Nat.ne_of_lt hj)]
      exact hout

end Heap

/-! ## The references of a manager -/

namespace StorageManager

variable {K : Type}

/-- An object once for each reference to it: of the hot cache, of the callers and of the tasks. -/
def refs (s : StorageManager K) : List ℕ :=
  s.hotCache.values ++ s.callers ++ s.diskPuts.map (·.2) ++ s.remotePuts.filterMap (·.2)

/-- **These references and those that nobody drops any more are all.** -/
def Accounted (s : StorageManager K) (leaked : List ℕ) : Prop := s.heap.Counts (s.refs ++ leaked)

@[simp] theorem count_refs (s : StorageManager K) (i : ℕ) :
    s.refs.count i = s.hotCache.values.count i + s.callers.count i + (s.diskPuts.map (·.2)).count i +
      (s.remotePuts.filterMap (·.2)).count i := by
  simp [refs, Nat.add_assoc]

theorem accounted_new (bufferSize : ℕ) (useHot : Bool) (maxDiskSize : Option ℕ) (serde : Option Serde) :
    (new K bufferSize useHot maxDiskSize serde).Accounted [] := Heap.counts_new bufferSize

variable {s s' : StorageManager K} {leaked : List ℕ} {key : K} {obj : ℕ}

theorem mem_refs_of_caller (h : obj ∈ s.callers) : obj ∈ s.refs ++ leaked := by
  unfold refs
  simp [h]

theorem mem_refs_of_hot {e : Sigma fun _ : K => ℕ} (h : e ∈ s.hotCache.entries) : e.2 ∈ s.refs ++ leaked := by
  have hhot : e.2 ∈ s.hotCache.values := List.mem_map_of_mem h
  unfold refs
  simp [hhot]

/-- The caller drops its reference. -/
theorem Accounted.drop (ha : s.Accounted leaked) (hobj : obj ∈ s.callers) :
    Accounted { s with heap := s.heap.down obj, callers := s.callers.erase obj } leaked := by
  refine Heap.Counts.down (Heap.Counts.congr ha fun i => ?_)
  have hcount := (List.perm_cons_erase hobj).count_eq i
  simp only [List.count_append, count_refs, List.count_cons] at hcount ⊢
  omega

/-- The server takes a reference for its task, which a compressed put never drops. -/
theorem Accounted.submitRemote (ha : s.Accounted leaked) (key : K) (hobj : obj ∈ s.callers) :
    ∃ new, (s.submitRemote key obj).Accounted (new ++ leaked) ∧ (s.submitRemote key obj).callers = s.callers ∧
      ((∀ r, s.remote = some r → r.serde = .naive) → new = []) := by
  unfold StorageManager.submitRemote
  split
  · exact ⟨[], ha, rfl, fun _ => rfl⟩
  · rename_i r hr
    have hup := Heap.Counts.up ha (mem_refs_of_caller hobj)
    cases hserde : r.serde with
    | naive =>
      refine ⟨[], Heap.Counts.congr hup fun i => ?_, rfl, fun _ => rfl⟩
      simp only [List.count_append, count_refs, List.count_cons, List.filterMap_append, List.filterMap_cons,
        List.filterMap_nil, List.count_nil]
      omega
    | cachegen =>
      refine ⟨[obj], Heap.Counts.congr hup fun i => ?_, rfl, fun hnaive => ?_⟩
      · simp only [List.count_append, count_refs, List.count_cons, List.filterMap_append, List.filterMap_cons,
          List.filterMap_nil, List.count_nil]
        omega
      · exact absurd ((hnaive r hr).symm.trans hserde) (by decide)

/-! ### The eviction loop -/

/-- What a request finds no room in. -/
def Refuses (heap : Heap) (shape : List ℕ) (dtype : Dtype) : Prop := (heap.allocateObj shape dtype).1 = none

/-- The entries to which only the hot cache refers. -/
def evictable (heap : Heap) (entries : List (Sigma fun _ : K => ℕ)) : List (Sigma fun _ : K => ℕ) :=
  entries.filter fun e => heap.refCount e.2 = 1

theorem evictable_cons_pos {heap : Heap} {e : Sigma fun _ : K => ℕ} (h : heap.refCount e.2 = 1)
    (l : List (Sigma fun _ : K => ℕ)) : evictable heap (e :: l) = e :: evictable heap l :=
  List.filter_cons_of_pos (decide_eq_true h)

theorem evictable_cons_neg {heap : Heap} {e : Sigma fun _ : K => ℕ} (h : heap.refCount e.2 ≠ 1)
    (l : List (Sigma fun _ : K => ℕ)) : evictable heap (e :: l) = evictable heap l :=
  List.filter_cons_of_neg (by rwa [decide_eq_true_iff])

/-- The hot cache drops its references to these entries. -/
def freeAll (heap : Heap) (victims : List (Sigma fun _ : K => ℕ)) : Heap :=
  victims.foldl (fun heap e => heap.down e.2) heap

theorem length_freeAll (heap : Heap) (victims : List (Sigma fun _ : K => ℕ)) :
    (freeAll heap victims).objs.length = heap.objs.length := by
  induction victims generalizing heap with
  | nil => rfl
  | cons e victims ih =>
    refine (ih (heap.down e.2)).trans ?_
    unfold Heap.down
    cases heap.objs[e.2]? with
    | none => rfl
    | some o => exact List.length_set

/-- The loop of `allocate` over entries that it does not skip. -/
def evictAll (shape : List ℕ) (dtype : Dtype) (heap : Heap) :
    List (Sigma fun _ : K => ℕ) → Except PyError (Option ℕ) × Heap × List K
  | [] => (.error .stopIteration, heap, [])
  | e :: iter =>
    let (obj, heap) := (heap.down e.2).allocateObj shape dtype
    if obj.isSome ∨ heap.allocator.numActiveAllocations = 0 then (.ok obj, heap, [e.1])
    else
      let (r, heap, evictKeys) := evictAll shape dtype heap iter
      (r, heap, e.1 :: evictKeys)

/-- **The loop skips what is pinned**, and what it frees does not change what else is pinned. -/
theorem evictLoop_eq {shape : List ℕ} {dtype : Dtype} {heap : Heap} {iter : List (Sigma fun _ : K => ℕ)} (rest : List ℕ)
    (hc : heap.Counts (iter.map (·.2) ++ rest)) :
    evictLoop shape dtype heap iter = evictAll shape dtype heap (evictable heap iter) := by
  induction iter generalizing heap rest with
  | nil => rfl
  | cons e iter ih =>
    have hcount := (hc e.2).1
    rw [List.map_cons, List.cons_append, List.count_cons_self] at hcount
    rw [evictLoop]
    split_ifs with hpin
    · rw [evictable_cons_neg (by omega)]
      refine ih (e.2 :: rest) (hc.congr fun i => ?_)
      simp only [List.map_cons, List.cons_append, List.count_cons, List.count_append]
      omega
    · have hdown : (heap.down e.2).Counts (iter.map (·.2) ++ rest) := Heap.Counts.down hc
      have hsame : evictable (heap.down e.2) iter = evictable heap iter := by
        apply List.filter_congr
        intro e' he'
        have hpos : 0 < (iter.map (·.2) ++ rest).count e'.2 :=
          List.count_pos_iff.mpr (List.mem_append_left _ (List.mem_map_of_mem he'))
        have hne : e.2 ≠ e'.2 := fun heq => by
          rw [← heq] at hpos
          omega
        rw [(hdown e'.2).1, (hc e'.2).1, List.map_cons, List.cons_append, List.count_cons_of_ne hne]
      rw [evictable_cons_pos (by omega), evictAll, ← hsame]
      rcases halloc : (heap.down e.2).allocateObj shape dtype with ⟨obj, heap'⟩
      dsimp only
      split_ifs with hend
      · rfl
      · obtain rfl : obj = none := by
          cases obj with
          | none => rfl
          | some obj => exact absurd (Or.inl rfl) hend
        obtain rfl := Heap.allocateObj_none halloc
        rw [ih rest hdown]

/-- How the loop ends if it does: the first entries are freed, as many as it takes. -/
theorem evictAll_ok {shape : List ℕ} {dtype : Dtype} {heap heap' : Heap} {vs : List (Sigma fun _ : K => ℕ)}
    {r : Option ℕ} {keys : List K} (h : evictAll shape dtype heap vs = (.ok r, heap', keys)) :
    ∃ victims, victims <+: vs ∧ keys = victims.map (·.1) ∧ (freeAll heap victims).allocateObj shape dtype = (r, heap') ∧
      ∀ shorter, shorter <+: victims → shorter ≠ [] → shorter ≠ victims → Refuses (freeAll heap shorter) shape dtype := by
  induction vs generalizing heap keys with
  | nil => cases h
  | cons e vs ih =>
    rw [evictAll] at h
    rcases halloc : (heap.down e.2).allocateObj shape dtype with ⟨obj, heap₁⟩
    rw [halloc] at h
    dsimp only at h
    split_ifs at h with hend
    · obtain ⟨hr, hh⟩ := Prod.mk.inj h
      obtain ⟨rfl, rfl⟩ := Prod.mk.inj hh
      obtain rfl := Except.ok.inj hr
      refine ⟨[e], List.prefix_cons_inj e |>.mpr List.nil_prefix, rfl, halloc, fun shorter hpre hnil hne => ?_⟩
      rcases List.prefix_cons_iff.mp hpre with rfl | ⟨t, rfl, ht⟩
      · exact absurd rfl hnil
      · rw [List.prefix_nil.mp ht] at hne
        exact absurd rfl hne
    · obtain rfl : obj = none := by
        cases obj with
        | none => rfl
        | some obj => exact absurd (Or.inl rfl) hend
      obtain rfl := Heap.allocateObj_none halloc
      rcases hrec : evictAll shape dtype (heap.down e.2) vs with ⟨r', heap₂, keys'⟩
      rw [hrec] at h
      obtain ⟨rfl, hh⟩ := Prod.mk.inj h
      obtain ⟨rfl, rfl⟩ := Prod.mk.inj hh
      obtain ⟨victims, hpre, rfl, hlast, hshort⟩ := ih hrec
      refine ⟨e :: victims, (List.prefix_cons_inj e).mpr hpre, rfl, hlast, fun shorter hpre' hnil hne => ?_⟩
      rcases List.prefix_cons_iff.mp hpre' with rfl | ⟨t, rfl, ht⟩
      · exact absurd rfl hnil
      · by_cases htnil : t = []
        · subst htnil
          exact congrArg Prod.fst halloc
        · exact hshort t ht htnil fun heq => hne (by rw [heq])

/-- What is freed is not counted any more. -/
theorem counts_freeAll {heap : Heap} {victims : List (Sigma fun _ : K => ℕ)} {rest : List ℕ}
    (hc : heap.Counts (victims.map (·.2) ++ rest)) : (freeAll heap victims).Counts rest := by
  induction victims generalizing heap with
  | nil => exact hc
  | cons e victims ih => exact ih (Heap.Counts.down hc)

/-- An object that was just allocated belongs to nobody yet. -/
theorem Accounted.allocated (ha : s.Accounted leaked) {shape : List ℕ} {dtype : Dtype} {heap : Heap}
    (halloc : s.heap.allocateObj shape dtype = (some obj, heap)) :
    Accounted { s with heap := heap } (obj :: leaked) := by
  refine Heap.Counts.congr (Heap.Counts.allocateObj ha halloc).1 fun i => ?_
  simp only [List.count_append, count_refs, List.count_cons]
  omega

/-- The caller takes a reference that belongs to nobody. -/
theorem Accounted.take (ha : s.Accounted (obj :: leaked)) : Accounted { s with callers := obj :: s.callers } leaked := by
  refine Heap.Counts.congr ha fun i => ?_
  simp only [List.count_append, count_refs, List.count_cons]
  omega

theorem Accounted.evictLoop_eq (ha : s.Accounted leaked) (shape : List ℕ) (dtype : Dtype) :
    evictLoop shape dtype s.heap s.hotCache.entries =
      evictAll shape dtype s.heap (evictable s.heap s.hotCache.entries) := by
  refine StorageManager.evictLoop_eq (s.callers ++ s.diskPuts.map (·.2) ++ s.remotePuts.filterMap (·.2) ++ leaked)
    (Heap.Counts.congr ha fun i => ?_)
  show _ = (s.hotCache.values ++ _).count i
  simp only [List.count_append, count_refs]
  omega

variable [DecidableEq K]

theorem count_values_set (d : Dict K ℕ) (k : K) (v i : ℕ) :
    (d.set k v).values.count i = (v :: (d.erase k).values).count i := (Dict.values_set_perm d k v).count_eq i

theorem count_values_erase {d : Dict K ℕ} {k : K} {v : ℕ} (h : d.lookup k = some v) (i : ℕ) :
    d.values.count i = (v :: (d.erase k).values).count i := (Dict.values_perm_erase h).count_eq i

/-- A reference to an object that is held enters the hot cache under a new key. -/
theorem Accounted.setHot (ha : s.Accounted leaked) (hkey : key ∉ s.hotCache) (hobj : obj ∈ s.refs ++ leaked) :
    Accounted { s with hotCache := s.hotCache.set key obj, heap := s.heap.up obj } leaked := by
  refine Heap.Counts.congr (Heap.Counts.up ha hobj) fun i => ?_
  have hcount := count_values_set s.hotCache key obj i
  rw [Dict.erase_of_notMem hkey] at hcount
  simp only [List.count_append, count_refs, List.count_cons] at hcount ⊢
  omega

/-- What is under a key leaves the hot cache. -/
theorem Accounted.eraseHot (ha : s.Accounted leaked) {old : ℕ} (hold : s.hotCache.lookup key = some old) :
    Accounted { s with hotCache := s.hotCache.erase key, heap := s.heap.down old } leaked := by
  refine Heap.Counts.down (Heap.Counts.congr ha fun i => ?_)
  have hcount := count_values_erase hold i
  simp only [List.count_append, count_refs, List.count_cons] at hcount ⊢
  omega

theorem Accounted.putHot (ha : s.Accounted leaked) (key : K) (hobj : obj ∈ s.callers) :
    (s.putHot key obj).Accounted leaked ∧ (s.putHot key obj).callers = s.callers := by
  unfold StorageManager.putHot
  split_ifs with huse
  swap
  · exact ⟨ha, rfl⟩
  cases hlook : s.hotCache.lookup key with
  | none =>
    have hkey : key ∉ s.hotCache := fun hmem => by
      obtain ⟨v, hv⟩ := (Dict.mem_iff_lookup _ _).mp hmem
      rw [hlook] at hv
      cases hv
    exact ⟨ha.setHot hkey (mem_refs_of_caller hobj), rfl⟩
  | some old =>
    have hkey : key ∉ s.hotCache.erase key := fun hmem => (AList.mem_erase.mp hmem).1 rfl
    exact ⟨(ha.eraseHot hlook).setHot hkey (mem_refs_of_caller (s := { s with hotCache := _, heap := _ }) hobj), rfl⟩

/-- The disk takes a reference for its task, or nothing. -/
theorem Accounted.submitDisk (ha : s.Accounted leaked) (hobj : obj ∈ s.callers) (hs : s.submitDisk key obj = .ok s') :
    s'.Accounted leaked ∧ s'.callers = s.callers := by
  unfold StorageManager.submitDisk at hs
  split at hs
  · cases hs
    exact ⟨ha, rfl⟩
  · split at hs
    · cases hs
    · split_ifs at hs
      split at hs
      · cases hs
      · cases hs
        exact ⟨ha, rfl⟩
      · cases hs
        refine ⟨Heap.Counts.congr (Heap.Counts.up ha (mem_refs_of_caller hobj)) fun i => ?_, rfl⟩
        simp only [List.count_append, count_refs, List.count_cons, List.map_append, List.map_cons, List.map_nil,
          List.count_nil]
        omega

/-! ### The calls -/

/-- What leaves the hot cache together with its references. -/
theorem Accounted.evict (ha : s.Accounted leaked) {victims : List (Sigma fun _ : K => ℕ)}
    (hsub : victims.Sublist s.hotCache.entries) :
    Accounted { s with
      heap := freeAll s.heap victims, hotCache := (victims.map (·.1)).foldl Dict.erase s.hotCache } leaked := by
  have hcount := fun i => ((Dict.entries_perm_foldl_erase hsub).map (·.2)).count_eq i
  generalize (victims.map (·.1)).foldl Dict.erase s.hotCache = rest at hcount ⊢
  refine counts_freeAll (Heap.Counts.congr ha fun i => ?_)
  have hi := hcount i
  rw [List.map_append, List.count_append] at hi
  simp only [List.count_append, count_refs]
  show (s.hotCache.entries.map (·.2)).count i + _ + _ + _ + _ = _ + ((rest.entries.map (·.2)).count i + _ + _ + _ + _)
  omega

/-- **What `allocate` does when it returns** : it frees entries that are not pinned, as few as it takes. -/
theorem Accounted.allocate_ok (ha : s.Accounted leaked) {shape : List ℕ} {dtype : Dtype} {r : Option ℕ}
    (hs : s.allocate shape dtype = (.ok r, s')) :
    ∃ victims heap', victims <+: evictable s.heap s.hotCache.entries ∧
      (∀ shorter, shorter <+: victims → shorter ≠ victims → Refuses (freeAll s.heap shorter) shape dtype) ∧
      (freeAll s.heap victims).allocateObj shape dtype = (r, heap') ∧
      s' = { s with
        heap := heap', hotCache := (victims.map (·.1)).foldl Dict.erase s.hotCache, managerLock := false
        callers := r.toList ++ s.callers } := by
  unfold StorageManager.allocate at hs
  dsimp only at hs
  rcases halloc : s.heap.allocateObj shape dtype with ⟨obj, heap⟩
  rw [halloc] at hs
  cases obj with
  | some obj =>
    cases hs
    exact ⟨[], heap, List.nil_prefix, fun shorter hpre hne => absurd (List.prefix_nil.mp hpre) hne, halloc, rfl⟩
  | none =>
    obtain rfl := Heap.allocateObj_none halloc
    dsimp only at hs
    rw [ha.evictLoop_eq] at hs
    rcases hloop : evictAll shape dtype s.heap (evictable s.heap s.hotCache.entries) with ⟨r', heap', keys⟩
    rw [hloop] at hs
    cases r' with
    | error e => cases hs
    | ok obj =>
      obtain ⟨victims, hpre, rfl, hlast, hshort⟩ := evictAll_ok hloop
      cases hs
      refine ⟨victims, heap', hpre, fun shorter hshorter hne => ?_, hlast, rfl⟩
      by_cases hnil : shorter = []
      · subst hnil
        exact congrArg Prod.fst halloc
      · exact hshort shorter hshorter hnil hne

theorem Accounted.allocate (ha : s.Accounted leaked) {shape : List ℕ} {dtype : Dtype} {r : Option ℕ}
    (hs : s.allocate shape dtype = (.ok r, s')) : s'.Accounted leaked := by
  obtain ⟨victims, heap', hpre, -, hlast, rfl⟩ := ha.allocate_ok hs
  have hevict := ha.evict (hpre.sublist.trans List.filter_sublist)
  cases r with
  | none =>
    obtain rfl := Heap.allocateObj_none hlast
    exact hevict
  | some obj => exact (hevict.allocated hlast).take

theorem putHot_backends (s : StorageManager K) (key : K) (obj : ℕ) :
    (s.putHot key obj).disk = s.disk ∧ (s.putHot key obj).remote = s.remote := by
  unfold StorageManager.putHot
  split_ifs
  · cases s.hotCache.lookup key with
    | none => exact ⟨rfl, rfl⟩
    | some old => exact ⟨rfl, rfl⟩
  · exact ⟨rfl, rfl⟩

theorem submitDisk_remote (hs : s.submitDisk key obj = .ok s') : s'.remote = s.remote := by
  unfold StorageManager.submitDisk at hs
  split at hs
  · cases hs; rfl
  · split at hs
    · cases hs
    · split_ifs at hs
      split at hs
      · cases hs
      · cases hs; rfl
      · cases hs; rfl

/-- A put drops what it was given, and a compressed one leaks. -/
theorem Accounted.put (ha : s.Accounted leaked) (hobj : obj ∈ s.callers) (hs : s.put key obj = .ok s') :
    ∃ new, s'.Accounted (new ++ leaked) ∧
      (s.existsInPutTasks key = true ∨ (∀ r, s.remote = some r → r.serde = .naive) → new = []) := by
  obtain ⟨hdisk, hremote⟩ := putHot_backends s key obj
  obtain ⟨hhot, hcallers⟩ := ha.putHot key hobj
  have hexists : (s.putHot key obj).existsInPutTasks key = s.existsInPutTasks key := by
    unfold existsInPutTasks
    rw [hdisk, hremote]
  unfold StorageManager.put at hs
  dsimp only at hs
  rw [hexists] at hs
  rw [← hcallers] at hobj
  split_ifs at hs with hput
  · cases hs
    exact ⟨[], hhot.drop hobj, fun _ => rfl⟩
  · obtain ⟨s₁, hs₁, hs⟩ := bind_ok hs
    cases hs
    obtain ⟨hsub, hcallers₁⟩ := hhot.submitDisk hobj hs₁
    rw [← hcallers₁] at hobj
    obtain ⟨new, hnew, hcallers₂, hnaive⟩ := hsub.submitRemote key hobj
    rw [← hcallers₂] at hobj
    refine ⟨new, hnew.drop hobj, fun h => hnaive ?_⟩
    rw [submitDisk_remote hs₁, hremote]
    exact h.resolve_left hput

/-- The disk answers with a new object. -/
theorem Accounted.getDisk (ha : s.Accounted leaked) (key : K) :
    ((s.getDisk key).2).Accounted ((s.getDisk key).1.toList ++ leaked) ∧
      ((s.getDisk key).1 = none → (s.getDisk key).2.heap = s.heap) ∧
      (s.getDisk key).2.remote = s.remote ∧ (s.getDisk key).2.hotCache = s.hotCache ∧
      (s.getDisk key).2.decoded = s.decoded := by
  unfold StorageManager.getDisk
  split
  · exact ⟨ha, fun _ => rfl, rfl, rfl, rfl⟩
  · split
    · exact ⟨ha, fun _ => rfl, rfl, rfl, rfl⟩
    · rename_i entry _
      rcases halloc : s.heap.allocateObj entry.shape entry.dtype with ⟨obj, heap⟩
      cases obj with
      | none =>
        obtain rfl := Heap.allocateObj_none halloc
        exact ⟨ha, fun _ => rfl, rfl, rfl, rfl⟩
      | some obj => exact ⟨ha.allocated halloc, fun h => absurd h (Option.some_ne_none _), rfl, rfl, rfl⟩

theorem Accounted.updateHotCache (ha : s.Accounted leaked) (hobj : obj ∈ leaked) :
    (s.updateHotCache key obj).Accounted leaked := by
  unfold StorageManager.updateHotCache
  split_ifs with h
  · exact ha.setHot h.2 (List.mem_append_right _ hobj)
  · exact ha

/-- The copy of a decompressed object has one reference too many. -/
theorem Accounted.copyToHotCache (ha : s.Accounted leaked) (key : K) (shape : List ℕ) (dtype : Dtype) :
    ∃ new, (s.copyToHotCache key shape dtype).Accounted (new ++ leaked) := by
  unfold StorageManager.copyToHotCache
  split_ifs with h
  · rcases halloc : s.heap.allocateObj shape dtype with ⟨obj, heap⟩
    cases obj with
    | none =>
      obtain rfl := Heap.allocateObj_none halloc
      exact ⟨[], ha⟩
    | some obj =>
      exact ⟨[obj], (ha.allocated halloc).setHot h.2 (List.mem_append_right _ List.mem_cons_self)⟩
  · exact ⟨[], ha⟩

/-- A reference to what the server sends is taken in vain: it is compressed, or not received entirely. -/
def Wasted (s : StorageManager K) (r : RemoteBackend K) (a : RemoteAnswer) : Prop :=
  r.serde = .naive ∧ a.received = false ∧ ¬ Refuses s.heap a.shape a.dtype ∨ r.serde = .cachegen ∧ a.received = true

theorem Accounted.getRemote (ha : s.Accounted leaked) (key : K) (answer : Option RemoteAnswer) :
    ∃ new, (s.getRemote key answer).Accounted (new ++ leaked) ∧
      ((∀ r a, s.remote = some r → answer = some a → ¬ s.Wasted r a) →
        new = [] ∧ (s.getRemote key answer).decoded = s.decoded) := by
  unfold StorageManager.getRemote
  split
  swap
  · exact ⟨[], ha, fun _ => ⟨rfl, rfl⟩⟩
  rename_i r a hr
  cases hserde : r.serde with
  | naive =>
    rcases halloc : s.heap.allocateObj a.shape a.dtype with ⟨obj, heap⟩
    cases obj with
    | none =>
      obtain rfl := Heap.allocateObj_none halloc
      exact ⟨[], ha, fun _ => ⟨rfl, rfl⟩⟩
    | some obj =>
      have hown := ha.allocated halloc
      dsimp only
      split_ifs with hreceived
      · refine ⟨[], (hown.updateHotCache List.mem_cons_self).take, fun _ => ⟨rfl, ?_⟩⟩
        unfold StorageManager.updateHotCache
        split_ifs
        · rfl
        · rfl
      · refine ⟨[obj], hown, fun hclean => absurd ?_ (hclean r a hr rfl)⟩
        refine Or.inl ⟨hserde, Bool.eq_false_iff.mpr hreceived, ?_⟩
        unfold Refuses
        rw [halloc]
        exact Option.some_ne_none _
  | cachegen =>
    dsimp only
    split_ifs with hreceived
    · obtain ⟨new, hnew⟩ := ha.copyToHotCache key a.shape a.dtype
      exact ⟨new, hnew, fun hclean => absurd (Or.inr ⟨hserde, hreceived⟩) (hclean r a hr rfl)⟩
    · exact ⟨[], ha, fun _ => ⟨rfl, rfl⟩⟩

/-- A get hands out one reference, if nothing goes wrong with what the server sends. -/
theorem Accounted.get (ha : s.Accounted leaked) {answer : Option RemoteAnswer} (hs : s.get key answer = .ok s') :
    ∃ new, s'.Accounted (new ++ leaked) ∧
      ((key ∈ s.hotCache ∨ (s.getDisk key).1 ≠ none ∨
          ∀ r a, s.remote = some r → answer = some a → ¬ s.Wasted r a) → new = [] ∧ s'.decoded = s.decoded) := by
  unfold StorageManager.get at hs
  split_ifs at hs
  cases hlook : s.hotCache.lookup key with
  | some obj =>
    rw [hlook] at hs
    cases hs
    have hmem : obj ∈ s.refs ++ leaked := mem_refs_of_hot ((Dict.lookup_eq_some_iff _ _ _).mp hlook)
    refine ⟨[], Heap.Counts.congr (Heap.Counts.up ha hmem) fun i => ?_, fun _ => ⟨rfl, rfl⟩⟩
    have hcount := (Dict.values_moveToEnd_perm s.hotCache key).count_eq i
    simp only [List.count_append, count_refs, List.count_cons, List.count_nil] at hcount ⊢
    omega
  | none =>
    rw [hlook] at hs
    obtain ⟨hown, hheap, hremote, -, hdecoded⟩ := ha.getDisk key
    rcases hdisk : s.getDisk key with ⟨obj, s₁⟩
    rw [hdisk] at hown hheap hremote hdecoded hs
    cases obj with
    | some obj =>
      cases hs
      refine ⟨[], (hown.updateHotCache List.mem_cons_self).take, fun _ => ⟨rfl, ?_⟩⟩
      rw [← hdecoded]
      unfold StorageManager.updateHotCache
      split_ifs
      · rfl
      · rfl
    | none =>
      cases hs
      obtain ⟨new, hnew, hclean⟩ := hown.getRemote key answer
      refine ⟨new, hnew, fun h => ?_⟩
      have hnot : key ∉ s.hotCache := fun hmem => by
        obtain ⟨v, hv⟩ := (Dict.mem_iff_lookup _ _).mp hmem
        rw [hlook] at hv
        cases hv
      have hused := (h.resolve_left hnot).resolve_left fun h => h rfl
      rw [← hdecoded]
      refine hclean fun r a hr hans => ?_
      have hw := hused r a (hremote ▸ hr) hans
      unfold Wasted at hw ⊢
      rwa [hheap rfl]

theorem Accounted.finishDiskPut (ha : s.Accounted leaked) (n : ℕ) : (s.finishDiskPut n).Accounted leaked := by
  unfold StorageManager.finishDiskPut
  split
  · exact ha
  · rename_i key obj htask
    split
    · exact ha
    · obtain ⟨hn, hget⟩ := List.getElem?_eq_some_iff.mp htask
      refine Heap.Counts.down (Heap.Counts.congr ha fun i => ?_)
      have hcount := ((List.getElem_cons_eraseIdx_perm hn).map (·.2)).count_eq i
      rw [List.map_cons, hget] at hcount
      simp only [List.count_append, count_refs, List.count_cons] at hcount ⊢
      omega

theorem Accounted.finishRemotePut (ha : s.Accounted leaked) (n : ℕ) : (s.finishRemotePut n).Accounted leaked := by
  unfold StorageManager.finishRemotePut
  split
  · exact ha
  · rename_i key sent htask
    obtain ⟨hn, hget⟩ := List.getElem?_eq_some_iff.mp htask
    have hperm := (List.getElem_cons_eraseIdx_perm hn).filterMap (·.2)
    rw [hget] at hperm
    cases sent with
    | none =>
      refine Heap.Counts.congr ha fun i => ?_
      have hcount := hperm.count_eq i
      simp only [List.filterMap_cons, List.count_append, count_refs] at hcount ⊢
      omega
    | some obj =>
      refine Heap.Counts.down (Heap.Counts.congr ha fun i => ?_)
      have hcount := hperm.count_eq i
      simp only [List.filterMap_cons, List.count_append, count_refs, List.count_cons] at hcount ⊢
      omega

/-- A prefetch that ends leaks the buffer it loaded. -/
theorem Accounted.finishPrefetch (ha : s.Accounted leaked) (key : K) (loaded : Bool) :
    ∃ new, (s.finishPrefetch key loaded).Accounted (new ++ leaked) ∧
      ((∀ shape dtype, s.prefetchTasks.lookup key = some (shape, dtype) → Refuses s.heap shape dtype) →
        new = [] ∧ (s.finishPrefetch key loaded).hotCache = s.hotCache) := by
  unfold StorageManager.finishPrefetch
  split
  · exact ⟨[], ha, fun _ => ⟨rfl, rfl⟩⟩
  · rename_i shape dtype htask
    dsimp only
    rcases halloc : s.heap.allocateObj shape dtype with ⟨buffer, heap⟩
    cases buffer with
    | none =>
      obtain rfl := Heap.allocateObj_none halloc
      exact ⟨[], ha, fun _ => ⟨rfl, rfl⟩⟩
    | some buffer =>
      have hown := ha.allocated halloc
      have hroom : ¬ Refuses s.heap shape dtype := by
        unfold Refuses
        rw [halloc]
        exact Option.some_ne_none _
      dsimp only
      split_ifs with hloaded
      · rcases halloc' : heap.allocateObj shape dtype with ⟨obj, heap'⟩
        cases obj with
        | none =>
          obtain rfl := Heap.allocateObj_none halloc'
          exact ⟨[buffer], hown, fun h => absurd (h shape dtype htask) hroom⟩
        | some obj =>
          -- what was under the key before is leaked too
          have hown' := hown.allocated halloc'
          refine ⟨buffer :: (s.hotCache.lookup key).toList, hown'.congr fun i => ?_,
            fun h => absurd (h shape dtype htask) hroom⟩
          have hset := count_values_set s.hotCache key obj i
          cases hlook : s.hotCache.lookup key with
          | none =>
            have hnot : key ∉ s.hotCache := AList.lookup_eq_none.mp hlook
            rw [Dict.erase_of_notMem hnot] at hset
            simp only [Option.toList, List.count_append, count_refs, List.count_cons, List.count_nil] at hset ⊢
            omega
          | some old =>
            have herase := count_values_erase hlook i
            simp only [Option.toList, List.count_append, count_refs, List.count_cons, List.count_nil] at hset herase ⊢
            omega
      · exact ⟨[buffer], hown, fun h => absurd (h shape dtype htask) hroom⟩

/-! ### Every step -/

/-- A step that leaks nothing and does not enter an object under two keys. -/
def Clean (s : StorageManager K) : Op K → Prop
  | .put key obj =>
    (s.existsInPutTasks key = true ∨ ∀ r ∈ s.remote, r.serde = .naive) ∧
      (s.useHot = true → ∀ e ∈ s.hotCache.entries, e.2 = obj → e.1 = key)
  | .get key answer =>
    key ∈ s.hotCache ∨ (s.getDisk key).1 ≠ none ∨ ∀ r ∈ s.remote, ∀ a ∈ answer, ¬ s.Wasted r a
  | .finishPrefetch key _ => ∀ t ∈ s.prefetchTasks.lookup key, Refuses s.heap t.1 t.2
  | .allocate _ _ | .prefetch _ | .finishDiskPut _ | .finishRemotePut _ | .release _ | .releaseDecoded _ => True

theorem step_allocate {shape : List ℕ} {dtype : Dtype} (hs : s.step (.allocate shape dtype) = .ok s') :
    ∃ r, s.allocate shape dtype = (.ok r, s') := by
  unfold StorageManager.step at hs
  dsimp only at hs
  rcases halloc : s.allocate shape dtype with ⟨r, s₁⟩
  rw [halloc] at hs
  cases r with
  | error e => cases hs
  | ok obj =>
    cases hs
    exact ⟨obj, rfl⟩

/-- **Every step accounts for its references, and a clean one leaks none.** -/
theorem Accounted.step (ha : s.Accounted leaked) {op : Op K} (hop : s.Held op) (hs : s.step op = .ok s') :
    ∃ new, s'.Accounted (new ++ leaked) ∧ (s.Clean op → new = []) := by
  cases op with
  | allocate shape dtype =>
    obtain ⟨r, halloc⟩ := step_allocate hs
    exact ⟨[], ha.allocate halloc, fun _ => rfl⟩
  | put key obj =>
    obtain ⟨new, hnew, hclean⟩ := ha.put hop hs
    exact ⟨new, hnew, fun h => hclean h.1⟩
  | get key answer =>
    obtain ⟨new, hnew, hclean⟩ := ha.get hs
    refine ⟨new, hnew, fun h => (hclean ?_).1⟩
    exact h.imp_right (Or.imp_right fun hused r a hr hans => hused r hr a hans)
  | prefetch key =>
    cases hs
    refine ⟨[], ?_, fun _ => rfl⟩
    unfold StorageManager.prefetch
    split_ifs
    · exact ha
    · split
      · exact ha
      · split
        · exact ha
        · exact ha
  | finishDiskPut n =>
    cases hs
    exact ⟨[], ha.finishDiskPut n, fun _ => rfl⟩
  | finishRemotePut n =>
    cases hs
    exact ⟨[], ha.finishRemotePut n, fun _ => rfl⟩
  | finishPrefetch key loaded =>
    cases hs
    obtain ⟨new, hnew, hclean⟩ := ha.finishPrefetch key loaded
    exact ⟨new, hnew, fun h => (hclean fun shape dtype ht => h (shape, dtype) ht).1⟩
  | release obj =>
    cases hs
    exact ⟨[], ha.drop hop, fun _ => rfl⟩
  | releaseDecoded n =>
    cases hs
    exact ⟨[], ha, fun _ => rfl⟩

/-- In a run every reference is accounted for. -/
theorem exists_accounted {bufferSize : ℕ} {useHot : Bool} {maxDiskSize : Option ℕ} {serde : Option Serde}
    {ops : List (Op K)} (hheld : Along step Held (new K bufferSize useHot maxDiskSize serde) ops)
    (hrun : Reaches step (new K bufferSize useHot maxDiskSize serde) ops s) : ∃ leaked, s.Accounted leaked := by
  have hstart : ∃ leaked, (new K bufferSize useHot maxDiskSize serde).Accounted leaked := ⟨[], accounted_new _ _ _ _⟩
  refine reaches_invariant (fun s op s' (ha : ∃ leaked, Accounted s leaked) hop hs => ?_) hstart hheld hrun
  obtain ⟨leaked, ha⟩ := ha
  obtain ⟨new, hnew, -⟩ := ha.step hop hs
  exact ⟨new ++ leaked, hnew⟩

end StorageManager

end FairCache
