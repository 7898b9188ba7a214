import FairCache.Cache.Contents

/-!
# What a retrieval answers

* `Resident s tokens k` : chunk `k` of the tokens is cached; `SuffixMask` : the masks that `retrieve` supports;
* `retrieved_eq` : the retrieved chunks are the run of resident ones; `rows_of_resident` : their rows;
* `retrieve_kv`, `retrieve_retMask` : the answer in terms of that run;
* `retrieve_sound` : the answer is the longest cached prefix of what the mask leaves, row by row as it was stored.
-/

namespace FairCache

open Lib

/-- The mask leaves out the first `skip` of `n` tokens. -/
def SuffixMask (mask : Option (List Bool)) (n skip : ℕ) : Prop :=
  mask = some (List.replicate skip false ++ List.replicate (n - skip) true) ∨ mask = none ∧ skip = 0

theorem SuffixMask.numSkipTok {mask : Option (List Bool)} {n skip : ℕ} (h : SuffixMask mask n skip) :
    (mask.map FairCache.numSkipTok).getD 0 = skip := by
  rcases h with rfl | ⟨rfl, rfl⟩
  · simp [FairCache.numSkipTok, List.count_replicate]
  · rfl

namespace LMCacheEngine

variable {md : LMCacheMemPoolMetadata} {T F R : Type} [LinearOrder F] (cfg : CacheConfig T)

/-- Chunk `k` of the tokens is cached. -/
def Resident (s : LMCacheEngine md F R) (tokens : List T) (k : ℕ) : Prop :=
  k * cfg.chunkSize < tokens.length ∧ cfg.chunkKey tokens k ∈ s.backend.dict

/-- The rows of a resident block. -/
def rows (b : LMCLocalFairBackend md CacheEngineKey F R) (key : CacheEngineKey) : List R :=
  ((b.dict.lookup key).map fun e => b.mpool.data e.kvObj).getD []

/-- The keys of the run of resident chunks from chunk `n` on. -/
def residentRun (s : LMCacheEngine md F R) (tokens : List T) (n : ℕ) : List CacheEngineKey :=
  (cfg.keysFrom tokens n).takeWhile s.backend.contains

/-! ## The run of resident chunks -/

/-- With a client the retrieved chunks are the leading resident ones. -/
theorem retrieved_eq {ctx : Option ClientId} {c : ClientId} (hc : activeClient ctx = some c)
    (b : LMCLocalFairBackend md CacheEngineKey F R) (keys : List CacheEngineKey) :
    upToMissing (keys.zip (batchedGet b ctx keys)) = (keys.takeWhile b.contains).map fun key => (key, rows b key) := by
  induction keys with
  | nil => rfl
  | cons key keys ih =>
    have hcons : batchedGet b ctx (key :: keys) = (if b.contains key then b.get ctx key else none) ::
      batchedGet b ctx keys := rfl
    rw [hcons, List.zip_cons_cons]
    cases he : b.dict.lookup key with
    | none =>
      have hno : b.contains key = false := decide_eq_false (AList.lookup_eq_none.mp he)
      rw [hno, List.takeWhile_cons_of_neg (by simp [hno])]
      rfl
    | some e =>
      have hyes : b.contains key = true := decide_eq_true (Dict.mem_of_lookup he)
      have hget : b.get ctx key = some (b.mpool.data e.kvObj) := by
        rw [LMCLocalFairBackend.get, hc, he]
        rfl
      rw [hyes, if_pos rfl, hget, upToMissing, ih, List.takeWhile_cons_of_pos hyes, List.map_cons, rows, he]
      rfl

section Run
variable {s : LMCacheEngine md F R} {tokens : List T} {n : ℕ}

theorem getElem?_residentRun {j : ℕ} (hj : j < (s.residentRun cfg tokens n).length) :
    s.Resident cfg tokens (n + j) ∧ (s.residentRun cfg tokens n)[j]? = some (cfg.chunkKey tokens (n + j)) := by
  obtain ⟨key, hkey, hrun, hmem⟩ := getElem?_takeWhile hj
  rw [CacheConfig.getElem?_keysFrom] at hkey
  split_ifs at hkey with hlt
  cases hkey
  exact ⟨⟨hlt, of_decide_eq_true hmem⟩, hrun⟩

/-- The run ends where a chunk is missing. -/
theorem not_resident_length_residentRun : ¬ s.Resident cfg tokens (n + (s.residentRun cfg tokens n).length) := by
  rintro ⟨hlt, hmem⟩
  have hkey := (cfg.getElem?_keysFrom tokens n _).trans (if_pos hlt)
  have hno : s.backend.contains _ = false := eq_false_of_getElem?_length_takeWhile hkey
  exact of_decide_eq_false hno hmem

end Run

/-! ## The rows of resident chunks -/

variable [Field F] [FloatMath F]

/-- **A resident chunk holds a row for each of its tokens, and each is the one supplied for the token by the last
store of the chunk.** -/
theorem rows_of_resident (hinj : Function.Injective2 cfg.hash)
    (hinit : ∀ tokens prefixHash, cfg.hash tokens prefixHash ≠ CacheConfig.getInitHash) {ops : List (Op T F R)}
    {s : LMCacheEngine md F R} (hrun : Reaches (step cfg) (new md F R) ops s) {tokens : List T} {k : ℕ}
    (h : s.Resident cfg tokens k) :
    (rows s.backend (cfg.chunkKey tokens k)).length = min cfg.chunkSize (tokens.length - k * cfg.chunkSize) ∧
      ∃ a : StoreArgs T F R, LastStored cfg md ops (cfg.chunkKey tokens k) a ∧
        a.tokens.take ((k + 1) * cfg.chunkSize) = tokens.take ((k + 1) * cfg.chunkSize) ∧
        ∀ x, x < min cfg.chunkSize (tokens.length - k * cfg.chunkSize) →
          numSkipTok a.mask ≤ k * cfg.chunkSize + x ∧
          (rows s.backend (cfg.chunkKey tokens k))[x]? =
            a.kvTensors[k * cfg.chunkSize + x - numSkipTok a.mask]? := by
  obtain ⟨hk, hmem⟩ := h
  obtain ⟨e, he⟩ := (Dict.mem_iff_lookup _ _).mp hmem
  obtain ⟨a, hlast, htokens, hskip, hlen, hdata⟩ := exists_lastStored cfg hinj hinit hrun hk he
  have hrows : rows s.backend (cfg.chunkKey tokens k) =
      (a.kvTensors.drop (k * cfg.chunkSize - numSkipTok a.mask)).take cfg.chunkSize := by
    rw [rows, he]
    exact hdata
  have hends := congrArg List.length htokens
  have hmul := Nat.add_one_mul k cfg.chunkSize
  rw [List.length_take, List.length_take] at hends
  refine ⟨?_, a, hlast, htokens, fun x hx => ⟨by omega, ?_⟩⟩
  · rw [hrows, List.length_take, List.length_drop]
    omega
  · rw [hrows, List.getElem?_take_of_lt (by omega), List.getElem?_drop]
    congr 1
    omega

/-- The rows of the run of resident chunks. -/
def runRows (s : LMCacheEngine md F R) (tokens : List T) (n : ℕ) : List (List R) :=
  (s.residentRun cfg tokens n).map (rows s.backend)

theorem cutLike_runRows (hinj : Function.Injective2 cfg.hash)
    (hinit : ∀ tokens prefixHash, cfg.hash tokens prefixHash ≠ CacheConfig.getInitHash) {ops : List (Op T F R)}
    {s : LMCacheEngine md F R} (hrun : Reaches (step cfg) (new md F R) ops s) (tokens : List T) (n : ℕ) :
    CutLike cfg.chunkSize (tokens.length - n * cfg.chunkSize) (s.runRows cfg tokens n) := by
  intro j l hl
  obtain ⟨key, hkey, rfl⟩ := Option.map_eq_some_iff.mp ((List.getElem?_map ..).symm.trans hl)
  obtain ⟨hres, hget⟩ := getElem?_residentRun cfg (List.getElem?_eq_some_iff.mp hkey).1
  rw [hkey] at hget
  cases hget
  rw [(rows_of_resident cfg hinj hinit hrun hres).1, Nat.add_mul, Nat.sub_sub]

/-! ## The answer -/

theorem concatenate_kv {retrieved : List (CacheEngineKey × List R)} {len skip : ℕ}
    (hcut : CutLike cfg.chunkSize len (retrieved.map (·.2))) (hlen : skip % cfg.chunkSize < len) (numTokens : ℕ)
    (attributionInfo : List (Bool × List ClientId)) :
    (concatenate cfg numTokens skip retrieved attributionInfo).kv =
      (retrieved.map (·.2)).flatten.drop (skip % cfg.chunkSize) := by
  have hlt := Nat.mod_lt skip cfg.chunkSize_pos
  unfold concatenate
  cases hrows : retrieved.map (·.2) with
  | nil => rw [List.flatten_nil, List.drop_nil]
  | cons chunk rest =>
    have hhead := (hrows ▸ hcut).head
    have hfits : (chunk.drop (skip % cfg.chunkSize)).length ≤ cfg.chunkSize := by
      rw [List.length_drop]
      omega
    change ((cfg.split (chunk.drop (skip - skip / cfg.chunkSize * cfg.chunkSize))).headD [] :: rest).flatten = _
    rw [← Nat.mod_eq_sub_div_mul, cfg.headD_split hfits, List.flatten_cons, List.flatten_cons, List.drop_append_of_le_length (by omega)]

theorem concatenate_retMask (numTokens skip : ℕ) (retrieved : List (CacheEngineKey × List R))
    (attributionInfo : List (Bool × List ClientId)) :
    (concatenate cfg numTokens skip retrieved attributionInfo).retMask =
      (List.range numTokens).map fun i =>
        decide (skip ≤ i ∧ i < skip + (concatenate cfg numTokens skip retrieved attributionInfo).kv.length) := by
  unfold concatenate
  cases retrieved.map (·.2) with
  | nil =>
    refine List.ext_getElem (by simp) fun i hi hi' => ?_
    simp
  | cons chunk rest =>
    refine List.ext_getElem (by simp) fun i hi hi' => ?_
    rw [Bool.eq_iff_iff]
    simp

theorem concatenate_retrievedKeys (numTokens skip : ℕ) (retrieved : List (CacheEngineKey × List R))
    (attributionInfo : List (Bool × List ClientId)) :
    (concatenate cfg numTokens skip retrieved attributionInfo).retrievedKeys = retrieved.map (·.1) := by
  unfold concatenate
  cases retrieved.map (·.2) <;> rfl

theorem concatenate_retrievalAttribution {retrieved : List (CacheEngineKey × List R)}
    {attributionInfo : List (Bool × List ClientId)} (h : retrieved = [] → attributionInfo = [])
    (numTokens skip : ℕ) :
    (concatenate cfg numTokens skip retrieved attributionInfo).retrievalAttribution =
      attributionTokens cfg attributionInfo (skip - skip / cfg.chunkSize * cfg.chunkSize) := by
  unfold concatenate
  cases retrieved with
  | nil => rw [h rfl]; rfl
  | cons x l => rfl

section Answer
variable {s : LMCacheEngine md F R} {a : RetrieveArgs T F} {skip : ℕ} {c : ClientId}

/-! ### The keys and the attribution -/

/-- The keys of the retrieved chunks: without a client there are none. -/
theorem retrieve_retrievedKeys (hmask : SuffixMask a.mask a.tokens.length skip) :
    (s.retrieve cfg a).1.retrievedKeys =
      match activeClient a.clientIdCtx with
      | none => []
      | some _ => s.residentRun cfg a.tokens (skip / cfg.chunkSize) := by
  unfold retrieve
  simp only [hmask.numSkipTok, concatenate_retrievedKeys]
  cases hc : activeClient a.clientIdCtx with
  | none =>
    have hget : ∀ key, (if s.backend.contains key then s.backend.get a.clientIdCtx key else none) = none := by
      intro key
      rw [LMCLocalFairBackend.get, hc]
      split_ifs <;> rfl
    cases cfg.keysFrom a.tokens (skip / cfg.chunkSize) with
    | nil => rfl
    | cons key keys =>
      simp only [batchedGet, hget, List.map_cons, List.zip_cons_cons, upToMissing]
      rfl
  | some c =>
    rw [retrieved_eq hc, List.map_map]
    exact List.map_id _

theorem retrieve_retrievalAttribution (hmask : SuffixMask a.mask a.tokens.length skip) :
    (s.retrieve cfg a).1.retrievalAttribution =
      attributionTokens cfg (s.backend.getAttributionInfo a.clientIdCtx (s.retrieve cfg a).1.retrievedKeys)
        (skip - skip / cfg.chunkSize * cfg.chunkSize) := by
  unfold retrieve
  simp only [hmask.numSkipTok, concatenate_retrievedKeys]
  rw [concatenate_retrievalAttribution]
  · generalize upToMissing _ = retrieved
    cases retrieved with
    | nil =>
      rw [if_neg (by simp), List.map_nil, LMCLocalFairBackend.getAttributionInfo]
      cases activeClient a.clientIdCtx <;> rfl
    | cons x l => rw [if_pos (by simp)]
  · intro h
    rw [h]
    rfl

/-- Of the backend a retrieval changes the access records of the chunks it read. -/
theorem retrieve_backend : (s.retrieve cfg a).2.backend =
    s.backend.updateAfterGet a.clientIdCtx (s.retrieve cfg a).1.retrievedKeys a.clock := by
  unfold retrieve
  simp only [concatenate_retrievedKeys]

/-! ### The rows -/

/-- With a client the answer is made of the run of resident chunks. -/
theorem exists_retrieve_eq (hc : activeClient a.clientIdCtx = some c)
    (hmask : SuffixMask a.mask a.tokens.length skip) :
    ∃ retrieved attributionInfo,
      (s.retrieve cfg a).1 = concatenate cfg a.tokens.length skip retrieved attributionInfo ∧
      retrieved.map (·.2) = s.runRows cfg a.tokens (skip / cfg.chunkSize) := by
  unfold retrieve
  simp only [hmask.numSkipTok]
  refine ⟨_, _, rfl, ?_⟩
  rw [retrieved_eq hc, List.map_map]
  rfl

/-- One row is answered for each token from the masked ones to the end of the run. -/
theorem length_kv_retrieve (hinj : Function.Injective2 cfg.hash)
    (hinit : ∀ tokens prefixHash, cfg.hash tokens prefixHash ≠ CacheConfig.getInitHash) {ops : List (Op T F R)}
    (hrun : Reaches (step cfg) (new md F R) ops s) (hc : activeClient a.clientIdCtx = some c)
    (hmask : SuffixMask a.mask a.tokens.length skip) (hskip : skip < a.tokens.length) :
    (s.retrieve cfg a).1.kv.length = min a.tokens.length
      ((skip / cfg.chunkSize + (s.residentRun cfg a.tokens (skip / cfg.chunkSize)).length) * cfg.chunkSize) - skip := by
  have hdiv := Nat.div_add_mod' skip cfg.chunkSize
  have hcut := cutLike_runRows cfg hinj hinit hrun a.tokens (skip / cfg.chunkSize)
  obtain ⟨retrieved, info, hanswer, hretrieved⟩ := exists_retrieve_eq (s := s) cfg hc hmask
  rw [← hretrieved] at hcut
  have hkv := concatenate_kv cfg hcut (show skip % cfg.chunkSize < _ by omega) a.tokens.length info
  have hnum : (retrieved.map (·.2)).length = (s.residentRun cfg a.tokens (skip / cfg.chunkSize)).length := by
    rw [hretrieved, runRows, List.length_map]
  have hmul := Nat.add_mul (skip / cfg.chunkSize) (s.residentRun cfg a.tokens (skip / cfg.chunkSize)).length
    cfg.chunkSize
  rw [hanswer, hkv, List.length_drop, hcut.length_flatten, hnum]
  omega

/-- **A retrieval answers the longest cached prefix of what the mask leaves.** The mask is true from `skip` up to the
end of the maximal run of resident chunks from chunk `skip / chunkSize` on, there is one row for each of these
tokens, and each row is the one supplied for its token by the last store of its chunk, whose tokens agree through the
chunk. `hinit` holds of a hex digest, which is never empty. -/
theorem retrieve_sound (hinj : Function.Injective2 cfg.hash)
    (hinit : ∀ tokens prefixHash, cfg.hash tokens prefixHash ≠ CacheConfig.getInitHash) {ops : List (Op T F R)}
    (hrun : Reaches (step cfg) (new md F R) ops s) (hc : activeClient a.clientIdCtx = some c)
    (hmask : SuffixMask a.mask a.tokens.length skip) (hskip : skip < a.tokens.length) :
    ∃ n stop, (∀ j < n, s.Resident cfg a.tokens (skip / cfg.chunkSize + j)) ∧
      ¬ s.Resident cfg a.tokens (skip / cfg.chunkSize + n) ∧
      stop = min a.tokens.length ((skip / cfg.chunkSize + n) * cfg.chunkSize) ∧
      (s.retrieve cfg a).1.retMask = (List.range a.tokens.length).map (fun i => decide (skip ≤ i ∧ i < stop)) ∧
      (s.retrieve cfg a).1.kv.length = stop - skip ∧
      ∀ i, skip ≤ i → i < stop → ∃ st : StoreArgs T F R,
        LastStored cfg md ops (cfg.chunkKey a.tokens (i / cfg.chunkSize)) st ∧
        st.tokens.take ((i / cfg.chunkSize + 1) * cfg.chunkSize) =
          a.tokens.take ((i / cfg.chunkSize + 1) * cfg.chunkSize) ∧
        numSkipTok st.mask ≤ i ∧ i < st.tokens.length ∧
        (s.retrieve cfg a).1.kv[i - skip]? = st.kvTensors[i - numSkipTok st.mask]? := by
  have hcs := cfg.chunkSize_pos
  have hdiv := Nat.div_add_mod' skip cfg.chunkSize
  have hcut := cutLike_runRows cfg hinj hinit hrun a.tokens (skip / cfg.chunkSize)
  obtain ⟨retrieved, info, hanswer, hretrieved⟩ := exists_retrieve_eq (s := s) cfg hc hmask
  rw [← hretrieved] at hcut
  have hkv := concatenate_kv cfg hcut (show skip % cfg.chunkSize < _ by omega) a.tokens.length info
  have hmul := Nat.add_mul (skip / cfg.chunkSize) (s.residentRun cfg a.tokens (skip / cfg.chunkSize)).length
    cfg.chunkSize
  have hlen := length_kv_retrieve cfg hinj hinit hrun hc hmask hskip
  refine ⟨_, _, fun j hj => (getElem?_residentRun cfg hj).1, not_resident_length_residentRun cfg, rfl, ?_, hlen, ?_⟩
  · rw [hanswer, concatenate_retMask, ← hanswer, hlen]
    refine List.map_congr_left fun i _ => decide_eq_decide.mpr (and_congr_right fun h => ?_)
    omega
  · intro i hi hstop
    -- position `i` is row `i % chunkSize` of chunk `i / chunkSize`
    have hi_div := Nat.div_add_mod' i cfg.chunkSize
    have hge : skip / cfg.chunkSize ≤ i / cfg.chunkSize := Nat.div_le_div_right hi
    have hlt : i / cfg.chunkSize < skip / cfg.chunkSize +
        (s.residentRun cfg a.tokens (skip / cfg.chunkSize)).length :=
      (Nat.div_lt_iff_lt_mul hcs).mpr (lt_of_lt_of_le hstop (min_le_right _ _))
    obtain ⟨j, hj⟩ := Nat.exists_eq_add_of_le hge
    have hjlt : j < (s.residentRun cfg a.tokens (skip / cfg.chunkSize)).length := by omega
    obtain ⟨hres, hkey⟩ := getElem?_residentRun cfg hjlt
    rw [← hj] at hres hkey
    obtain ⟨-, st, hlast, htokens, hrow⟩ := rows_of_resident cfg hinj hinit hrun hres
    have hmod := Nat.mod_lt i hcs
    obtain ⟨hst, hget⟩ := hrow (i % cfg.chunkSize) (by omega)
    rw [hi_div] at hst hget
    refine ⟨st, hlast, htokens, hst, ?_, ?_⟩
    · have hends := congrArg List.length htokens
      have hsucc := Nat.add_one_mul (i / cfg.chunkSize) cfg.chunkSize
      rw [List.length_take, List.length_take] at hends
      omega
    · have hoff : skip % cfg.chunkSize + (i - skip) = j * cfg.chunkSize + i % cfg.chunkSize := by
        have := Nat.add_mul (skip / cfg.chunkSize) j cfg.chunkSize
        rw [← hj] at this
        omega
      have hpiece : (j * cfg.chunkSize + i % cfg.chunkSize) / cfg.chunkSize = j := by
        rw [Nat.mul_comm, Nat.mul_add_div hcs, Nat.div_eq_of_lt hmod, Nat.add_zero]
      rw [hanswer, hkv, List.getElem?_drop, hcut.getElem?_flatten hcs, hoff, Nat.mul_add_mod_of_lt hmod, hpiece,
        hretrieved, runRows, List.getElem?_map, hkey]
      exact hget

end Answer

/-! ## A run -/

/-- Token ids written in unary, each closed by a `2`. -/
def unary (tokens : List ℕ) : List Char := tokens.flatMap fun n => List.replicate n '1' ++ ['2']

/-- A hash for runs on concrete inputs: the tokens, a `3` and the prefix hash. -/
def unaryHash (tokens : List ℕ) (prefixHash : String) : String :=
  String.ofList (unary tokens ++ '3' :: prefixHash.toList)

theorem unary_injective {c d : List ℕ} {x y : List Char} (h : unary c ++ '3' :: x = unary d ++ '3' :: y) :
    c = d ∧ x = y := by
  induction c generalizing d with
  | nil =>
    cases d with
    | nil => simpa [unary] using h
    | cons n d => cases n <;> simp [unary, List.replicate_succ] at h
  | cons n c ih =>
    -- both lists start with the same number of ones
    induction n generalizing d with
    | zero =>
      cases d with
      | nil => simp [unary] at h
      | cons n d =>
        cases n with
        | zero =>
          obtain ⟨rfl, rfl⟩ := ih (d := d) (by simpa [unary] using h)
          exact ⟨rfl, rfl⟩
        | succ n => simp [unary, List.replicate_succ] at h
    | succ m ihm =>
      cases d with
      | nil => simp [unary, List.replicate_succ] at h
      | cons n d =>
        cases n with
        | zero => simp [unary, List.replicate_succ] at h
        | succ n =>
          obtain ⟨hcons, rfl⟩ := ihm (d := n :: d) (by simpa [unary, List.replicate_succ] using h)
          cases hcons
          exact ⟨rfl, rfl⟩

theorem unaryHash_injective : Function.Injective2 unaryHash := by
  intro c d p q h
  obtain ⟨rfl, hpq⟩ := unary_injective (String.ofList_injective h)
  exact ⟨rfl, String.toList_injective hpq⟩

theorem unaryHash_ne (tokens : List ℕ) (prefixHash : String) :
    unaryHash tokens prefixHash ≠ CacheConfig.getInitHash := by
  intro h
  have := String.ofList_injective (h.trans (show CacheConfig.getInitHash = String.ofList [] from rfl))
  simp at this

/-- An engine for runs on concrete inputs, with chunks of two tokens. -/
def twoTokens : CacheConfig ℕ :=
  { chunkSize := 2, chunkSize_pos := by decide, modelName := "model", worldSize := 1, workerId := 0, hash := unaryHash }

/-- A store of three tokens, so of one whole chunk and one partial chunk. -/
def threeStored : StoreArgs ℕ ℚ ℕ :=
  { tokens := [1, 2, 3], kvTensors := [10, 20, 30], kvTensorsMask := none, skipExisting := true, blocking := true
    retrievedKeys := [], clientIdCtx := some 1, requestType := none, clock := fun _ => (0, 0) }

/-- The second token of the stored chunk and a token that was not stored. -/
def maskedRetrieve : RetrieveArgs ℕ ℚ :=
  { tokens := [1, 2, 4], mask := some [false, true, true], clientIdCtx := some 1, clock := fun _ => 0 }

theorem retrieve_sound_masked :
    ∃ s, Reaches (step twoTokens) (new .threeChunks ℚ ℕ) [.store threeStored] s ∧
      (s.retrieve twoTokens maskedRetrieve).1.kv = [20] ∧
      ∃ n stop, (∀ j < n, s.Resident twoTokens [1, 2, 4] (1 / 2 + j)) ∧ ¬ s.Resident twoTokens [1, 2, 4] (1 / 2 + n) ∧
        stop = min 3 ((1 / 2 + n) * 2) ∧
        (s.retrieve twoTokens maskedRetrieve).1.retMask =
          (List.range 3).map (fun i => decide (1 ≤ i ∧ i < stop)) ∧
        (s.retrieve twoTokens maskedRetrieve).1.kv.length = stop - 1 := by
  have hrun : ∃ s, Reaches (step twoTokens) (new .threeChunks ℚ ℕ) [.store threeStored] s ∧
      (s.retrieve twoTokens maskedRetrieve).1.kv = [20] := by decide +kernel
  obtain ⟨s, hs, hkv⟩ := hrun
  obtain ⟨n, stop, hres, hmiss, hstop, hmask, hlen, -⟩ :=
    retrieve_sound twoTokens (a := maskedRetrieve) (c := 1) unaryHash_injective unaryHash_ne hs rfl
      (show SuffixMask _ _ 1 from Or.inl rfl) (by decide)
  exact ⟨s, hs, hkv, n, stop, hres, hmiss, hstop, hmask, hlen⟩

end LMCacheEngine

end FairCache
