import FairCache.Cache.Retrieve
import FairCache.Lib.Cursor

/-!
# Stores for a batch

`lmcache_should_store` and `lmcache_store_kv` of the vLLM adapter: after the model has run, the KV of every sequence of a
batch is stored according to the sequence's status.

* `StoreInput` : the batch; `lmcacheShouldStore` : the statuses of its sequences;
* `storeSeq`, `storeLoop`, `lmcacheStoreKv` : the stores, with what the code reads for every sequence;
* `Own` : a sequence is stored according to its own entries; `SameAfterSkipped` : when that is.
  `storesOwn_iff`.
-/

namespace FairCache

open Lib

/-- `StoreStatus`. -/
inductive StoreStatus
  | prefill
  | chunkPrefill
  | decode
  | suffixPrefill
  | none
  deriving DecidableEq

/-- The length that counts is the entry of `seq_lens`, not the length of the sequence. -/
def StoreStatus.readsSeqLens : StoreStatus → Bool
  | .suffixPrefill => true
  | .chunkPrefill => true
  | _ => false

/-- A sequence after the model has run: its tokens, its entry in `seq_lens`, the KV rows that the slots of its tokens hold
and the times that its store reads. -/
structure StoreSeq (T F R : Type) where
  tokenIds : List T
  seqLen : ℕ
  kvCache : ℕ → R
  clock : ℕ → F × F
  seqLen_le : seqLen ≤ tokenIds.length

/-- A group of sequences. -/
structure StoreGroup (T F R : Type) where
  clientId : ClientId
  requestId : String
  doSample : Bool
  seqs : List (StoreSeq T F R)

/-- The batch with what the adapter reads of the metadata; `profileRun` is a run without KV caches. -/
structure StoreInput (T F R : Type) where
  groups : List (StoreGroup T F R)
  numPrefills : ℕ
  hasPrefillMetadata : Bool
  selectedTokenIndices : List ℤ
  blendEffective : Bool
  profileRun : Bool

namespace StoreInput

variable {T F R : Type} (m : StoreInput T F R)

/-- The sequences with their groups. -/
def seqs : List (StoreGroup T F R × StoreSeq T F R) := m.groups.flatMap fun g => g.seqs.map fun q => (g, q)

/-- `seq_lens`. -/
def seqLens : List ℕ := m.seqs.map (·.2.seqLen)

end StoreInput

namespace LMCacheAdapter

variable {md : LMCacheMemPoolMetadata} {T F R : Type}

/-- `xs[i]`. -/
def item {α : Type} (xs : List α) (i : ℕ) : Except PyError α :=
  match xs[i]? with
  | none => .error .indexError
  | some x => .ok x

/-- `xs[i] = x`. -/
def setItem {α : Type} (xs : List α) (i : ℕ) (x : α) : Except PyError (List α) :=
  if i < xs.length then .ok (xs.set i x) else .error .indexError

/-! ## Statuses -/

/-- The loop over the sequences of a group that is sampled: the statuses and the two indices. -/
def prefillStatuses (selectedTokenIndices : List ℤ) :
    List StoreStatus × ℕ × ℕ → List (StoreSeq T F R) → Except PyError (List StoreStatus × ℕ × ℕ)
  | acc, [] => .ok acc
  | (statuses, seqDataIdx, selectedIdx), q :: qs => do
    let selected ← item selectedTokenIndices selectedIdx
    let status := if (q.tokenIds.length : ℤ) - 1 ≠ selected then StoreStatus.suffixPrefill else .prefill
    let statuses ← setItem statuses seqDataIdx status
    prefillStatuses selectedTokenIndices (statuses, seqDataIdx + 1, selectedIdx + 1) qs

/-- The loop over the groups of a prefill. -/
def groupStatuses (selectedTokenIndices : List ℤ) :
    List StoreStatus × ℕ × ℕ → List (StoreGroup T F R) → Except PyError (List StoreStatus × ℕ × ℕ)
  | acc, [] => .ok acc
  | (statuses, seqDataIdx, selectedIdx), g :: gs =>
    if g.doSample then do
      let acc ← prefillStatuses selectedTokenIndices (statuses, seqDataIdx, selectedIdx) g.seqs
      groupStatuses selectedTokenIndices acc gs
    else do
      let statuses ← setItem statuses seqDataIdx .chunkPrefill
      groupStatuses selectedTokenIndices (statuses, seqDataIdx + 1, selectedIdx) gs

/-- `lmcache_should_store`, with or without an engine; the flag is the engine's `save_decode_cache`. -/
def lmcacheShouldStore (cfg : CacheConfig T) (hasEngine saveDecodeCache : Bool) (m : StoreInput T F R) :
    Except PyError (List StoreStatus) :=
  let unstored := List.replicate m.seqLens.length StoreStatus.none
  if hasEngine = false ∨ m.blendEffective = true ∨ m.profileRun = true then .ok unstored
  else if m.numPrefills = m.seqLens.length ∧ m.hasPrefillMetadata = true then
    (groupStatuses m.selectedTokenIndices (unstored, 0, 0) m.groups).map (·.1)
  else if saveDecodeCache then
    .ok (m.seqLens.map fun seqLen => if seqLen % cfg.chunkSize = 0 then .decode else .none)
  else .ok unstored

/-! ## Stores -/

/-- What the code reads and does for a sequence: the engine before it, the entries that it reads and the call of
`engine.store`, if there is one. -/
structure StoreVisit (md : LMCacheMemPoolMetadata) (T F R : Type) [LinearOrder F] where
  engine : LMCacheEngine md F R
  status : StoreStatus
  retrievedKeys : List CacheEngineKey
  seqLenRead : Option ℕ
  stored : Option (StoreArgs T F R)

section Store
variable [LinearOrder F] (cfg : CacheConfig T)

/-- The arguments of `engine.store` for the first `seqLen` tokens, of which the leading ones are skipped. -/
def storeArgs (x : StoreGroup T F R × StoreSeq T F R) (seqLen skipLeadingTokens : ℕ)
    (retrievedKeys : List CacheEngineKey) : StoreArgs T F R :=
  let currentTokens := x.2.tokenIds.take seqLen
  { tokens := currentTokens
    kvTensors := (List.range' skipLeadingTokens (seqLen - skipLeadingTokens)).map x.2.kvCache
    kvTensorsMask := some (List.replicate skipLeadingTokens false ++
      List.replicate (currentTokens.length - skipLeadingTokens) true)
    skipExisting := true, blocking := false, retrievedKeys := retrievedKeys, clientIdCtx := some x.1.clientId
    requestType := some (if "chat-".toList.isPrefixOf x.1.requestId.toList then "chat" else "api")
    clock := x.2.clock }

variable [Field F] [FloatMath F] (storeStatus : List StoreStatus) (seqLens : List ℕ)
  (retrievedKeysList : Option (List (List CacheEngineKey)))

omit [LinearOrder F] [Field F] [FloatMath F] in
/-- `retrieved_keys`. -/
def readKeys (retrievedKeysIdx : ℕ) : Except PyError (List CacheEngineKey) :=
  match retrievedKeysList with
  | none => .ok []
  | some l => item l retrievedKeysIdx

/-- The body of the loop once its entries are read: what it does, the engine after it and whether the indices advance. -/
def storeEntry (s : LMCacheEngine md F R) (x : StoreGroup T F R × StoreSeq T F R) (status : StoreStatus)
    (retrievedKeys : List CacheEngineKey) (seqLenRead : Option ℕ) :
    StoreVisit md T F R × Except PyError (LMCacheEngine md F R × Bool) :=
  let visit (stored : Option (StoreArgs T F R)) : StoreVisit md T F R :=
    { engine := s, status, retrievedKeys, seqLenRead, stored }
  let seqLen := seqLenRead.getD x.2.tokenIds.length
  if status = .decode ∧ seqLen % cfg.chunkSize ≠ 0 then (visit none, .ok (s, false))
  else
    let skipLeadingTokens := s.lookup cfg (x.2.tokenIds.take seqLen)
    if ¬ skipLeadingTokens ≤ seqLen then (visit none, .error (.assertionError "skip_leading_tokens <= seq_len"))
    else if skipLeadingTokens < seqLen then
      if skipLeadingTokens % cfg.chunkSize ≠ 0 then
        (visit none, .error (.assertionError "skip_leading_tokens % engine.chunk_size == 0"))
      else
        let a := storeArgs x seqLen skipLeadingTokens retrievedKeys
        (visit (some a), (s.store cfg a).map fun s' => (s', true))
    else (visit none, .ok (s, true))

/-- The body of the loop. -/
def storeSeq (s : LMCacheEngine md F R) (seqDataIdx retrievedKeysIdx : ℕ) (x : StoreGroup T F R × StoreSeq T F R) :
    Except PyError (StoreVisit md T F R × Except PyError (LMCacheEngine md F R × Bool)) := do
  let status ← item storeStatus seqDataIdx
  let retrievedKeys ← readKeys retrievedKeysList retrievedKeysIdx
  if status = .none then
    return ({ engine := s, status, retrievedKeys, seqLenRead := none, stored := none }, .ok (s, false))
  else if status.readsSeqLens then do
    let seqLen ← item seqLens seqDataIdx
    return storeEntry cfg s x status retrievedKeys (some seqLen)
  else return storeEntry cfg s x status retrievedKeys none

/-- The loop over the sequences of all groups: the sequences that it gets to, and the engine if nothing is raised. -/
def storeLoop : LMCacheEngine md F R → ℕ → ℕ → List (StoreGroup T F R × StoreSeq T F R) →
    List (StoreVisit md T F R) × Except PyError (LMCacheEngine md F R)
  | s, _, _, [] => ([], .ok s)
  | s, seqDataIdx, retrievedKeysIdx, x :: xs =>
    match storeSeq cfg storeStatus seqLens retrievedKeysList s seqDataIdx retrievedKeysIdx x with
    | .error e => ([], .error e)
    | .ok (v, .error e) => ([v], .error e)
    | .ok (v, .ok (s', advances)) =>
      let step := if advances then 1 else 0
      let (vs, result) := storeLoop s' (seqDataIdx + step) (retrievedKeysIdx + step) xs
      (v :: vs, result)

/-- `lmcache_store_kv`. -/
def lmcacheStoreKv (s : LMCacheEngine md F R) (m : StoreInput T F R) :
    List (StoreVisit md T F R) × Except PyError (LMCacheEngine md F R) :=
  storeLoop cfg storeStatus m.seqLens retrievedKeysList s 0 0 m.seqs

/-! ## Own entries -/

omit [LinearOrder F] [Field F] [FloatMath F] in
/-- The code passes over the sequence without advancing its indices. -/
def passesOver (x : StoreGroup T F R × StoreSeq T F R) (status : StoreStatus) : Bool :=
  decide (status = .none ∨ status = .decode ∧ x.2.tokenIds.length % cfg.chunkSize ≠ 0)

omit [LinearOrder F] [Field F] [FloatMath F] in
/-- The keys that were retrieved for the `i`-th sequence; none, if no list is given. -/
def keysAt (i : ℕ) : Option (List CacheEngineKey) :=
  match retrievedKeysList with
  | none => some []
  | some l => l[i]?

omit [LinearOrder F] [Field F] [FloatMath F] in
/-- The entries of the `i`-th sequence. -/
def entries (i : ℕ) : Option StoreStatus × Option (List CacheEngineKey) := (storeStatus[i]?, keysAt retrievedKeysList i)

omit [LinearOrder F] [Field F] [FloatMath F] in
/-- The code passes over the `i`-th sequence if it reads these entries. -/
def skips (m : StoreInput T F R) (entry : Option StoreStatus × Option (List CacheEngineKey)) (i : ℕ) : Bool :=
  entry.1.any fun status => m.seqs[i]?.any fun x => passesOver cfg x status

omit [LinearOrder F] [Field F] [FloatMath F] in
/-- Among the first `n` sequences, those after one that is to be passed over have the same entries as it. -/
def SameAfterSkipped (m : StoreInput T F R) (n : ℕ) : Prop :=
  LikeStayed (entries storeStatus retrievedKeysList) (skips cfg m) n

omit [LinearOrder F] [Field F] [FloatMath F] in
instance (m : StoreInput T F R) (n : ℕ) : Decidable (SameAfterSkipped cfg storeStatus retrievedKeysList m n) :=
  inferInstanceAs (Decidable (LikeStayed _ _ n))

omit [Field F] [FloatMath F] in
/-- The call of `engine.store` that a sequence is due: if it has a status, is aligned and is not cached as a whole. -/
def dueCall (s : LMCacheEngine md F R) (x : StoreGroup T F R × StoreSeq T F R) (status : StoreStatus)
    (retrievedKeys : List CacheEngineKey) : Option (StoreArgs T F R) :=
  let seqLen := if status.readsSeqLens then x.2.seqLen else x.2.tokenIds.length
  if status ≠ .none ∧ (status = .decode → seqLen % cfg.chunkSize = 0) ∧
      s.lookup cfg (x.2.tokenIds.take seqLen) < seqLen then
    some (storeArgs x seqLen (s.lookup cfg (x.2.tokenIds.take seqLen)) retrievedKeys)
  else none

/-- The `i`-th sequence is processed with its own entries, and stored as these say. -/
structure Own (m : StoreInput T F R) (i : ℕ) (v : StoreVisit md T F R) : Prop where
  status : storeStatus[i]? = some v.status
  retrievedKeys : keysAt retrievedKeysList i = some v.retrievedKeys
  seqLen : ∀ seqLen ∈ v.seqLenRead, m.seqLens[i]? = some seqLen
  stored : ∀ x ∈ m.seqs[i]?, v.stored = dueCall cfg v.engine x v.status v.retrievedKeys

end Store

/-! ## The lookup -/

section Lookup
variable [LinearOrder F] {cfg : CacheConfig T} {s : LMCacheEngine md F R}

theorem lookupFrom_eq (total : ℕ) (hashes : List String) : ∀ k,
    s.lookupFrom cfg total hashes (min (k * cfg.chunkSize) total) =
      min ((k + ((hashes.map cfg.makeKey).takeWhile s.backend.contains).length) * cfg.chunkSize) total := by
  induction hashes with
  | nil => intro k; rfl
  | cons h hashes ih =>
    intro k
    rw [LMCacheEngine.lookupFrom, List.map_cons]
    split_ifs with hc
    · have hnext : min (min (k * cfg.chunkSize) total + cfg.chunkSize) total = min ((k + 1) * cfg.chunkSize) total := by
        rw [Nat.add_one_mul]
        omega
      rw [hnext, ih, List.takeWhile_cons_of_pos hc, List.length_cons, Nat.add_right_comm, Nat.add_assoc]
    · rw [List.takeWhile_cons_of_neg hc, List.length_nil, Nat.add_zero]

/-- A lookup answers the tokens of the run of resident chunks. -/
theorem lookup_eq (cfg : CacheConfig T) (s : LMCacheEngine md F R) (tokens : List T) :
    s.lookup cfg tokens = min ((s.residentRun cfg tokens 0).length * cfg.chunkSize) tokens.length := by
  have h : s.lookupFrom cfg tokens.length _ (min (0 * cfg.chunkSize) tokens.length) = _ :=
    lookupFrom_eq tokens.length (cfg.prefixHash (cfg.chunkTokens tokens) 0) 0
  rw [Nat.zero_mul, Nat.zero_min, Nat.zero_add] at h
  exact h

theorem lookup_le (cfg : CacheConfig T) (s : LMCacheEngine md F R) (tokens : List T) :
    s.lookup cfg tokens ≤ tokens.length := by
  have := lookup_eq cfg s tokens
  omega

theorem lookup_mod {tokens : List T} (h : s.lookup cfg tokens < tokens.length) :
    s.lookup cfg tokens % cfg.chunkSize = 0 := by
  have hrun := lookup_eq cfg s tokens
  rw [show s.lookup cfg tokens = (s.residentRun cfg tokens 0).length * cfg.chunkSize by omega]
  exact Nat.mul_mod_left _ _

end Lookup

/-! ## One sequence -/

section One
variable [LinearOrder F] [Field F] [FloatMath F] {cfg : CacheConfig T} {storeStatus : List StoreStatus}
  {seqLens : List ℕ} {retrievedKeysList : Option (List (List CacheEngineKey))}

theorem item_eq_ok {α : Type} {xs : List α} {i : ℕ} {x : α} (h : item xs i = .ok x) : xs[i]? = some x := by
  unfold item at h
  split at h
  · cases h
  · rename_i y hy
    cases h
    exact hy

theorem readKeys_eq_ok {i : ℕ} {keys : List CacheEngineKey} (h : readKeys retrievedKeysList i = .ok keys) :
    keysAt retrievedKeysList i = some keys := by
  unfold readKeys at h
  unfold keysAt
  split at h
  · cases h
    rfl
  · exact item_eq_ok h

/-- What was read for a sequence whose entries are read at `p`. -/
structure ReadAt (cfg : CacheConfig T) (storeStatus : List StoreStatus) (seqLens : List ℕ)
    (retrievedKeysList : Option (List (List CacheEngineKey))) (p : ℕ) (x : StoreGroup T F R × StoreSeq T F R)
    (v : StoreVisit md T F R) : Prop where
  status : storeStatus[p]? = some v.status
  retrievedKeys : keysAt retrievedKeysList p = some v.retrievedKeys
  seqLenRead : v.seqLenRead = if v.status.readsSeqLens then seqLens[p]? else none
  stored : v.stored = if v.status = .none then none
    else (storeEntry cfg v.engine x v.status v.retrievedKeys v.seqLenRead).1.stored

/-- The visit of a sequence repeats what was read. -/
theorem storeEntry_visit (cfg : CacheConfig T) (s : LMCacheEngine md F R) (x : StoreGroup T F R × StoreSeq T F R) (status : StoreStatus)
    (keys : List CacheEngineKey) (seqLenRead : Option ℕ) :
    let v := (storeEntry cfg s x status keys seqLenRead).1
    v.engine = s ∧ v.status = status ∧ v.retrievedKeys = keys ∧ v.seqLenRead = seqLenRead := by
  unfold storeEntry
  dsimp only
  split_ifs <;> exact ⟨rfl, rfl, rfl, rfl⟩

/-- The indices advance unless the sequence is passed over. -/
theorem storeEntry_advances {s s' : LMCacheEngine md F R} {x : StoreGroup T F R × StoreSeq T F R} {status : StoreStatus}
    {keys : List CacheEngineKey} {seqLenRead : Option ℕ} {advances : Bool} (hnone : status ≠ .none)
    (hread : status = .decode → seqLenRead = none)
    (h : (storeEntry cfg s x status keys seqLenRead).2 = .ok (s', advances)) : advances = !passesOver cfg x status := by
  have hpasses : (status = .decode ∧ seqLenRead.getD x.2.tokenIds.length % cfg.chunkSize ≠ 0) ↔
      passesOver cfg x status = true := by
    unfold passesOver
    rw [decide_eq_true_iff, or_iff_right hnone]
    refine and_congr_right fun hdecode => ?_
    rw [hread hdecode]
    rfl
  unfold storeEntry at h
  dsimp only at h
  split_ifs at h with hskip hle hlt hmod
  · cases h
    rw [hpasses.mp hskip]
    rfl
  · rw [Bool.eq_false_iff.mpr (mt hpasses.mpr hskip)]
    obtain ⟨s₁, -, hs₁⟩ := map_ok h
    exact (Prod.mk.inj hs₁).2.symm
  · cases h
    rw [Bool.eq_false_iff.mpr (mt hpasses.mpr hskip)]
    rfl

theorem storeEntry_readAt {s : LMCacheEngine md F R} {p : ℕ} {x : StoreGroup T F R × StoreSeq T F R}
    {status : StoreStatus} {keys : List CacheEngineKey} {seqLenRead : Option ℕ} {v : StoreVisit md T F R}
    {next : Except PyError (LMCacheEngine md F R × Bool)} (hnone : status ≠ .none)
    (hstatus : storeStatus[p]? = some status) (hkeys : keysAt retrievedKeysList p = some keys)
    (hread : seqLenRead = if status.readsSeqLens then seqLens[p]? else none)
    (h : storeEntry cfg s x status keys seqLenRead = (v, next)) :
    ReadAt cfg storeStatus seqLens retrievedKeysList p x v ∧
      ∀ s' advances, next = .ok (s', advances) → advances = !passesOver cfg x v.status := by
  obtain ⟨hvengine, hvstatus, hvkeys, hvlen⟩ := storeEntry_visit cfg s x status keys seqLenRead
  rw [h] at hvengine hvstatus hvkeys hvlen
  refine ⟨⟨?_, ?_, ?_, ?_⟩, fun s' advances hnext => ?_⟩
  · rw [hstatus, hvstatus]
  · rw [hkeys, hvkeys]
  · rw [hvlen, hvstatus, hread]
  · rw [hvengine, hvstatus, hvkeys, hvlen, if_neg hnone, h]
  · rw [hvstatus]
    refine storeEntry_advances hnone (fun hdecode => ?_) (by rw [h]; exact hnext)
    rw [hread, hdecode]
    rfl

/-- **What the body reads and whether it advances the indices.** -/
theorem storeSeq_ok {s : LMCacheEngine md F R} {p : ℕ} {x : StoreGroup T F R × StoreSeq T F R} {v : StoreVisit md T F R}
    {next : Except PyError (LMCacheEngine md F R × Bool)}
    (h : storeSeq cfg storeStatus seqLens retrievedKeysList s p p x = .ok (v, next)) :
    ReadAt cfg storeStatus seqLens retrievedKeysList p x v ∧
      ∀ s' advances, next = .ok (s', advances) → advances = !passesOver cfg x v.status := by
  obtain ⟨status, hstatus, h⟩ := bind_ok h
  obtain ⟨keys, hkeys, h⟩ := bind_ok h
  have hstatus := item_eq_ok hstatus
  have hkeys := readKeys_eq_ok hkeys
  split_ifs at h with hnone hreads
  · cases h
    refine ⟨⟨hstatus, hkeys, ?_, (if_pos hnone).symm⟩, fun s' advances hnext => ?_⟩
    · rw [hnone]
      rfl
    · cases hnext
      unfold passesOver
      rw [hnone]
      rfl
  · obtain ⟨seqLen, hseqLen, h⟩ := bind_ok h
    refine storeEntry_readAt hnone hstatus hkeys ?_ (Except.ok.inj h)
    rw [if_pos hreads, item_eq_ok hseqLen]
  · exact storeEntry_readAt hnone hstatus hkeys (if_neg hreads).symm (Except.ok.inj h)

/-- A sequence that is read with its own length is stored as it is due. -/
theorem stored_eq_dueCall {p : ℕ} {x : StoreGroup T F R × StoreSeq T F R} {v : StoreVisit md T F R}
    (h : ReadAt cfg storeStatus seqLens retrievedKeysList p x v)
    (hown : v.status.readsSeqLens = true → seqLens[p]? = some x.2.seqLen) :
    v.stored = dueCall cfg v.engine x v.status v.retrievedKeys := by
  have hlen : v.seqLenRead.getD x.2.tokenIds.length =
      if v.status.readsSeqLens then x.2.seqLen else x.2.tokenIds.length := by
    rw [h.seqLenRead]
    split_ifs with hreads
    · rw [hown hreads]
      rfl
    · rfl
  have hle : (if v.status.readsSeqLens then x.2.seqLen else x.2.tokenIds.length) ≤ x.2.tokenIds.length := by
    split_ifs
    · exact x.2.seqLen_le
    · exact le_rfl
  rw [h.stored]
  unfold dueCall
  by_cases hnone : v.status = .none
  · rw [if_pos hnone, if_neg fun hdue => hdue.1 hnone]
  rw [if_neg hnone]
  unfold storeEntry
  dsimp only
  rw [hlen]
  generalize hseqLen : (if v.status.readsSeqLens then x.2.seqLen else x.2.tokenIds.length) = seqLen at hle
  have htokens : (x.2.tokenIds.take seqLen).length = seqLen := by
    rw [List.length_take]
    omega
  by_cases hskip : v.status = .decode ∧ seqLen % cfg.chunkSize ≠ 0
  · rw [if_pos hskip, if_neg fun hdue => hskip.2 (hdue.2.1 hskip.1)]
  rw [if_neg hskip]
  by_cases hlt : v.engine.lookup cfg (x.2.tokenIds.take seqLen) < seqLen
  · have hmod : v.engine.lookup cfg (x.2.tokenIds.take seqLen) % cfg.chunkSize = 0 :=
      lookup_mod (by rw [htokens]; exact hlt)
    rw [if_neg (not_not.mpr hlt.le), if_pos hlt, if_neg (not_not.mpr hmod), if_pos]
    exact ⟨hnone, fun hdecode => not_not.mp fun hne => hskip ⟨hdecode, hne⟩, hlt⟩
  · have hle := lookup_le cfg v.engine (x.2.tokenIds.take seqLen)
    rw [htokens] at hle
    rw [if_neg (not_not.mpr hle), if_neg hlt, if_neg fun hdue => hlt hdue.2.2]

end One

/-! ## The loop -/

section Loop
variable [LinearOrder F] [Field F] [FloatMath F] {cfg : CacheConfig T} {storeStatus : List StoreStatus}
  {retrievedKeysList : Option (List (List CacheEngineKey))} {m : StoreInput T F R}

/-- Where the loop reads for its `i`-th sequence. -/
def readIdx (cfg : CacheConfig T) (storeStatus : List StoreStatus)
    (retrievedKeysList : Option (List (List CacheEngineKey))) (m : StoreInput T F R) (i : ℕ) : ℕ :=
  cursor (entries storeStatus retrievedKeysList) (skips cfg m) i

theorem readIdx_succ {i : ℕ} {x : StoreGroup T F R × StoreSeq T F R} {v : StoreVisit md T F R} (hx : m.seqs[i]? = some x)
    (hread : ReadAt cfg storeStatus m.seqLens retrievedKeysList (readIdx cfg storeStatus retrievedKeysList m i) x v) :
    readIdx cfg storeStatus retrievedKeysList m (i + 1) =
      readIdx cfg storeStatus retrievedKeysList m i + if !passesOver cfg x v.status then 1 else 0 := by
  have hskips : skips cfg m (entries storeStatus retrievedKeysList (readIdx cfg storeStatus retrievedKeysList m i)) i =
      passesOver cfg x v.status := by
    unfold skips entries
    rw [hread.status, hx]
    rfl
  rw [← hskips]
  change cursor _ _ (i + 1) = _
  rw [cursor]
  change (if skips cfg m (entries storeStatus retrievedKeysList (readIdx cfg storeStatus retrievedKeysList m i)) i = true
    then readIdx cfg storeStatus retrievedKeysList m i else readIdx cfg storeStatus retrievedKeysList m i + 1) = _
  cases skips cfg m (entries storeStatus retrievedKeysList (readIdx cfg storeStatus retrievedKeysList m i)) i <;> rfl

/-- The loop after a sequence at which nothing is raised goes on at the next place of the cursor. -/
theorem storeLoop_next {pre ys : List (StoreGroup T F R × StoreSeq T F R)} {x : StoreGroup T F R × StoreSeq T F R}
    {s s' : LMCacheEngine md F R} {v : StoreVisit md T F R} {advances : Bool} (hpre : m.seqs = pre ++ x :: ys)
    (h : storeSeq cfg storeStatus m.seqLens retrievedKeysList s (readIdx cfg storeStatus retrievedKeysList m pre.length)
      (readIdx cfg storeStatus retrievedKeysList m pre.length) x = .ok (v, .ok (s', advances))) :
    let rest := storeLoop cfg storeStatus m.seqLens retrievedKeysList s'
      (readIdx cfg storeStatus retrievedKeysList m (pre ++ [x]).length)
      (readIdx cfg storeStatus retrievedKeysList m (pre ++ [x]).length) ys
    storeLoop cfg storeStatus m.seqLens retrievedKeysList s (readIdx cfg storeStatus retrievedKeysList m pre.length)
      (readIdx cfg storeStatus retrievedKeysList m pre.length) (x :: ys) = (v :: rest.1, rest.2) := by
  obtain ⟨hread, hadvances⟩ := storeSeq_ok h
  have hx : m.seqs[pre.length]? = some x := by
    rw [hpre, List.getElem?_append_right le_rfl, Nat.sub_self]
    rfl
  have hsucc := readIdx_succ hx hread
  rw [← hadvances s' advances rfl] at hsucc
  dsimp only
  rw [List.length_append, List.length_singleton, hsucc, storeLoop, h]

/-- **The loop reads at the cursor.** -/
theorem readAt_of_storeLoop (ys : List (StoreGroup T F R × StoreSeq T F R)) :
    ∀ (pre : List (StoreGroup T F R × StoreSeq T F R)) (s : LMCacheEngine md F R), m.seqs = pre ++ ys →
      let p := readIdx cfg storeStatus retrievedKeysList m pre.length
      let run := storeLoop cfg storeStatus m.seqLens retrievedKeysList s p p ys
      (∀ s', run.2 = .ok s' → run.1.length = ys.length) ∧
        ∀ i v, run.1[i]? = some v → ∃ x, m.seqs[pre.length + i]? = some x ∧
          ReadAt cfg storeStatus m.seqLens retrievedKeysList
            (readIdx cfg storeStatus retrievedKeysList m (pre.length + i)) x v := by
  induction ys with
  | nil =>
    intro pre s _
    refine ⟨fun _ _ => rfl, fun i v hv => ?_⟩
    rw [storeLoop, List.getElem?_nil] at hv
    cases hv
  | cons x ys ih =>
    intro pre s hpre p run
    have hx : m.seqs[pre.length]? = some x := by
      rw [hpre, List.getElem?_append_right le_rfl, Nat.sub_self]
      rfl
    have hrun : run = storeLoop cfg storeStatus m.seqLens retrievedKeysList s p p (x :: ys) := rfl
    cases hseq : storeSeq cfg storeStatus m.seqLens retrievedKeysList s p p x with
    | error e =>
      rw [storeLoop, hseq] at hrun
      rw [hrun]
      refine ⟨fun s' h => absurd h (by simp), fun i v hv => ?_⟩
      cases hv
    | ok answer =>
      obtain ⟨v, next⟩ := answer
      obtain ⟨hread, -⟩ := storeSeq_ok hseq
      cases next with
      | error e =>
        rw [storeLoop, hseq] at hrun
        rw [hrun]
        refine ⟨fun s' h => absurd h (by simp), fun i w hw => ?_⟩
        cases i with
        | zero => cases hw; exact ⟨x, hx, hread⟩
        | succ i => cases hw
      | ok next =>
        rw [storeLoop_next hpre hseq] at hrun
        obtain ⟨hlength, hrest⟩ := ih (pre ++ [x]) next.1 (by rw [hpre, List.append_assoc]; rfl)
        rw [hrun]
        refine ⟨fun t ht => congrArg (· + 1) (hlength t ht), fun i w hw => ?_⟩
        cases i with
        | zero => cases hw; exact ⟨x, hx, hread⟩
        | succ i =>
          have hplace : (pre ++ [x]).length + i = pre.length + (i + 1) := by
            rw [List.length_append, List.length_singleton]
            omega
          rw [← hplace]
          exact hrest i w hw

omit [LinearOrder F] [Field F] [FloatMath F] in
theorem readIdx_le (i : ℕ) : readIdx cfg storeStatus retrievedKeysList m i ≤ i := by
  rcases cursor_eq_or_between (entries storeStatus retrievedKeysList) (skips cfg m) i with h | ⟨k, -, -, h⟩
  · exact h.le
  · exact h.le

omit [LinearOrder F] [Field F] [FloatMath F] in
theorem readsSeqLens_of_skips {entry : Option StoreStatus × Option (List CacheEngineKey)} {i : ℕ} {status : StoreStatus}
    (h : skips cfg m entry i = true) (hstatus : entry.1 = some status) : status.readsSeqLens = false := by
  unfold skips at h
  rw [hstatus] at h
  cases hx : m.seqs[i]? with
  | none =>
    rw [hx] at h
    cases h
  | some x =>
    rw [hx] at h
    rcases of_decide_eq_true h with rfl | ⟨rfl, -⟩
    · rfl
    · rfl

omit [LinearOrder F] [Field F] [FloatMath F] in
/-- After a sequence that is passed over an entry of `seq_lens` is not read. -/
theorem readIdx_eq_of_reads {n i : ℕ} (h : SameAfterSkipped cfg storeStatus retrievedKeysList m n) (hi : i < n)
    {status : StoreStatus} (hstatus : storeStatus[readIdx cfg storeStatus retrievedKeysList m i]? = some status)
    (hreads : status.readsSeqLens = true) : readIdx cfg storeStatus retrievedKeysList m i = i := by
  rcases cursor_eq_or h hi with heq | ⟨k, hk, hread, -⟩
  · exact heq
  · have hentry : storeStatus[k]? = some status := (congrArg Prod.fst hread).symm.trans hstatus
    rw [readsSeqLens_of_skips hk hentry] at hreads
    cases hreads

theorem storesOwn_iff_of_le {s : LMCacheEngine md F R} {n : ℕ}
    (hn : n ≤ (lmcacheStoreKv cfg storeStatus retrievedKeysList s m).1.length) :
    (∀ i < n, ∀ v, (lmcacheStoreKv cfg storeStatus retrievedKeysList s m).1[i]? = some v →
      Own cfg storeStatus retrievedKeysList m i v) ↔ SameAfterSkipped cfg storeStatus retrievedKeysList m n := by
  have hread : ∀ i v, (lmcacheStoreKv cfg storeStatus retrievedKeysList s m).1[i]? = some v →
      ∃ x, m.seqs[i]? = some x ∧ ReadAt cfg storeStatus m.seqLens retrievedKeysList
        (readIdx cfg storeStatus retrievedKeysList m i) x v := by
    intro i v hv
    have hreads := (readAt_of_storeLoop m.seqs [] s rfl).2 i v hv
    rwa [List.length_nil, Nat.zero_add] at hreads
  constructor
  · intro hown
    refine cursor_reads_iff.mp fun i hi => ?_
    obtain ⟨v, hv⟩ : ∃ v, (lmcacheStoreKv cfg storeStatus retrievedKeysList s m).1[i]? = some v :=
      ⟨_, List.getElem?_eq_getElem (by omega)⟩
    obtain ⟨x, -, hx⟩ := hread i v hv
    have howni := hown i hi v hv
    exact Prod.ext (hx.status.trans howni.status.symm) (hx.retrievedKeys.trans howni.retrievedKeys.symm)
  · intro hsame i hi v hv
    obtain ⟨x, hx, hat⟩ := hread i v hv
    have hentries := cursor_reads_iff.mpr hsame i hi
    have hidx := readIdx_eq_of_reads hsame hi hat.status
    have hseqLen : m.seqLens[i]? = some x.2.seqLen := by
      rw [StoreInput.seqLens, List.getElem?_map, hx]
      rfl
    refine ⟨(congrArg Prod.fst hentries).symm.trans hat.status, (congrArg Prod.snd hentries).symm.trans hat.retrievedKeys,
      fun seqLen hlen => ?_, fun y hy => ?_⟩
    · rw [hat.seqLenRead] at hlen
      split_ifs at hlen with hreads
      · rw [← hidx hreads]
        exact hlen
      · cases hlen
    · rw [hx] at hy
      cases hy
      exact stored_eq_dueCall hat fun hreads => by rw [hidx hreads, hseqLen]

omit [Field F] [FloatMath F] in
theorem item_of_getElem? {α : Type} {xs : List α} {i : ℕ} {x : α} (h : xs[i]? = some x) : item xs i = .ok x := by
  unfold item
  rw [h]

theorem storeEntry_raises {s : LMCacheEngine md F R} {x : StoreGroup T F R × StoreSeq T F R} {status : StoreStatus}
    {keys : List CacheEngineKey} {seqLenRead : Option ℕ} (hle : seqLenRead.getD x.2.tokenIds.length ≤ x.2.tokenIds.length)
    {e : PyError} (h : (storeEntry cfg s x status keys seqLenRead).2 = .error e) :
    ∃ a ∈ (storeEntry cfg s x status keys seqLenRead).1.stored,
      (storeEntry cfg s x status keys seqLenRead).1.engine.store cfg a = .error e := by
  rw [(storeEntry_visit cfg s x status keys seqLenRead).1]
  unfold storeEntry at h ⊢
  dsimp only at h ⊢
  generalize seqLenRead.getD x.2.tokenIds.length = seqLen at hle h ⊢
  have htokens : (x.2.tokenIds.take seqLen).length = seqLen := by
    rw [List.length_take]
    omega
  have hlookup := lookup_le cfg s (x.2.tokenIds.take seqLen)
  rw [htokens] at hlookup
  split_ifs at h ⊢ with hskip hlt hmod
  · exact absurd (lookup_mod (by rw [htokens]; exact hlt)) hmod
  · refine ⟨_, rfl, ?_⟩
    cases hstore : s.store cfg (storeArgs x seqLen (s.lookup cfg (x.2.tokenIds.take seqLen)) keys) with
    | error e' => rw [hstore] at h; cases h; rfl
    | ok s' => rw [hstore] at h; cases h

/-- A sequence that is read with its own length raises nothing but what `engine.store` raises. -/
theorem storeSeq_total {s : LMCacheEngine md F R} {p : ℕ} {x : StoreGroup T F R × StoreSeq T F R} {status : StoreStatus}
    {keys : List CacheEngineKey} {seqLens : List ℕ} (hstatus : storeStatus[p]? = some status)
    (hkeys : keysAt retrievedKeysList p = some keys)
    (hown : status.readsSeqLens = true → seqLens[p]? = some x.2.seqLen) :
    ∃ v next, storeSeq cfg storeStatus seqLens retrievedKeysList s p p x = .ok (v, next) ∧
      ∀ e, next = .error e → ∃ a ∈ v.stored, v.engine.store cfg a = .error e := by
  have hread : readKeys retrievedKeysList p = .ok keys := by
    unfold readKeys
    unfold keysAt at hkeys
    split at hkeys
    · cases hkeys
      rfl
    · exact item_of_getElem? hkeys
  unfold storeSeq
  rw [item_of_getElem? hstatus, hread]
  dsimp only [bind, Except.bind]
  split_ifs with hnone hreads
  · exact ⟨_, _, rfl, fun e h => by cases h⟩
  · rw [item_of_getElem? (hown hreads)]
    have hle : (some x.2.seqLen).getD x.2.tokenIds.length ≤ x.2.tokenIds.length := x.2.seqLen_le
    exact ⟨(storeEntry cfg s x status keys (some x.2.seqLen)).1, (storeEntry cfg s x status keys (some x.2.seqLen)).2, rfl,
      fun e h => storeEntry_raises hle h⟩
  · have hle : (none : Option ℕ).getD x.2.tokenIds.length ≤ x.2.tokenIds.length := le_rfl
    exact ⟨(storeEntry cfg s x status keys none).1, (storeEntry cfg s x status keys none).2, rfl,
      fun e h => storeEntry_raises hle h⟩

/-- While the sequences are read with their own entries, nothing but what `engine.store` raises is raised. -/
theorem storeLoop_raises (hlen : storeStatus.length = m.seqs.length)
    (hkeys : ∀ l ∈ retrievedKeysList, l.length = m.seqs.length)
    (hsame : SameAfterSkipped cfg storeStatus retrievedKeysList m m.seqs.length)
    (ys : List (StoreGroup T F R × StoreSeq T F R)) :
    ∀ (pre : List (StoreGroup T F R × StoreSeq T F R)) (s : LMCacheEngine md F R), m.seqs = pre ++ ys →
      let p := readIdx cfg storeStatus retrievedKeysList m pre.length
      let run := storeLoop cfg storeStatus m.seqLens retrievedKeysList s p p ys
      ∀ e, run.2 = .error e → ∃ v ∈ run.1.getLast?, ∃ a ∈ v.stored, v.engine.store cfg a = .error e := by
  induction ys with
  | nil => intro pre s _ p run e h; cases h
  | cons x ys ih =>
    intro pre s hpre p run e he
    have hcount : m.seqs.length = pre.length + (ys.length + 1) := by
      rw [hpre, List.length_append, List.length_cons]
    have hx : m.seqs[pre.length]? = some x := by
      rw [hpre, List.getElem?_append_right le_rfl, Nat.sub_self]
      rfl
    have hp : p ≤ pre.length := readIdx_le pre.length
    have hstatus : storeStatus[p]? = some storeStatus[p] := List.getElem?_eq_getElem (by omega)
    obtain ⟨keys, hkeysAt⟩ : ∃ keys, keysAt retrievedKeysList p = some keys := by
      unfold keysAt
      split
      · exact ⟨[], rfl⟩
      · rename_i l
        have hl := hkeys l rfl
        exact ⟨_, List.getElem?_eq_getElem (by omega)⟩
    have hown : storeStatus[p].readsSeqLens = true → m.seqLens[p]? = some x.2.seqLen := by
      intro hreads
      have hidx : p = pre.length := readIdx_eq_of_reads hsame (by omega) hstatus hreads
      rw [hidx, StoreInput.seqLens, List.getElem?_map, hx]
      rfl
    obtain ⟨v, next, hseq, hraises⟩ := storeSeq_total (s := s) hstatus hkeysAt hown
    have hrun : run = storeLoop cfg storeStatus m.seqLens retrievedKeysList s p p (x :: ys) := rfl
    cases next with
    | error e' =>
      rw [storeLoop, hseq] at hrun
      rw [hrun] at he ⊢
      cases he
      exact ⟨v, rfl, hraises e rfl⟩
    | ok next =>
      rw [storeLoop_next hpre hseq] at hrun
      rw [hrun] at he ⊢
      obtain ⟨w, hw, hstore⟩ := ih (pre ++ [x]) next.1 (by rw [hpre, List.append_assoc]; rfl) e he
      refine ⟨w, ?_, hstore⟩
      rw [List.getLast?_cons, Option.mem_def.mp hw]
      rfl

end Loop

/-! ## The claim -/

section Statuses
variable {cfg : CacheConfig T}

theorem length_of_setItem {α : Type} {xs xs' : List α} {i : ℕ} {x : α} (h : setItem xs i x = .ok xs') :
    xs'.length = xs.length := by
  unfold setItem at h
  split at h
  · cases h
    exact List.length_set
  · cases h

theorem length_prefillStatuses {selected : List ℤ} {qs : List (StoreSeq T F R)} :
    ∀ {acc acc' : List StoreStatus × ℕ × ℕ}, prefillStatuses selected acc qs = .ok acc' →
      acc'.1.length = acc.1.length := by
  induction qs with
  | nil => intro acc acc' h; cases h; rfl
  | cons q qs ih =>
    intro acc acc' h
    obtain ⟨sel, -, h⟩ := bind_ok h
    obtain ⟨statuses, hset, h⟩ := bind_ok h
    exact (ih h).trans (length_of_setItem hset)

theorem length_groupStatuses {selected : List ℤ} {gs : List (StoreGroup T F R)} :
    ∀ {acc acc' : List StoreStatus × ℕ × ℕ}, groupStatuses selected acc gs = .ok acc' →
      acc'.1.length = acc.1.length := by
  induction gs with
  | nil => intro acc acc' h; cases h; rfl
  | cons g gs ih =>
    intro acc acc' h
    rw [groupStatuses] at h
    split_ifs at h
    · obtain ⟨acc₁, hgroup, h⟩ := bind_ok h
      exact (ih h).trans (length_prefillStatuses hgroup)
    · obtain ⟨statuses, hset, h⟩ := bind_ok h
      exact (ih h).trans (length_of_setItem hset)

/-- There is a status for every sequence. -/
theorem length_lmcacheShouldStore {hasEngine saveDecodeCache : Bool} {m : StoreInput T F R} {statuses : List StoreStatus}
    (h : lmcacheShouldStore cfg hasEngine saveDecodeCache m = .ok statuses) : statuses.length = m.seqs.length := by
  have hlen : m.seqLens.length = m.seqs.length := List.length_map _
  rw [← hlen]
  unfold lmcacheShouldStore at h
  dsimp only at h
  split_ifs at h
  · cases h
    exact List.length_replicate
  · obtain ⟨acc, hacc, rfl⟩ := map_ok h
    exact (length_groupStatuses hacc).trans List.length_replicate
  · cases h
    exact List.length_map _
  · cases h
    exact List.length_replicate

end Statuses

section Claim
variable [LinearOrder F] [Field F] [FloatMath F] (cfg : CacheConfig T)

/-- **When each sequence is stored according to its own status.** Let a call of `lmcache_store_kv` be given the statuses
that `lmcache_should_store` returns. As far as it gets, it processes all sequences with their own entries exactly if, among
them, those after one that is to be passed over have the same entries as it. It gets through the batch if it returns, and
where the sequences have the same entries nothing but what `engine.store` raises keeps it from it. -/
theorem storesOwn_iff {hasEngine saveDecodeCache : Bool} {m : StoreInput T F R} {storeStatus : List StoreStatus}
    {retrievedKeysList : Option (List (List CacheEngineKey))}
    (hstatus : lmcacheShouldStore cfg hasEngine saveDecodeCache m = .ok storeStatus)
    (hkeys : ∀ l ∈ retrievedKeysList, l.length = m.seqs.length) (s : LMCacheEngine md F R) :
    let run := lmcacheStoreKv cfg storeStatus retrievedKeysList s m
    (∀ n ≤ run.1.length, (∀ i < n, ∀ v, run.1[i]? = some v → Own cfg storeStatus retrievedKeysList m i v) ↔
      SameAfterSkipped cfg storeStatus retrievedKeysList m n) ∧
    (∀ s', run.2 = .ok s' → run.1.length = m.seqs.length) ∧
    (SameAfterSkipped cfg storeStatus retrievedKeysList m m.seqs.length →
      ∀ e, run.2 = .error e → ∃ v ∈ run.1.getLast?, ∃ a ∈ v.stored, v.engine.store cfg a = .error e) :=
  ⟨fun _ hn => storesOwn_iff_of_le hn, (readAt_of_storeLoop m.seqs [] s rfl).1,
    fun hsame => storeLoop_raises (length_lmcacheShouldStore hstatus) hkeys hsame m.seqs [] s rfl⟩

end Claim

/-! ## Concrete batches -/

section Examples

/-- A decoded sequence of client 1. -/
def decoded (tokens : List ℕ) : StoreGroup ℕ ℚ ℕ :=
  { clientId := 1, requestId := "chat-1", doSample := true
    seqs := [{ tokenIds := tokens, seqLen := tokens.length, kvCache := fun i => 10 * i, clock := fun _ => (0, 0)
               seqLen_le := le_rfl }] }

/-- A batch of decoded sequences. -/
def decodedBatch (sequences : List (List ℕ)) : StoreInput ℕ ℚ ℕ :=
  { groups := sequences.map decoded, numPrefills := 0, hasPrefillMetadata := false
    selectedTokenIndices := (List.range sequences.length).map Nat.cast, blendEffective := false, profileRun := false }

open LMCacheEngine (twoTokens)

theorem storesOwn_aligned :
    let run := lmcacheStoreKv twoTokens [.decode, .decode] none (LMCacheEngine.new .threeChunks ℚ ℕ)
      (decodedBatch [[1, 2], [3, 4]])
    run.1.length = 2 ∧ ∀ i < 2, ∀ v, run.1[i]? = some v →
      Own twoTokens [.decode, .decode] none (decodedBatch [[1, 2], [3, 4]]) i v := by
  have hlen : (lmcacheStoreKv twoTokens [.decode, .decode] none (LMCacheEngine.new .threeChunks ℚ ℕ)
      (decodedBatch [[1, 2], [3, 4]])).1.length = 2 := by decide +kernel
  have hstatus : lmcacheShouldStore twoTokens true true (decodedBatch [[1, 2], [3, 4]]) = .ok [.decode, .decode] := rfl
  have hsame : SameAfterSkipped twoTokens [.decode, .decode] none (decodedBatch [[1, 2], [3, 4]]) 2 := by decide +kernel
  exact ⟨hlen, ((storesOwn_iff twoTokens hstatus (fun l hl => by cases hl) _).1 2 hlen.ge).mpr hsame⟩

/-- The first of two sequences is not aligned: the second is not stored, though its own status says so. -/
theorem sequence_after_none_is_not_stored :
    lmcacheShouldStore twoTokens true true (decodedBatch [[1, 2, 3], [4, 5]]) = .ok [.none, .decode] ∧
      ∃ v ∈ (lmcacheStoreKv twoTokens [.none, .decode] none (LMCacheEngine.new .threeChunks ℚ ℕ)
          (decodedBatch [[1, 2, 3], [4, 5]])).1[1]?,
        v.status = .none ∧ v.stored.isNone ∧
          ∀ x ∈ (decodedBatch [[1, 2, 3], [4, 5]]).seqs[1]?, (dueCall twoTokens v.engine x .decode []).isSome := by
  refine ⟨rfl, ?_⟩
  decide +kernel

end Examples

end LMCacheAdapter

end FairCache
