import FairCache.Hybrid.Backend
import FairCache.Local.Invariant

/-!
# The loops of the batched read

* `localReads_spec` : what the first loop collects;
* `fillIn`, `batchedGet_eq` : the second loop fills the gaps in order and puts the pairs it fills them with.
-/

namespace FairCache.LMCHybridBackend

open Lib LMCRemoteBackend

variable {md : LMCacheMemPoolMetadata} {R : Type}

/-! ## The first loop -/

/-- The keys the local store lacks. -/
def missing (l : LMCLocalBackend md CacheEngineKey R) (keys : List CacheEngineKey) : List CacheEngineKey :=
  keys.filter fun key => (l.find key).isNone

/-- The queries of a batch whose first index is `n`. -/
def queriesFrom (l : LMCLocalBackend md CacheEngineKey R) (n : ℕ) (keys : List CacheEngineKey) :
    List (ℕ × CacheEngineKey) :=
  ((keys.zipIdx n).map fun (key, idx) => (idx, key)).filter fun item => (l.find item.2).isNone

theorem readLocal_spec (items : List (ℕ × CacheEngineKey)) (r : LocalReads md R) (hw : r.localStore.WF) :
    (items.foldl readLocal r).ret = r.ret ++ items.map (fun item => r.localStore.find item.2) ∧
      (items.foldl readLocal r).remoteQueries =
        r.remoteQueries ++ items.filter (fun item => (r.localStore.find item.2).isNone) ∧
      (items.foldl readLocal r).localStore.WF ∧
      ∀ key, (items.foldl readLocal r).localStore.find key = r.localStore.find key := by
  induction items generalizing r with
  | nil => simp [hw]
  | cons item items ih =>
    obtain ⟨hret, hqueries, hw', hfind⟩ := ih (readLocal r item) (hw.get item.2)
    have hlocal : ∀ key, (readLocal r item).localStore.find key = r.localStore.find key :=
      fun key => LMCLocalBackend.find_get r.localStore item.2 key
    simp only [hlocal] at hret hqueries hfind
    rw [List.foldl_cons]
    refine ⟨?_, ?_, hw', hfind⟩
    · rw [hret]
      simp [readLocal]
    · rw [hqueries]
      unfold readLocal
      cases hl : r.localStore.find item.2 <;> simp [hl]

theorem localReads_spec (b : LMCHybridBackend md R) (hw : b.localStore.WF) (keys : List CacheEngineKey) :
    (b.localReads keys).ret = keys.map b.localStore.find ∧
      (b.localReads keys).remoteQueries = queriesFrom b.localStore 0 keys ∧
      (b.localReads keys).localStore.WF ∧
      ∀ key, (b.localReads keys).localStore.find key = b.localStore.find key := by
  obtain ⟨hret, hqueries, hw', hfind⟩ := readLocal_spec (enumerate keys) ⟨[], [], b.localStore⟩ hw
  refine ⟨?_, hqueries, hw', hfind⟩
  refine hret.trans ?_
  rw [List.nil_append, enumerate, List.map_map]
  calc keys.zipIdx.map _ = (keys.zipIdx.map Prod.fst).map b.localStore.find := by rw [List.map_map]; rfl
    _ = keys.map b.localStore.find := by rw [List.zipIdx_map_fst]

theorem map_queriesFrom (l : LMCLocalBackend md CacheEngineKey R) (n : ℕ) (keys : List CacheEngineKey) :
    (queriesFrom l n keys).map Prod.snd = missing l keys := by
  induction keys generalizing n with
  | nil => rfl
  | cons key keys ih =>
    have hcons : queriesFrom l n (key :: keys) =
        if (l.find key).isNone then (n, key) :: queriesFrom l (n + 1) keys else queriesFrom l (n + 1) keys := by
      unfold queriesFrom
      rw [List.zipIdx_cons, List.map_cons, List.filter_cons]
    rw [hcons, missing, List.filter_cons]
    split_ifs
    · rw [List.map_cons, ih]
      rfl
    · exact ih _

/-! ## The second loop -/

/-- Fill the gaps of `ret` with the answers, in order. -/
def fillIn {V : Type} : List (Option V) → List (Option V) → List (Option V)
  | [], _ => []
  | some v :: ret, answers => some v :: fillIn ret answers
  | none :: ret, [] => none :: fillIn ret []
  | none :: ret, a :: answers => a :: fillIn ret answers

/-- The pairs of queries and answers that are put. -/
def pairs (queries : List CacheEngineKey) (answers : List (Option (List R))) : List (CacheEngineKey × List R) :=
  (queries.zip answers).filterMap fun item => item.2.map fun v => (item.1, v)

/-- A put of a pair into the local store. -/
def putPair (l : LMCLocalBackend md CacheEngineKey R) (p : CacheEngineKey × List R) :
    Except PyError (LMCLocalBackend md CacheEngineKey R) := l.putBlocking p.1 p.2

theorem fillIn_nil {V : Type} (ret : List (Option V)) : fillIn ret [] = ret := by
  induction ret with
  | nil => rfl
  | cons v ret ih => cases v <;> simp [fillIn, ih]

theorem foldlM_fill (l₀ : LMCLocalBackend md CacheEngineKey R) (keys : List CacheEngineKey) :
    ∀ (n : ℕ) (before answers : List (Option (List R))) (l : LMCLocalBackend md CacheEngineKey R), before.length = n →
      ((queriesFrom l₀ n keys).zip answers).foldlM fill (before ++ keys.map l₀.find, l) =
        ((pairs (missing l₀ keys) answers).foldlM putPair l).map fun l' =>
          (before ++ fillIn (keys.map l₀.find) answers, l') := by
  induction keys with
  | nil => intro n before answers l _; rfl
  | cons key keys ih =>
    intro n before answers l hn
    have hlen : ∀ v : Option (List R), (before ++ [v]).length = n + 1 := fun v => by simp [hn]
    cases hfind : l₀.find key with
    | some v =>
      have hq : queriesFrom l₀ n (key :: keys) = queriesFrom l₀ (n + 1) keys := by
        simp [queriesFrom, List.zipIdx_cons, hfind]
      have hm : missing l₀ (key :: keys) = missing l₀ keys := by simp [missing, hfind]
      have := ih (n + 1) (before ++ [some v]) answers l (hlen _)
      rw [hq, hm, List.map_cons, hfind]
      simpa [fillIn] using this
    | none =>
      have hq : queriesFrom l₀ n (key :: keys) = (n, key) :: queriesFrom l₀ (n + 1) keys := by
        simp [queriesFrom, List.zipIdx_cons, hfind]
      have hm : missing l₀ (key :: keys) = key :: missing l₀ keys := by simp [missing, hfind]
      rw [hq, hm, List.map_cons, hfind]
      cases answers with
      | nil => simp [pairs, fillIn_nil, Except.map, pure, Except.pure]
      | cons a answers =>
        rw [List.zip_cons_cons, List.foldlM_cons]
        cases a with
        | none =>
          have := ih (n + 1) (before ++ [none]) answers l (hlen _)
          rw [List.append_assoc, List.singleton_append, List.append_assoc, List.singleton_append] at this
          exact this
        | some v =>
          have hset : (before ++ none :: keys.map l₀.find).set n (some v) = before ++ some v :: keys.map l₀.find := by
            rw [← hn, List.set_append_right _ _ le_rfl]
            simp
          have hpairs : pairs (key :: missing l₀ keys) (some v :: answers) = (key, v) :: pairs (missing l₀ keys) answers :=
            rfl
          have hfill : fill (before ++ none :: keys.map l₀.find, l) ((n, key), some v) =
              (putPair l (key, v)).map fun l' => (before ++ some v :: keys.map l₀.find, l') := by
            rw [← hset]; rfl
          rw [hpairs, List.foldlM_cons, hfill]
          cases hput : putPair l (key, v) with
          | error e => rfl
          | ok l' =>
            have := ih (n + 1) (before ++ [some v]) answers l' (hlen _)
            rw [List.append_assoc, List.singleton_append, List.append_assoc, List.singleton_append] at this
            exact this

/-- **The second loop fills the gaps in order** and puts the pairs it fills them with. -/
theorem batchedGet_eq (b : LMCHybridBackend md R) (hw : b.localStore.WF) (keys : List CacheEngineKey)
    (answers : List (Option (List R))) :
    b.batchedGet keys answers =
      ((pairs (missing b.localStore keys) answers).foldlM putPair (b.localReads keys).localStore).map fun l =>
        (fillIn (keys.map b.localStore.find) answers, { b with localStore := l }) := by
  obtain ⟨hret, hqueries, -, -⟩ := localReads_spec b hw keys
  unfold batchedGet
  have := foldlM_fill b.localStore keys 0 [] answers (b.localReads keys).localStore rfl
  rw [List.nil_append, List.nil_append] at this
  simp only [hret, hqueries, this]
  cases (pairs (missing b.localStore keys) answers).foldlM putPair (b.localReads keys).localStore <;> rfl

theorem inserted_eq (b : LMCHybridBackend md R) (hw : b.localStore.WF) (keys : List CacheEngineKey)
    (answers : List (Option (List R))) : b.inserted keys answers = pairs (missing b.localStore keys) answers := by
  obtain ⟨-, hqueries, -, -⟩ := localReads_spec b hw keys
  unfold inserted pairs
  rw [hqueries, ← map_queriesFrom b.localStore 0 keys, List.zip_map_left, List.filterMap_map]
  rfl

end FairCache.LMCHybridBackend
