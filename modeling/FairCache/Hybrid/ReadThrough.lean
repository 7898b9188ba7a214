import FairCache.Hybrid.Loops
import FairCache.Remote.Pipelined

/-!
# The batched read-through

`batched_get` zips the queries with the answers of the remote store. A remote store that drops keys shifts the answers:
a chunk is returned, and put into the local store, under another chunk's key.

* `HeldFirst` : the remote store holds the first of the queried keys and none of the others;
* `AnswersInPlace`, `FillsReturn` : the remote answers do not shift, and the local store takes them;
* `readsThrough_iff` : when `batched_get` answers what `get` does and inserts what the remote store holds.
-/

namespace FairCache.LMCHybridBackend

open Lib LMCRemoteBackend

variable {md : LMCacheMemPoolMetadata} {R : Type}

/-! ## Answers in place -/

/-- One answer for each of `n` queries, `None` where the list is too short. -/
def padTo {V : Type} : ℕ → List (Option V) → List (Option V)
  | 0, _ => []
  | n + 1, [] => none :: padTo n []
  | n + 1, a :: answers => a :: padTo n answers

/-- Filling the gaps gives the wanted values exactly when the padded answers are the wanted ones. -/
theorem fillIn_eq_iff {K V : Type} {wanted : K → Except PyError (Option V)} {find : K → Option V}
    (hfind : ∀ k v, find k = some v → wanted k = .ok (some v)) (keys : List K) (answers : List (Option V)) :
    keys.map wanted = (fillIn (keys.map find) answers).map .ok ↔
      (keys.filter fun k => (find k).isNone).map wanted =
        (padTo (keys.filter fun k => (find k).isNone).length answers).map .ok := by
  induction keys generalizing answers with
  | nil => exact Iff.rfl
  | cons k keys ih =>
    cases hk : find k with
    | some v =>
      have hkeep : ((k :: keys).filter fun k => (find k).isNone) = keys.filter fun k => (find k).isNone := by simp [hk]
      rw [hkeep, ← ih answers]
      simp [fillIn, hk, hfind k v hk]
    | none =>
      have hkeep : ((k :: keys).filter fun k => (find k).isNone) = k :: keys.filter fun k => (find k).isNone := by
        simp [hk]
      rw [hkeep]
      cases answers with
      | nil => simp [fillIn, hk, padTo, ih []]
      | cons a answers => simp [fillIn, hk, padTo, ih answers]

theorem padTo_self {V : Type} (answers : List (Option V)) : padTo answers.length answers = answers := by
  induction answers with
  | nil => rfl
  | cons a answers ih => simp [padTo, ih]

section Remote
variable {V : Type} {b : LMCRemoteBackend V} {queries : List CacheEngineKey} {answers : List (Option V)}

theorem batchedGet_ok_iff : b.batchedGet queries = .ok answers ↔ queries.map b.get = answers.map .ok := by
  have hget : (fun key => if b.contains key then b.get key else .ok none) = b.get := by
    funext key
    split_ifs with h
    · rfl
    · rw [LMCRemoteBackend.get, if_neg h]
  rw [LMCRemoteBackend.batchedGet, hget]
  exact mapM_ok_iff

/-- The store holds the first of the keys, in a readable form, and none of the others. -/
def HeldFirst (b : LMCRemoteBackend V) (queries : List CacheEngineKey) : Prop :=
  ∃ held absent, queries = held ++ absent ∧ (∀ key ∈ held, b.Readable key) ∧ ∀ key ∈ absent, b.contains key = false

theorem contains_of_readable {key : CacheEngineKey} (h : b.Readable key) : b.contains key = true := by
  obtain ⟨data, v, hc, -, -⟩ := h
  simp [contains, RemoteConnector.holds, hc]

theorem heldFirst_cons {key : CacheEngineKey} (hkey : b.Readable key) :
    HeldFirst b (key :: queries) ↔ HeldFirst b queries := by
  constructor
  · rintro ⟨held, absent, heq, hh, ha⟩
    cases held with
    | nil =>
      have habsent := ha key ((show key :: queries = absent from heq) ▸ List.mem_cons_self)
      rw [contains_of_readable hkey] at habsent
      cases habsent
    | cons k held =>
      rw [List.cons_append, List.cons.injEq] at heq
      exact ⟨held, absent, heq.2, fun k hk => hh k (List.mem_cons_of_mem _ hk), ha⟩
  · rintro ⟨held, absent, rfl, hh, ha⟩
    exact ⟨key :: held, absent, rfl, fun k hk => by
      rcases List.mem_cons.mp hk with rfl | hk
      · exact hkey
      · exact hh k hk, ha⟩

theorem get_of_absent {key : CacheEngineKey} (h : b.contains key = false) : b.get key = .ok none := by
  unfold LMCRemoteBackend.get
  simp [h]

theorem fetched_eq_none_iff {key : CacheEngineKey} : b.fetched key = none ↔ b.contains key = false := by
  unfold fetched
  split_ifs with h
  · cases b.connection.get key.toString <;> simp [h]
  · simpa using h

theorem ne_none_of_fetched {key : CacheEngineKey} {a : Option V} (h : b.fetched key = some (.ok a)) : a ≠ none := by
  unfold fetched at h
  split_ifs at h
  cases hc : b.connection.get key.toString with
  | none => simp [hc] at h
  | some data => cases hf : b.fromBytes data <;> simp [hc, hf, Except.map] at h; simp [← h]

theorem heldFirst_of_absent {key : CacheEngineKey} (h : b.contains key = false) :
    HeldFirst b (key :: queries) ↔ queries.filterMap b.fetched = [] := by
  rw [List.filterMap_eq_nil_iff]
  constructor
  · rintro ⟨held, absent, heq, hh, ha⟩ k hk
    cases held with
    | nil => exact fetched_eq_none_iff.mpr (ha k ((show key :: queries = absent from heq) ▸ List.mem_cons_of_mem _ hk))
    | cons k' held =>
      rw [List.cons_append, List.cons.injEq] at heq
      rw [heq.1, contains_of_readable (hh k' List.mem_cons_self)] at h
      cases h
  · intro hq
    refine ⟨[], key :: queries, rfl, fun k hk => absurd hk List.not_mem_nil, fun k hk => ?_⟩
    rcases List.mem_cons.mp hk with rfl | hk
    · exact h
    · exact fetched_eq_none_iff.mp (hq k hk)

/-- What was fetched is in place exactly when the store holds the first of the keys. -/
theorem padTo_fetched_iff (h : answers.map .ok = queries.filterMap b.fetched) :
    queries.map b.get = (padTo queries.length answers).map .ok ↔ HeldFirst b queries := by
  induction queries generalizing answers with
  | nil => simp [padTo, HeldFirst]
  | cons key queries ih =>
    cases hf : b.fetched key with
    | none =>
      have habsent := fetched_eq_none_iff.mp hf
      rw [List.filterMap_cons_none hf] at h
      rw [heldFirst_of_absent habsent, ← h, List.map_cons, get_of_absent habsent]
      cases answers with
      | nil =>
        have hrest : HeldFirst b queries := ⟨[], queries, rfl, fun k hk => absurd hk List.not_mem_nil,
          fun k hk => fetched_eq_none_iff.mp (List.filterMap_eq_nil_iff.mp h.symm k hk)⟩
        simp [padTo, (ih h).mpr hrest]
      | cons a answers =>
        obtain ⟨k, -, hk⟩ := List.mem_filterMap.mp (h ▸ List.mem_cons_self : Except.ok a ∈ queries.filterMap b.fetched)
        have := ne_none_of_fetched hk
        simp [padTo, this.symm]
    | some x =>
      rw [List.filterMap_cons_some hf] at h
      cases answers with
      | nil => simp at h
      | cons a answers =>
        simp only [List.map_cons, List.cons.injEq] at h
        obtain ⟨rfl, h⟩ := h
        by_cases hget : b.get key = .ok a
        · have hreadable : b.Readable key := (readable_iff key).mpr ⟨by rw [hf, hget], a, hget⟩
          rw [heldFirst_cons hreadable, ← ih h]
          simp [padTo, hget]
        · have hnot : ¬ HeldFirst b (key :: queries) := by
            rintro ⟨held, absent, heq, hh, ha⟩
            cases held with
            | nil =>
              have := ha key ((show key :: queries = absent from heq) ▸ List.mem_cons_self)
              rw [fetched_eq_none_iff.mpr this] at hf
              cases hf
            | cons k held =>
              rw [List.cons_append, List.cons.injEq] at heq
              have hfetched := ((readable_iff k).mp (hh k List.mem_cons_self)).1
              rw [← heq.1, hf] at hfetched
              exact hget (Option.some.inj hfetched).symm
          simp [padTo, hget, hnot]

end Remote

/-! ## What the batched read has to do -/

variable (b : LMCHybridBackend md R) (keys : List CacheEngineKey)

/-- What `get` answers for a key. -/
def answer (key : CacheEngineKey) : Except PyError (Option (List R)) := (b.get key).map (·.1)

/-- `batched_get` answers what `get` does in the state before the call, and it inserts what the remote store holds,
whatever the schedule of the remote store's threads. -/
structure ReadsThrough : Prop where
  finishes : b.RemoteFinishes (missing b.localStore keys)
  returns : ∀ results, b.RemoteAnswers (missing b.localStore keys) results →
    ∃ ret b', b.batchedGet keys results = .ok (ret, b') ∧ keys.map b.answer = ret.map .ok ∧
      (∀ p ∈ b.inserted keys results, b.remoteStore.get p.1 = .ok (some p.2)) ∧
      ∀ key v, b'.localStore.find key = some v →
        b.localStore.find key = some v ∨ b.remoteStore.get key = .ok (some v)

/-- The answers of the remote store do not shift: the plain one raises for none of the queries, the pipelined one holds
the first of them and none of the others. -/
def AnswersInPlace (queries : List CacheEngineKey) : Prop :=
  if b.pipelined then HeldFirst b.remoteStore queries else ∀ key ∈ queries, ∃ r, b.remoteStore.get key = .ok r

/-- The chunks that the remote store holds of the queries. -/
def fills (queries : List CacheEngineKey) : List (CacheEngineKey × List R) :=
  queries.filterMap fun key => match b.remoteStore.get key with
    | .ok (some v) => some (key, v)
    | _ => none

/-- The local store takes the chunks: none is too long, and none has the key that its own put evicts. -/
def FillsReturn : Prop :=
  Along putPair (fun l p => l.PutReturns p.1 p.2) (b.localReads keys).localStore (b.fills (missing b.localStore keys))

/-! ## The answers -/

variable {b keys}

theorem answer_of_find {key : CacheEngineKey} {v : List R} (h : b.localStore.find key = some v) :
    b.answer key = .ok (some v) := by
  have hget : (b.localStore.get key).1 = some v := (LMCLocalBackend.get_fst _ _).trans h
  unfold answer get
  simp only [hget]
  rfl

/-- A key the local store lacks is answered by the remote store. -/
theorem get_of_answer {key : CacheEngineKey} (h : b.localStore.find key = none) {r : Option (List R)}
    (hr : b.answer key = .ok r) : b.remoteStore.get key = .ok r := by
  have hget : (b.localStore.get key).1 = none := (LMCLocalBackend.get_fst _ _).trans h
  unfold answer get at hr
  simp only [hget] at hr
  cases hremote : b.remoteStore.get key with
  | error e => simp [hremote, Except.map] at hr
  | ok r' =>
    cases r' with
    | none => simp only [hremote, Except.map] at hr; exact hr
    | some v =>
      simp only [hremote] at hr
      obtain ⟨x, hx, hxr⟩ := map_ok hr
      obtain ⟨l, -, hl⟩ := map_ok hx
      rw [← hxr, ← hl]

theorem answer_of_get {key : CacheEngineKey} (hw : b.localStore.WF) (h : b.localStore.find key = none)
    {r : Option (List R)} (hr : b.remoteStore.get key = .ok r)
    (hfit : ∀ v, r = some v → md.maxBytes < md.sizePerChunk ∨ v.length ≤ md.chunkSize) : b.answer key = .ok r := by
  have hget : (b.localStore.get key).1 = none := (LMCLocalBackend.get_fst _ _).trans h
  unfold answer get
  simp only [hget, hr]
  cases r with
  | none => rfl
  | some v =>
    have hnot : (b.localStore.get key).2.victim ≠ some key := by
      intro hv
      have hmem := (LMCLocalBackend.victim_mem hv).2
      obtain ⟨o, ho⟩ := (Dict.mem_iff_lookup _ _).mp hmem
      have hfind : (b.localStore.get key).2.find key = none := (LMCLocalBackend.find_get _ _ _).trans h
      simp [LMCLocalBackend.find, ho] at hfind
    obtain ⟨l, hl⟩ := (LMCLocalBackend.putBlocking_returns_iff (hw.get key)).mpr
      ((hfit v rfl).imp id fun hlen => ⟨hlen, hnot⟩)
    simp only [hl]
    rfl

/-- Answers in place are inserted under their own keys. -/
theorem pairs_eq_fills {queries : List CacheEngineKey} {answers : List (Option (List R))}
    (h : queries.map b.remoteStore.get = (padTo queries.length answers).map .ok) :
    pairs queries answers = b.fills queries := by
  induction queries generalizing answers with
  | nil => rfl
  | cons key queries ih =>
    cases answers with
    | nil =>
      simp only [List.length_cons, padTo, List.map_cons, List.cons.injEq] at h
      have := ih h.2
      rw [fills, List.filterMap_cons_none (by rw [h.1])]
      rw [← fills, ← this]
      simp [pairs]
    | cons a answers =>
      simp only [List.length_cons, padTo, List.map_cons, List.cons.injEq] at h
      have := ih h.2
      cases a with
      | none =>
        rw [fills, List.filterMap_cons_none (by rw [h.1]), ← fills, ← this]
        rfl
      | some v =>
        rw [fills, List.filterMap_cons_some (by rw [h.1]), ← fills, ← this]
        rfl

theorem exists_map_ok_iff {A B ε : Type} {f : A → Except ε B} {l : List A} :
    (∃ r : List B, l.map f = r.map .ok) ↔ ∀ a ∈ l, ∃ x, f a = .ok x := by
  induction l with
  | nil => exact ⟨fun _ a ha => absurd ha List.not_mem_nil, fun _ => ⟨[], rfl⟩⟩
  | cons a l ih =>
    rw [List.forall_mem_cons, ← ih]
    constructor
    · rintro ⟨r, hr⟩
      cases r with
      | nil => simp at hr
      | cons x r =>
        rw [List.map_cons, List.map_cons, List.cons.injEq] at hr
        exact ⟨⟨x, hr.1⟩, r, hr.2⟩
    · rintro ⟨⟨x, hx⟩, r, hr⟩
      exact ⟨x :: r, by rw [List.map_cons, List.map_cons, hx, hr]⟩

/-- The answers of the remote store do not shift exactly when it answers, and always in place. -/
theorem answersInPlace_iff {queries : List CacheEngineKey} :
    b.AnswersInPlace queries ↔ b.RemoteFinishes queries ∧ ∀ results, b.RemoteAnswers queries results →
      queries.map b.remoteStore.get = (padTo queries.length results).map .ok := by
  unfold AnswersInPlace RemoteFinishes RemoteAnswers
  by_cases hp : b.pipelined = true
  · simp only [hp, if_true]
    constructor
    · intro hheld
      refine ⟨pipelinedFinishes_of_ok fun e he => ?_, fun results hr =>
        (padTo_fetched_iff (pipelinedReturns_ok hr)).mpr hheld⟩
      obtain ⟨held, absent, rfl, hh, ha⟩ := hheld
      obtain ⟨key, hkey, hf⟩ := List.mem_filterMap.mp he
      rcases List.mem_append.mp hkey with hkey | hkey
      · obtain ⟨hfetched, v, hv⟩ := (readable_iff key).mp (hh key hkey)
        rw [hfetched, hv] at hf
        cases hf
      · rw [fetched_eq_none_iff.mpr (ha key hkey)] at hf
        cases hf
    · rintro ⟨hfinishes, hanswers⟩
      obtain ⟨results, hr⟩ := hfinishes.exists_returns
      exact (padTo_fetched_iff (pipelinedReturns_ok hr)).mp (hanswers results hr)
  · simp only [hp, batchedGet_ok_iff]
    rw [if_neg Bool.false_ne_true, if_neg Bool.false_ne_true, exists_map_ok_iff]
    refine ⟨fun h => ⟨h, fun results hr => ?_⟩, And.left⟩
    rw [if_neg Bool.false_ne_true] at hr
    have hlength : queries.length = results.length := by simpa using congrArg List.length hr
    rw [hlength, padTo_self, hr]

/-! ## The local store -/

theorem putPair_wf {l l' : LMCLocalBackend md CacheEngineKey R} {p : CacheEngineKey × List R} (h : l.WF)
    (hp : putPair l p = .ok l') : l'.WF := (LMCLocalBackend.putBlocking_ok h hp).1

/-- The local store takes the chunks exactly when their puts return. -/
theorem fillsReturn_iff (hw : b.localStore.WF) :
    b.FillsReturn keys ↔
      ∃ l, Reaches putPair (b.localReads keys).localStore (b.fills (missing b.localStore keys)) l :=
  along_iff_reaches (fun _ _ _ h hp => putPair_wf h hp)
    (fun _ _ h => (LMCLocalBackend.putBlocking_returns_iff h).symm) (localReads_spec b hw keys).2.2.1

/-- The puts add nothing but their pairs. -/
theorem find_of_reaches {ops : List (CacheEngineKey × List R)} {l l' : LMCLocalBackend md CacheEngineKey R}
    (h : l.WF) (hrun : Reaches putPair l ops l') {key : CacheEngineKey} {v : List R} (hv : l'.find key = some v) :
    l.find key = some v ∨ (key, v) ∈ ops := by
  induction ops generalizing l with
  | nil => exact Or.inl (reaches_nil.mp hrun ▸ hv)
  | cons p ops ih =>
    obtain ⟨l₁, hp, hrun⟩ := reaches_cons.mp hrun
    obtain ⟨hw, hfind⟩ := LMCLocalBackend.putBlocking_ok h hp
    rcases ih hw hrun with hold | hmem
    · rcases hfind key v hold with ⟨rfl, rfl⟩ | hold
      · exact Or.inr List.mem_cons_self
      · exact Or.inl hold
    · exact Or.inr (List.mem_cons_of_mem _ hmem)

theorem mem_fills {queries : List CacheEngineKey} {p : CacheEngineKey × List R} (h : p ∈ b.fills queries) :
    p.1 ∈ queries ∧ b.remoteStore.get p.1 = .ok (some p.2) := by
  obtain ⟨key, hkey, hp⟩ := List.mem_filterMap.mp h
  cases hget : b.remoteStore.get key with
  | error e => simp [hget] at hp
  | ok r =>
    cases r with
    | none => simp [hget] at hp
    | some v =>
      simp only [hget] at hp
      cases hp
      exact ⟨hkey, hget⟩

theorem fills_mem {queries : List CacheEngineKey} {key : CacheEngineKey} (hkey : key ∈ queries) {v : List R}
    (h : b.remoteStore.get key = .ok (some v)) : (key, v) ∈ b.fills queries :=
  List.mem_filterMap.mpr ⟨key, hkey, by simp [h]⟩

theorem find_of_mem_missing {l : LMCLocalBackend md CacheEngineKey R} {key : CacheEngineKey}
    (h : key ∈ missing l keys) : l.find key = none := by
  have := (List.mem_filter.mp h).2
  simpa using this

theorem exists_answers {queries : List CacheEngineKey} (h : b.RemoteFinishes queries) :
    ∃ results, b.RemoteAnswers queries results := by
  unfold RemoteFinishes at h
  unfold RemoteAnswers
  split_ifs at h ⊢
  · exact h.exists_returns
  · exact h

/-- Where `get` returns for the missing keys, it answers what the remote store does. -/
theorem map_get_of_map_answer {answers : List (Option (List R))}
    (h : (missing b.localStore keys).map b.answer = answers.map .ok) :
    (missing b.localStore keys).map b.remoteStore.get = answers.map .ok := by
  rw [← h]
  refine List.map_congr_left fun key hkey => ?_
  obtain ⟨r, hr⟩ := exists_map_ok_iff.mp ⟨answers, h⟩ key hkey
  rw [hr, get_of_answer (find_of_mem_missing hkey) hr]

/-- Where the local store takes each chunk, `get` answers what the remote store does. -/
theorem map_answer_of_map_get (hw : b.localStore.WF) {answers : List (Option (List R))}
    (hfit : ∀ key v, key ∈ missing b.localStore keys → b.remoteStore.get key = .ok (some v) →
      md.maxBytes < md.sizePerChunk ∨ v.length ≤ md.chunkSize)
    (h : (missing b.localStore keys).map b.remoteStore.get = answers.map .ok) :
    (missing b.localStore keys).map b.answer = answers.map .ok := by
  rw [← h]
  refine List.map_congr_left fun key hkey => ?_
  obtain ⟨r, hr⟩ := exists_map_ok_iff.mp ⟨answers, h⟩ key hkey
  rw [hr, answer_of_get hw (find_of_mem_missing hkey) hr fun v hv => hfit key v hkey (hv ▸ hr)]

/-- **When the batched read-through is right**: the answers of the remote store do not shift, and the local store takes
the chunks. -/
theorem readsThrough_iff {ops : List (LMCLocalBackend.Op CacheEngineKey R)}
    (hrun : Reaches LMCLocalBackend.step (LMCLocalBackend.new md CacheEngineKey R) ops b.localStore) :
    b.ReadsThrough keys ↔ b.AnswersInPlace (missing b.localStore keys) ∧ b.FillsReturn keys := by
  have hw := LMCLocalBackend.wf_of_reaches hrun
  have hfill : ∀ results, keys.map b.answer = (fillIn (keys.map b.localStore.find) results).map .ok ↔
      (missing b.localStore keys).map b.answer = (padTo (missing b.localStore keys).length results).map .ok :=
    fillIn_eq_iff (fun _ _ h => answer_of_find h) keys
  constructor
  · rintro ⟨hfinishes, hreturns⟩
    have hplace : ∀ results, b.RemoteAnswers (missing b.localStore keys) results →
        (missing b.localStore keys).map b.remoteStore.get =
          (padTo (missing b.localStore keys).length results).map .ok ∧
        ∃ l, Reaches putPair (b.localReads keys).localStore (pairs (missing b.localStore keys) results) l := by
      intro results hr
      obtain ⟨ret, b', hget, hanswer, -, -⟩ := hreturns results hr
      rw [batchedGet_eq b hw] at hget
      obtain ⟨l, hl, heq⟩ := map_ok hget
      cases heq
      exact ⟨map_get_of_map_answer ((hfill results).mp hanswer), l, hl⟩
    refine ⟨answersInPlace_iff.mpr ⟨hfinishes, fun results hr => (hplace results hr).1⟩, (fillsReturn_iff hw).mpr ?_⟩
    obtain ⟨results, hr⟩ := exists_answers hfinishes
    obtain ⟨hget, hl⟩ := hplace results hr
    rwa [pairs_eq_fills hget] at hl
  · rintro ⟨hplace, hfills⟩
    obtain ⟨hfinishes, hanswers⟩ := answersInPlace_iff.mp hplace
    obtain ⟨l, hl⟩ := (fillsReturn_iff hw).mp hfills
    have hfit := Along.forall_mem (V := fun p => md.maxBytes < md.sizePerChunk ∨ p.2.length ≤ md.chunkSize)
      (fun _ _ h => h.imp id And.left) hfills hl
    refine ⟨hfinishes, fun results hr => ?_⟩
    have hget := hanswers results hr
    have hpairs := pairs_eq_fills hget
    refine ⟨_, { b with localStore := l }, ?_, (hfill results).mpr ?_, fun p hp => ?_, fun key v hv => ?_⟩
    · rw [batchedGet_eq b hw, hpairs, show (b.fills (missing b.localStore keys)).foldlM putPair _ = .ok l from hl]
      rfl
    · exact map_answer_of_map_get hw (fun key v hkey h => hfit (key, v) (fills_mem hkey h)) hget
    · rw [inserted_eq b hw, hpairs] at hp
      exact (mem_fills hp).2
    · obtain ⟨-, -, hw', hfind⟩ := localReads_spec b hw keys
      rcases find_of_reaches hw' hl hv with hold | hmem
      · exact Or.inl (hfind key ▸ hold)
      · exact Or.inr (mem_fills hmem).2

/-! ## Runs on concrete inputs -/

/-- A hybrid backend with room for three chunks, nothing in the local store and one byte under a key in the remote one. -/
def overHolding (hash : String) (byte : UInt8) : LMCHybridBackend .threeChunks UInt8 :=
  { localStore := .new _ _ _, remoteStore := holding hash byte, pipelined := true }

/-- The remote store holds the only queried key. -/
theorem readsThrough_held_key : (overHolding "1" 7).ReadsThrough [CacheEngineKey.ofHash "1"] := by
  have hrun : Reaches LMCLocalBackend.step (LMCLocalBackend.new _ _ _) [] (overHolding "1" 7).localStore :=
    reaches_nil.mpr rfl
  refine (readsThrough_iff hrun).mpr ⟨?_, ?_⟩
  · refine ⟨[CacheEngineKey.ofHash "1"], [], rfl, fun key hkey => ?_, fun key hkey => absurd hkey List.not_mem_nil⟩
    rw [List.mem_singleton.mp hkey]
    exact ⟨[7], [7], by decide +kernel, by decide, rfl⟩
  · unfold FillsReturn
    decide +kernel

/-- The remote store lacks the first key and holds the second. The first is answered with the chunk of the second, and
the local store keeps it under the first key. -/
theorem readThrough_poisons_local :
    let b := overHolding "1" 7
    let keys := [CacheEngineKey.ofHash "0", CacheEngineKey.ofHash "1"]
    b.RemoteAnswers keys [some [7]] ∧ keys.map b.answer = [.ok none, .ok (some [7])] ∧
      ∃ r, b.batchedGet keys [some [7]] = .ok r ∧ r.1 = [some [7], none] ∧
        r.2.localStore.find (CacheEngineKey.ofHash "0") = some [7] :=
  ⟨holding_returns, by decide +kernel, by decide +kernel⟩

end FairCache.LMCHybridBackend
