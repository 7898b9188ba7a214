import FairCache.Evictor.Lru
import FairCache.Lib.LastWrite

/-!
# The disk backend of the cache server

`LMSLocalDiskBackend` keeps each chunk in a file, whose name is the key with `-` for `/`.

* `put`, `remove`, `get` : the operations; `step` : one of them in a run;
* `Holds` : what the dictionary and the files hold after a run;
* `get_iff` : when a read returns what was last put under its key.
-/

namespace FairCache

open Lib

/-- `DummyEvictor.update_on_put`. -/
def DummyEvictor.updateOnPut {K V : Type} (_cacheDict : Dict K V) (_cacheSize : ℕ) : List K × PutStatus := ([], .legal)

/-- `key.replace("/", "-")`. -/
def replaceSlashes (key : String) : String := String.ofList (key.toList.map fun c => if c = '/' then '-' else c)

/-- The backend, and what was last written to each path. -/
structure LMSLocalDiskBackend where
  path : String
  dict : Dict String DiskCacheMetadata
  files : Dict String (List UInt8)

namespace LMSLocalDiskBackend

def new (path : String) : LMSLocalDiskBackend := { path := path, dict := ∅, files := ∅ }

/-- `_key_to_path`. -/
def keyToPath (b : LMSLocalDiskBackend) (key : String) : String := b.path ++ replaceSlashes key ++ ".bin"

/-- `remove`. -/
def remove (b : LMSLocalDiskBackend) (key : String) : Except PyError LMSLocalDiskBackend :=
  match b.dict.lookup key with
  | none => .error .keyError
  | some metadata =>
    if metadata.path ∈ b.files then
      .ok { b with dict := b.dict.erase key, files := b.files.erase metadata.path }
    else .error (.exception "FileNotFoundError")

/-- `put`. -/
def put (b : LMSLocalDiskBackend) (key : String) (kvChunkBytes : List UInt8) : Except PyError LMSLocalDiskBackend := do
  let path := b.keyToPath key
  let size ← getSize (.bytearray kvChunkBytes)
  match DummyEvictor.updateOnPut b.dict size with
  | (_, .illegal) => return b
  | (evictKeys, .legal) =>
    let b ← evictKeys.foldlM remove b
    let b := { b with files := b.files.set (b.keyToPath key) kvChunkBytes }
    let size ← getSize (.bytearray kvChunkBytes)
    return { b with dict := b.dict.set key { path := path, size := size } }

/-- `get` ; `DummyEvictor.update_on_get` does nothing. -/
def get (b : LMSLocalDiskBackend) (key : String) : Except PyError (Option (List UInt8)) :=
  match b.dict.lookup key with
  | none => .ok none
  | some metadata =>
    match b.files.lookup metadata.path with
    | none => .error (.exception "FileNotFoundError")
    | some kvChunk => .ok (some kvChunk)

/-- A put or a read. -/
inductive Op
  | put (key : String) (kvChunkBytes : List UInt8)
  | get (key : String)

/-- The state after an operation. -/
def step (b : LMSLocalDiskBackend) : Op → Except PyError LMSLocalDiskBackend
  | .put key kvChunkBytes => b.put key kvChunkBytes
  | .get key => (b.get key).map fun _ => b

/-! ## What it holds -/

/-- What an operation puts under a key. -/
def putUnder (key : String) : Op → Option (List UInt8)
  | .put j kvChunkBytes => if j = key then some kvChunkBytes else none
  | .get _ => none

/-- What an operation writes to the file of a key. -/
def writtenFor (key : String) : Op → Option (List UInt8)
  | .put j kvChunkBytes => if replaceSlashes j = replaceSlashes key then some kvChunkBytes else none
  | .get _ => none

/-- After the operations each key has an entry with its size, and the file of a key has the last write to it. -/
structure Holds (path : String) (ops : List Op) (b : LMSLocalDiskBackend) : Prop where
  path : b.path = path
  dict : ∀ key, b.dict.lookup key =
    (lastWrite (putUnder key) ops).map fun v => { path := b.keyToPath key, size := v.length }
  files : ∀ key, b.files.lookup (b.keyToPath key) = lastWrite (writtenFor key) ops

theorem keyToPath_inj {b : LMSLocalDiskBackend} {j k : String} :
    b.keyToPath j = b.keyToPath k ↔ replaceSlashes j = replaceSlashes k := by
  constructor
  · intro h
    have hlist := congrArg String.toList h
    simp only [keyToPath, String.toList_append, List.append_cancel_right_eq, List.append_cancel_left_eq] at hlist
    exact String.toList_injective hlist
  · intro h
    rw [keyToPath, h, keyToPath]

theorem put_eq (b : LMSLocalDiskBackend) (key : String) (v : List UInt8) :
    b.put key v = .ok { b with
      files := b.files.set (b.keyToPath key) v
      dict := b.dict.set key { path := b.keyToPath key, size := v.length } } := rfl

/-- What is put under a key is written to its file. -/
theorem writtenFor_of_putUnder {key : String} {op : Op} {v : List UInt8} (h : putUnder key op = some v) :
    writtenFor key op = some v := by
  cases op with
  | get j => cases h
  | put j w =>
    unfold putUnder at h
    dsimp only at h
    split_ifs at h with hj
    rw [writtenFor, hj, if_pos rfl, h]

/-- A key that was put has a file. -/
theorem exists_written {key : String} {ops : List Op} {v : List UInt8} (h : lastWrite (putUnder key) ops = some v) :
    ∃ w, lastWrite (writtenFor key) ops = some w := by
  obtain ⟨before, op, after, rfl, hop, -⟩ := lastWrite_eq_some_iff.mp h
  exact ⟨_, lastWrite_append_cons (writtenFor_of_putUnder hop) before after⟩

theorem Holds.get_eq {path : String} {ops : List Op} {b : LMSLocalDiskBackend} (h : Holds path ops b) (key : String) :
    b.get key = .ok (if (lastWrite (putUnder key) ops).isSome then lastWrite (writtenFor key) ops else none) := by
  unfold get
  rw [h.dict key]
  cases hput : lastWrite (putUnder key) ops with
  | none => rfl
  | some v =>
    obtain ⟨w, hw⟩ := exists_written hput
    simp only [Option.map_some, h.files key, hw, Option.isSome_some, if_true]

/-- **An operation returns, and the backend holds what was put.** -/
theorem Holds.step {path : String} {ops : List Op} {b : LMSLocalDiskBackend} (h : Holds path ops b) (op : Op) :
    ∃ b', b.step op = .ok b' ∧ Holds path (ops ++ [op]) b' := by
  cases op with
  | get key =>
    refine ⟨b, ?_, ?_⟩
    · rw [LMSLocalDiskBackend.step, h.get_eq key]
      rfl
    · exact
        { path := h.path
          dict := fun j => by rw [lastWrite_concat]; exact h.dict j
          files := fun j => by rw [lastWrite_concat]; exact h.files j }
  | put key v =>
    refine ⟨_, put_eq b key v, ?_⟩
    refine { path := h.path, dict := fun j => ?_, files := fun j => ?_ }
    · rw [lastWrite_concat]
      show (b.dict.set key _).lookup j = _
      rw [Dict.lookup_set]
      by_cases hj : j = key
      · subst hj
        simp [putUnder, keyToPath]
      · rw [if_neg hj, h.dict j]
        simp [putUnder, Ne.symm hj, keyToPath]
    · rw [lastWrite_concat]
      show (b.files.set (b.keyToPath key) v).lookup (b.keyToPath j) = _
      rw [Dict.lookup_set]
      by_cases hj : replaceSlashes j = replaceSlashes key
      · rw [if_pos (keyToPath_inj.mpr hj)]
        simp [writtenFor, hj]
      · rw [if_neg (fun heq => hj (keyToPath_inj.mp heq)), h.files j]
        simp [writtenFor, Ne.symm hj]

/-- **Every run returns, and the backend holds what was put in it.** -/
theorem holds_of_run (path : String) (ops : List Op) :
    ∃ b, Reaches LMSLocalDiskBackend.step (new path) ops b ∧ Holds path ops b := by
  induction ops using List.reverseRecOn with
  | nil => exact ⟨new path, rfl, { path := rfl, dict := fun _ => rfl, files := fun _ => rfl }⟩
  | append_singleton ops op ih =>
    obtain ⟨b, hrun, hholds⟩ := ih
    obtain ⟨b', hstep, hholds'⟩ := hholds.step op
    exact ⟨b', reaches_append.mpr ⟨b, hrun, reaches_cons.mpr ⟨b', hstep, rfl⟩⟩, hholds'⟩

/-! ## Reads -/

/-- Whenever, after the last put of a key, some put goes to the same file, the last of them has the same bytes. -/
def Unaliased (ops : List Op) (key : String) : Prop :=
  ∀ before v after, ops = before ++ .put key v :: after → (∀ w, .put key w ∉ after) →
    ∀ mid j w rest, after = mid ++ .put j w :: rest → replaceSlashes j = replaceSlashes key →
      (∀ i u, .put i u ∈ rest → replaceSlashes i ≠ replaceSlashes key) → w = v

theorem putUnder_eq_some {key : String} {op : Op} {v : List UInt8} : putUnder key op = some v ↔ op = .put key v := by
  cases op with
  | get j => simp [putUnder]
  | put j w =>
    unfold putUnder
    dsimp only
    split_ifs with hj
    · simp [hj]
    · simp [hj]

theorem forall_putUnder_eq_none {key : String} {ops : List Op} :
    (∀ o ∈ ops, putUnder key o = none) ↔ ∀ w, .put key w ∉ ops := by
  constructor
  · intro h w hmem
    have := h _ hmem
    rw [putUnder_eq_some.mpr rfl] at this
    cases this
  · intro h o ho
    cases hop : putUnder key o with
    | none => rfl
    | some v => exact absurd (putUnder_eq_some.mp hop ▸ ho) (h v)

theorem writtenFor_eq_some {key : String} {op : Op} {v : List UInt8} :
    writtenFor key op = some v ↔ ∃ j, op = .put j v ∧ replaceSlashes j = replaceSlashes key := by
  cases op with
  | get j => simp [writtenFor]
  | put j w =>
    unfold writtenFor
    dsimp only
    split_ifs with hj
    · simp [hj]
    · simp only [false_iff, not_exists, not_and]
      rintro i heq hi
      cases heq
      exact hj hi

theorem forall_writtenFor_eq_none {key : String} {ops : List Op} :
    (∀ o ∈ ops, writtenFor key o = none) ↔ ∀ i u, .put i u ∈ ops → replaceSlashes i ≠ replaceSlashes key := by
  constructor
  · intro h i u hmem heq
    have := h _ hmem
    rw [writtenFor_eq_some.mpr ⟨i, rfl, heq⟩] at this
    cases this
  · intro h o ho
    cases hop : writtenFor key o with
    | none => rfl
    | some v =>
      obtain ⟨j, rfl, heq⟩ := writtenFor_eq_some.mp hop
      exact absurd heq (h j v ho)

/-- The file of a key has the bytes that were put last under it exactly when nothing else went there since. -/
theorem lastWrite_writtenFor_iff {ops : List Op} {key : String} {v : List UInt8}
    (h : lastWrite (putUnder key) ops = some v) : lastWrite (writtenFor key) ops = some v ↔ Unaliased ops key := by
  obtain ⟨before, op, after, hops, hop, hafter⟩ := lastWrite_eq_some_iff.mp h
  constructor
  · intro hwritten before' v' after' hops' hafter' mid j w rest hsplit hj hrest
    have hv : lastWrite (putUnder key) ops = some v' := by
      rw [hops', lastWrite_append_cons (putUnder_eq_some.mpr rfl),
        lastWrite_eq_none (forall_putUnder_eq_none.mpr hafter')]
      rfl
    have hw : lastWrite (writtenFor key) ops = some w := by
      refine lastWrite_eq_some_iff.mpr ⟨before' ++ .put key v' :: mid, .put j w, rest, ?_, ?_, ?_⟩
      · rw [hops', hsplit]
        simp
      · exact writtenFor_eq_some.mpr ⟨j, rfl, hj⟩
      · exact forall_writtenFor_eq_none.mpr hrest
    rw [h] at hv
    rw [hwritten] at hw
    exact (Option.some.inj hw).symm.trans (Option.some.inj hv)
  · intro hclean
    rw [hops, lastWrite_append_cons (writtenFor_of_putUnder hop)]
    cases hlater : lastWrite (writtenFor key) after with
    | none => rfl
    | some w =>
      obtain ⟨mid, o, rest, hsplit, ho, hrest⟩ := lastWrite_eq_some_iff.mp hlater
      obtain ⟨j, rfl, hj⟩ := writtenFor_eq_some.mp ho
      rw [putUnder_eq_some.mp hop] at hops
      exact congrArg some (hclean before v after hops (forall_putUnder_eq_none.mp hafter) mid j w rest hsplit hj
        (forall_writtenFor_eq_none.mp hrest))

/-- The keys of the models `org/m` and `org-m` share a file: a read under the first returns the chunk of the second. -/
theorem get_returns_other_models_chunk :
    ∃ b, Reaches LMSLocalDiskBackend.step (new "/cache/")
        [.put "vllm@org/m@1@0@ab" [1], .put "vllm@org-m@1@0@ab" [2]] b ∧
      b.get "vllm@org/m@1@0@ab" = .ok (some [2]) ∧
      lastWrite (putUnder "vllm@org/m@1@0@ab") [.put "vllm@org/m@1@0@ab" [1], .put "vllm@org-m@1@0@ab" [2]] = some [1] :=
  ⟨_, rfl, rfl, rfl⟩

/-- **A read returns what was last put under its key exactly when no other key's put has gone to its file since.** -/
theorem get_iff (path : String) (ops : List Op) (key : String) :
    ∃ b, Reaches LMSLocalDiskBackend.step (new path) ops b ∧
      (b.get key = .ok (lastWrite (putUnder key) ops) ↔ Unaliased ops key) := by
  obtain ⟨b, hrun, hholds⟩ := holds_of_run path ops
  refine ⟨b, hrun, ?_⟩
  rw [hholds.get_eq key, Except.ok.injEq]
  cases hput : lastWrite (putUnder key) ops with
  | none =>
    -- a key that was never put is not in the dictionary
    refine iff_of_true rfl fun before v after hops _ => ?_
    rw [hops, lastWrite_append_cons (putUnder_eq_some.mpr rfl)] at hput
    cases hput
  | some v => exact lastWrite_writtenFor_iff hput

end LMSLocalDiskBackend

end FairCache
