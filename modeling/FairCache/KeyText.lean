import FairCache.Key
import FairCache.Lib.Fields

/-!
# The text of a key

* `CacheEngineKey.split_toString` : the parts of `to_string`;
* `CacheEngineKey.fromString_toString_iff` : which keys are read back;
* `CacheEngineKey.unique_iff` : which keys have a text of their own;
* `CacheEngineKey.length_toString_le` : a text that is read as a key is no shorter than the key's own.
-/

namespace FairCache

open Lib

namespace CacheEngineKey

/-- A decimal integer as `str` prints it. -/
def IsNumeral (s : List Char) : Prop := ∃ n : ℤ, (ToString.toString n).toList = s

theorem notMem_toString (n : ℤ) : '@' ∉ (ToString.toString n).toList := by
  intro h
  exact Bytes.forall_mem_toString (p := fun c => c ≠ '@') (by decide) (fun d hd => by interval_cases d <;> decide) n _ h rfl

theorem toString_int_injective {m n : ℤ} (h : (ToString.toString m).toList = (ToString.toString n).toList) : m = n := by
  have hm := Bytes.parseInt_toString m
  rw [h, Bytes.parseInt_toString n] at hm
  exact (Option.some.inj hm).symm

theorem toList_toString (k : CacheEngineKey) :
    k.toString.toList = k.fmt.toList ++ '@' :: (k.modelName.toList ++ '@' :: ((ToString.toString k.worldSize).toList ++
      '@' :: ((ToString.toString k.workerId).toList ++ '@' :: k.chunkHash.toList))) := by
  unfold toString
  simp only [String.toList_append, List.append_assoc]
  rfl

/-- **The parts of a key's text.** -/
theorem split_toString (k : CacheEngineKey) :
    Bytes.split '@' k.toString.toList = Bytes.split '@' k.fmt.toList ++ Bytes.split '@' k.modelName.toList ++
      (ToString.toString k.worldSize).toList :: (ToString.toString k.workerId).toList ::
        Bytes.split '@' k.chunkHash.toList := by
  rw [toList_toString, Bytes.split_append, Bytes.split_append, Bytes.split_append, Bytes.split_append,
    Bytes.split_of_notMem (notMem_toString k.worldSize), Bytes.split_of_notMem (notMem_toString k.workerId)]
  simp only [List.append_assoc, List.singleton_append]

/-- No part of the key contains the separator. -/
structure Plain (k : CacheEngineKey) : Prop where
  fmt : '@' ∉ k.fmt.toList
  modelName : '@' ∉ k.modelName.toList
  chunkHash : '@' ∉ k.chunkHash.toList

theorem Plain.split_toString {k : CacheEngineKey} (h : k.Plain) :
    Bytes.split '@' k.toString.toList = [k.fmt.toList, k.modelName.toList, (ToString.toString k.worldSize).toList,
      (ToString.toString k.workerId).toList, k.chunkHash.toList] := by
  rw [CacheEngineKey.split_toString, Bytes.split_of_notMem h.fmt, Bytes.split_of_notMem h.modelName,
    Bytes.split_of_notMem h.chunkHash]
  rfl

/-- What a text that is read consists of. -/
theorem split_of_fromString {s : String} {k : CacheEngineKey} (h : fromString s = some k) :
    ∃ worldSize workerId, Bytes.split '@' s.toList =
        [k.fmt.toList, k.modelName.toList, worldSize, workerId, k.chunkHash.toList] ∧
      Bytes.parseInt worldSize = some k.worldSize ∧ Bytes.parseInt workerId = some k.workerId := by
  unfold fromString at h
  split at h
  · rename_i fmt modelName worldSize workerId chunkHash hsplit
    split at h
    · rename_i w i hw hi
      cases h
      refine ⟨worldSize, workerId, ?_, hw, hi⟩
      rw [hsplit]
      simp only [String.toList_ofList]
    · cases h
  · cases h

/-- **A key is read back from its text exactly when no part of it contains the separator.** -/
theorem fromString_toString_iff (k : CacheEngineKey) : fromString k.toString = some k ↔ k.Plain := by
  constructor
  · intro h
    obtain ⟨worldSize, workerId, hsplit, -, -⟩ := split_of_fromString h
    have hlen := congrArg List.length hsplit
    rw [split_toString] at hlen
    simp only [List.length_append, List.length_cons, List.length_nil] at hlen
    have hfmt := List.length_pos_iff.mpr (Bytes.split_ne_nil '@' k.fmt.toList)
    have hmodel := List.length_pos_iff.mpr (Bytes.split_ne_nil '@' k.modelName.toList)
    have hhash := List.length_pos_iff.mpr (Bytes.split_ne_nil '@' k.chunkHash.toList)
    exact
      { fmt := Bytes.split_eq_singleton_iff.mp (by omega)
        modelName := Bytes.split_eq_singleton_iff.mp (by omega)
        chunkHash := Bytes.split_eq_singleton_iff.mp (by omega) }
  · intro h
    unfold fromString
    rw [h.split_toString]
    simp only [Bytes.parseInt_toString, String.ofList_toList]

/-! ## Keys with one text -/

/-- In the worker and the hash no two neighbouring parts with a part after them are both integers. -/
def NoLaterNumbers (k : CacheEngineKey) : Prop :=
  ∀ before w i after, (ToString.toString k.workerId).toList :: Bytes.split '@' k.chunkHash.toList =
    before ++ w :: i :: after → after ≠ [] → ¬ (IsNumeral w ∧ IsNumeral i)

theorem NoLaterNumbers.unique {k k' : CacheEngineKey} (h : k.NoLaterNumbers) (hfmt : '@' ∉ k.fmt.toList)
    (hmodel : '@' ∉ k.modelName.toList) (heq : k'.toString = k.toString) : k' = k := by
  have hparts := congrArg (fun s => Bytes.split '@' (String.toList s)) heq
  simp only [split_toString] at hparts
  have hf := List.length_pos_iff.mpr (Bytes.split_ne_nil '@' k'.fmt.toList)
  have hm := List.length_pos_iff.mpr (Bytes.split_ne_nil '@' k'.modelName.toList)
  have hsplit := Bytes.split_of_notMem hfmt
  have hsplit' := Bytes.split_of_notMem hmodel
  by_cases hlen : (Bytes.split '@' k'.fmt.toList ++ Bytes.split '@' k'.modelName.toList).length = 2
  · -- the two keys have the same five parts
    obtain ⟨hfront, htail⟩ := List.append_inj hparts (by rw [hlen, hsplit, hsplit']; rfl)
    rw [List.length_append] at hlen
    obtain ⟨hfst, hsnd⟩ := List.append_inj hfront (by rw [hsplit, List.length_singleton]; omega)
    simp only [List.cons.injEq] at htail
    obtain ⟨hw, hi, hhash⟩ := htail
    have hfmt' := String.toList_injective (Bytes.split_injective '@' hfst)
    have hmodel' := String.toList_injective (Bytes.split_injective '@' hsnd)
    have hhash' := String.toList_injective (Bytes.split_injective '@' hhash)
    obtain ⟨f, m, w, i, c⟩ := k
    obtain ⟨f', m', w', i', c'⟩ := k'
    exact congr (congr (congr (congr (congrArg mk hfmt') hmodel') (toString_int_injective hw)) (toString_int_injective hi))
      hhash'
  · -- the other key's numbers come later
    have hlater := congrArg (List.drop 3) hparts
    rw [hsplit, hsplit', List.drop_append_of_le_length (by rw [List.length_append] at hlen ⊢; omega)] at hlater
    refine absurd ⟨⟨k'.worldSize, rfl⟩, ⟨k'.workerId, rfl⟩⟩ (h _ _ _ _ hlater.symm (Bytes.split_ne_nil '@' _))

/-- The key whose text has the given parts. -/
def ofParts (fmt modelName : List (List Char)) (worldSize workerId : ℤ) (chunkHash : List (List Char)) : CacheEngineKey :=
  { fmt := String.ofList (Bytes.join '@' fmt), modelName := String.ofList (Bytes.join '@' modelName)
    worldSize := worldSize, workerId := workerId, chunkHash := String.ofList (Bytes.join '@' chunkHash) }

theorem toString_ofParts {fmt modelName chunkHash : List (List Char)} (worldSize workerId : ℤ) (hfmt : fmt ≠ [])
    (hmodel : modelName ≠ []) (hhash : chunkHash ≠ []) :
    (ofParts fmt modelName worldSize workerId chunkHash).toString =
      String.ofList (Bytes.join '@' (fmt ++ modelName ++ (ToString.toString worldSize).toList ::
        (ToString.toString workerId).toList :: chunkHash)) := by
  apply String.toList_injective
  rw [toList_toString, String.toList_ofList, List.append_assoc, Bytes.join_append '@' hfmt (by simp [hmodel]),
    Bytes.join_append '@' hmodel (by simp), Bytes.join_cons '@' _ (by simp), Bytes.join_cons '@' _ hhash]
  simp only [ofParts, String.toList_ofList]

/-- Another way to take the parts of a key's text. -/
theorem toString_ofParts_eq (k : CacheEngineKey) (fmt modelName : List (List Char)) (worldSize workerId : ℤ)
    {chunkHash : List (List Char)} (hfmt : fmt ≠ []) (hmodel : modelName ≠ []) (hhash : chunkHash ≠ [])
    (hparts : fmt ++ modelName ++ (ToString.toString worldSize).toList :: (ToString.toString workerId).toList :: chunkHash =
      Bytes.split '@' k.toString.toList) : (ofParts fmt modelName worldSize workerId chunkHash).toString = k.toString := by
  rw [toString_ofParts worldSize workerId hfmt hmodel hhash, hparts, Bytes.join_split, String.ofList_toList]

/-- A text with the separator has two parts at least. -/
theorem split_of_mem {s : List Char} (h : '@' ∈ s) : ∃ a b rest, Bytes.split '@' s = a :: b :: rest := by
  obtain ⟨a, rest, hsplit⟩ := List.exists_cons_of_ne_nil (Bytes.split_ne_nil '@' s)
  cases rest with
  | nil => exact absurd h (Bytes.split_eq_singleton_iff.mp (by rw [hsplit]; rfl))
  | cons b rest => exact ⟨a, b, rest, hsplit⟩

/-- **A key has a text of its own exactly when its format and model do not contain the separator and no later parts can
be taken for its numbers.** -/
theorem unique_iff (k : CacheEngineKey) :
    (∀ k' : CacheEngineKey, k'.toString = k.toString → k' = k) ↔
      '@' ∉ k.fmt.toList ∧ '@' ∉ k.modelName.toList ∧ k.NoLaterNumbers := by
  have hf := Bytes.split_ne_nil '@' k.fmt.toList
  have hm := Bytes.split_ne_nil '@' k.modelName.toList
  have hh := Bytes.split_ne_nil '@' k.chunkHash.toList
  constructor
  · intro hunique
    refine ⟨fun hmem => ?_, fun hmem => ?_, fun before w i after hsplit hafter hnum => ?_⟩
    · -- the end of the format goes to the model
      obtain ⟨a, b, rest, hparts⟩ := split_of_mem hmem
      have heq := hunique _ (toString_ofParts_eq k [a] (b :: rest ++ Bytes.split '@' k.modelName.toList) k.worldSize k.workerId
        (List.cons_ne_nil _ _) (by simp) hh (by rw [split_toString, hparts]; simp))
      have hlen := congrArg (fun k : CacheEngineKey => k.modelName.toList.length) heq
      simp only [ofParts, String.toList_ofList] at hlen
      rw [Bytes.join_append '@' (List.cons_ne_nil _ _) hm, Bytes.join_split, List.length_append, List.length_cons] at hlen
      omega
    · -- the beginning of the model goes to the format
      obtain ⟨a, b, rest, hparts⟩ := split_of_mem hmem
      have heq := hunique _ (toString_ofParts_eq k (Bytes.split '@' k.fmt.toList ++ [a]) (b :: rest) k.worldSize k.workerId
        (by simp) (List.cons_ne_nil _ _) hh (by rw [split_toString, hparts]; simp))
      have hlen := congrArg (fun k : CacheEngineKey => k.fmt.toList.length) heq
      simp only [ofParts, String.toList_ofList] at hlen
      rw [Bytes.join_append '@' hf (List.cons_ne_nil _ _), Bytes.join_split, List.length_append, List.length_cons] at hlen
      omega
    · -- the later numbers are the numbers
      obtain ⟨⟨worldSize, rfl⟩, ⟨workerId, rfl⟩⟩ := hnum
      have heq := hunique _ (toString_ofParts_eq k (Bytes.split '@' k.fmt.toList)
        (Bytes.split '@' k.modelName.toList ++ (ToString.toString k.worldSize).toList :: before) worldSize workerId hf (by simp) hafter
        (by rw [split_toString, hsplit]; simp))
      have hlen := congrArg (fun k : CacheEngineKey => k.modelName.toList.length) heq
      simp only [ofParts, String.toList_ofList] at hlen
      rw [Bytes.join_append '@' hm (List.cons_ne_nil _ _), Bytes.join_split, List.length_append, List.length_cons] at hlen
      omega
  · rintro ⟨hfmt, hmodel, hlater⟩ k' heq
    exact hlater.unique hfmt hmodel heq

/-! ## The length of a text -/

theorem length_encode_numeral (n : ℤ) :
    (Bytes.encode (ToString.toString n).toList).length = (ToString.toString n).toList.length :=
  Bytes.length_encode_of_ascii
    (Bytes.forall_mem_toString (by decide) (fun d hd => by interval_cases d <;> decide) n)

theorem length_numeral_le {s : List Char} {n : ℤ} (h : Bytes.parseInt s = some n) :
    (Bytes.encode (ToString.toString n).toList).length ≤ (Bytes.encode s).length := by
  rw [length_encode_numeral]
  exact (Bytes.length_toString_le h).trans (Bytes.length_le_encode s)

/-- **A text that is read as a key is no shorter than the key's own.** -/
theorem length_toString_le {s : String} {k : CacheEngineKey} (h : fromString s = some k) :
    (Bytes.encode k.toString.toList).length ≤ (Bytes.encode s.toList).length := by
  obtain ⟨worldSize, workerId, hsplit, hw, hi⟩ := split_of_fromString h
  have hjoin := Bytes.join_split '@' s.toList
  have hw' := length_numeral_le hw
  have hi' := length_numeral_le hi
  rw [hsplit, Bytes.join_cons '@' _ (by simp), Bytes.join_cons '@' _ (by simp), Bytes.join_cons '@' _ (by simp),
    Bytes.join_cons '@' _ (by simp), Bytes.join_singleton] at hjoin
  rw [← hjoin, toList_toString]
  simp only [Bytes.length_encode_append, Bytes.length_encode_cons]
  omega

end CacheEngineKey

end FairCache
