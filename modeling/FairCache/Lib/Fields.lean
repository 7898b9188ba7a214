import FairCache.Lib.Numerals

/-!
# Texts in fields

* `split_append`, `split_eq_singleton_iff`, `join_split` : a text that is split at a separator;
* `le_of_decode_field` : a padded field of fixed width gives no text back that is as long as what was put in, unless
  that fits and is stripped.
-/

namespace FairCache.Lib.Bytes

/-! ## Separators -/

theorem split_append (sep : Char) (s t : List Char) : split sep (s ++ sep :: t) = split sep s ++ split sep t :=
  List.splitOn_append_cons_self s t

theorem split_ne_nil (sep : Char) (s : List Char) : split sep s ≠ [] := List.splitOn_ne_nil sep s

/-- A text has one part exactly when the separator is not in it. -/
theorem split_eq_singleton_iff {sep : Char} {s : List Char} : (split sep s).length = 1 ↔ sep ∉ s := by
  constructor
  · intro hlen hmem
    obtain ⟨a, b, rfl⟩ := List.append_of_mem hmem
    have ha := List.length_pos_iff.mpr (split_ne_nil sep a)
    have hb := List.length_pos_iff.mpr (split_ne_nil sep b)
    rw [split_append, List.length_append] at hlen
    omega
  · intro hmem
    rw [split, List.splitOn_eq_singleton hmem]
    rfl

theorem split_of_notMem {sep : Char} {s : List Char} (h : sep ∉ s) : split sep s = [s] := List.splitOn_eq_singleton h

/-- Parts with the separator between them. -/
def join (sep : Char) (parts : List (List Char)) : List Char := [sep].intercalate parts

theorem join_split (sep : Char) (s : List Char) : join sep (split sep s) = s := List.intercalate_splitOn sep

theorem split_injective (sep : Char) : Function.Injective (split sep) := by
  intro s t h
  rw [← join_split sep s, h, join_split]

theorem join_singleton (sep : Char) (s : List Char) : join sep [s] = s := by simp [join]

theorem join_cons (sep : Char) (s : List Char) {parts : List (List Char)} (h : parts ≠ []) :
    join sep (s :: parts) = s ++ sep :: join sep parts := by
  rw [join, List.intercalate_cons_of_ne_nil h, List.append_assoc]
  rfl

theorem join_append (sep : Char) {parts parts' : List (List Char)} (h : parts ≠ []) (h' : parts' ≠ []) :
    join sep (parts ++ parts') = join sep parts ++ sep :: join sep parts' := by
  induction parts with
  | nil => exact absurd rfl h
  | cons s parts ih =>
    cases parts with
    | nil => rw [List.singleton_append, join_cons sep s h', join_singleton]
    | cons t parts =>
      rw [List.cons_append, join_cons sep s (by simp), ih (by simp), join_cons sep s (by simp), List.append_assoc]
      rfl

/-! ## UTF-8 -/

/-- **What was decoded is encoded.** -/
theorem encode_of_decode {b : Bytes} {t : List Char} (h : decode b = some t) : encode t = b := by
  obtain ⟨a, ha, rfl⟩ := Option.map_eq_some_iff.mp h
  have hsome : (ByteArray.mk b.toArray).utf8Decode?.isSome := by rw [ha]; rfl
  have hget : (ByteArray.mk b.toArray).utf8Decode?.get hsome = a := Option.get_of_eq_some _ ha
  have hbytes := ByteArray.utf8Encode_get_utf8Decode? (h := hsome)
  rw [hget] at hbytes
  have hdata : (encode a.toList).toByteArray = ByteArray.mk b.toArray := hbytes
  have hlist := congrArg (fun x : ByteArray => x.data.toList) hdata
  simpa [List.data_toByteArray] using hlist

theorem length_encode_cons (c : Char) (s : List Char) : (encode (c :: s)).length = c.utf8Size + (encode s).length := by
  unfold encode
  rw [List.flatMap_cons, List.length_append, String.length_utf8EncodeChar]

theorem length_encode_append (s t : List Char) : (encode (s ++ t)).length = (encode s).length + (encode t).length := by
  rw [encode_append, List.length_append]

theorem length_encode_of_ascii {s : List Char} (h : ∀ c ∈ s, c.utf8Size = 1) : (encode s).length = s.length := by
  induction s with
  | nil => rfl
  | cons c s ih =>
    rw [length_encode_cons, ih (fun x hx => h x (List.mem_cons_of_mem _ hx)), h c List.mem_cons_self, List.length_cons,
      Nat.add_comm]

theorem length_encode_le {s t : List Char} (h : s.Sublist t) : (encode s).length ≤ (encode t).length := by
  induction h with
  | slnil => exact Nat.le_refl _
  | cons c _ ih =>
    rw [length_encode_cons]
    omega
  | cons_cons c _ ih =>
    rw [length_encode_cons, length_encode_cons]
    omega

/-- A text from which something is left out is shorter. -/
theorem eq_of_sublist_of_length_encode {s t : List Char} (h : s.Sublist t) (hle : (encode t).length ≤ (encode s).length) :
    s = t := by
  induction h with
  | slnil => rfl
  | cons c hsub _ =>
    have hlen := length_encode_le hsub
    have hpos := c.utf8Size_pos
    rw [length_encode_cons] at hle
    omega
  | cons_cons c _ ih =>
    rw [length_encode_cons, length_encode_cons] at hle
    rw [ih (by omega)]

/-! ## Fields -/

/-- **A field gives back something as long as what was put in only if that fits and is stripped.** -/
theorem le_of_decode_field {s t : List Char} {n : ℕ} (h : decode (fit n (ljust (encode s) n)) = some t)
    (hle : (encode s).length ≤ (encode (strip t)).length) : (encode s).length ≤ n ∧ strip s = s := by
  have hbytes := encode_of_decode h
  have hstrip := length_encode_le (strip_sublist t)
  have hwidth := congrArg List.length hbytes
  rw [length_fit] at hwidth
  have hfits : (encode s).length ≤ n := by omega
  refine ⟨hfits, ?_⟩
  rw [decode_fit_ljust hfits] at h
  rw [← Option.some.inj h, strip_append_spaces] at hle
  exact eq_of_sublist_of_length_encode (strip_sublist s) hle

end FairCache.Lib.Bytes
