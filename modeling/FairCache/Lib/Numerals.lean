import FairCache.Lib.Bytes
import Mathlib.Tactic.IntervalCases

/-!
# Decimal numerals

* `mem_toString` : `str(n)` consists of digits and a sign;
* `parseInt_toString` : `int(str(n))` is `n`;
* `length_toString_le` : a text that `int` accepts is as long as `str` of its value at least.
-/

namespace FairCache.Lib.Bytes

/-! ## Digits -/

theorem digitValue_digitChar {d : ℕ} (h : d < 10) : digitValue d.digitChar = some d := by
  interval_cases d <;> decide

theorem digitChar_ne_underscore {d : ℕ} (h : d < 10) : d.digitChar ≠ '_' := by
  interval_cases d <;> decide

theorem digitValue_lt {c : Char} {d : ℕ} (h : digitValue c = some d) : d < 10 := by
  obtain ⟨z, hz, rfl⟩ := Option.map_eq_some_iff.mp h
  have hfound := List.find?_some hz
  rw [Bool.and_eq_true, decide_eq_true_eq, decide_eq_true_eq] at hfound
  omega

/-- The digits of a number. -/
theorem mem_toDigits {n : ℕ} {c : Char} (h : c ∈ Nat.toDigits 10 n) : ∃ d < 10, c = d.digitChar := by
  induction n using Nat.strong_induction_on with
  | _ n ih =>
    rcases Nat.lt_or_ge n 10 with hn | hn
    · rw [Nat.toDigits_of_lt_base hn, List.mem_singleton] at h
      exact ⟨n, hn, h⟩
    · rw [Nat.toDigits_of_base_le (by decide) hn, List.mem_append, List.mem_singleton] at h
      rcases h with h | h
      · exact ih (n / 10) (by omega) h
      · exact ⟨n % 10, Nat.mod_lt _ (by decide), h⟩

theorem toList_toString (n : ℤ) :
    (toString n).toList = if 0 ≤ n then Nat.toDigits 10 n.natAbs else '-' :: Nat.toDigits 10 n.natAbs := by
  cases n with
  | ofNat m =>
    rw [if_pos (show (0 : ℤ) ≤ Int.ofNat m from Int.natCast_nonneg m)]
    show (toString m).toList = _
    rw [Nat.toString_eq_repr, Nat.toList_repr]
    rfl
  | negSucc m =>
    rw [if_neg (by omega)]
    show ("-" ++ (m + 1).repr).toList = _
    rw [String.toList_append, Nat.toList_repr]
    rfl

/-- **A numeral consists of digits and a sign.** -/
theorem mem_toString {n : ℤ} {c : Char} (h : c ∈ (toString n).toList) : c = '-' ∨ ∃ d < 10, c = d.digitChar := by
  rw [toList_toString] at h
  split_ifs at h
  · exact Or.inr (mem_toDigits h)
  · rcases List.mem_cons.mp h with h | h
    · exact Or.inl h
    · exact Or.inr (mem_toDigits h)

/-- A property of the sign and of the ten digits is one of all characters of a numeral. -/
theorem forall_mem_toString {p : Char → Prop} (hsign : p '-') (hdigit : ∀ d < 10, p d.digitChar) (n : ℤ) :
    ∀ c ∈ (toString n).toList, p c := by
  intro c hc
  rcases mem_toString hc with rfl | ⟨d, hd, rfl⟩
  · exact hsign
  · exact hdigit d hd

/-! ## What is parsed -/

theorem parseDigits_cons {c : Char} (hc : c ≠ '_') (n : ℕ) (s : List Char) :
    parseDigits n (c :: s) = (digitValue c).bind fun d => parseDigits (10 * n + d) s := by
  rw [parseDigits]
  intro _ _ h
  exact absurd h hc

theorem parseDigits_append {s : List Char} (hs : ∀ c ∈ s, c ≠ '_') {c : Char} (hc : c ≠ '_') (n : ℕ) :
    parseDigits n (s ++ [c]) =
      (parseDigits n s).bind fun m => (digitValue c).bind fun d => some (10 * m + d) := by
  induction s generalizing n with
  | nil =>
    rw [List.nil_append, parseDigits_cons hc]
    rfl
  | cons x s ih =>
    have hx : x ≠ '_' := hs x List.mem_cons_self
    have hrest := fun m => ih (fun y hy => hs y (List.mem_cons_of_mem _ hy)) m
    rw [List.cons_append, parseDigits_cons hx, parseDigits_cons hx]
    cases digitValue x with
    | none => rfl
    | some d => exact hrest _

theorem parseNat_toDigits (n : ℕ) : parseNat (Nat.toDigits 10 n) = some n := by
  induction n using Nat.strong_induction_on with
  | _ n ih =>
    rcases Nat.lt_or_ge n 10 with hn | hn
    · rw [Nat.toDigits_of_lt_base hn, parseNat, digitValue_digitChar hn]
      rfl
    · have hmod : n % 10 < 10 := Nat.mod_lt _ (by decide)
      have hfront := ih (n / 10) (by omega)
      have hdigits : ∀ c ∈ Nat.toDigits 10 (n / 10), c ≠ '_' := by
        intro c hc
        obtain ⟨d, hd, rfl⟩ := mem_toDigits hc
        exact digitChar_ne_underscore hd
      rw [Nat.toDigits_of_base_le (by decide) hn]
      cases hcase : Nat.toDigits 10 (n / 10) with
      | nil => exact absurd hcase Nat.toDigits_ne_nil
      | cons c s =>
        rw [hcase] at hfront hdigits
        rw [parseNat] at hfront
        rw [List.cons_append, parseNat]
        cases hfirst : digitValue c with
        | none =>
          rw [hfirst] at hfront
          cases hfront
        | some d =>
          rw [hfirst, Option.bind_some] at hfront
          rw [Option.bind_some, parseDigits_append (fun x hx => hdigits x (List.mem_cons_of_mem _ hx))
            (digitChar_ne_underscore hmod), hfront, Option.bind_some, digitValue_digitChar hmod, Option.bind_some]
          congr 1
          omega

/-- **What was printed is parsed.** -/
theorem parseInt_toString (n : ℤ) : parseInt (toString n).toList = some n := by
  have hspace : ∀ c ∈ (toString n).toList, isSpace c = false :=
    forall_mem_toString (by decide) (fun d hd => by interval_cases d <;> decide) n
  have hstrip : strip (toString n).toList = (toString n).toList := by
    unfold strip
    rw [List.dropWhile_eq_self_iff.mpr, List.rdropWhile_eq_self_iff.mpr]
    · intro hne
      rw [hspace _ (List.getLast_mem hne)]
      decide
    · intro hlen
      rw [hspace _ (List.getElem_mem _)]
      decide
  rw [parseInt, hstrip, toList_toString]
  split_ifs with hn
  · have hfirst : ∀ c s, Nat.toDigits 10 n.natAbs = c :: s → c ≠ '+' ∧ c ≠ '-' := by
      intro c s heq
      obtain ⟨d, hd, rfl⟩ := mem_toDigits (heq ▸ List.mem_cons_self : c ∈ Nat.toDigits 10 n.natAbs)
      interval_cases d <;> decide
    have habs : ((n.natAbs : ℕ) : ℤ) = n := Int.natAbs_of_nonneg hn
    split
    · rename_i heq
      exact absurd rfl (hfirst _ _ heq).1
    · rename_i heq
      exact absurd rfl (hfirst _ _ heq).2
    · rw [parseNat_toDigits]
      exact congrArg some habs
  · have habs : -((n.natAbs : ℕ) : ℤ) = n := by omega
    show Option.map (fun n => -n) (do
      let a ← parseNat (Nat.toDigits 10 n.natAbs)
      pure (a : ℤ)) = _
    rw [parseNat_toDigits]
    exact congrArg some habs

/-! ## How long a numeral is -/

theorem parseDigits_lt {s : List Char} {n m : ℕ} (h : parseDigits n s = some m) : m < (n + 1) * 10 ^ s.length := by
  -- a digit multiplies the bound by ten, an underscore leaves it
  have hdigit : ∀ {n d k : ℕ}, d < 10 → ∀ l, k < (10 * n + d + 1) * 10 ^ l → k < (n + 1) * 10 ^ (l + 1) := by
    intro n d k hd l hk
    have hmul : (10 * n + d + 1) * 10 ^ l ≤ (10 * (n + 1)) * 10 ^ l := Nat.mul_le_mul_right _ (by omega)
    rw [Nat.pow_succ, Nat.mul_comm (10 ^ l), ← Nat.mul_assoc, Nat.mul_comm (n + 1)]
    omega
  induction n, s using parseDigits.induct generalizing m with
  | case1 n =>
    cases h
    simp
  | case2 n c s ih =>
    obtain ⟨d, hd, h⟩ := Option.bind_eq_some_iff.mp h
    have hlt := hdigit (digitValue_lt hd) _ (ih d h)
    apply Nat.lt_of_lt_of_le hlt
    exact Nat.mul_le_mul_left _ (Nat.pow_le_pow_right (by decide) (by simp))
  | case3 n c s hc ih =>
    rw [parseDigits] at h
    · obtain ⟨d, hd, h⟩ := Option.bind_eq_some_iff.mp h
      exact hdigit (digitValue_lt hd) _ (ih d h)
    · exact hc

theorem parseNat_lt {s : List Char} {m : ℕ} (h : parseNat s = some m) : 0 < s.length ∧ m < 10 ^ s.length := by
  cases s with
  | nil => cases h
  | cons c s =>
    obtain ⟨d, hd, h⟩ := Option.bind_eq_some_iff.mp h
    have hlt := parseDigits_lt h
    have hdigit := digitValue_lt hd
    refine ⟨Nat.succ_pos _, Nat.lt_of_lt_of_le hlt ?_⟩
    rw [List.length_cons, Nat.pow_succ, Nat.mul_comm]
    exact Nat.mul_le_mul_left _ hdigit

theorem length_toDigits_le {s : List Char} {m : ℕ} (h : parseNat s = some m) : (Nat.toDigits 10 m).length ≤ s.length := by
  obtain ⟨hpos, hlt⟩ := parseNat_lt h
  exact (Nat.length_toDigits_le_iff (by decide) hpos).mpr hlt

theorem strip_sublist (s : List Char) : (strip s).Sublist s :=
  (List.rdropWhile_prefix _ _).sublist.trans (List.dropWhile_suffix _).sublist

theorem parseInt_cases {s : List Char} {n : ℤ} (h : parseInt s = some n) :
    ∃ sign t m, strip s = sign ++ t ∧ parseNat t = some m ∧
      ((sign.length ≤ 1 ∧ n = m) ∨ (sign.length = 1 ∧ n = -m)) := by
  unfold parseInt at h
  split at h
  · rename_i t heq
    cases hm : parseNat t with
    | none =>
      rw [hm] at h
      cases h
    | some m =>
      rw [hm] at h
      exact ⟨['+'], t, m, heq, hm, Or.inl ⟨Nat.le_refl _, (Option.some.inj h).symm⟩⟩
  · rename_i t heq
    cases hm : parseNat t with
    | none =>
      rw [hm] at h
      cases h
    | some m =>
      rw [hm] at h
      exact ⟨['-'], t, m, heq, hm, Or.inr ⟨rfl, (Option.some.inj h).symm⟩⟩
  · cases hm : parseNat (strip s) with
    | none =>
      rw [hm] at h
      cases h
    | some m =>
      rw [hm] at h
      exact ⟨[], strip s, m, rfl, hm, Or.inl ⟨Nat.zero_le _, (Option.some.inj h).symm⟩⟩

/-- **What `int` accepts is no shorter than `str` of its value.** -/
theorem length_toString_le {s : List Char} {n : ℤ} (h : parseInt s = some n) : (toString n).toList.length ≤ s.length := by
  apply Nat.le_trans _ (strip_sublist s).length_le
  obtain ⟨sign, t, m, hstrip, hm, ⟨hsign, rfl⟩ | ⟨hsign, rfl⟩⟩ := parseInt_cases h
  · have hdigits := length_toDigits_le hm
    rw [toList_toString, if_pos (Int.natCast_nonneg m), hstrip, List.length_append, Int.natAbs_natCast]
    omega
  · have hdigits := length_toDigits_le hm
    rw [toList_toString, hstrip, List.length_append, Int.natAbs_neg, Int.natAbs_natCast]
    split_ifs
    · omega
    · rw [List.length_cons]
      omega

end FairCache.Lib.Bytes
