import FairCache.Scheduler.Places

/-!
# What the loops do to the budget

* `getNumNewTokens_ok` : the tokens of a group, never more than is left of the budget where prompts are chunked;
* `Fits` : the budget is kept to; `Fits.schedule` : so it is with one group more that `can_schedule` accepts;
* `GivesBack` : what preemption does to it; `Within` : the budget while the running groups are scheduled.
-/

namespace FairCache

open Lib

/-- What makes a configuration work: a token for each sequence, blocks that are not empty, and no prefix caching with
chunks. -/
structure SchedulerConfig.Works (config : SchedulerConfig) : Prop where
  blockSize : config.blockSize ≠ 0
  tokens : config.maxNumSeqs ≤ config.maxNumBatchedTokens
  noCaching : config.chunkedPrefillEnabled = true → config.enablePrefixCaching = false

variable {T : Type} {config : SchedulerConfig} {g : SequenceGroup T} {b : SchedulingBudget}

/-! ## The tokens of a group -/

/-- What `getNumNewTokens` says, with chunks or without. -/
structure NewTokens (chunking : Bool) (g : SequenceGroup T) (b : SchedulingBudget) (n : ℤ) : Prop where
  nonneg : 0 ≤ n
  le_new : n ≤ g.seqNumNewTokens
  whole : chunking = false → n = g.seqNumNewTokens
  le_remaining : chunking = true → n ≤ b.remainingTokenBudget
  spent : n = 0 → b.remainingTokenBudget = 0

theorem getNumNewTokens_ok {chunking : Bool} (hcaching : chunking = true → config.enablePrefixCaching = false)
    (hn : 0 < g.seqNumNewTokens) (hb : chunking = true → 0 ≤ b.remainingTokenBudget) :
    ∃ n, getNumNewTokens config g chunking b = .ok n ∧ NewTokens chunking g b n := by
  unfold getNumNewTokens
  dsimp only
  rw [if_neg (by omega)]
  cases chunking with
  | true =>
    have hremaining := hb rfl
    rw [if_neg (by decide), if_pos (hcaching rfl)]
    exact ⟨_, rfl, by omega, by omega, nofun, fun _ => by omega, by omega⟩
  | false =>
    rw [if_pos rfl]
    exact ⟨_, rfl, by omega, le_refl _, fun _ => rfl, nofun, by omega⟩

/-! ## Adding a group -/

namespace SchedulingBudget

section Add
variable (b : SchedulingBudget) (id : String) (n : ℤ)

@[simp] theorem tokenBudget_addNumBatchedTokens : (b.addNumBatchedTokens id n).tokenBudget = b.tokenBudget := by
  unfold addNumBatchedTokens
  split_ifs <;> rfl

@[simp] theorem maxNumSeqs_addNumBatchedTokens : (b.addNumBatchedTokens id n).maxNumSeqs = b.maxNumSeqs := by
  unfold addNumBatchedTokens
  split_ifs <;> rfl

@[simp] theorem numCurrSeqs_addNumBatchedTokens : (b.addNumBatchedTokens id n).numCurrSeqs = b.numCurrSeqs := by
  unfold addNumBatchedTokens
  split_ifs <;> rfl

@[simp] theorem requestIdsNumCurrSeqs_addNumBatchedTokens :
    (b.addNumBatchedTokens id n).requestIdsNumCurrSeqs = b.requestIdsNumCurrSeqs := by
  unfold addNumBatchedTokens
  split_ifs <;> rfl

theorem mem_addNumBatchedTokens {id' : String} (h : id' ∈ (b.addNumBatchedTokens id n).requestIdsNumBatchedTokens) :
    id' = id ∨ id' ∈ b.requestIdsNumBatchedTokens := by
  unfold addNumBatchedTokens at h
  split_ifs at h
  · exact Or.inr h
  · exact Finset.mem_insert.mp h

theorem mem_addNumSeqs {id' : String} {m : ℕ} (h : id' ∈ (b.addNumSeqs id m).requestIdsNumCurrSeqs) :
    id' = id ∨ id' ∈ b.requestIdsNumCurrSeqs := by
  unfold addNumSeqs at h
  split_ifs at h
  · exact Or.inr h
  · exact Finset.mem_insert.mp h

theorem requestIdsNumBatchedTokens_addNumSeqs (m : ℕ) :
    (b.addNumSeqs id m).requestIdsNumBatchedTokens = b.requestIdsNumBatchedTokens := by
  unfold addNumSeqs
  split_ifs <;> rfl

variable {b id n}

theorem numBatchedTokens_add_le (hn : 0 ≤ n) : (b.addNumBatchedTokens id n).numBatchedTokens ≤ b.numBatchedTokens + n := by
  unfold addNumBatchedTokens
  split_ifs
  · exact le_add_of_nonneg_right hn
  · exact le_refl _

theorem le_numBatchedTokens_add (hn : 0 ≤ n) : b.numBatchedTokens ≤ (b.addNumBatchedTokens id n).numBatchedTokens := by
  unfold addNumBatchedTokens
  split_ifs
  · exact le_refl _
  · exact le_add_of_nonneg_right hn

end Add

/-! ## Keeping to it -/

/-- The request is not counted. -/
def Uncounted (b : SchedulingBudget) (id : String) : Prop :=
  id ∉ b.requestIdsNumBatchedTokens ∧ id ∉ b.requestIdsNumCurrSeqs

/-- The budget is kept to while `live` groups run. Either all of these are counted, or nothing is left. -/
structure Fits (config : SchedulerConfig) (b : SchedulingBudget) (live : ℤ) : Prop where
  tokenBudget : b.tokenBudget = config.maxNumBatchedTokens
  maxNumSeqs : b.maxNumSeqs = config.maxNumSeqs
  tokens : b.numBatchedTokens ≤ b.tokenBudget
  seqs : b.numCurrSeqs ≤ b.maxNumSeqs
  live_le : live ≤ b.maxNumSeqs
  counted : live ≤ b.numCurrSeqs ∨ b.remainingTokenBudget = 0
  nonneg : config.chunkedPrefillEnabled = true → 0 ≤ b.numBatchedTokens

variable {live n : ℤ} {id : String}

theorem canScheduleTokens_ok (hn : n ≠ 0) : b.canScheduleTokens n 1 =
    .ok (b.numBatchedTokens + n ≤ b.tokenBudget && b.numCurrSeqs + (1 : ℕ) ≤ b.maxNumSeqs) :=
  if_neg (not_or.mpr ⟨hn, one_ne_zero⟩)

theorem canScheduleTokens_eq_true (hn : n ≠ 0) (h : b.canScheduleTokens n 1 = .ok true) :
    b.numBatchedTokens + n ≤ b.tokenBudget ∧ b.numCurrSeqs + 1 ≤ b.maxNumSeqs := by
  rw [canScheduleTokens_ok hn] at h
  have hboth := Except.ok.inj h
  rw [Bool.and_eq_true, decide_eq_true_eq, decide_eq_true_eq] at hboth
  exact hboth

/-- **One group more**, which `can_schedule` accepts. -/
theorem Fits.schedule (h : Fits config b live) (hn : 0 < n) (hid : id ∉ b.requestIdsNumCurrSeqs)
    (hcan : b.canScheduleTokens n 1 = .ok true) : Fits config ((b.addNumBatchedTokens id n).addNumSeqs id 1) (live + 1) := by
  obtain ⟨htokens, hseqs⟩ := canScheduleTokens_eq_true (by omega) hcan
  have hcounted : live ≤ b.numCurrSeqs := by
    refine h.counted.resolve_right fun hspent => ?_
    unfold remainingTokenBudget at hspent
    omega
  have hadd : (b.addNumBatchedTokens id n).numBatchedTokens ≤ b.numBatchedTokens + n := numBatchedTokens_add_le hn.le
  have hle : b.numBatchedTokens ≤ (b.addNumBatchedTokens id n).numBatchedTokens := le_numBatchedTokens_add hn.le
  have := h.tokenBudget
  have := h.maxNumSeqs
  rw [addNumSeqs, if_neg (by simpa using hid)]
  refine ⟨?_, ?_, ?_, ?_, ?_, ?_, fun hmode => (h.nonneg hmode).trans hle⟩ <;> simp <;> omega

/-! ## Giving back -/

/-- At most `k` sequences are given back, all for one request. -/
structure GivesBack (id : String) (k : ℕ) (b b' : SchedulingBudget) : Prop where
  tokenBudget : b'.tokenBudget = b.tokenBudget
  maxNumSeqs : b'.maxNumSeqs = b.maxNumSeqs
  tokens : b'.numBatchedTokens ≤ b.numBatchedTokens
  seqs_le : b'.numCurrSeqs ≤ b.numCurrSeqs
  le_seqs : b.numCurrSeqs ≤ b'.numCurrSeqs + k
  ids : b'.requestIdsNumCurrSeqs ⊆ b.requestIdsNumCurrSeqs
  uncounted : b.Uncounted id → b' = b

theorem GivesBack.refl (id : String) (b : SchedulingBudget) : GivesBack id 0 b b :=
  ⟨rfl, rfl, le_refl _, le_refl _, by simp, subset_rfl, fun _ => rfl⟩

theorem GivesBack.trans {k k' : ℕ} {b b' b'' : SchedulingBudget} (h : GivesBack id k b b')
    (h' : GivesBack id k' b' b'') : GivesBack id (k + k') b b'' := by
  refine ⟨h'.tokenBudget.trans h.tokenBudget, h'.maxNumSeqs.trans h.maxNumSeqs, h'.tokens.trans h.tokens,
    h'.seqs_le.trans h.seqs_le, ?_, h'.ids.trans h.ids, fun hid => ?_⟩
  · have := h.le_seqs
    have := h'.le_seqs
    push_cast
    omega
  · obtain rfl := h.uncounted hid
    exact h'.uncounted hid

/-- One request is given back. -/
theorem givesBack_subtract (id : String) {n : ℤ} (hn : 0 ≤ n) (b : SchedulingBudget) :
    GivesBack id 1 b ((b.subtractTokens id n).subtractNumSeqs id 1) := by
  unfold subtractTokens subtractNumSeqs
  constructor
  · split_ifs <;> rfl
  · split_ifs <;> rfl
  · split_ifs <;> simp [hn]
  · split_ifs <;> simp
  · split_ifs <;> simp
  · split_ifs
    · exact Finset.erase_subset _ _
    · exact subset_rfl
    · exact Finset.erase_subset _ _
    · exact subset_rfl
  · rintro ⟨htokens, hseqs⟩
    rw [if_neg htokens, if_neg hseqs]

/-! ## While running groups are scheduled -/

/-- The budget while `live` groups run, of which `count` are scheduled. With chunks only these are counted. -/
structure Within (config : SchedulerConfig) (b : SchedulingBudget) (live count : ℤ) : Prop where
  tokenBudget : b.tokenBudget = config.maxNumBatchedTokens
  maxNumSeqs : b.maxNumSeqs = config.maxNumSeqs
  live_le : live ≤ config.maxNumSeqs
  chunked : config.chunkedPrefillEnabled = true →
    b.numCurrSeqs = count ∧ 0 ≤ b.numBatchedTokens ∧ b.numBatchedTokens ≤ config.maxNumBatchedTokens
  whole : config.chunkedPrefillEnabled = false →
    live ≤ b.numCurrSeqs ∧ b.numCurrSeqs ≤ config.maxNumSeqs ∧ b.numBatchedTokens ≤ count

variable {count : ℤ} {b' : SchedulingBudget}

theorem Within.givesBack {k : ℕ} (h : Within config b live count) (hb : GivesBack id k b b')
    (hid : config.chunkedPrefillEnabled = true → b.Uncounted id) : Within config b' (live - k) count := by
  refine ⟨hb.tokenBudget.trans h.tokenBudget, hb.maxNumSeqs.trans h.maxNumSeqs, ?_, fun hchunked => ?_, fun hwhole => ?_⟩
  · have := h.live_le
    omega
  · rw [hb.uncounted (hid hchunked)]
    exact h.chunked hchunked
  · obtain ⟨hlive, hseqs, htokens⟩ := h.whole hwhole
    have := hb.le_seqs
    have := hb.seqs_le
    have := hb.tokens
    omega

theorem Within.fewer {live' : ℤ} (h : Within config b live count) (hle : live' ≤ live) : Within config b live' count :=
  ⟨h.tokenBudget, h.maxNumSeqs, hle.trans h.live_le, h.chunked, fun hwhole => ⟨hle.trans (h.whole hwhole).1, (h.whole hwhole).2⟩⟩

/-- A group that runs is scheduled. -/
theorem Within.schedule (id : String) (h : Within config b live count) (hn : 0 ≤ n)
    (hwhole : config.chunkedPrefillEnabled = false → n = 1)
    (hchunked : config.chunkedPrefillEnabled = true → n ≤ b.remainingTokenBudget ∧ b.Uncounted id) :
    Within config (if config.chunkedPrefillEnabled then (b.addNumBatchedTokens id n).addNumSeqs id 1
      else b.addNumBatchedTokens id n) live (count + 1) := by
  have hadd : (b.addNumBatchedTokens id n).numBatchedTokens ≤ b.numBatchedTokens + n := numBatchedTokens_add_le hn
  have htokens := h.tokenBudget
  have hseqs := h.maxNumSeqs
  by_cases hmode : config.chunkedPrefillEnabled = true
  · obtain ⟨hremaining, -, hid⟩ := hchunked hmode
    obtain ⟨hcount, hnonneg, hle⟩ := h.chunked hmode
    unfold remainingTokenBudget at hremaining
    rw [if_pos hmode, addNumSeqs, if_neg (by simpa using hid)]
    refine ⟨by simpa using htokens, by simpa using hseqs, h.live_le,
      fun _ => ⟨by simp [hcount], hnonneg.trans (le_numBatchedTokens_add hn), by dsimp only; omega⟩, fun hw => ?_⟩
    rw [hmode] at hw
    cases hw
  · obtain ⟨hlive, hle, htok⟩ := h.whole (Bool.not_eq_true _ ▸ hmode)
    have hone := hwhole (Bool.not_eq_true _ ▸ hmode)
    rw [if_neg hmode]
    exact ⟨by simpa using htokens, by simpa using hseqs, h.live_le, fun hc => absurd hc hmode,
      fun _ => ⟨by simpa using hlive, by simpa using hle, by omega⟩⟩

/-- At the end of the loop. -/
theorem Within.fits (hw : config.Works) (h : Within config b live count) (hcount : count ≤ live)
    (hend : live = count ∨ b.remainingTokenBudget = 0) : Fits config b live := by
  have htokens := h.tokenBudget
  have hseqs := h.maxNumSeqs
  have hlive := h.live_le
  have hworks := hw.tokens
  by_cases hmode : config.chunkedPrefillEnabled = true
  · obtain ⟨hcurr, hnonneg, hle⟩ := h.chunked hmode
    refine ⟨htokens, hseqs, by omega, by omega, by omega, ?_, fun _ => hnonneg⟩
    rcases hend with hend | hend
    · exact Or.inl (by omega)
    · exact Or.inr hend
  · obtain ⟨hcurr, hle, htok⟩ := h.whole (Bool.not_eq_true _ ▸ hmode)
    exact ⟨htokens, hseqs, by omega, by omega, by omega, Or.inl hcurr, fun hc => absurd hc hmode⟩

end SchedulingBudget

end FairCache
