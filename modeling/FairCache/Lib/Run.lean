import Mathlib.Logic.Basic

/-!
# Runs of a step function that may raise

A system is a step function `step : σ → ω → Except ε σ`; a run is the list of its operations.

* `Reaches step s ops t` : the run returns from every operation and ends in `t`;
* `Along step P s ops` : each operation of the run satisfies `P` in the state it is executed in;
* `EveryState step Q s ops` : every operation returns and every state of the run satisfies `Q`;
* `reaches_invariant`, `along_iff_everyState` : from one step to whole runs;
* `along_iff_observe_eq` : when two runs of corresponding operations look the same;
* `Once step P s ops` : exactly one operation of the run satisfies `P`; `once_of_flag` : what raises a flag does.
-/

namespace FairCache.Lib

variable {σ ω ε : Type} {step : σ → ω → Except ε σ}

/-- The run returns from every operation and ends in `t`. -/
def Reaches (step : σ → ω → Except ε σ) (s : σ) (ops : List ω) (t : σ) : Prop := ops.foldlM step s = .ok t

/-- Each operation satisfies `P` in the state it is executed in. -/
def Along (step : σ → ω → Except ε σ) (P : σ → ω → Prop) : σ → List ω → Prop
  | _, [] => True
  | s, op :: ops => P s op ∧ ∀ s', step s op = .ok s' → Along step P s' ops

/-- Every operation returns, and every state of the run satisfies `Q`. -/
def EveryState (step : σ → ω → Except ε σ) (Q : σ → Prop) : σ → List ω → Prop
  | s, [] => Q s
  | s, op :: ops => Q s ∧ ∃ s', step s op = .ok s' ∧ EveryState step Q s' ops

/-- `EveryState` can be run. -/
instance decidableEveryState {Q : σ → Prop} [DecidablePred Q] :
    ∀ (s : σ) (ops : List ω), Decidable (EveryState step Q s ops)
  | s, [] => inferInstanceAs (Decidable (Q s))
  | s, op :: ops =>
    match h : step s op with
    | .error _ => .isFalse fun ⟨_, _, h', _⟩ => by rw [h] at h'; cases h'
    | .ok s' =>
      have : Decidable (EveryState step Q s' ops) := decidableEveryState s' ops
      decidable_of_iff (Q s ∧ EveryState step Q s' ops)
        ⟨fun ⟨hq, he⟩ => ⟨hq, s', h, he⟩, fun ⟨hq, _, h', he⟩ => ⟨hq, Except.ok.inj (h.symm.trans h') ▸ he⟩⟩

instance decidableAlong {P : σ → ω → Prop} [∀ s op, Decidable (P s op)] :
    ∀ (s : σ) (ops : List ω), Decidable (Along step P s ops)
  | _, [] => .isTrue trivial
  | s, op :: ops =>
    match h : step s op with
    | .error _ => decidable_of_iff (P s op) ⟨fun hp => ⟨hp, fun _ h' => by rw [h] at h'; cases h'⟩, And.left⟩
    | .ok s' =>
      have : Decidable (Along step P s' ops) := decidableAlong s' ops
      decidable_of_iff (P s op ∧ Along step P s' ops)
        ⟨fun ⟨hp, ha⟩ => ⟨hp, fun _ h' => Except.ok.inj (h.symm.trans h') ▸ ha⟩, fun ⟨hp, ha⟩ => ⟨hp, ha s' h⟩⟩

/-- So can what returns. -/
instance decidableExistsOk {x : Except ε σ} (P : σ → Prop) [DecidablePred P] : Decidable (∃ t, x = .ok t ∧ P t) :=
  match x with
  | .error _ => .isFalse fun ⟨_, ht, _⟩ => by cases ht
  | .ok t => decidable_of_iff (P t) ⟨fun hp => ⟨t, rfl, hp⟩, fun ⟨_, ht, hp⟩ => Except.ok.inj ht ▸ hp⟩

/-- So can the end of a run. -/
instance decidableExistsReaches (s : σ) (ops : List ω) (P : σ → Prop) [DecidablePred P] :
    Decidable (∃ t, Reaches step s ops t ∧ P t) := inferInstanceAs (Decidable (∃ t, ops.foldlM step s = .ok t ∧ P t))

/-- What the run raises, if it raises. -/
def raised? (step : σ → ω → Except ε σ) (s : σ) (ops : List ω) : Option ε :=
  match ops.foldlM step s with
  | .error e => some e
  | .ok _ => none

theorem reaches_nil {s t : σ} : Reaches step s [] t ↔ s = t := by
  exact ⟨Except.ok.inj, congrArg Except.ok⟩

theorem reaches_cons {s t : σ} {op : ω} {ops : List ω} :
    Reaches step s (op :: ops) t ↔ ∃ s', step s op = .ok s' ∧ Reaches step s' ops t := by
  unfold Reaches
  rw [List.foldlM_cons]
  cases step s op with
  | error e => exact ⟨fun h => (by cases h), fun ⟨_, h, _⟩ => (by cases h)⟩
  | ok s' => exact ⟨fun h => ⟨s', rfl, h⟩, fun ⟨_, h, h'⟩ => Except.ok.inj h ▸ h'⟩

theorem reaches_append {s t : σ} {ops ops' : List ω} :
    Reaches step s (ops ++ ops') t ↔ ∃ m, Reaches step s ops m ∧ Reaches step m ops' t := by
  induction ops generalizing s with
  | nil => simp [reaches_nil]
  | cons op ops ih =>
    simp only [List.cons_append, reaches_cons, ih]
    constructor
    · rintro ⟨s', h, m, h1, h2⟩; exact ⟨m, ⟨s', h, h1⟩, h2⟩
    · rintro ⟨m, ⟨s', h, h1⟩, h2⟩; exact ⟨s', h, m, h1, h2⟩

/-- **An invariant of one step holds at the end of every run.** -/
theorem reaches_invariant {Inv : σ → Prop} {P : σ → ω → Prop}
    (hstep : ∀ s op s', Inv s → P s op → step s op = .ok s' → Inv s') {ops : List ω} :
    ∀ {s t : σ}, Inv s → Along step P s ops → Reaches step s ops t → Inv t := by
  induction ops with
  | nil => intro s t hs _ h; exact reaches_nil.mp h ▸ hs
  | cons op ops ih =>
    intro s t hs ha h
    obtain ⟨s', hop, h⟩ := reaches_cons.mp h
    exact ih (hstep s op s' hs ha.1 hop) (ha.2 s' hop) h

/-- So does what every step keeps, whatever its operation. -/
theorem reaches_kept {Inv : σ → Prop} (hstep : ∀ s op s', Inv s → step s op = .ok s' → Inv s') {ops : List ω} :
    ∀ {s t : σ}, Inv s → Reaches step s ops t → Inv t := by
  induction ops with
  | nil => intro s t hs h; exact reaches_nil.mp h ▸ hs
  | cons op ops ih =>
    intro s t hs h
    obtain ⟨s', hop, h⟩ := reaches_cons.mp h
    exact ih (hstep s op s' hs hop) h

/-- And it holds in every state of a run that returns. -/
theorem everyState_of_along {Inv : σ → Prop} {P : σ → ω → Prop}
    (hstep : ∀ s op s', Inv s → P s op → step s op = .ok s' → Inv s') {ops : List ω} :
    ∀ {s t : σ}, Inv s → Along step P s ops → Reaches step s ops t → EveryState step Inv s ops := by
  induction ops with
  | nil => intro s t hs _ _; exact hs
  | cons op ops ih =>
    intro s t hs ha h
    obtain ⟨s', hop, h⟩ := reaches_cons.mp h
    exact ⟨hs, s', hop, ih (hstep s op s' hs ha.1 hop) (ha.2 s' hop) h⟩

/-- **The same with what each operation that returns does under the condition.** -/
theorem along_and_everyState_of_along {Inv : σ → Prop} {P P' : σ → ω → Prop}
    (hstep : ∀ s op s', Inv s → P s op → step s op = .ok s' → P' s op ∧ Inv s') {ops : List ω} :
    ∀ {s t : σ}, Inv s → Along step P s ops → Reaches step s ops t →
      Along step P' s ops ∧ EveryState step Inv s ops := by
  induction ops with
  | nil => intro s t hs _ _; exact ⟨trivial, hs⟩
  | cons op ops ih =>
    intro s t hs ha h
    obtain ⟨s', hop, h⟩ := reaches_cons.mp h
    obtain ⟨hp, hs'⟩ := hstep s op s' hs ha.1 hop
    obtain ⟨hrest, hstates⟩ := ih hs' (ha.2 s' hop) h
    refine ⟨⟨hp, fun s'' hs'' => ?_⟩, hs, s', hop, hstates⟩
    obtain rfl : s' = s'' := Except.ok.inj (hop.symm.trans hs'')
    exact hrest

/-- Where an operation under the condition returns and keeps the invariant, a run under it returns with the invariant in
every state. -/
theorem everyState_of_returns {Inv : σ → Prop} {P : σ → ω → Prop}
    (hstep : ∀ s op, Inv s → P s op → ∃ s', step s op = .ok s' ∧ Inv s') {ops : List ω} :
    ∀ {s : σ}, Inv s → Along step P s ops → EveryState step Inv s ops := by
  induction ops with
  | nil => intro s hs _; exact hs
  | cons op ops ih =>
    intro s hs ha
    obtain ⟨s', hop, hs'⟩ := hstep s op hs ha.1
    exact ⟨hs, s', hop, ih hs' (ha.2 s' hop)⟩

theorem EveryState.imp {Q Q' : σ → Prop} (h : ∀ s, Q s → Q' s) {ops : List ω} :
    ∀ {s : σ}, EveryState step Q s ops → EveryState step Q' s ops := by
  induction ops with
  | nil => intro s he; exact h s he
  | cons op ops ih =>
    intro s he
    obtain ⟨hq, s', hop, he⟩ := he
    exact ⟨h s hq, s', hop, ih he⟩

theorem Along.imp {P P' : σ → ω → Prop} (h : ∀ s op, P s op → P' s op) {ops : List ω} :
    ∀ {s : σ}, Along step P s ops → Along step P' s ops := by
  induction ops with
  | nil => intro s _; trivial
  | cons op ops ih => intro s ha; exact ⟨h _ _ ha.1, fun s' hs' => ih (ha.2 s' hs')⟩

theorem Along.and {P P' : σ → ω → Prop} {ops : List ω} :
    ∀ {s : σ}, Along step P s ops → Along step P' s ops → Along step (fun s op => P s op ∧ P' s op) s ops := by
  induction ops with
  | nil => intro s _ _; trivial
  | cons op ops ih => intro s h h'; exact ⟨⟨h.1, h'.1⟩, fun s' hs' => ih (h.2 s' hs') (h'.2 s' hs')⟩

/-- What the condition says of a state with the invariant. -/
theorem Along.mono_of_invariant {Inv : σ → Prop} {P P' : σ → ω → Prop}
    (hstep : ∀ s op s', Inv s → P s op → step s op = .ok s' → Inv s') (h : ∀ s op, Inv s → P s op → P' s op)
    {ops : List ω} : ∀ {s : σ}, Inv s → Along step P s ops → Along step P' s ops := by
  induction ops with
  | nil => intro s _ _; trivial
  | cons op ops ih =>
    intro s hs ha
    exact ⟨h s op hs ha.1, fun s' hs' => ih (hstep s op s' hs ha.1 hs') (ha.2 s' hs')⟩

/-- What every step keeps holds wherever the run gets to. -/
theorem along_of_invariant {Inv : σ → Prop} (hstep : ∀ s op s', Inv s → step s op = .ok s' → Inv s') {ops : List ω} :
    ∀ {s : σ}, Inv s → Along step (fun s _ => Inv s) s ops := by
  induction ops with
  | nil => intro s _; trivial
  | cons op ops ih => intro s hs; exact ⟨hs, fun s' hs' => ih (hstep s op s' hs hs')⟩

/-- In a run that returns, what the condition says of the operation alone holds of every operation. -/
theorem Along.forall_mem {P : σ → ω → Prop} {V : ω → Prop} (h : ∀ s op, P s op → V op) {ops : List ω} :
    ∀ {s t : σ}, Along step P s ops → Reaches step s ops t → ∀ op ∈ ops, V op := by
  induction ops with
  | nil => intro s t _ _ op hop; exact absurd hop List.not_mem_nil
  | cons o ops ih =>
    intro s t ha hr op hop
    obtain ⟨s', hs', hr⟩ := reaches_cons.mp hr
    rcases List.mem_cons.mp hop with rfl | hop
    · exact h s op ha.1
    · exact ih (ha.2 s' hs') hr op hop

theorem along_of_forall {P : σ → ω → Prop} {ops : List ω} (h : ∀ s, ∀ op ∈ ops, P s op) :
    ∀ s, Along step P s ops := by
  induction ops with
  | nil => intro s; trivial
  | cons op ops ih =>
    intro s
    exact ⟨h s op List.mem_cons_self, fun s' _ => ih (fun s op hop => h s op (List.mem_cons_of_mem _ hop)) s'⟩

/-- The rest of a run meets the condition, too. -/
theorem Along.of_append {P : σ → ω → Prop} {ops ops' : List ω} :
    ∀ {s t : σ}, Along step P s (ops ++ ops') → Reaches step s ops t → Along step P t ops' := by
  induction ops with
  | nil => intro s t h hr; exact reaches_nil.mp hr ▸ h
  | cons op ops ih =>
    intro s t h hr
    obtain ⟨s', hop, hr⟩ := reaches_cons.mp hr
    exact ih (h.2 s' hop) hr

theorem Along.of_append_left {P : σ → ω → Prop} {ops ops' : List ω} :
    ∀ {s : σ}, Along step P s (ops ++ ops') → Along step P s ops := by
  induction ops with
  | nil => intro s _; trivial
  | cons op ops ih => intro s h; exact ⟨h.1, fun s' hs' => ih (h.2 s' hs')⟩

/-- One operation more. -/
theorem Along.concat {P : σ → ω → Prop} {ops : List ω} {op : ω} :
    ∀ {s : σ}, Along step P s ops → (∀ t, Reaches step s ops t → P t op) → Along step P s (ops ++ [op]) := by
  induction ops with
  | nil => intro s _ hlast; exact ⟨hlast s (reaches_nil.mpr rfl), fun _ _ => trivial⟩
  | cons o ops ih =>
    intro s ha hlast
    exact ⟨ha.1, fun s' hs' => ih (ha.2 s' hs') fun t ht => hlast t (reaches_cons.mpr ⟨s', hs', ht⟩)⟩

/-- **The condition is exact for one step, so it is exact for runs.** `W` is what every step keeps. -/
theorem along_iff_everyState {W Q : σ → Prop} {P : σ → ω → Prop} {V : ω → Prop}
    (hW : ∀ s op s', V op → W s → step s op = .ok s' → W s')
    (hstep : ∀ s op, V op → W s → Q s → (P s op ↔ ∃ s', step s op = .ok s' ∧ Q s')) {ops : List ω} :
    ∀ {s : σ}, (∀ op ∈ ops, V op) → W s → Q s → (Along step P s ops ↔ EveryState step Q s ops) := by
  induction ops with
  | nil => intro s _ _ hq; exact ⟨fun _ => hq, fun _ => trivial⟩
  | cons op ops ih =>
    intro s hv hw hq
    have hvop := hv op List.mem_cons_self
    have hvops : ∀ o ∈ ops, V o := fun o ho => hv o (List.mem_cons_of_mem _ ho)
    constructor
    · rintro ⟨hp, ha⟩
      obtain ⟨s', hop, hq'⟩ := (hstep s op hvop hw hq).mp hp
      exact ⟨hq, s', hop, (ih hvops (hW s op s' hvop hw hop) hq').mp (ha s' hop)⟩
    · rintro ⟨-, s', hop, he⟩
      have hq' : Q s' := by
        cases ops with
        | nil => exact he
        | cons _ _ => exact he.1
      refine ⟨(hstep s op hvop hw hq).mpr ⟨s', hop, hq'⟩, fun s'' hs'' => ?_⟩
      obtain rfl : s' = s'' := Except.ok.inj (hop.symm.trans hs'')
      exact (ih hvops (hW s op s' hvop hw hop) hq').mpr he

/-- A condition that is exact for one step to return is exact for runs to return. -/
theorem along_iff_reaches {W : σ → Prop} {P : σ → ω → Prop} (hW : ∀ s op s', W s → step s op = .ok s' → W s')
    (hstep : ∀ s op, W s → (P s op ↔ ∃ s', step s op = .ok s')) {ops : List ω} :
    ∀ {s : σ}, W s → (Along step P s ops ↔ ∃ t, Reaches step s ops t) := by
  induction ops with
  | nil => intro s _; exact ⟨fun _ => ⟨s, reaches_nil.mpr rfl⟩, fun _ => trivial⟩
  | cons op ops ih =>
    intro s hw
    constructor
    · rintro ⟨hp, ha⟩
      obtain ⟨s', hop⟩ := (hstep s op hw).mp hp
      obtain ⟨t, ht⟩ := (ih (hW s op s' hw hop)).mp (ha s' hop)
      exact ⟨t, reaches_cons.mpr ⟨s', hop, ht⟩⟩
    · rintro ⟨t, ht⟩
      obtain ⟨s', hop, ht⟩ := reaches_cons.mp ht
      refine ⟨(hstep s op hw).mpr ⟨s', hop⟩, fun s'' hs'' => ?_⟩
      obtain rfl : s' = s'' := Except.ok.inj (hop.symm.trans hs'')
      exact (ih (hW s op s' hw hop)).mpr ⟨t, ht⟩

/-- Where every step returns, every run does. -/
theorem exists_reaches (h : ∀ s op, ∃ s', step s op = .ok s') (ops : List ω) (s : σ) : ∃ t, Reaches step s ops t :=
  (along_iff_reaches (P := fun _ _ => True) (W := fun _ => True) (fun _ _ _ _ _ => trivial)
    (fun s op _ => ⟨fun _ => h s op, fun _ => trivial⟩) trivial).mp (along_of_forall (fun _ _ _ => trivial) s)

/-- The same for a run that is known to return, with a condition that `Inv` needs to be kept. -/
theorem along_iff_everyState_of_reaches {Inv Q : σ → Prop} {P : σ → ω → Prop} (hQ : ∀ s, Inv s → Q s)
    (hstep : ∀ s op s', Inv s → step s op = .ok s' → ((P s op ↔ Q s') ∧ (P s op → Inv s'))) {ops : List ω} :
    ∀ {s t : σ}, Inv s → Reaches step s ops t → (Along step P s ops ↔ EveryState step Q s ops) := by
  induction ops with
  | nil => intro s t hs _; exact ⟨fun _ => hQ s hs, fun _ => trivial⟩
  | cons op ops ih =>
    intro s t hs hrun
    obtain ⟨s', hop, hrun⟩ := reaches_cons.mp hrun
    obtain ⟨hiff, hinv⟩ := hstep s op s' hs hop
    constructor
    · rintro ⟨hp, ha⟩
      exact ⟨hQ s hs, s', hop, (ih (hinv hp) hrun).mp (ha s' hop)⟩
    · rintro ⟨-, s'', hop', he⟩
      obtain rfl : s' = s'' := Except.ok.inj (hop.symm.trans hop')
      have hp : P s op := hiff.mpr (by cases ops with | nil => exact he | cons _ _ => exact he.1)
      refine ⟨hp, fun s'' hs'' => ?_⟩
      obtain rfl : s' = s'' := Except.ok.inj (hop.symm.trans hs'')
      exact (ih (hinv hp) hrun).mpr he

/-- **The same with an invariant that holds exactly as long as the condition does**: an operation under it returns with the
invariant, and one that is not does not return with `Q`. -/
theorem along_iff_everyState_of_inv {Inv Q : σ → Prop} {P : σ → ω → Prop} (hQ : ∀ s, Inv s → Q s)
    (hgood : ∀ s op, Inv s → P s op → ∃ s', step s op = .ok s' ∧ Inv s')
    (hbad : ∀ s op s', Inv s → step s op = .ok s' → Q s' → P s op) {ops : List ω} :
    ∀ {s : σ}, Inv s → (Along step P s ops ↔ EveryState step Q s ops) := by
  induction ops with
  | nil => intro s hs; exact ⟨fun _ => hQ s hs, fun _ => trivial⟩
  | cons op ops ih =>
    intro s hs
    constructor
    · rintro ⟨hp, ha⟩
      obtain ⟨s', hop, hs'⟩ := hgood s op hs hp
      exact ⟨hQ s hs, s', hop, (ih hs').mp (ha s' hop)⟩
    · rintro ⟨-, s', hop, he⟩
      have hp : P s op := hbad s op s' hs hop (by cases ops with | nil => exact he | cons _ _ => exact he.1)
      obtain ⟨s'', hop', hs'⟩ := hgood s op hs hp
      obtain rfl : s'' = s' := Except.ok.inj (hop'.symm.trans hop)
      refine ⟨hp, fun s₂ hs₂ => ?_⟩
      obtain rfl : s'' = s₂ := Except.ok.inj (hop.symm.trans hs₂)
      exact (ih hs').mpr he

/-- Two conditions that agree on every operation in a state with the invariant, which they keep, agree on runs. -/
theorem along_iff_along {Inv : σ → Prop} {P P' : σ → ω → Prop} {V : ω → Prop}
    (hstep : ∀ s op, V op → Inv s → ((P s op ↔ P' s op) ∧ (P s op → ∀ s', step s op = .ok s' → Inv s')))
    {ops : List ω} : ∀ {s : σ}, (∀ op ∈ ops, V op) → Inv s → (Along step P s ops ↔ Along step P' s ops) := by
  induction ops with
  | nil => intro s _ _; exact Iff.rfl
  | cons op ops ih =>
    intro s hv hs
    obtain ⟨hiff, hinv⟩ := hstep s op (hv op List.mem_cons_self) hs
    have hrest : P s op → ∀ s', step s op = .ok s' → (Along step P s' ops ↔ Along step P' s' ops) :=
      fun hp s' hs' => ih (fun o ho => hv o (List.mem_cons_of_mem _ ho)) (hinv hp s' hs')
    constructor
    · rintro ⟨hp, ha⟩
      exact ⟨hiff.mp hp, fun s' hs' => (hrest hp s' hs').mp (ha s' hs')⟩
    · rintro ⟨hp, ha⟩
      exact ⟨hiff.mpr hp, fun s' hs' => (hrest (hiff.mpr hp) s' hs').mpr (ha s' hs')⟩

/-- The same for a run that is known to return. -/
theorem along_iff_along_of_reaches {Inv : σ → Prop} {P P' : σ → ω → Prop} {V : ω → Prop}
    (hstep : ∀ s op s', V op → Inv s → step s op = .ok s' → ((P s op ↔ P' s op) ∧ (P s op → Inv s')))
    {ops : List ω} :
    ∀ {s t : σ}, (∀ op ∈ ops, V op) → Inv s → Reaches step s ops t → (Along step P s ops ↔ Along step P' s ops) := by
  induction ops with
  | nil => intro s t _ _ _; exact Iff.rfl
  | cons op ops ih =>
    intro s t hv hs hrun
    obtain ⟨s', hop, hrun⟩ := reaches_cons.mp hrun
    obtain ⟨hiff, hinv⟩ := hstep s op s' (hv op List.mem_cons_self) hs hop
    have hrest : P s op → ∀ s'', step s op = .ok s'' → (Along step P s'' ops ↔ Along step P' s'' ops) := by
      intro hp s'' hs''
      obtain rfl : s' = s'' := Except.ok.inj (hop.symm.trans hs'')
      exact ih (fun o ho => hv o (List.mem_cons_of_mem _ ho)) (hinv hp) hrun
    constructor
    · rintro ⟨hp, ha⟩
      exact ⟨hiff.mp hp, fun s'' hs'' => (hrest hp s'' hs'').mp (ha s'' hs'')⟩
    · rintro ⟨hp, ha⟩
      exact ⟨hiff.mpr hp, fun s'' hs'' => (hrest (hiff.mpr hp) s'' hs'').mpr (ha s'' hs'')⟩

/-! ## Runs side by side -/

/-- What is seen of the end of a run, whether it returns or not. -/
def observe {ν : Type} (view : σ → ν) : Except σ σ → Except ν ν
  | .ok s => .ok (view s)
  | .error s => .error (view s)

/-- What was logged before an operation stays in the log to the end. -/
theorem log_prefix_of_run {ν ρ : Type} {step : σ → ω → Except σ σ} {view : σ → ν} {log : ν → List ρ}
    (hgrow : ∀ s op, ∃ t, (step s op = .ok t ∨ step s op = .error t) ∧ log (view s) <+: log (view t)) (ops : List ω) :
    ∀ s, ∃ v, (observe view (ops.foldlM step s) = .ok v ∨ observe view (ops.foldlM step s) = .error v) ∧
      log (view s) <+: log v := by
  induction ops with
  | nil => intro s; exact ⟨view s, .inl rfl, List.prefix_refl _⟩
  | cons op ops ih =>
    intro s
    rw [List.foldlM_cons]
    obtain ⟨t, ht | ht, hlog⟩ := hgrow s op
    · rw [ht]
      obtain ⟨v, hv, hlog'⟩ := ih t
      exact ⟨v, hv, hlog.trans hlog'⟩
    · rw [ht]
      exact ⟨view t, .inr rfl, hlog⟩

/-- **Two runs of corresponding operations look the same to the end exactly if each operation meets a condition under which
the two do the same**, where one that does not logs something else. -/
theorem along_iff_observe_eq {ν ρ : Type} {step : σ → ω → Except σ σ} {view : σ → ν} (log : ν → List ρ) {f : ω → ω}
    {Inv : σ → Prop} {P : σ → ω → Prop}
    (hgrow : ∀ s op, ∃ t, (step s op = .ok t ∨ step s op = .error t) ∧ log (view s) <+: log (view t))
    (hsame : ∀ s op, Inv s → P s op → step s op = step s (f op) ∧ ∀ t, step s op = .ok t → Inv t)
    (hdiff : ∀ s op, Inv s → ¬ P s op → ∃ t t' a b, step s op = .ok t ∧ step s (f op) = .ok t' ∧ a ≠ b ∧
      log (view t) = log (view s) ++ [a] ∧ log (view t') = log (view s) ++ [b]) {ops : List ω} :
    ∀ {s : σ}, Inv s →
      (Along step P s ops ↔ observe view (ops.foldlM step s) = observe view ((ops.map f).foldlM step s)) := by
  induction ops with
  | nil => intro s _; exact ⟨fun _ => rfl, fun _ => trivial⟩
  | cons op ops ih =>
    intro s hs
    rw [List.map_cons, List.foldlM_cons, List.foldlM_cons]
    by_cases hp : P s op
    · obtain ⟨heq, hinv⟩ := hsame s op hs hp
      rw [← heq]
      cases hop : step s op with
      | error t =>
        refine ⟨fun _ => rfl, fun _ => ⟨hp, fun t' ht' => ?_⟩⟩
        rw [hop] at ht'
        cases ht'
      | ok t =>
        refine ⟨fun ha => (ih (hinv t hop)).mp (ha.2 t hop), fun h => ⟨hp, fun t' ht' => ?_⟩⟩
        obtain rfl : t = t' := Except.ok.inj (hop.symm.trans ht')
        exact (ih (hinv t hop)).mpr h
    · refine iff_of_false (fun ha => hp ha.1) fun h => ?_
      obtain ⟨t, t', a, b, ht, ht', hab, hlog, hlog'⟩ := hdiff s op hs hp
      rw [ht, ht'] at h
      have h : observe view (ops.foldlM step t) = observe view ((ops.map f).foldlM step t') := h
      obtain ⟨v, hv, hpre⟩ := log_prefix_of_run hgrow ops t
      obtain ⟨v', hv', hpre'⟩ := log_prefix_of_run hgrow (ops.map f) t'
      have hvv : v = v' := by
        rcases hv with hv | hv <;> rcases hv' with hv' | hv' <;> rw [hv, hv'] at h <;> cases h <;> rfl
      rw [← hvv, hlog'] at hpre'
      rw [hlog] at hpre
      -- two logs of one length that go on to the same are the same
      have hlogs := List.prefix_of_prefix_length_le hpre hpre' (by simp)
      have heq := hlogs.eq_of_length (by rw [List.length_append, List.length_append]; rfl)
      exact hab (List.singleton_inj.mp (List.append_cancel_left heq))

/-! ## What happens once -/

/-- Some operation of the run satisfies `P` in the state it is executed in. -/
def Sometimes (step : σ → ω → Except ε σ) (P : σ → ω → Prop) (s : σ) (ops : List ω) : Prop :=
  ∃ ops₁ op ops₂ s₁, ops = ops₁ ++ op :: ops₂ ∧ Reaches step s ops₁ s₁ ∧ P s₁ op

theorem not_sometimes_nil {P : σ → ω → Prop} {s : σ} : ¬ Sometimes step P s [] := by
  rintro ⟨ops₁, op, ops₂, s₁, heq, -, -⟩
  exact absurd heq.symm (List.append_ne_nil_of_right_ne_nil ops₁ (List.cons_ne_nil op ops₂))

theorem sometimes_cons {P : σ → ω → Prop} {s : σ} {op : ω} {ops : List ω} :
    Sometimes step P s (op :: ops) ↔ P s op ∨ ∃ s', step s op = .ok s' ∧ Sometimes step P s' ops := by
  constructor
  · rintro ⟨ops₁, op', ops₂, s₁, heq, hr, hp⟩
    cases ops₁ with
    | nil =>
      cases heq
      exact Or.inl (reaches_nil.mp hr ▸ hp)
    | cons o ops₁ =>
      cases heq
      obtain ⟨s', hop, hr⟩ := reaches_cons.mp hr
      exact Or.inr ⟨s', hop, ops₁, op', ops₂, s₁, rfl, hr, hp⟩
  · rintro (hp | ⟨s', hop, ops₁, op', ops₂, s₁, rfl, hr, hp⟩)
    · exact ⟨[], op, ops, s, rfl, reaches_nil.mpr rfl, hp⟩
    · exact ⟨op :: ops₁, op', ops₂, s₁, rfl, reaches_cons.mpr ⟨s', hop, hr⟩, hp⟩

/-- Exactly one operation of the run satisfies `P` in the state it is executed in. -/
def Once (step : σ → ω → Except ε σ) (P : σ → ω → Prop) (s : σ) (ops : List ω) : Prop :=
  ∃ ops₁ op ops₂ s₁ s₂, ops = ops₁ ++ op :: ops₂ ∧ Reaches step s ops₁ s₁ ∧ P s₁ op ∧ step s₁ op = .ok s₂ ∧
    Along step (fun s op => ¬ P s op) s ops₁ ∧ Along step (fun s op => ¬ P s op) s₂ ops₂

section Flag
variable (Flag : σ → Prop) {P C : σ → ω → Prop}
  (hrise : ∀ s op s', C s op → step s op = .ok s' → ¬ Flag s → (P s op ↔ Flag s'))
  (hstay : ∀ s op s', C s op → step s op = .ok s' → Flag s → ¬ P s op ∧ Flag s')
include hrise hstay

omit hrise in
/-- Once the flag is up nothing raises it. -/
theorem along_not_of_flag {ops : List ω} :
    ∀ {s t : σ}, Flag s → Along step C s ops → Reaches step s ops t →
      Along step (fun s op => ¬ P s op) s ops ∧ Flag t := by
  induction ops with
  | nil => intro s t hs _ ht; exact ⟨trivial, reaches_nil.mp ht ▸ hs⟩
  | cons op ops ih =>
    intro s t hs hc ht
    obtain ⟨s', hop, ht⟩ := reaches_cons.mp ht
    obtain ⟨hnot, hs'⟩ := hstay s op s' hc.1 hop hs
    obtain ⟨hrest, hflag⟩ := ih hs' (hc.2 s' hop) ht
    refine ⟨⟨hnot, fun s'' hs'' => ?_⟩, hflag⟩
    obtain rfl : s' = s'' := Except.ok.inj (hop.symm.trans hs'')
    exact hrest

omit hrise in
/-- A run in which something raised the flag ends with the flag up. -/
theorem flag_of_sometimes {Q : σ → ω → Prop}
    (hraise : ∀ s op s', C s op → step s op = .ok s' → Q s op → Flag s') {ops : List ω} :
    ∀ {s t : σ}, Along step C s ops → Reaches step s ops t → Sometimes step Q s ops → Flag t := by
  induction ops with
  | nil => intro s t _ _ hq; exact absurd hq not_sometimes_nil
  | cons op ops ih =>
    intro s t hc ht hq
    obtain ⟨s', hop, ht⟩ := reaches_cons.mp ht
    rcases sometimes_cons.mp hq with hq | ⟨s'', hop', hq⟩
    · exact (along_not_of_flag Flag hstay (hraise s op s' hc.1 hop hq) (hc.2 s' hop) ht).2
    · obtain rfl : s' = s'' := Except.ok.inj (hop.symm.trans hop')
      exact ih (hc.2 s' hop) ht hq

/-- **What raises a flag that stays up happens once in a run that ends with the flag up.** -/
theorem once_of_flag {ops : List ω} :
    ∀ {s t : σ}, ¬ Flag s → Along step C s ops → Reaches step s ops t → Flag t → Once step P s ops := by
  induction ops with
  | nil => intro s t hs _ ht hflag; exact absurd (reaches_nil.mp ht ▸ hflag) hs
  | cons op ops ih =>
    intro s t hs hc ht hflag
    obtain ⟨s', hop, ht⟩ := reaches_cons.mp ht
    have hiff := hrise s op s' hc.1 hop hs
    by_cases hs' : Flag s'
    · exact ⟨[], op, ops, s, s', rfl, reaches_nil.mpr rfl, hiff.mpr hs', hop, trivial,
        (along_not_of_flag Flag hstay hs' (hc.2 s' hop) ht).1⟩
    · obtain ⟨ops₁, op', ops₂, s₁, s₂, rfl, hr, hp, hop', h₁, h₂⟩ := ih hs' (hc.2 s' hop) ht hflag
      refine ⟨op :: ops₁, op', ops₂, s₁, s₂, rfl, reaches_cons.mpr ⟨s', hop, hr⟩, hp, hop', ⟨?_, fun s'' hs'' => ?_⟩, h₂⟩
      · exact fun hp => hs' (hiff.mp hp)
      · obtain rfl : s' = s'' := Except.ok.inj (hop.symm.trans hs'')
        exact h₁

end Flag

/-- What a sequence of two parts that returns does. -/
theorem bind_ok {τ : Type} {x : Except ε σ} {f : σ → Except ε τ} {t : τ} (h : (x >>= f) = .ok t) :
    ∃ s, x = .ok s ∧ f s = .ok t := by
  cases x with
  | error e => cases h
  | ok s => exact ⟨s, rfl, h⟩

theorem map_ok {τ : Type} {x : Except ε σ} {f : σ → τ} {t : τ} (h : x.map f = .ok t) : ∃ s, x = .ok s ∧ f s = t := by
  cases x with
  | error e => cases h
  | ok s => exact ⟨s, rfl, Except.ok.inj h⟩

theorem mapM_ok_iff {A B ε : Type} {f : A → Except ε B} {l : List A} {r : List B} :
    l.mapM f = .ok r ↔ l.map f = r.map .ok := by
  induction l generalizing r with
  | nil => cases r <;> simp [pure, Except.pure]
  | cons a l ih =>
    rw [List.mapM_cons, List.map_cons]
    cases hf : f a with
    | error e => cases r <;> simp [bind, Except.bind]
    | ok x =>
      cases hl : l.mapM f with
      | error e =>
        cases r with
        | nil => simp [bind, Except.bind]
        | cons y r =>
          have := (not_congr (ih (r := r))).mp (by rw [hl]; simp)
          simp [bind, Except.bind, this]
      | ok xs =>
        have hmap := ih.mp hl
        rw [hmap]
        cases r with
        | nil => simp [bind, Except.bind, pure, Except.pure]
        | cons y r =>
          simp only [bind, Except.bind, pure, Except.pure, Except.ok.injEq, List.cons.injEq, List.map_cons]
          rw [List.map_inj_right fun x y h => Except.ok.inj h]

/-! ## Maps between systems -/

/-- A map that commutes with one step commutes with runs. -/
theorem foldlM_map_of_comm {σ' : Type} {step' : σ' → ω → Except ε σ'} {b : σ → σ'}
    (h : ∀ s op, step' (b s) op = (step s op).map b) (s : σ) (ops : List ω) :
    ops.foldlM step' (b s) = (ops.foldlM step s).map b := by
  induction ops generalizing s with
  | nil => rfl
  | cons op ops ih =>
    rw [List.foldlM_cons, List.foldlM_cons, h]
    cases hop : step s op with
    | error e => rfl
    | ok s' => exact ih s'

/-- So does one that commutes with both parts of a sequence. -/
theorem bind_map_of_comm {τ σ' τ' : Type} {f : σ → Except ε τ} {f' : σ' → Except ε τ'} {b : σ → σ'} {c : τ → τ'}
    (h : ∀ s, f' (b s) = (f s).map c) (x : Except ε σ) : (x.map b >>= f') = (x >>= f).map c := by
  cases x with
  | error e => rfl
  | ok s => exact h s

end FairCache.Lib
