import FairCache.Lib.Run
import Mathlib.Data.List.Forall2

/-!
# What a computation returns or raises

* `Outcome E Q x` : `x` returns what satisfies `Q`, or raises an exception in `E`; `Outcome.bind`, `.map`, `.mono`, .. :
  how outcomes compose;
* `EveryOutcome step E Q s ops` : every state of the run satisfies `Q`, and only an exception in `E` ends the run;
  `everyOutcome_of_step` : from one step to whole runs.
-/

namespace FairCache.Lib

variable {σ ω ε α β : Type} {E E' : ε → Prop}

/-- It returns what satisfies `Q`, or raises an exception in `E`. -/
def Outcome (E : ε → Prop) (Q : α → Prop) : Except ε α → Prop
  | .ok a => Q a
  | .error e => E e

namespace Outcome

variable {Q Q' : α → Prop} {R : β → Prop} {x : Except ε α}

theorem of_ok {a : α} (hx : x = .ok a) (ha : Q a) : Outcome E Q x := hx ▸ ha

theorem of_error {e : ε} (he : E e) : Outcome E Q (.error e) := he

theorem map_of_ok {f : α → β} {a : α} (hx : x = .ok a) (h : R (f a)) : Outcome E R (x.map f) := by
  rw [hx]
  exact h

theorem bind_of_ok {f : α → Except ε β} {a : α} (hx : x = .ok a) (h : Outcome E R (f a)) : Outcome E R (x >>= f) := by
  rw [hx]
  exact h

theorem mono (h : Outcome E Q x) (hE : ∀ e, E e → E' e) (hQ : ∀ a, Q a → Q' a) : Outcome E' Q' x := by
  cases x with
  | error e => exact hE e h
  | ok a => exact hQ a h

theorem imp (h : Outcome E Q x) (hQ : ∀ a, Q a → Q' a) : Outcome E Q' x := h.mono (fun _ => id) hQ

/-- What returns satisfies both. -/
theorem and_of_ok (h : Outcome E Q x) (hQ : ∀ a, x = .ok a → Q' a) : Outcome E (fun a => Q a ∧ Q' a) x := by
  cases x with
  | error e => exact h
  | ok a => exact ⟨h, hQ a rfl⟩

theorem map {f : α → β} (h : Outcome E Q x) (hf : ∀ a, Q a → R (f a)) : Outcome E R (x.map f) := by
  cases x with
  | error e => exact h
  | ok a => exact hf a h

theorem bind {f : α → Except ε β} (h : Outcome E Q x) (hf : ∀ a, Q a → Outcome E R (f a)) : Outcome E R (x >>= f) := by
  cases x with
  | error e => exact h
  | ok a => exact hf a h

/-- If no exception is in `E`, it returns. -/
theorem exists_ok (h : Outcome E Q x) (hE : ∀ e, ¬ E e) : ∃ a, x = .ok a ∧ Q a := by
  cases x with
  | error e => exact absurd h (hE e)
  | ok a => exact ⟨a, rfl, h⟩

end Outcome

/-- Elements that all have an image have a list of images. -/
theorem exists_mapM_ok {f : α → Except ε β} {rel : α → β → Prop} {l : List α}
    (h : ∀ a ∈ l, ∃ b, f a = .ok b ∧ rel a b) : ∃ bs, l.mapM f = .ok bs ∧ List.Forall₂ rel l bs := by
  induction l with
  | nil => exact ⟨[], rfl, .nil⟩
  | cons a l ih =>
    obtain ⟨⟨b, hb, hrel⟩, htail⟩ := List.forall_mem_cons.mp h
    obtain ⟨bs, hbs, hrels⟩ := ih htail
    refine ⟨b :: bs, ?_, .cons hrel hrels⟩
    rw [List.mapM_cons, hb, hbs]
    rfl

/-! ## Runs -/

variable (step : σ → ω → Except ε σ)

/-- Every state satisfies `Q`, and the run goes on until an exception in `E`. -/
def EveryOutcome (E : ε → Prop) (Q : σ → Prop) : σ → List ω → Prop
  | s, [] => Q s
  | s, op :: ops => Q s ∧ Outcome E (fun s' => EveryOutcome E Q s' ops) (step s op)

variable {step}

/-- Where every operation under the condition has an outcome that keeps the invariant, a run under it has it in every
state. -/
theorem everyOutcome_of_step {Inv : σ → Prop} {P : σ → ω → Prop}
    (hstep : ∀ s op, Inv s → P s op → Outcome E Inv (step s op)) {ops : List ω} :
    ∀ {s : σ}, Inv s → Along step P s ops → EveryOutcome step E Inv s ops := by
  induction ops with
  | nil => intro s hs _; exact hs
  | cons op ops ih =>
    intro s hs ha
    exact ⟨hs, ((hstep s op hs ha.1).and_of_ok ha.2).imp fun _ h => ih h.1 h.2⟩

theorem EveryOutcome.imp {Q Q' : σ → Prop} (h : ∀ s, Q s → Q' s) {ops : List ω} :
    ∀ {s : σ}, EveryOutcome step E Q s ops → EveryOutcome step E Q' s ops := by
  induction ops with
  | nil => intro s hs; exact h s hs
  | cons op ops ih => exact fun hs => ⟨h _ hs.1, hs.2.imp fun _ => ih⟩

/-- Without exceptions, every operation returns. -/
theorem EveryOutcome.everyState {Q : σ → Prop} (hE : ∀ e, ¬ E e) {ops : List ω} :
    ∀ {s : σ}, EveryOutcome step E Q s ops → EveryState step Q s ops := by
  induction ops with
  | nil => exact fun hs => hs
  | cons op ops ih =>
    intro s hs
    obtain ⟨s', hop, hs'⟩ := hs.2.exists_ok hE
    exact ⟨hs.1, s', hop, ih hs'⟩

end FairCache.Lib
