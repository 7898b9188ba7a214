import FairCache.Lib.Run
import Mathlib.Order.WellFounded

/-!
# Two workers in a row

A caller puts items into a queue and joins it. A first worker takes them one by one and hands what it makes of them to
a second worker, through a second queue that the caller joins next. The threads step in any order.

* `State`, `step` : the threads between two points where they can be interrupted; a blocked thread has no step;
* `outcome` : what becomes of an item, `expected` : of all of them in order;
* `reaches_inv` : the results and what is still under way are the expected outcomes, in every state;
* `returned_ok` : a call that returns answers them;
* `step_lt` : every schedule ends; `stuck_returned` : it ends with the call's return if no worker raises.
-/

namespace FairCache.Lib.Pipeline

variable {A B C ε : Type}

/-- A queue with its count of unfinished tasks. -/
structure Queue (A : Type) where
  items : List A
  unfinished : ℕ

namespace Queue

def empty (A : Type) : Queue A := ⟨[], 0⟩

def put (q : Queue A) (a : A) : Queue A := ⟨q.items ++ [a], q.unfinished + 1⟩

def taskDone (q : Queue A) : Queue A := ⟨q.items, q.unfinished - 1⟩

end Queue

/-- A worker waits for an item, works on one, is about to report it done, or was killed by an exception. -/
inductive Worker (A : Type)
  | idle
  | busy (a : A)
  | done
  | dead (a : A)

namespace Worker

/-- The item that is not processed. -/
def pending : Worker A → List A
  | idle => []
  | busy a => [a]
  | done => []
  | dead a => [a]

/-- The item that is not reported. -/
def unreported : Worker A → ℕ
  | idle => 0
  | busy _ => 1
  | done => 1
  | dead _ => 1

end Worker

/-- The caller puts its items, joins both queues and returns the results. -/
inductive Caller (A C : Type)
  | putting (items : List A)
  | joinFirst
  | joinSecond
  | returned (results : List C)
  deriving DecidableEq

/-- The items that were not put. -/
def Caller.pending : Caller A C → List A
  | putting l => l
  | joinFirst => []
  | joinSecond => []
  | returned _ => []

/-- The threads and what they share. -/
structure State (A B C : Type) where
  caller : Caller A C
  first : Worker A
  firstQueue : Queue A
  second : Worker B
  secondQueue : Queue B
  results : List C

/-- The start of a call. -/
def init (B C : Type) (items : List A) : State A B C :=
  { caller := .putting items, first := .idle, firstQueue := .empty A, second := .idle, secondQueue := .empty B
    results := [] }

/-- Who takes the next step. -/
inductive Thread
  | caller
  | first
  | second
  deriving DecidableEq

/-! ## Steps -/

def stepCaller (s : State A B C) : Except Unit (State A B C) :=
  match s.caller with
  | .putting (a :: l) => .ok { s with caller := .putting l, firstQueue := s.firstQueue.put a }
  | .putting [] => .ok { s with caller := .joinFirst }
  | .joinFirst => if s.firstQueue.unfinished = 0 then .ok { s with caller := .joinSecond } else .error ()
  | .joinSecond => if s.secondQueue.unfinished = 0 then .ok { s with caller := .returned s.results } else .error ()
  | .returned _ => .error ()

def stepFirst (f : A → Except ε (Option B)) (s : State A B C) : Except Unit (State A B C) :=
  match s.first with
  | .idle =>
    match s.firstQueue.items with
    | [] => .error ()
    | a :: l => .ok { s with first := .busy a, firstQueue := ⟨l, s.firstQueue.unfinished⟩ }
  | .busy a =>
    match f a with
    | .error _ => .ok { s with first := .dead a }
    | .ok none => .ok { s with first := .done }
    | .ok (some b) => .ok { s with first := .done, secondQueue := s.secondQueue.put b }
  | .done => .ok { s with first := .idle, firstQueue := s.firstQueue.taskDone }
  | .dead _ => .error ()

def stepSecond (g : B → Except ε C) (s : State A B C) : Except Unit (State A B C) :=
  match s.second with
  | .idle =>
    match s.secondQueue.items with
    | [] => .error ()
    | b :: l => .ok { s with second := .busy b, secondQueue := ⟨l, s.secondQueue.unfinished⟩ }
  | .busy b =>
    match g b with
    | .error _ => .ok { s with second := .dead b }
    | .ok c => .ok { s with second := .done, results := s.results ++ [c] }
  | .done => .ok { s with second := .idle, secondQueue := s.secondQueue.taskDone }
  | .dead _ => .error ()

/-- One step of a thread; `f` and `g` are the loop bodies of the workers. -/
def step (f : A → Except ε (Option B)) (g : B → Except ε C) (s : State A B C) : Thread → Except Unit (State A B C)
  | .caller => stepCaller s
  | .first => stepFirst f s
  | .second => stepSecond g s

variable (f : A → Except ε (Option B)) (g : B → Except ε C)

/-- No thread can move. -/
def Stuck (s : State A B C) : Prop := ∀ t, step f g s t = .error ()

/-! ## What becomes of the items -/

/-- What becomes of an item: nothing, a result, or the exception that kills a worker. -/
def outcome (a : A) : Option (Except ε C) :=
  match f a with
  | .error e => some (.error e)
  | .ok none => none
  | .ok (some b) => some (g b)

/-- The outcomes of a list of items, in order. -/
def expected (l : List A) : List (Except ε C) := l.filterMap (outcome f g)

/-- The results and what is under way, from the end of the pipeline to its start. -/
def total (s : State A B C) : List (Except ε C) :=
  s.results.map .ok ++ (s.second.pending ++ s.secondQueue.items).map g ++
    expected f g (s.first.pending ++ s.firstQueue.items ++ s.caller.pending)

/-- What holds in every state of a call for `l`. -/
structure Inv (l : List A) (s : State A B C) : Prop where
  total_eq : total f g s = expected f g l
  first_unfinished : s.firstQueue.unfinished = s.firstQueue.items.length + s.first.unreported
  second_unfinished : s.secondQueue.unfinished = s.secondQueue.items.length + s.second.unreported
  first_joined : s.caller = .joinSecond ∨ (∃ r, s.caller = .returned r) → s.first = .idle ∧ s.firstQueue.items = []
  second_joined : ∀ r, s.caller = .returned r → s.second = .idle ∧ s.secondQueue.items = [] ∧ r = s.results
  first_dead : ∀ a, s.first = .dead a → ∃ e, f a = .error e
  second_dead : ∀ b, s.second = .dead b → ∃ e, g b = .error e

variable {f g} {l : List A} {s s' : State A B C}

theorem init_inv (l : List A) : Inv f g l (init B C l) where
  total_eq := by simp [total, init, Queue.empty, Worker.pending, Caller.pending]
  first_unfinished := rfl
  second_unfinished := rfl
  first_joined h := by rcases h with h | ⟨r, h⟩ <;> cases h
  second_joined r h := by cases h
  first_dead a h := by cases h
  second_dead b h := by cases h

theorem Inv.stepCaller (h : Inv f g l s) (hs : stepCaller s = .ok s') : Inv f g l s' := by
  obtain ⟨htotal, hfirst, hsecond, hjoined, hreturned, hdead, hdead'⟩ := h
  obtain ⟨caller, first, firstQueue, second, secondQueue, results⟩ := s
  cases caller with
  | putting items =>
    cases items with
    | nil =>
      cases hs
      exact ⟨htotal, hfirst, hsecond, fun hc => by simp at hc, fun r hc => by simp at hc, hdead, hdead'⟩
    | cons a items =>
      cases hs
      refine ⟨?_, ?_, hsecond, fun hc => by simp at hc, fun r hc => by simp at hc, hdead, hdead'⟩
      · simpa [total, Queue.put, Caller.pending] using htotal
      · simp only [Queue.put, List.length_append, List.length_singleton]
        dsimp only at hfirst
        omega
  | joinFirst =>
    simp only [Pipeline.stepCaller] at hs
    split_ifs at hs with hzero
    cases hs
    dsimp only at hfirst hzero
    refine ⟨htotal, hfirst, hsecond, fun _ => ?_, fun r hc => by simp at hc, hdead, hdead'⟩
    cases first with
    | idle =>
      have hlength : firstQueue.items.length = 0 := by omega
      exact ⟨rfl, List.eq_nil_of_length_eq_zero hlength⟩
    | busy a => simp only [Worker.unreported] at hfirst; omega
    | done => simp only [Worker.unreported] at hfirst; omega
    | dead a => simp only [Worker.unreported] at hfirst; omega
  | joinSecond =>
    simp only [Pipeline.stepCaller] at hs
    split_ifs at hs with hzero
    cases hs
    dsimp only at hsecond hzero
    refine ⟨htotal, hfirst, hsecond, fun _ => hjoined (Or.inl rfl), fun r hr => ?_, hdead, hdead'⟩
    cases hr
    cases second with
    | idle =>
      have hlength : secondQueue.items.length = 0 := by omega
      exact ⟨rfl, List.eq_nil_of_length_eq_zero hlength, rfl⟩
    | busy b => simp only [Worker.unreported] at hsecond; omega
    | done => simp only [Worker.unreported] at hsecond; omega
    | dead b => simp only [Worker.unreported] at hsecond; omega
  | returned r => cases hs

theorem Inv.stepFirst (h : Inv f g l s) (hs : stepFirst f s = .ok s') : Inv f g l s' := by
  obtain ⟨htotal, hfirst, hsecond, hjoined, hreturned, hdead, hdead'⟩ := h
  obtain ⟨caller, first, firstQueue, second, secondQueue, results⟩ := s
  simp only at hfirst hsecond hjoined hreturned
  cases first with
  | idle =>
    obtain ⟨items, unfinished⟩ := firstQueue
    cases items with
    | nil => cases hs
    | cons a items =>
      cases hs
      have hrunning : ¬ (caller = .joinSecond ∨ ∃ r, caller = .returned r) := fun hc => by simpa using hjoined hc
      refine ⟨by simpa [total, Worker.pending] using htotal, ?_, hsecond, fun hc => absurd hc hrunning,
        fun r hc => absurd (Or.inr ⟨r, hc⟩) hrunning,
        fun a ha => by simp at ha, hdead'⟩
      simpa [Worker.unreported] using hfirst
  | busy a =>
    have hrunning : ¬ (caller = .joinSecond ∨ ∃ r, caller = .returned r) := fun hc => by simpa using hjoined hc
    simp only [Pipeline.stepFirst] at hs
    cases hfa : f a with
    | error e =>
      simp only [hfa] at hs
      cases hs
      exact ⟨htotal, hfirst, hsecond, fun hc => absurd hc hrunning, fun r hc => absurd (Or.inr ⟨r, hc⟩) hrunning,
        fun a ha => by cases ha; exact ⟨e, hfa⟩, hdead'⟩
    | ok b =>
      cases b with
      | none =>
        simp only [hfa] at hs
        cases hs
        refine ⟨?_, hfirst, hsecond, fun hc => absurd hc hrunning, fun r hc => absurd (Or.inr ⟨r, hc⟩) hrunning,
        fun a ha => by simp at ha, hdead'⟩
        simpa [total, expected, outcome, Worker.pending, hfa] using htotal
      | some b =>
        simp only [hfa] at hs
        cases hs
        refine ⟨?_, hfirst, ?_, fun hc => absurd hc hrunning, fun r hc => absurd (Or.inr ⟨r, hc⟩) hrunning,
        fun a ha => by simp at ha, hdead'⟩
        · simpa [total, expected, outcome, Worker.pending, Queue.put, hfa] using htotal
        · simp only [Queue.put, List.length_append, List.length_singleton]
          omega
  | done =>
    have hrunning : ¬ (caller = .joinSecond ∨ ∃ r, caller = .returned r) := fun hc => by simpa using hjoined hc
    cases hs
    refine ⟨htotal, ?_, hsecond, fun hc => absurd hc hrunning, fun r hc => absurd (Or.inr ⟨r, hc⟩) hrunning,
        fun a ha => by simp at ha, hdead'⟩
    simp only [Queue.taskDone, Worker.unreported] at hfirst ⊢
    omega
  | dead a => cases hs

theorem Inv.stepSecond (h : Inv f g l s) (hs : stepSecond g s = .ok s') : Inv f g l s' := by
  obtain ⟨htotal, hfirst, hsecond, hjoined, hreturned, hdead, hdead'⟩ := h
  obtain ⟨caller, first, firstQueue, second, secondQueue, results⟩ := s
  simp only at hfirst hsecond hjoined hreturned
  cases second with
  | idle =>
    obtain ⟨items, unfinished⟩ := secondQueue
    cases items with
    | nil => cases hs
    | cons b items =>
      cases hs
      refine ⟨by simpa [total, Worker.pending] using htotal, hfirst, ?_, hjoined, fun r hc => ?_, hdead,
        fun b hb => by simp at hb⟩
      · simpa [Worker.unreported] using hsecond
      · simpa using (hreturned r hc).2.1
  | busy b =>
    simp only [Pipeline.stepSecond] at hs
    cases hgb : g b with
    | error e =>
      simp only [hgb] at hs
      cases hs
      exact ⟨htotal, hfirst, hsecond, hjoined, fun r hc => by simpa using (hreturned r hc).1, hdead,
        fun b hb => by cases hb; exact ⟨e, hgb⟩⟩
    | ok c =>
      simp only [hgb] at hs
      cases hs
      refine ⟨?_, hfirst, hsecond, hjoined, fun r hc => by simpa using (hreturned r hc).1, hdead,
        fun b hb => by simp at hb⟩
      simpa [total, Worker.pending, hgb] using htotal
  | done =>
    cases hs
    refine ⟨htotal, hfirst, ?_, hjoined, fun r hc => by simpa using (hreturned r hc).1, hdead,
      fun b hb => by simp at hb⟩
    simp only [Queue.taskDone, Worker.unreported] at hsecond ⊢
    omega
  | dead b => cases hs

/-- **The results and what is under way are the expected outcomes**, in every state of every schedule. -/
theorem reaches_inv {schedule : List Thread} (h : Reaches (step f g) (init B C l) schedule s) : Inv f g l s := by
  refine reaches_kept (fun s t s' hs ht => ?_) (init_inv l) h
  cases t with
  | caller => exact hs.stepCaller ht
  | first => exact hs.stepFirst ht
  | second => exact hs.stepSecond ht

/-- **A call that returns answers the expected outcomes.** -/
theorem returned_ok {schedule : List Thread} {r : List C} (h : Reaches (step f g) (init B C l) schedule s)
    (hr : s.caller = .returned r) : r.map .ok = expected f g l := by
  have hinv := reaches_inv h
  obtain ⟨hfirst, hfirstItems⟩ := hinv.first_joined (Or.inr ⟨r, hr⟩)
  obtain ⟨hsecond, hsecondItems, rfl⟩ := hinv.second_joined r hr
  rw [← hinv.total_eq]
  simp [total, hfirst, hfirstItems, hsecond, hsecondItems, hr, Worker.pending, Caller.pending, expected]

/-! ## Every schedule ends -/

/-- What the caller still has to do, in steps of all threads. -/
def Caller.work : Caller A C → ℕ
  | putting l => 7 * l.length + 3
  | joinFirst => 2
  | joinSecond => 1
  | returned _ => 0

/-- What a worker still has to do; an item costs `n` steps once it is taken. -/
def Worker.work (n : ℕ) : Worker A → ℕ
  | idle => 0
  | busy _ => n
  | done => 1
  | dead _ => 0

/-- The steps that are left. -/
def work (s : State A B C) : ℕ :=
  s.caller.work + (6 * s.firstQueue.items.length + s.first.work 5) + (3 * s.secondQueue.items.length + s.second.work 2)

/-- **Every step is progress**, so no schedule goes on for ever. -/
theorem step_lt {t : Thread} (h : step f g s t = .ok s') : work s' < work s := by
  obtain ⟨caller, first, ⟨items, unfinished⟩, second, ⟨items', unfinished'⟩, results⟩ := s
  cases t with
  | caller =>
    rcases caller with (_ | ⟨a, l⟩) | _ | _ | r
    · cases h
      simp [work, Caller.work]
    · cases h
      simp only [work, Caller.work, Queue.put, List.length_append, List.length_cons, List.length_nil]
      omega
    · simp only [step, Pipeline.stepCaller] at h
      split_ifs at h
      cases h
      simp [work, Caller.work]
    · simp only [step, Pipeline.stepCaller] at h
      split_ifs at h
      cases h
      simp [work, Caller.work]
    · cases h
  | first =>
    cases first with
    | idle =>
      cases items with
      | nil => cases h
      | cons a items =>
        cases h
        simp only [work, Worker.work, List.length_cons]
        omega
    | busy a =>
      simp only [step, Pipeline.stepFirst] at h
      cases hfa : f a with
      | error e =>
        simp only [hfa] at h
        cases h
        simp [work, Worker.work]
      | ok b =>
        cases b <;> simp only [hfa] at h <;> cases h <;>
          simp only [work, Worker.work, Queue.put, List.length_append, List.length_singleton] <;> omega
    | done =>
      cases h
      simp [work, Worker.work, Queue.taskDone]
    | dead a => cases h
  | second =>
    cases second with
    | idle =>
      cases items' with
      | nil => cases h
      | cons b items =>
        cases h
        simp only [work, Worker.work, List.length_cons]
        omega
    | busy b =>
      simp only [step, Pipeline.stepSecond] at h
      cases hgb : g b <;> simp only [hgb] at h <;> cases h <;> simp [work, Worker.work]
    | done =>
      cases h
      simp [work, Worker.work, Queue.taskDone]
    | dead b => cases h

/-- So every call can be run until no thread can move. -/
theorem exists_stuck (s : State A B C) : ∃ schedule t, Reaches (step f g) s schedule t ∧ Stuck f g t := by
  by_cases h : Stuck f g s
  · exact ⟨[], s, reaches_nil.mpr rfl, h⟩
  · obtain ⟨t, ht⟩ := not_forall.mp h
    cases hs : step f g s t with
    | error e => exact absurd hs ht
    | ok s' =>
      have := step_lt hs
      obtain ⟨schedule, u, hu, hstuck⟩ := exists_stuck s'
      exact ⟨t :: schedule, u, reaches_cons.mpr ⟨s', hs, hu⟩, hstuck⟩
termination_by work s

/-- **If no worker raises, the call returns** when no thread can move any more. -/
theorem stuck_returned (h : Inv f g l s) (hstuck : Stuck f g s) (hok : ∀ e, Except.error e ∉ expected f g l) :
    ∃ r, s.caller = .returned r := by
  obtain ⟨htotal, hfirst, hsecond, -, -, hdead, hdead'⟩ := h
  obtain ⟨caller, first, ⟨items, unfinished⟩, second, ⟨items', unfinished'⟩, results⟩ := s
  rw [← htotal] at hok
  simp only at hfirst hsecond hdead hdead'
  -- a dead worker still holds the item that killed it
  have hsecondIdle : second = .idle ∧ items' = [] := by
    have hmove := hstuck .second
    cases second with
    | idle => cases items' with
      | nil => exact ⟨rfl, rfl⟩
      | cons b items => cases hmove
    | busy b => simp only [step, Pipeline.stepSecond] at hmove; cases hgb : g b <;> simp [hgb] at hmove
    | done => cases hmove
    | dead b =>
      obtain ⟨e, he⟩ := hdead' b rfl
      exact absurd (by simp [total, Worker.pending, he]) (hok e)
  have hfirstIdle : first = .idle ∧ items = [] := by
    have hmove := hstuck .first
    cases first with
    | idle => cases items with
      | nil => exact ⟨rfl, rfl⟩
      | cons b items => cases hmove
    | busy a =>
      simp only [step, Pipeline.stepFirst] at hmove
      cases hfa : f a with
      | error e => simp [hfa] at hmove
      | ok b => cases b <;> simp [hfa] at hmove
    | done => cases hmove
    | dead a =>
      obtain ⟨e, he⟩ := hdead a rfl
      exact absurd (by simp [total, expected, outcome, Worker.pending, he]) (hok e)
  obtain ⟨rfl, rfl⟩ := hfirstIdle
  obtain ⟨rfl, rfl⟩ := hsecondIdle
  have hmove := hstuck .caller
  rcases caller with (_ | ⟨a, l⟩) | _ | _ | r
  · cases hmove
  · cases hmove
  · simp [step, Pipeline.stepCaller, hfirst, Worker.unreported] at hmove
  · simp [step, Pipeline.stepCaller, hsecond, Worker.unreported] at hmove
  · exact ⟨r, rfl⟩

end FairCache.Lib.Pipeline
