import Mathlib.Init

/-! Guarded state machines. A machine has a total step function and a predicate
that says when an action is possible; what a caller promises is a further guard.
Invariants are proved once for a step and then hold of every reachable state. -/
namespace Libiapp.Runs

structure Machine (σ α : Type) where
  start : σ → Prop
  allowed : σ → α → Prop
  step : σ → α → σ

/- The runs in which every step also meets `ok`. -/
def Machine.guard {σ α} (m : Machine σ α) (ok : σ → α → Prop) : Machine σ α :=
  { m with allowed := fun s a => m.allowed s a ∧ ok s a }

instance decidableGuard {σ α} (m : Machine σ α) (ok : σ → α → Prop) [∀ s a, Decidable (m.allowed s a)]
    [∀ s a, Decidable (ok s a)] (s a) : Decidable ((m.guard ok).allowed s a) :=
  inferInstanceAs (Decidable (m.allowed s a ∧ ok s a))

inductive Reach {σ α} (m : Machine σ α) : σ → Prop where
  | start {s} (initial : m.start s) : Reach m s
  | next {s a} (before : Reach m s) (possible : m.allowed s a) : Reach m (m.step s a)

theorem reachInvariant {σ α} {m : Machine σ α} {inv : σ → Prop}
    (initial : ∀ s, m.start s → inv s)
    (preserved : ∀ s a, inv s → m.allowed s a → inv (m.step s a)) {s} (h : Reach m s) : inv s := by
  induction h with
  | start initially => exact initial _ initially
  | next _ possible ih => exact preserved _ _ ih possible

def Possible {σ α} (m : Machine σ α) (s : σ) : List α → Prop
  | [] => True
  | a::rest => m.allowed s a ∧ Possible m (m.step s a) rest

def run {σ α} (m : Machine σ α) (s : σ) (actions : List α) : σ := actions.foldl m.step s

instance decidablePossible {σ α} (m : Machine σ α) [∀ s a, Decidable (m.allowed s a)] :
    (s : σ) → (actions : List α) → Decidable (Possible m s actions)
  | _,[] => isTrue trivial
  | s,a::rest =>
    have := decidablePossible m (m.step s a) rest
    inferInstanceAs (Decidable (m.allowed s a ∧ Possible m (m.step s a) rest))

theorem reachRun {σ α} {m : Machine σ α} {s actions} (h : Reach m s) (possible : Possible m s actions) :
    Reach m (run m s actions) := by
  induction actions generalizing s with
  | nil => exact h
  | cons a rest ih => exact ih (.next h possible.1) possible.2

theorem reachUnguarded {σ α} {m : Machine σ α} {ok : σ → α → Prop} {s} (h : Reach (m.guard ok) s) : Reach m s := by
  induction h with
  | start initially => exact .start initially
  | next _ possible ih => exact .next ih possible.1

/- `p` in every state of a run, and `ok` of every step of a run. -/
def Along {σ α} (m : Machine σ α) (p : σ → Prop) (s : σ) : List α → Prop
  | [] => p s
  | a::rest => p s ∧ Along m p (m.step s a) rest

def Each {σ α} (m : Machine σ α) (ok : σ → α → Prop) (s : σ) : List α → Prop
  | [] => True
  | a::rest => ok s a ∧ Each m ok (m.step s a) rest

instance decidableEach {σ α} (m : Machine σ α) (ok : σ → α → Prop) [∀ s a, Decidable (ok s a)] :
    (s : σ) → (actions : List α) → Decidable (Each m ok s actions)
  | _,[] => isTrue trivial
  | s,a::rest =>
    have := decidableEach m ok (m.step s a) rest
    inferInstanceAs (Decidable (ok s a ∧ Each m ok (m.step s a) rest))

theorem possibleGuard {σ α} {m : Machine σ α} {ok : σ → α → Prop} {s actions} (possible : Possible m s actions)
    (each : Each m ok s actions) : Possible (m.guard ok) s actions := by
  induction actions generalizing s with
  | nil => trivial
  | cons a rest ih => exact ⟨⟨possible.1,each.1⟩,ih possible.2 each.2⟩

theorem possibleAppend {σ α} {m : Machine σ α} {s first later} (possible : Possible m s first)
    (goes : Possible m (run m s first) later) : Possible m s (first ++ later) := by
  induction first generalizing s with
  | nil => exact goes
  | cons a rest ih => exact ⟨possible.1,ih possible.2 goes⟩

theorem possibleSplit {σ α} {m : Machine σ α} {s first later} (possible : Possible m s (first ++ later)) :
    Possible m s first ∧ Possible m (run m s first) later := by
  induction first generalizing s with
  | nil => exact ⟨trivial,possible⟩
  | cons a rest ih =>
    obtain ⟨front,back⟩ := ih possible.2
    exact ⟨⟨possible.1,front⟩,back⟩

/- What holds until something happens, in a run whose steps meet `ok`. -/
theorem runUntil {σ α} {m : Machine σ α} {p q : σ → Prop} {ok : σ → α → Prop} {s actions}
    (goes : ∀ s a, Reach m s → m.allowed s a → ok s a → p s → p (m.step s a) ∨ q (m.step s a))
    (stays : ∀ s a, q s → q (m.step s a)) (h : Reach m s) (possible : Possible m s actions)
    (each : Each m ok s actions) (here : p s ∨ q s) : p (run m s actions) ∨ q (run m s actions) := by
  induction actions generalizing s with
  | nil => exact here
  | cons a rest ih =>
    refine ih (.next h possible.1) possible.2 each.2 ?_
    rcases here with waits | happened
    · exact goes s a h possible.1 each.1 waits
    · exact Or.inr (stays s a happened)

theorem eachWith {σ α} {m : Machine σ α} {ok : σ → α → Prop} {good : α → Prop} {s actions}
    (all : ∀ a ∈ actions, good a) (each : Each m ok s actions) : Each m (fun s a => ok s a ∧ good a) s actions := by
  induction actions generalizing s with
  | nil => trivial
  | cons a rest ih => exact ⟨⟨each.1,all a List.mem_cons_self⟩,ih (fun b mem => all b (List.mem_cons_of_mem _ mem)) each.2⟩

theorem eachLater {σ α} {m : Machine σ α} {ok : σ → α → Prop} {s first later} (each : Each m ok s (first ++ later)) :
    Each m ok (run m s first) later := by
  induction first generalizing s with
  | nil => exact each
  | cons a rest ih => exact ih each.2

theorem alongStart {σ α} {m : Machine σ α} {p s actions} (h : Along m p s actions) : p s := by
  cases actions with
  | nil => exact h
  | cons a rest => exact h.1

/- A property whose loss in one step is exactly the failure of a condition on the
step is kept by a run exactly when all its steps meet the condition. -/
theorem alongIffEach {σ α} {m : Machine σ α} {inv p : σ → Prop} {ok : σ → α → Prop} {s actions}
    (kept : ∀ s a, inv s → m.allowed s a → ok s a → inv (m.step s a))
    (loses : ∀ s a, inv s → m.allowed s a → p s → (p (m.step s a) ↔ ok s a))
    (here : inv s) (initially : p s) (possible : Possible m s actions) :
    Along m p s actions ↔ Each m ok s actions := by
  induction actions generalizing s with
  | nil => exact ⟨fun _ => trivial,fun _ => initially⟩
  | cons a rest ih =>
    have step := loses s a here possible.1 initially
    constructor
    · intro along
      have after := alongStart along.2
      have next := kept s a here possible.1 (step.mp after)
      exact ⟨step.mp after,(ih next after possible.2).mp along.2⟩
    · intro each
      have after := step.mpr each.1
      have next := kept s a here possible.1 each.1
      exact ⟨initially,(ih next after possible.2).mpr each.2⟩

/- Two conditions on a step that say the same where an invariant holds, which the second
of them keeps. -/
theorem eachIff {σ α} {m : Machine σ α} {inv : σ → Prop} {ok ok' : σ → α → Prop} {s actions}
    (same : ∀ s a, inv s → m.allowed s a → (ok s a ↔ ok' s a))
    (kept : ∀ s a, inv s → m.allowed s a → ok' s a → inv (m.step s a))
    (here : inv s) (possible : Possible m s actions) : Each m ok s actions ↔ Each m ok' s actions := by
  induction actions generalizing s with
  | nil => exact Iff.rfl
  | cons a rest ih =>
    have now := same s a here possible.1
    constructor
    · rintro ⟨first,later⟩
      have next := kept s a here possible.1 (now.mp first)
      exact ⟨now.mp first,(ih next possible.2).mp later⟩
    · rintro ⟨first,later⟩
      have next := kept s a here possible.1 first
      exact ⟨now.mpr first,(ih next possible.2).mpr later⟩

theorem alongEnd {σ α} {m : Machine σ α} {p s actions} (h : Along m p s actions) : p (run m s actions) := by
  induction actions generalizing s with
  | nil => exact h
  | cons a rest ih => exact ih h.2

theorem alongMono {σ α} {m : Machine σ α} {inv p q : σ → Prop} {s actions}
    (kept : ∀ s a, inv s → m.allowed s a → inv (m.step s a)) (imp : ∀ s, inv s → p s → q s)
    (here : inv s) (possible : Possible m s actions) (h : Along m p s actions) : Along m q s actions := by
  induction actions generalizing s with
  | nil => exact imp s here h
  | cons a rest ih => exact ⟨imp s here h.1,ih (kept s a here possible.1) possible.2 h.2⟩

/- What stays once it holds, and does not hold at the end of a run, held nowhere in it. -/
theorem alongNever {σ α} {m : Machine σ α} {inv lost : σ → Prop} {s actions}
    (kept : ∀ s a, inv s → m.allowed s a → inv (m.step s a))
    (stays : ∀ s a, inv s → m.allowed s a → lost s → lost (m.step s a))
    (here : inv s) (possible : Possible m s actions) (last : ¬ lost (run m s actions)) :
    Along m (fun s => ¬ lost s) s actions := by
  induction actions generalizing s with
  | nil => exact last
  | cons a rest ih =>
    have later := ih (kept s a here possible.1) possible.2 last
    exact ⟨fun now => alongStart later (stays s a here possible.1 now),later⟩

end Libiapp.Runs
