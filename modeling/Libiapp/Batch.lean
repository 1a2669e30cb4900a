import Mathlib.Init

/-! Lists of changes over a state that may reject a change. A caller either has
the rejections reported and goes on behind them, or stops at the first one. -/
namespace Libiapp.Batch
variable {σ χ ε : Type} (accept : σ → χ → Except ε σ)

def one (s : σ) (c : χ) : σ :=
  match accept s c with
  | .ok next => next
  | .error _ => s

def each (s : σ) (changes : List χ) : σ := changes.foldl (one accept) s

def untilError (s : σ) : List χ → σ
  | [] => s
  | c::rest =>
    match accept s c with
    | .ok next => untilError next rest
    | .error _ => s

/- What an application that goes on reports, and what one that stops leaves out. -/
def rejected (s : σ) : List χ → List (χ × ε)
  | [] => []
  | c::rest =>
    match accept s c with
    | .ok next => rejected next rest
    | .error e => (c,e)::rejected s rest

def behind (s : σ) : List χ → List χ
  | [] => []
  | c::rest =>
    match accept s c with
    | .ok next => behind next rest
    | .error _ => rest

theorem eachAppend (s) (l r : List χ) : each accept s (l ++ r) = each accept (each accept s l) r :=
  List.foldl_append

theorem eachBehind (s) (l : List χ) : each accept s l = each accept (untilError accept s l) (behind accept s l) := by
  induction l generalizing s with
  | nil => rfl
  | cons c rest ih =>
    cases result : accept s c with
    | ok next =>
      have head : each accept s (c::rest) = each accept next rest := by simp [each,one,result]
      rw [head,ih]
      simp only [untilError,behind,result]
    | error e => simp [each,one,untilError,behind,result]

theorem rejectedNil {s} {l : List χ} (clean : rejected accept s l = []) : behind accept s l = [] := by
  induction l generalizing s with
  | nil => rfl
  | cons c rest ih =>
    cases result : accept s c with
    | ok next =>
      simp only [rejected,result] at clean
      simp only [behind,result]
      exact ih clean
    | error e => simp [rejected,result] at clean

theorem untilErrorClean {s} {l : List χ} (clean : rejected accept s l = []) :
    untilError accept s l = each accept s l := by
  rw [eachBehind,rejectedNil accept clean]
  rfl

/- Where a property of the state and of every change rules rejections out. -/
theorem rejectedNever {good : σ → Prop} {fine : χ → Prop}
    (accepts : ∀ s c, good s → fine c → ∃ next, accept s c = .ok next ∧ good next) {s} {l : List χ}
    (here : good s) (all : ∀ c ∈ l, fine c) : rejected accept s l = [] ∧ good (each accept s l) := by
  induction l generalizing s with
  | nil => exact ⟨rfl,here⟩
  | cons c rest ih =>
    obtain ⟨next,result,later⟩ := accepts s c here (all c List.mem_cons_self)
    have tail := ih later (fun c mem => all c (List.mem_cons_of_mem _ mem))
    have head : each accept s (c::rest) = each accept next rest := by simp [each,one,result]
    simp only [rejected,result,head]
    exact tail

/- What every accepted change keeps is kept by a list of them, stopped or not. -/
section Kept
variable {accept} {good : σ → Prop} {fine : χ → Prop}
  (kept : ∀ s c next, good s → fine c → accept s c = .ok next → good next)
include kept

theorem untilErrorKept {s} {l : List χ} (here : good s) (all : ∀ c ∈ l, fine c) : good (untilError accept s l) := by
  induction l generalizing s with
  | nil => exact here
  | cons c rest ih =>
    unfold untilError
    split
    · rename_i next result
      exact ih (kept s c next here (all c List.mem_cons_self) result) (fun c mem => all c (List.mem_cons_of_mem _ mem))
    · exact here

theorem eachKept {s} {l : List χ} (here : good s) (all : ∀ c ∈ l, fine c) : good (each accept s l) := by
  induction l generalizing s with
  | nil => exact here
  | cons c rest ih =>
    have first : good (one accept s c) := by
      unfold one
      split
      · rename_i next result
        exact kept s c next here (all c List.mem_cons_self) result
      · exact here
    exact ih first (fun c mem => all c (List.mem_cons_of_mem _ mem))

end Kept

end Libiapp.Batch
