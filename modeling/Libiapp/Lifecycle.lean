import Mathlib.Data.List.Basic
import Mathlib.Logic.Function.Basic

/-! Operations of an object that is closed once. An operation of kind `k` is
outstanding from its start to its finish, may report in between, and the close
comes when none is outstanding and ends the history. Events are listed newest first. -/
namespace Libiapp.Lifecycle

inductive Event (κ : Type) where
  | start (k : κ)
  | notify (k : κ)
  | finish (k : κ)
  | close
  deriving DecidableEq, Repr

structure Life (κ : Type) where
  outstanding : κ → Bool
  closed : Bool

inductive Trace {κ : Type} [DecidableEq κ] : List (Event κ) → Life κ → Prop where
  | nil : Trace [] ⟨fun _ => false,false⟩
  | start {events l k} (before : Trace events l) (opened : l.closed = false) (idle : l.outstanding k = false) :
      Trace (.start k::events) ⟨Function.update l.outstanding k true,false⟩
  | notify {events l k} (before : Trace events l) (opened : l.closed = false) (busy : l.outstanding k = true) :
      Trace (.notify k::events) ⟨l.outstanding,false⟩
  | finish {events l k} (before : Trace events l) (opened : l.closed = false) (busy : l.outstanding k = true) :
      Trace (.finish k::events) ⟨Function.update l.outstanding k false,false⟩
  | close {events l} (before : Trace events l) (opened : l.closed = false) (none : ∀ k, l.outstanding k = false) :
      Trace (.close::events) ⟨l.outstanding,true⟩

variable {κ : Type} [DecidableEq κ] {events : List (Event κ)} {l : Life κ}

theorem traceCount (trace : Trace events l) (k : κ) :
    events.count (.start k) = events.count (.finish k) + (l.outstanding k).toNat := by
  induction trace with
  | nil => rfl
  | @start _ l j _ _ idle ih =>
    by_cases same : k = j
    · subst k; simp [ih,idle]
    · simp [ih,same,Ne.symm same]
  | notify _ _ _ ih => simp [ih]
  | @finish _ l j _ _ busy ih =>
    by_cases same : k = j
    · subst k; simp [ih,busy]
    · simp [ih,same,Ne.symm same]
  | close _ _ _ ih => simp [ih]

theorem closedIff (trace : Trace events l) : .close ∈ events ↔ l.closed = true := by
  induction trace with
  | nil => simp
  | start _ opened _ ih => simp [ih,opened]
  | notify _ opened _ ih => simp [ih,opened]
  | finish _ opened _ ih => simp [ih,opened]
  | close => simp

theorem openNotClosed (trace : Trace events l) (opened : l.closed = false) : .close ∉ events := by
  intro mem
  rw [(closedIff trace).mp mem] at opened
  contradiction

theorem closedOnce (trace : Trace events l) : events.count .close ≤ 1 := by
  induction trace with
  | nil => simp
  | start _ _ _ ih => simpa using ih
  | notify _ _ _ ih => simpa using ih
  | finish _ _ _ ih => simpa using ih
  | close before opened _ _ => simp [List.count_eq_zero.mpr (openNotClosed before opened)]

theorem closedNone (trace : Trace events l) (closed : l.closed = true) (k : κ) : l.outstanding k = false := by
  cases trace with
  | close _ _ none => exact none k
  | _ => contradiction

/- The close is the last event, and nothing was outstanding when it came. -/
theorem closeLast {before after : List (Event κ)} (trace : Trace (after ++ .close::before) l) :
    after = [] ∧ ∃ l', Trace before l' ∧ ∀ k, l'.outstanding k = false := by
  generalize whole : after ++ .close::before = events at trace
  have mem : .close ∈ events := by simp [← whole]
  cases trace with
  | nil => simp at mem
  | start earlier opened _ => simp [closedIff earlier,opened] at mem
  | notify earlier opened _ => simp [closedIff earlier,opened] at mem
  | finish earlier opened _ => simp [closedIff earlier,opened] at mem
  | @close rest l' earlier opened none =>
    have first := openNotClosed earlier opened
    cases after with
    | nil =>
      cases whole
      exact ⟨rfl,l',earlier,none⟩
    | cons last init =>
      cases whole
      exact absurd (by simp) first

end Libiapp.Lifecycle
