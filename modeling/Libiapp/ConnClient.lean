import Libiapp.ConnLife

/-! conn.c as a client of its comm. It owes the comm no write behind the close and no close
behind the close callback, and it keeps to that: every run of a conn is a run of the port,
as every disciplined run of a comm is. -/
namespace Libiapp.Connection
open Runs Comm

def Serves (s s' : State) : Prop := ∃ acts, Possible portMachine s.port acts ∧ run portMachine s.port acts = s'.port

theorem serves {s s' : State} (same : s'.port = s.port) : Serves s s' := ⟨[],trivial,same.symm⟩

theorem behindServes {made erred stage s note rest} (h : Shape made erred stage s) (stack : s.stack = note::rest) :
    Serves s (behind { s with stack := rest } note) := by
  cases note with
  | error => exact serves rfl
  | freeing => exact serves rfl
  | closing =>
    have asked : stage = .asked := by
      have inside := h.stack
      rw [stack] at inside
      cases stage <;> simp_all [Stage.stack]
    subst stage
    have linked : s.c.comm.isSome = true := h.comm
    refine ⟨[.close],⟨h.closed,trivial⟩,?_⟩
    simp [behind,connCloseTail,commClose,linked,run,portMachine]

theorem notifyServes {made erred stage s note} (h : Shape made erred stage (told s note)) : Serves s (notify s note) := by
  unfold notify
  split
  · rename_i owner
    have back := behindServes h rfl
    simp only [told,owner] at back
    exact back
  · exact serves rfl

theorem connCloseServes {made erred stage s} (h : Shape made erred stage s) : Serves s (connClose s) := by
  rcases connCloseCases h with same | ⟨opened,closes⟩
  · rw [same]
    exact serves rfl
  · rw [closes]
    exact notifyServes (closeTold h opened)

theorem commWriteServes {made erred s} (h : Shape made erred .running s) : Serves s (commWrite s) := by
  have linked : s.c.comm.isSome = true := h.comm
  refine ⟨[.write],⟨h.closing,trivial⟩,?_⟩
  simp [commWrite,linked,run,portMachine]

theorem Serves.of {s s' s'' : State} (served : Serves s s') (same : s.port = s''.port) : Serves s'' s' := by
  unfold Serves at served
  rw [same] at served
  exact served

theorem writeCbServes {made erred stage s} (h : Shape made erred stage s) (idle : s.port.writing = false) (status nwritten) :
    Serves s (connWriteCb s status nwritten) := by
  rcases writeCbCases h status nwritten with same | ⟨s',running,port,_,fails | closes | writes⟩
  · rw [same]
    exact serves rfl
  · rw [fails]
    exact (notifyServes (failTold running (port ▸ idle))).of port
  · rw [closes]
    exact (connCloseServes running).of port
  · rw [writes]
    exact (commWriteServes running).of port

theorem stepServes {made erred stage s a} (h : Shape made erred stage s) (allowed : Allowed s a) : Serves s (step s a) := by
  obtain ⟨_,allowed⟩ := allowed
  cases a with
  | connClose => exact connCloseServes h
  | connSetStatsCb cb => exact serves rfl
  | setThreshold thr => exact serves rfl
  | wrote status nwritten =>
    obtain ⟨acts,possible,after⟩ := writeCbServes (answeredShape h allowed.2) rfl status nwritten
    exact ⟨.wrote status nwritten::acts,⟨allowed.2,possible⟩,after⟩
  | closed => exact ⟨[.closed],⟨allowed.2,trivial⟩,rfl⟩
  | cleanup =>
    obtain ⟨rfl,notifies⟩ := cleanupCases h allowed.2
    rw [notifies]
    exact (notifyServes (cleanupTold h)).of rfl
  | ret =>
    cases stack : s.stack with
    | nil => exact absurd stack allowed
    | cons note rest =>
      simp only [step,stack]
      exact behindServes h stack

theorem reachConnPort {s} (h : Reach connMachine s) : Reach portMachine s.port := by
  induction h with
  | start initially =>
    obtain ⟨fd,comm,ioSize,cb,cbdata,made⟩ := initially
    cases Option.some.inj made
    have first : Possible portMachine ⟨false,false,false⟩ [.write] := ⟨rfl,trivial⟩
    exact reachRun (.start rfl) first
  | next before allowed ih =>
    obtain ⟨erred,stage,shape⟩ := reachShape before
    obtain ⟨acts,possible,after⟩ := stepServes shape allowed
    have reached := reachRun ih possible
    rw [after] at reached
    exact reached

end Libiapp.Connection
