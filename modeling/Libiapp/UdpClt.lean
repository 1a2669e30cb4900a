import Libiapp.CommPrimed
import Mathlib.Data.List.Perm.Basic

/-! udp_clt.c: a sender of UDP frames. Its timer fills the transmit queue of the comm, and
each write callback frees the frame that left the queue and arms the timer again. The
callback runs where the comm's handler stops. Frames are the addresses that malloc() gave
and free() has not taken back; a NULL frame that is written to, or a frame freed twice, is
a `fault`. -/
namespace Libiapp.UdpClt
open Runs
open Libiapp.Comm (CommFde CommStatus Frame Sys commMachine)

structure CltApp where
  maxIoSize : Int
  maxQdepth : Int
  connrate : Int
  totalPktWritten : UInt64
  totalByteWritten : UInt64
  deriving DecidableEq, Repr

/- `cnt` is the counter of thrclt_send_frames while its loop runs, and `reports` what
thrclt_ev_stat_print has written, the newest first. -/
structure State where
  r : CltApp
  comm : Comm.State
  evNewconn : Bool
  evStats : Bool
  cnt : Option Int
  live : List Nat
  fault : Bool
  reports : List (UInt64 × UInt64)

def fdeCommUdpFree (s : State) (fr : Nat) : State :=
  if fr ∈ s.live then { s with live := s.live.erase fr } else { s with fault := true }

def State.loop (s : State) (cnt : Int) : State := { s with cnt := if cnt < s.r.connrate then some cnt else none }

-- One round of the loop, with what fde_comm_udp_alloc returns. Its result is not checked.
def sendFrame (s : State) (cnt : Int) : Option Nat → State
  | none => { s with fault := true }
  | some id =>
    let fr : Frame := ⟨id,s.r.maxIoSize,s.r.maxIoSize⟩
    let written := { s with live := id::s.live, comm := Comm.client s.comm (.udpWrite fr) }
    if (Comm.commUdpWrite s.comm fr).2 < 0 then { fdeCommUdpFree written id with cnt := none }
    else written.loop (cnt + 1)

def thrcltSendFrames (s : State) : State := s.loop 0

def thrcltEvNewconnCb (s : State) : State := thrcltSendFrames s

-- fde_add_timeout does nothing for a timer that is active.
def thrcltEvStatPrint (s : State) : State :=
  { s with
    reports := (s.r.totalPktWritten,s.r.totalByteWritten)::s.reports
    r.totalPktWritten := 0
    r.totalByteWritten := 0
    evStats := true }

def account (r : CltApp) (fr : Frame) (status : CommStatus) (nwritten : Int) : CltApp :=
  if status = .completed ∧ nwritten = fr.len then
    { r with
      totalPktWritten := r.totalPktWritten + 1
      totalByteWritten := r.totalByteWritten + UInt64.ofInt nwritten }
  else r

def thrsrvCommUdpWriteCb (s : State) (fr : Frame) (status : CommStatus) (nwritten : Int) : State :=
  { fdeCommUdpFree { s with r := account s.r fr status nwritten } fr.id with evNewconn := true }

-- The write callback is the only one that this program installs.
def enter (s : State) (c : Comm.State) : State :=
  match Comm.calling c with
  | some (.udpWrite _ _ _ fr status nwritten _) => thrsrvCommUdpWriteCb { s with comm := c } fr status nwritten
  | _ => { s with comm := c }

/- The arguments of the program that a thread sees. -/
structure Args where
  bufsize : Int
  qdepth : Int
  connrate : Int
  deriving DecidableEq, Repr

-- comm_create, comm_udp_write_setup and the two timers. The comm has no close callback.
def thrcltNew (args : Args) (fd : Int) (cb cbdata : Nat) : State where
  r := ⟨args.bufsize,args.qdepth,args.connrate,0,0⟩
  comm := Comm.client (Comm.commCreate fd none 0) (.udpWriteSetup cb cbdata args.qdepth)
  evNewconn := true
  evStats := true
  cnt := none
  live := []
  fault := false
  reports := []

inductive Act where
  | newconn
  | round (fr : Option Nat)
  | stats
  | fire (e : CommFde) (sys : Sys)
  | resume (sys : Sys)
  deriving DecidableEq, Repr

def step (s : State) : Act → State
  | .newconn => thrcltEvNewconnCb { s with evNewconn := false }
  | .round fr => sendFrame s (s.cnt.getD 0) fr
  | .stats => thrcltEvStatPrint { s with evStats := false }
  | .fire e sys => enter s (Comm.step s.comm (.fire e sys))
  | .resume sys => enter s (Comm.step s.comm (.resume sys))

/- Between two callbacks of the event loop. -/
def Between (s : State) : Prop := s.cnt = none ∧ s.comm.ctl = .idle

instance (s) : Decidable (Between s) := inferInstanceAs (Decidable (_ ∧ _))

-- malloc() gives no address that is in use.
def Allowed (s : State) (a : Act) : Prop :=
  s.fault = false ∧
    match a with
    | .newconn => Between s ∧ s.evNewconn = true
    | .round fr => s.cnt.isSome = true ∧ ∀ id ∈ fr, id ∉ s.live
    | .stats => Between s ∧ s.evStats = true
    | .fire e _ => Between s ∧ s.comm.armed e = true
    | .resume _ => s.comm.ctl ≠ .idle

instance (s : State) : (a : Act) → Decidable (Allowed s a)
  | .newconn => inferInstanceAs (Decidable (s.fault = false ∧ Between s ∧ s.evNewconn = true))
  | .round fr => inferInstanceAs (Decidable (s.fault = false ∧ s.cnt.isSome = true ∧ ∀ id ∈ fr, id ∉ s.live))
  | .stats => inferInstanceAs (Decidable (s.fault = false ∧ Between s ∧ s.evStats = true))
  | .fire e _ => inferInstanceAs (Decidable (s.fault = false ∧ Between s ∧ s.comm.armed e = true))
  | .resume _ => inferInstanceAs (Decidable (s.fault = false ∧ s.comm.ctl ≠ .idle))

def cltMachine (args : Args) : Machine State Act := ⟨fun s => ∃ fd cb cbdata, s = thrcltNew args fd cb cbdata,Allowed,step⟩

instance (args s a) : Decidable ((cltMachine args).allowed s a) := inferInstanceAs (Decidable (Allowed s a))

theorem enterComm (s : State) (c : Comm.State) : (enter s c).comm = c := by
  unfold enter
  split
  · unfold thrsrvCommUdpWriteCb fdeCommUdpFree
    split <;> rfl
  · rfl

theorem sendFrameComm (s : State) (cnt : Int) (id : Nat) : (sendFrame s cnt (some id)).comm =
    Comm.client s.comm (.udpWrite ⟨id,s.r.maxIoSize,s.r.maxIoSize⟩) := by
  unfold sendFrame
  dsimp only
  split
  · unfold fdeCommUdpFree
    split <;> rfl
  · rfl

theorem enterCnt (s : State) (c : Comm.State) : (enter s c).cnt = s.cnt := by
  unfold enter
  split
  · unfold thrsrvCommUdpWriteCb fdeCommUdpFree
    split <;> rfl
  · rfl

theorem writeCtl (c : Comm.State) (fr : Frame) : (Comm.client c (.udpWrite fr)).ctl = c.ctl := by
  simp only [Comm.client,Comm.commCall,Comm.commUdpWrite]
  repeat' split
  all_goals rfl

/- The loop of thrclt_send_frames does not run inside a callback of the comm. -/
theorem reachApart {args s} (h : Reach (cltMachine args) s) : s.comm.ctl = .idle ∨ s.cnt = none := by
  induction h with
  | start initially =>
    obtain ⟨fd,cb,cbdata,rfl⟩ := initially
    exact Or.inr rfl
  | @next s a _ allowed ih =>
    obtain ⟨_,allowed⟩ := allowed
    cases a with
    | newconn => exact Or.inl allowed.1.2
    | stats => exact ih
    | round fr =>
      have idle : s.comm.ctl = .idle := by
        refine ih.resolve_right fun out => ?_
        rw [out] at allowed
        exact Comm.never allowed.1
      cases fr with
      | none => exact Or.inl idle
      | some id =>
        refine Or.inl ?_
        simp only [cltMachine,step,sendFrameComm]
        exact (writeCtl _ _).trans idle
    | fire e sys => exact Or.inr ((enterCnt _ _).trans allowed.1.1)
    | resume sys => exact Or.inr ((enterCnt _ _).trans (ih.resolve_left allowed))

/- What a program that only sends sees of its comm. -/
structure Sender (c : Comm.State) : Prop where
  opened : c.c.isClosing = false
  alive : c.freed = false
  active : c.c.udpW.isActive = true
  armed : ∀ e, c.armed e = true → e = .udpWrite
  place : c.ctl = .idle ∨ c.ctl = .udpSend

theorem Sender.switched {c : Comm.State} {on : Bool} (sender : Sender c) (e : CommFde)
    (armed : Function.update c.armed .udpWrite on e = true) : e = .udpWrite := by
  by_cases sends : e = .udpWrite
  · exact sends
  · rw [Function.update_of_ne sends] at armed
    exact sender.armed e armed

/- A round of the sendto() loop. -/
inductive Sent (c : Comm.State) : Comm.State → Prop where
  | empty (drained : c.c.udpW.wQ = []) : Sent c c
  | waits (left : c.c.udpW.wQ ≠ []) : Sent c (({ c with c.udpW.isPrimed := true } : Comm.State).add .udpWrite)
  | handed {fr rest status nwritten xerrno} (head : c.c.udpW.wQ = fr::rest)
      (whole : status = .completed → nwritten = fr.len) :
      Sent c (Comm.handFrame c fr rest status nwritten xerrno .udpSend)

theorem sendNext (c : Comm.State) (sys : Sys) : Sent c (Comm.commCbUdpWriteNext c sys) := by
  unfold Comm.commCbUdpWriteNext
  split
  · rename_i drained
    exact .empty drained
  · rename_i fr rest head
    split
    · split
      · exact .waits (by rw [head]; exact List.cons_ne_nil fr rest)
      · exact .handed head (fun done => absurd done (by decide))
    · refine .handed head fun done => ?_
      split at done
      · assumption
      · contradiction

theorem Sent.sender {c c'} (sent : Sent c c') (sender : Sender c) : Sender c' := by
  cases sent with
  | empty => exact sender
  | waits => exact { sender with armed := sender.switched }
  | handed => exact { sender with place := Or.inr rfl }

/- Only the write event is ever armed, and it is armed while it is primed. -/
theorem fireSent {c : Comm.State} {e sys} (reached : Reach commMachine c) (sender : Sender c) (idle : c.ctl = .idle)
    (armed : c.armed e = true) :
    Sent ({ Comm.fired c .udpWrite with c.udpW.isPrimed := false }) (Comm.step c (.fire e sys)) := by
  cases sender.armed e armed
  have primed : c.c.udpW.isPrimed = true :=
    ((Comm.reachPrimed reached).flag (by rw [idle]; exact Comm.notDraining rfl)).trans armed
  have closing : (Comm.fired c .udpWrite).c.isClosing = false := sender.opened
  have ready : (!(Comm.fired c .udpWrite).c.udpW.isActive || !(Comm.fired c .udpWrite).c.udpW.isPrimed) = false := by
    simp [Comm.fired,sender.active,primed]
  simp only [Comm.step,Comm.handle,Comm.commCbUdpWrite,Comm.commCbUdpWriteIo,closing,ready,Bool.false_eq_true,if_false]
  exact sendNext _ sys

theorem firedSender {c : Comm.State} (sender : Sender c) :
    Sender { Comm.fired c .udpWrite with c.udpW.isPrimed := false } :=
  { sender with armed := sender.switched }

theorem resumeSent {c : Comm.State} (sys : Sys) (sender : Sender c) (inside : c.ctl ≠ .idle) :
    Sent { c with ctl := .idle } (Comm.step c (.resume sys)) := by
  have place := sender.place.resolve_left inside
  simp only [Comm.step,place,Comm.goOn]
  exact sendNext _ sys

theorem returnedSender {c : Comm.State} (sender : Sender c) : Sender { c with ctl := .idle } :=
  { sender with place := Or.inl rfl }

theorem writeSender {c : Comm.State} (fr : Frame) (sender : Sender c) : Sender (Comm.client c (.udpWrite fr)) := by
  simp only [Comm.client,Comm.commCall,Comm.commUdpWrite]
  split
  · exact { sender with }
  · split
    · exact { sender with }
    · dsimp only
      split
      · exact { sender with armed := sender.switched }
      · exact { sender with }

theorem reachSender {args s} (h : Reach (cltMachine args) s) : Reach commMachine s.comm ∧ Sender s.comm := by
  induction h with
  | start initially =>
    obtain ⟨fd,cb,cbdata,rfl⟩ := initially
    have alive : commMachine.allowed (Comm.commCreate fd none 0) (.client (.udpWriteSetup cb cbdata args.qdepth)) := rfl
    have created : Reach commMachine (Comm.commCreate fd none 0) := .start ⟨fd,none,0,rfl⟩
    exact ⟨.next created alive,⟨rfl,rfl,rfl,fun _ => Comm.never,Or.inl rfl⟩⟩
  | @next s a _ allowed ih =>
    obtain ⟨reached,sender⟩ := ih
    obtain ⟨_,allowed⟩ := allowed
    cases a with
    | newconn => exact ⟨reached,sender⟩
    | stats => exact ⟨reached,sender⟩
    | round fr =>
      cases fr with
      | none => exact ⟨reached,sender⟩
      | some id =>
        have possible : commMachine.allowed s.comm (.client (.udpWrite ⟨id,s.r.maxIoSize,s.r.maxIoSize⟩)) := sender.alive
        simp only [cltMachine,step,sendFrameComm]
        exact ⟨.next reached possible,writeSender _ sender⟩
    | fire e sys =>
      obtain ⟨⟨_,idle⟩,armed⟩ := allowed
      have possible : commMachine.allowed s.comm (.fire e sys) := ⟨idle,armed⟩
      simp only [cltMachine,step,enterComm]
      exact ⟨.next reached possible,(fireSent reached sender idle armed).sender (firedSender sender)⟩
    | resume sys =>
      have possible : commMachine.allowed s.comm (.resume sys) := allowed
      simp only [cltMachine,step,enterComm]
      exact ⟨.next reached possible,(resumeSent sys sender allowed).sender (returnedSender sender)⟩

end Libiapp.UdpClt
