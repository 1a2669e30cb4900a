import Libiapp.KernelRegister

/-! Runs of fde_add, fde_delete and fde_rw_runloop over the kernel: user space and
kernel agree between the batches as long as each returned one-shot event finds
its fde still active when its turn comes. -/
namespace Libiapp.Event
open Kqueue Runs

def TurnMet (fh : FdeHead Kernel) (k : Kevent) : Prop :=
  ∀ f ∈ k.udata, ∀ e ∈ fh.fdes f, e.persist = false → e.isActive = true

/- The entries that the loop handles before it calls the next callback. -/
def TurnsMet : List Kevent → FdeHead Kernel → Prop
  | [],_ => True
  | k::rest,fh => TurnMet fh k ∧ ((fdeRwEvent fh k).2 = none → TurnsMet rest (fdeRwEvent fh k).1)

theorem owedCons {k rest f} {e : Fde} (other : k.udata = some f → e.persist = true) :
    owed (k::rest) f e = owed rest f e := by
  unfold owed
  by_cases named : k.udata = some f
  · simp [other named]
  · have apart : (k.udata == some f) = false := by simpa using named
    simp [apart]

/- An entry that needs no change of the fde. -/
theorem skipRegistered {fh : FdeHead Kernel} {k rest} (reg : Registered fh (k::rest))
    (plain : ∀ f e, k.udata = some f → fh.fdes f = some e → e.persist = true) : Registered fh rest := by
  have same {f e} (found : fh.fdes f = some e) : owed (k::rest) f e = owed rest f e :=
    owedCons (fun named => plain f e named found)
  refine ⟨reg.opened,reg.bound,reg.adds,reg.flags,reg.distinct,reg.known,?_,?_,
    fun k' mem => reg.waiting k' (List.mem_cons_of_mem _ mem),(List.pairwise_cons.mp reg.once).2⟩
  · intro f e found
    rw [← same found]
    exact reg.state f e found
  · intro f e found wait off
    rw [← same found] at wait
    exact reg.deleted f e found wait off

theorem firedRegistered {fh : FdeHead Kernel} {k rest f e} (reg : Registered fh (k::rest)) (named : k.udata = some f)
    (found : fh.fdes f = some e) (on : e.isActive = true) (oneshot : e.persist = false) :
    Registered { fh.put f { e with isActive := false } with fHead := fh.fHead.erase f } rest := by
  have lookup {g x} (h : (fh.put f { e with isActive := false }).fdes g = some x) :
      (g = f ∧ x = { e with isActive := false }) ∨ (g ≠ f ∧ fh.fdes g = some x) := lookupUpdate rfl h
  have flags := reg.flags f e found
  have stored : (fh.put f { e with isActive := false }).fdes f = some { e with isActive := false } := by
    simp [FdeHead.put]
  have others {g x} (other : g ≠ f) : owed (k::rest) g x = owed rest g x := by
    refine owedCons (fun named' => absurd ?_ other)
    rw [named] at named'
    exact (Option.some.inj named').symm
  have handled : owed rest f { e with isActive := false } = false :=
    unowed fun later mem => (List.pairwise_cons.mp reg.once).1 later mem f e named found oneshot
  have keptIf {g x} (h : fh.fdes g = some x) : ∃ y, (fh.put f { e with isActive := false }).fdes g = some y ∧
      y.key = x.key := by
    by_cases same : g = f
    · subst g
      cases Option.some.inj (found.symm.trans h)
      exact ⟨_,stored,rfl⟩
    · exact ⟨x,by simpa [FdeHead.put,same] using h,rfl⟩
  constructor
  case opened => exact reg.opened
  case bound => exact reg.bound
  case adds => exact reg.adds
  case flags =>
    intro g x h
    rcases lookup h with ⟨rfl,rfl⟩ | ⟨_,old⟩
    · exact ⟨flags.io,flags.udata,flags.oneshot,by simp⟩
    · exact reg.flags g x old
  case distinct =>
    refine updatedDistinct reg.distinct rfl fun g x other old same => ?_
    exact other (reg.distinct g f x e old found same)
  case known =>
    intro key r listed
    obtain ⟨g,x,h,rfl⟩ := reg.known key r listed
    obtain ⟨y,stored',same⟩ := keptIf h
    exact ⟨g,y,stored',same⟩
  case state =>
    intro g x h
    rcases lookup h with ⟨rfl,rfl⟩ | ⟨other,old⟩
    · have before : fh.settled.reg e.key = none := by
        simpa [on,owed,oneshot,named] using reg.state g e found
      rw [handled]
      exact before
    · rw [← others other]
      exact reg.state g x old
  case deleted =>
    intro g x h wait off
    rcases lookup h with ⟨rfl,rfl⟩ | ⟨other,old⟩
    · rw [handled] at wait; contradiction
    · rw [← others other] at wait
      exact reg.deleted g x old wait off
  case waiting =>
    intro k' mem
    obtain ⟨clean,g,x,named',h⟩ := reg.waiting k' (List.mem_cons_of_mem _ mem)
    obtain ⟨y,stored',_⟩ := keptIf h
    exact ⟨clean,g,y,named',stored'⟩
  case once =>
    refine (List.pairwise_cons.mp reg.once).2.imp ?_
    intro k' later apart g x named' h oneshot'
    rcases lookup h with ⟨rfl,rfl⟩ | ⟨_,old⟩
    · exact apart g e named' found oneshot
    · exact apart g x named' old oneshot'

theorem rwEventRegistered {fh : FdeHead Kernel} {k rest} (reg : Registered fh (k::rest)) (met : TurnMet fh k) :
    Registered (fdeRwEvent fh k).1 rest := by
  obtain ⟨clean,f,e,named,found⟩ := reg.waiting k List.mem_cons_self
  have noSkip : skipError k = false := by simp [skipError,clean]
  unfold fdeRwEvent
  simp only [named,noSkip,Bool.false_eq_true,if_false,found]
  have plain (persist : e.persist = true) : ∀ g x, k.udata = some g → fh.fdes g = some x → x.persist = true := by
    intro g x named' found'
    rw [named] at named'
    cases named'
    cases Option.some.inj (found.symm.trans found')
    exact persist
  cases persist : e.persist with
  | true =>
    have skipped := skipRegistered reg (plain persist)
    cases e.isActive <;> exact skipped
  | false =>
    have on : e.isActive = true := met f named e found persist
    simpa [on] using firedRegistered reg named found on persist

def Ctl.rest : Ctl → List Kevent
  | .rwLoop rest => rest
  | _ => []

theorem afterRwRegistered {fh : FdeHead Kernel} {events} (reg : Registered fh events) (met : TurnsMet events fh) (log) :
    Registered (afterRw events fh log).head (afterRw events fh log).ctl.rest := by
  induction events generalizing fh with
  | nil => exact reg
  | cons k rest ih =>
    have after := rwEventRegistered reg met.1
    have later := met.2
    unfold afterRw fdeRwNext
    cases called : fdeRwEvent fh k with
    | mk fh' who =>
      rw [called] at after later
      cases who with
      | none => exact ih after (later rfl)
      | some f => exact after

/- No callback runs between the kevent() call and the first turns. -/
theorem turnsFresh {fh : FdeHead Kernel} {events} (reg : Registered fh events)
    (active : ∀ k ∈ events, ∀ f e, k.udata = some f → fh.fdes f = some e → e.isActive = true) :
    TurnsMet events fh := by
  induction events generalizing fh with
  | nil => trivial
  | cons k rest ih =>
    have met : TurnMet fh k := fun f named e found _ => active k List.mem_cons_self f e named found
    refine ⟨met,fun _ => ih (rwEventRegistered reg met) ?_⟩
    intro k' mem f e named found
    rcases rwEventSource fh k with same | ⟨g,x,⟨namedG,_⟩,foundG,_,oneshot,after⟩
    · rw [same] at found
      exact active k' (List.mem_cons_of_mem _ mem) f e named found
    · have apart := (List.pairwise_cons.mp reg.once).1 k' mem g x namedG foundG oneshot
      have other : f ≠ g := by rintro rfl; exact apart named
      rw [after] at found
      refine active k' (List.mem_cons_of_mem _ mem) f e named ?_
      simpa [FdeHead.put,other] using found

/- The operations on I/O fdes. A new fde has an (ident, filter) of its own. -/
def IoOps (s : State Kernel) : Act Kernel → Prop
  | .op (.create f fd t ..) => t.io = true ∧ ∀ g e, s.head.fdes g = some e → e.key ≠ createdKey f fd t
  | .op (.add _) | .op (.delete _) | .rwRunloop .. | .ret => True
  | _ => False

def freshKernel : Kernel := ⟨fun _ => false,fun _ => none⟩

def ioMachine : Machine (State Kernel) (Act Kernel) :=
  ⟨fun s => s = initial freshKernel,fun s a => Allowed s a ∧ IoOps s a,step⟩

/- Each one-shot event of the batch whose turn comes finds its fde active: no
callback has left deleted an fde whose event was still to be handled. -/
def TurnsKept (s : State Kernel) : Act Kernel → Prop
  | .ret => TurnsMet s.ctl.rest s.head
  | _ => True

structure Agrees (s : State Kernel) : Prop where
  registered : Registered s.head s.ctl.rest
  place : s.ctl = .outside ∨ ∃ rest, s.ctl = .rwLoop rest

theorem afterRwPlace {κ} (events) (fh : FdeHead κ) (log) : (afterRw events fh log).ctl = .outside ∨
    ∃ rest, (afterRw events fh log).ctl = .rwLoop rest := by
  unfold afterRw
  split
  · exact Or.inl rfl
  · exact Or.inr ⟨_,rfl⟩

theorem stepAgrees {s : State Kernel} {a} (agrees : Agrees s) (ok : Allowed s a) (io : IoOps s a)
    (kept : TurnsKept s a) : Agrees (step s a) := by
  have reg := agrees.registered
  cases a with
  | op o =>
    refine ⟨?_,agrees.place⟩
    cases o with
    | create f fd t fl cb cbdata =>
      simp only [step,applyOp]
      cases made : fdeCreate s.head f fd t fl cb cbdata with
      | none => exact reg
      | some fh' => exact createRegistered reg io.1 ok io.2 made
    | add f => exact addRegistered reg f
    | delete f => exact deleteRegistered reg f
    | addTimeout f tv => exact io.elim
    | free f => exact io.elim
  | cbRunloop => exact io.elim
  | tRunloop now => exact io.elim
  | rwRunloop kqfd events =>
    have outside : s.ctl.rest = [] := by rw [ok.1]; rfl
    rw [outside] at reg
    obtain ⟨waited,active⟩ := waitRegistered reg ok.2.2.2
    exact ⟨afterRwRegistered waited (turnsFresh waited active) s.log,afterRwPlace _ _ _⟩
  | ret =>
    rcases agrees.place with outside | ⟨rest,inRw⟩
    · exact absurd outside ok
    · have met : TurnsMet rest s.head := by simpa only [TurnsKept,inRw,Ctl.rest] using kept
      rw [inRw] at reg
      simp only [step,inRw]
      exact ⟨afterRwRegistered reg met s.log,afterRwPlace _ _ _⟩

theorem initialAgrees : Agrees (initial freshKernel) := by
  refine ⟨?_,Or.inl rfl⟩
  constructor
  case opened => intro d; rfl
  case bound => exact Nat.succ_pos 127
  case adds => simp [initial,fdeCtxNew,Pending.changes]
  case known => simp [initial,fdeCtxNew,FdeHead.settled,Pending.changes,Batch.each,freshKernel]
  case waiting => simp [initial,Ctl.rest]
  case once => exact List.Pairwise.nil
  all_goals simp [initial,fdeCtxNew]

theorem registrationsAgree {s : State Kernel} (reached : Reach (ioMachine.guard TurnsKept) s)
    (between : s.ctl = .outside) (key r) : s.head.settled.reg key = some r ↔
      ∃ f e, s.head.fdes f = some e ∧ e.isActive = true ∧ e.key = key ∧ r = e.reg f := by
  have agrees : Agrees s := by
    refine reachInvariant (m := ioMachine.guard TurnsKept) ?_ ?_ reached
    · rintro _ rfl
      exact initialAgrees
    · intro s a agrees ok
      exact stepAgrees agrees ok.1.1 ok.1.2 ok.2
  have reg := agrees.registered
  rw [between] at reg
  constructor
  · exact registeredOwned reg key r
  · rintro ⟨f,e,found,on,rfl,rfl⟩
    have state := reg.state f e found
    simpa [on,owed,Ctl.rest] using state

/- Two one-shot read fdes on the descriptors 7 and 8, both reported ready. -/
def readsReady : List Kevent := [⟨7,.read,0#16,0#32,0,some 1⟩,⟨8,.read,0#16,0#32,0,some 2⟩]

def twoReads : List (Act Kernel) :=
  [.op (.create 1 7 .read 0 (some 0) 0),.op (.create 2 8 .read 0 (some 0) 0),.op (.add 1),.op (.add 2)]

def readsKernel : Kernel :=
  ((run ioMachine (initial freshKernel) twoReads).head.settled.take readsReady).getD freshKernel

set_option maxRecDepth 8000 in
theorem twoReadsPossible {actions}
    (later : Possible ioMachine
      (run ioMachine (initial freshKernel) (twoReads ++ [.rwRunloop readsKernel readsReady])) actions) :
    Possible ioMachine (initial freshKernel) (twoReads ++ .rwRunloop readsKernel readsReady::actions) := by
  refine ⟨⟨rfl,rfl,?_⟩,⟨rfl,rfl,?_⟩,⟨rfl,trivial⟩,⟨rfl,trivial⟩,
    ⟨⟨rfl,by decide,by decide,readsReady,?_,?_⟩,trivial⟩,later⟩
  · intro g e found
    simp [initial,fdeCtxNew] at found
  · intro g e found
    by_cases same : g = 1
    · subst g
      cases Option.some.inj found
      decide
    · have : (initial freshKernel).head.fdes g = some e := by
        simpa [ioMachine,step,applyOp,fdeCreate,fdeEvSet,FdeHead.put,same] using found
      simp [initial,fdeCtxNew] at this
  · rfl
  · rfl

/- The first callback deletes and re-adds the second fde, whose turn then comes; its
callback re-adds the first. -/
def readdRun : List (Act Kernel) :=
  twoReads ++ .rwRunloop readsKernel readsReady::[.op (.delete 2),.op (.add 2),.ret,.op (.add 1),.ret]

set_option maxRecDepth 8000 in
theorem registrationsAgreeRun :
    (run ioMachine (initial freshKernel) readdRun).head.settled.reg (7,.read) = some ⟨true,some 1⟩ := by
  have possible : Possible ioMachine (initial freshKernel) readdRun :=
    twoReadsPossible ⟨⟨rfl,trivial⟩,⟨rfl,trivial⟩,⟨Ctl.noConfusion,trivial⟩,⟨rfl,trivial⟩,
      ⟨Ctl.noConfusion,trivial⟩,trivial⟩
  have turn : Each ioMachine TurnsKept (initial freshKernel) readdRun := by
    refine ⟨trivial,trivial,trivial,trivial,trivial,trivial,trivial,⟨?_,?_⟩,trivial,trivial,trivial⟩
    · intro f named e found _
      cases Option.some.inj named
      cases Option.some.inj found
      rfl
    · intro none
      contradiction
  have reached : Reach (ioMachine.guard TurnsKept) (run ioMachine (initial freshKernel) readdRun) :=
    reachRun (.start rfl) (possibleGuard possible turn)
  exact (registrationsAgree reached rfl (7,.read) ⟨true,some 1⟩).mpr ⟨1,_,rfl,rfl,rfl,rfl⟩

/- The first callback deletes the second fde for good. The kernel had dropped its
registration with the event, so the change EV_ADD | EV_DELETE makes a new one. -/
def staleRun : List (Act Kernel) := twoReads ++ .rwRunloop readsKernel readsReady::[.op (.delete 2),.ret]

set_option maxRecDepth 8000 in
theorem staleRegistration :
    let s := run ioMachine (initial freshKernel) staleRun
    Reach ioMachine s ∧ s.ctl = .outside ∧ s.head.active 2 = false ∧
      s.head.settled.reg (8,.read) = some ⟨true,some 2⟩ := by
  have possible : Possible ioMachine (initial freshKernel) staleRun :=
    twoReadsPossible ⟨⟨rfl,trivial⟩,⟨Ctl.noConfusion,trivial⟩,trivial⟩
  exact ⟨reachRun (.start rfl) possible,by decide,by decide,by decide⟩

end Libiapp.Event
