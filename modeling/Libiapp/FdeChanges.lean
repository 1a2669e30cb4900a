import Libiapp.Kernel

/-! The pending change buffer. Two consumers empty it, fde_kq_flush and fde_rw_runloop; each
hands the first pending.n entries to kevent() and forgets them, whatever kevent() says. A
kqueue that also records the change lists it is given shows that nothing is lost, repeated
or reordered on the way. -/
namespace Libiapp.Event
open Kqueue Runs

structure Recorded (κ : Type) where
  kq : κ
  handed : List (List Kevent)

instance {κ} [Kq κ] : Kq (Recorded κ) where
  submit r changes := ⟨Kq.submit r.kq changes,r.handed ++ [changes]⟩
  Waits r changes r' events := r'.handed = r.handed ++ [changes] ∧ Kq.Waits r.kq changes r'.kq events

def FdeHead.sent {κ} (fh : FdeHead (Recorded κ)) : List Kevent := fh.kqfd.handed.flatten ++ fh.pending.changes

theorem pushSent {κ} [Kq κ] {fh : FdeHead (Recorded κ)} (k) : (fdeKqPush fh k).sent = fh.sent ++ [k] := by
  unfold FdeHead.sent
  by_cases room : fh.pending.n < fdeHeadMaxevents - 1
  · obtain ⟨changes,_,kq⟩ := pushRoom k room
    rw [changes,kq,List.append_assoc]
  · obtain ⟨changes,_,kq⟩ := pushFull k (Nat.not_lt.mp room)
    rw [changes,kq]
    simp [Kq.submit]

/- The two parts of an fde_head that a push can change. -/
def FdeHead.buffer {κ} (fh : FdeHead κ) : κ × Pending := (fh.kqfd,fh.pending)

/- The changes that one operation gives to fde_kq_push. -/
def opPushes {κ} (fh : FdeHead κ) : Op → List Kevent
  | .add f =>
    match fh.fdes f with
    | none => []
    | some e => if e.fType.io && !e.isActive then [addedKev e] else []
  | .delete f | .free f =>
    match fh.fdes f with
    | none => []
    | some e => if e.fType.io && e.isActive then [deletedKev e] else []
  | _ => []

def pushAll {κ} [Kq κ] (fh : FdeHead κ) (changes : List Kevent) : FdeHead κ := changes.foldl fdeKqPush fh

theorem kevAddBuffer {κ} [Kq κ] (fh : FdeHead κ) (f e) :
    (fdeKevAdd fh f e).buffer = (pushAll fh (if !e.isActive then [addedKev e] else [])).buffer := by
  unfold fdeKevAdd
  cases e.isActive <;> rfl

theorem kevDeleteBuffer {κ} [Kq κ] (fh : FdeHead κ) (f e) :
    (fdeKevDelete fh f e).buffer = (pushAll fh (if e.isActive then [deletedKev e] else [])).buffer := by
  unfold fdeKevDelete
  cases e.isActive <;> rfl

theorem addBuffer {κ} [Kq κ] (fh : FdeHead κ) (f) :
    (fdeAdd fh f).buffer = (pushAll fh (opPushes fh (.add f))).buffer := by
  simp only [fdeAdd,opPushes]
  cases fh.fdes f with
  | none => rfl
  | some e =>
    dsimp only
    cases e.fType with
    | read | write | user => exact kevAddBuffer fh f e
    | callback => simp only [fdeCbAdd]; cases e.isActive <;> rfl
    | _ => rfl

theorem deleteBuffer {κ} [Kq κ] (fh : FdeHead κ) (f) :
    (fdeDelete fh f).buffer = (pushAll fh (opPushes fh (.delete f))).buffer := by
  simp only [fdeDelete,opPushes]
  cases fh.fdes f with
  | none => rfl
  | some e =>
    dsimp only
    cases e.fType with
    | read | write | user => exact kevDeleteBuffer fh f e
    | callback => simp only [fdeCbDelete]; cases e.isActive <;> rfl
    | timer => simp only [fdeTDelete]; cases e.isActive <;> rfl
    | _ => rfl

theorem freeBuffer {κ} [Kq κ] (fh : FdeHead κ) (f) :
    (fdeFree fh f).buffer = (pushAll fh (opPushes fh (.free f))).buffer := by
  have deleted := deleteBuffer fh f
  simp only [fdeFree,opPushes] at deleted ⊢
  cases found : fh.fdes f with
  | none => rfl
  | some e =>
    rw [found] at deleted
    cases active : e.isActive with
    | true =>
      simp only [active,if_true] at deleted ⊢
      exact deleted
    | false =>
      simp only [active,Bool.and_false]
      rfl

theorem opBuffer {κ} [Kq κ] (fh : FdeHead κ) (o : Op) :
    (applyOp fh o).buffer = (pushAll fh (opPushes fh o)).buffer := by
  cases o with
  | create f fd t fl cb cbdata =>
    simp only [applyOp,fdeCreate]
    cases fdeEvSet f ⟨fd,zeroKevent,t,fl,cb,false,⟨0,0⟩,cbdata,0⟩ <;> rfl
  | add f => exact addBuffer fh f
  | addTimeout f tv =>
    simp only [applyOp,fdeAddTimeout]
    cases fh.fdes f with
    | none => rfl
    | some e => cases active : e.isActive <;> simp only [active] <;> rfl
  | delete f => exact deleteBuffer fh f
  | free f => exact freeBuffer fh f

theorem rwEventBuffer {κ} (fh : FdeHead κ) (k) : (fdeRwEvent fh k).1.buffer = fh.buffer := by
  rcases rwEventSource fh k with same | ⟨f,e,_,_,_,_,after⟩
  · rw [same]
  · rw [after]; rfl

/- The callback and the timer loop take an fde off its list with fde_delete. -/
def takenPushes {κ} (fh : FdeHead κ) : Option (FdeId × FdeHead κ) → List Kevent
  | none => []
  | some (f,_) => opPushes fh (.delete f)

def actPushes {κ} [Kq κ] (s : State κ) : Act κ → List Kevent
  | .op o => opPushes s.head o
  | .cbRunloop => takenPushes s.head (fdeCbNext s.head.fCbGenid { s.head with fCbGenid := s.head.fCbGenid + 1 })
  | .tRunloop now => takenPushes s.head (fdeTNext now s.head)
  | .rwRunloop .. => []
  | .ret =>
    match s.ctl with
    | .cbLoop curGenid => takenPushes s.head (fdeCbNext curGenid s.head)
    | .tLoop now => takenPushes s.head (fdeTNext now s.head)
    | .outside | .rwLoop _ => []

theorem afterCbBuffer {κ} [Kq κ] (fh : FdeHead κ) (cur log) :
    (afterCb cur fh log).head.buffer = (pushAll fh (takenPushes fh (fdeCbNext cur fh))).buffer := by
  unfold afterCb
  split
  · rename_i next
    rw [next]; rfl
  · rename_i f fh' next
    rw [next]
    obtain ⟨_,_,_,_,_,rfl⟩ := cbNextSource next
    exact deleteBuffer fh f

theorem afterTBuffer {κ} [Kq κ] (fh : FdeHead κ) (now log) :
    (afterT now fh log).head.buffer = (pushAll fh (takenPushes fh (fdeTNext now fh))).buffer := by
  unfold afterT
  split
  · rename_i next
    rw [next]; rfl
  · rename_i f fh' next
    rw [next]
    obtain ⟨_,_,_,_,_,rfl⟩ := tNextSource next
    exact deleteBuffer fh f

theorem afterRwBuffer {κ} (events) (fh : FdeHead κ) (log) : (afterRw events fh log).head.buffer = fh.buffer := by
  have event (fh' : FdeHead κ) (k) (same : fh'.buffer = fh.buffer) : (fdeRwEvent fh' k).1.buffer = fh.buffer :=
    (rwEventBuffer fh' k).trans same
  exact afterRwKept (p := fun fh' => fh'.buffer = fh.buffer) (rwNextKept event events rfl) log

/- `sent` grows by what is pushed, and there is always room for one more change. -/
structure Grows {κ} (fh fh' : FdeHead (Recorded κ)) (changes : List Kevent) : Prop where
  sent : fh'.sent = fh.sent ++ changes
  bound : fh'.pending.n < fdeHeadMaxevents

theorem pushAllGrows {κ} [Kq κ] {fh : FdeHead (Recorded κ)} (changes) (bound : fh.pending.n < fdeHeadMaxevents) :
    Grows fh (pushAll fh changes) changes := by
  induction changes generalizing fh with
  | nil => exact ⟨by simp [pushAll],bound⟩
  | cons k rest ih =>
    have later := ih (pushBound k bound)
    refine ⟨?_,later.bound⟩
    rw [pushAll,List.foldl_cons,← pushAll,later.sent,pushSent,List.append_assoc]
    rfl

theorem bufferGrows {κ} [Kq κ] {fh fh' : FdeHead (Recorded κ)} {changes} (bound : fh.pending.n < fdeHeadMaxevents)
    (same : fh'.buffer = (pushAll fh changes).buffer) : Grows fh fh' changes := by
  have grows := pushAllGrows changes bound
  obtain ⟨kqfd,pending⟩ := Prod.mk.inj same
  exact ⟨by rw [← grows.sent]; unfold FdeHead.sent; rw [kqfd,pending],by rw [pending]; exact grows.bound⟩

/- kevent() has been given the buffer, and the events it returned are handled. -/
theorem rwRunloopGrows {κ} [Kq κ] {s : State (Recorded κ)} {kqfd events}
    (waits : Kq.Waits s.head.kqfd s.head.pending.changes kqfd events) :
    Grows s.head (step s (.rwRunloop kqfd events)).head [] := by
  have same := afterRwBuffer events { s.head with kqfd := kqfd, pending := { s.head.pending with n := 0 } } s.log
  obtain ⟨kq,pending⟩ := Prod.mk.inj same
  dsimp only at kq pending
  constructor
  · simp only [FdeHead.sent,step]
    rw [kq,pending,waits.1]
    simp [Pending.changes]
  · simp only [step]
    rw [pending]
    exact Nat.zero_lt_succ 127

theorem stepGrows {κ} [Kq κ] {s : State (Recorded κ)} {a} (bound : s.head.pending.n < fdeHeadMaxevents)
    (waits : ∀ kqfd events, a = .rwRunloop kqfd events → Kq.Waits s.head.kqfd s.head.pending.changes kqfd events) :
    Grows s.head (step s a).head (actPushes s a) := by
  have still : Grows s.head s.head [] := ⟨by simp,bound⟩
  cases a with
  | op o => exact bufferGrows bound (opBuffer s.head o)
  | cbRunloop =>
    have after := afterCbBuffer { s.head with fCbGenid := s.head.fCbGenid + 1 } s.head.fCbGenid s.log
    have grows : Grows { s.head with fCbGenid := s.head.fCbGenid + 1 } _ _ := bufferGrows bound after
    have pushes (next) : takenPushes { s.head with fCbGenid := s.head.fCbGenid + 1 } next = takenPushes s.head next := by
      cases next <;> rfl
    rw [pushes] at grows
    exact ⟨grows.sent,grows.bound⟩
  | tRunloop now => exact bufferGrows bound (afterTBuffer s.head now s.log)
  | rwRunloop kqfd events => exact rwRunloopGrows (waits kqfd events rfl)
  | ret =>
    simp only [step,actPushes]
    cases s.ctl with
    | outside => exact still
    | cbLoop cur => exact bufferGrows bound (afterCbBuffer s.head cur s.log)
    | tLoop now => exact bufferGrows bound (afterTBuffer s.head now s.log)
    | rwLoop rest =>
      have same := afterRwBuffer rest s.head s.log
      exact bufferGrows bound same

/- Any calls of fde_kq_push between the steps of the loops and the operations. Nothing is
asked of them, nor of the events that kevent() returns. -/
structure Changes (κ : Type) where
  state : State (Recorded κ)
  pushed : List Kevent

inductive Change (κ : Type) where
  | push (k : Kevent)
  | act (a : Act (Recorded κ))

def changeStep {κ} [Kq κ] (s : Changes κ) : Change κ → Changes κ
  | .push k => ⟨{ s.state with head := fdeKqPush s.state.head k },s.pushed ++ [k]⟩
  | .act a => ⟨step s.state a,s.pushed ++ actPushes s.state a⟩

def ChangeAllowed {κ} [Kq κ] (s : Changes κ) : Change κ → Prop
  | .act (.rwRunloop kqfd events) => Kq.Waits s.state.head.kqfd s.state.head.pending.changes kqfd events
  | _ => True

def changeMachine (κ : Type) [Kq κ] : Machine (Changes κ) (Change κ) :=
  ⟨fun s => ∃ kq, s = ⟨initial ⟨kq,[]⟩,[]⟩,ChangeAllowed,changeStep⟩

structure Kept {κ} (s : Changes κ) : Prop where
  sent : s.state.head.sent = s.pushed
  bound : s.state.head.pending.n < fdeHeadMaxevents

theorem changeStepKept {κ} [Kq κ] {s : Changes κ} {a} (kept : Kept s) (ok : ChangeAllowed s a) : Kept (changeStep s a) := by
  cases a with
  | push k => exact ⟨by rw [changeStep,pushSent,kept.sent],pushBound k kept.bound⟩
  | act a =>
    have grows : Grows s.state.head (step s.state a).head (actPushes s.state a) := by
      refine stepGrows kept.bound ?_
      rintro kqfd events rfl
      exact ok
    exact ⟨by rw [changeStep,grows.sent,kept.sent],grows.bound⟩

/- The index of the next write is the counter that fde_kq_flush leaves. -/
theorem flushRoom {κ} [Kq κ] (fh : FdeHead κ) : (fdeKqFlush fh).pending.n < fdeHeadMaxevents - 1 := by
  unfold fdeKqFlush
  split
  · assumption
  · exact Nat.zero_lt_succ 126

theorem bufferExact {κ} [Kq κ] {s : Changes κ} (reached : Reach (changeMachine κ) s) :
    (fdeKqFlush s.state.head).pending.n < fdeHeadMaxevents ∧
    s.state.head.pending.n ≤ fdeHeadMaxevents - 1 ∧
    s.state.head.kqfd.handed.flatten ++ s.state.head.pending.changes = s.pushed := by
  have kept : Kept s := by
    refine reachInvariant (m := changeMachine κ) ?_ (fun _ _ kept ok => changeStepKept kept ok) reached
    rintro _ ⟨kq,rfl⟩
    exact ⟨rfl,Nat.zero_lt_succ 127⟩
  have room := flushRoom s.state.head
  have bound := kept.bound
  exact ⟨by omega,by omega,kept.sent⟩

/- Two pushes, a kevent() that fails, and one more push. -/
def pushRun (a b c : Kevent) : List (Change Unit) :=
  [.push a,.push b,.act (.rwRunloop ⟨(),[[a,b]]⟩ []),.push c]

set_option maxRecDepth 8000 in
theorem bufferExactPushes : ∃ s, Reach (changeMachine Unit) s ∧ s.pushed = [zeroKevent,zeroKevent,zeroKevent] ∧
    s.state.head.kqfd.handed.flatten ++ s.state.head.pending.changes = [zeroKevent,zeroKevent,zeroKevent] := by
  have reached : Reach (changeMachine Unit) (run (changeMachine Unit) ⟨initial ⟨(),[]⟩,[]⟩
      (pushRun zeroKevent zeroKevent zeroKevent)) :=
    reachRun (.start ⟨(),rfl⟩) ⟨trivial,trivial,⟨by decide,trivial⟩,trivial,trivial⟩
  exact ⟨_,reached,rfl,(bufferExact reached).2.2⟩

end Libiapp.Event
