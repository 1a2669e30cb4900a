import Libiapp.CommFdes
import Libiapp.CommPrimed
import Libiapp.CommSilence
import Libiapp.FdeOrder
import Mathlib.Data.List.Nodup

/-! Any number of comms on one fde_head. Here the two layers run together: the event loop
dispatches an fde of a comm, the handler of the comm calls fde_add and fde_delete, and
other code uses the same fde_head. In each step the calls of a comm are given in any order
that switches its fdes as its model says. Every run of the whole is a run of the event
layer and, for each comm, a run of the comm machine. -/
namespace Libiapp.Comm
open Runs Kqueue
open Libiapp.Event (FdeId FdeHead Op fdeMachine)

/- A comm and the fdes that comm_create made for it. -/
structure Linked where
  ids : CommFde → FdeId
  comm : State

structure System (κ : Type) where
  ev : Event.State κ
  comms : List Linked

def switchOp (ids : CommFde → FdeId) (o : CommFde × Bool) : Op := if o.2 then .add (ids o.1) else .delete (ids o.1)

def switched (armed : CommFde → Bool) (ops : List (CommFde × Bool)) : CommFde → Bool :=
  ops.foldl (fun armed o => Function.update armed o.1 o.2) armed

def createOp (ids : CommFde → FdeId) (fd : Int) (cb : CommFde → Nat) (cbdata : Nat) (e : CommFde) : Op :=
  .create (ids e) (e.ident fd) e.fType e.fFlags (some (cb e)) cbdata

def freeOp (ids : CommFde → FdeId) (e : CommFde) : Op := .free (ids e)

-- comm_cb_cleanup frees its fdes in this order.
def cleanupFdes : List CommFde :=
  [.read,.readCb,.write,.writeCb,.accept,.connect,.connectStart,.cleanup,.udpRead,.udpWrite]

variable {κ : Type} [Kq κ]

def calls (ev : Event.State κ) (ops : List Op) : Event.State κ := run (fdeMachine κ) ev (ops.map .op)

def moveOps (ids : CommFde → FdeId) (after : State) (ops : List (CommFde × Bool)) : List Op :=
  if after.freed then cleanupFdes.map (freeOp ids) else ops.map (switchOp ids)

/- The comm at `i` takes a step, and its code makes its calls of fde.c. -/
def System.move (s : System κ) (i : Nat) (c : Linked) (a : Act) (ops : List (CommFde × Bool)) : System κ :=
  let after := step c.comm a
  ⟨calls s.ev (moveOps c.ids after ops),s.comms.set i { c with comm := after }⟩

inductive SysAct (κ : Type) where
  | event (a : Event.Act κ)
  | dispatch (a : Event.Act κ) (i : Nat) (e : CommFde) (sys : Sys) (ops : List (CommFde × Bool))
  | create (ids : CommFde → FdeId) (fd : Int) (cb : CommFde → Nat) (cbdata : Nat) (close : Option Nat) (closeData : Nat)
  | call (i : Nat) (call : Call) (ops : List (CommFde × Bool))
  | resume (i : Nat) (sys : Sys) (ops : List (CommFde × Bool))

def sysStep (s : System κ) : SysAct κ → System κ
  | .event a => { s with ev := Event.step s.ev a }
  | .dispatch a i e sys ops =>
    let s := { s with ev := Event.step s.ev a }
    match s.comms[i]? with
    | none => s
    | some c => s.move i c (.fire e sys) ops
  | .create ids fd cb cbdata close closeData =>
    ⟨calls s.ev (commFdes.map (createOp ids fd cb cbdata)),s.comms ++ [⟨ids,commCreate fd close closeData⟩]⟩
  | .call i call ops =>
    match s.comms[i]? with
    | none => s
    | some c => s.move i c (.client call) ops
  | .resume i sys ops =>
    match s.comms[i]? with
    | none => s
    | some c => s.move i c (.resume sys) ops

def target {κ} : Event.Act κ → Option FdeId
  | .op o => some o.target
  | _ => none

/- The last step of the event layer was the dispatch of an fde of this comm. -/
def Dispatches (s : System κ) (a : Event.Act κ) (c : Linked) (e : CommFde) : Prop :=
  (Event.step s.ev a).log = s.ev.log ++ [.dispatched (c.ids e)]

instance (s : System κ) (a c e) : Decidable (Dispatches s a c e) := inferInstanceAs (Decidable (_ = _))

def Realises (armed : CommFde → Bool) (ops : List (CommFde × Bool)) (after : State) : Prop :=
  after.freed = false → ∀ e ∈ commFdes, switched armed ops e = after.armed e

instance (armed ops after) : Decidable (Realises armed ops after) := inferInstanceAs (Decidable (_ → _))

/- The loop goes on when no callback is left open. Other code does not touch the fdes of a
comm, and a new fde is memory that is not in use. -/
def SysAllowed (s : System κ) : SysAct κ → Prop
  | .event a => Event.Allowed s.ev a ∧ ∀ c ∈ s.comms, (target a = none → c.comm.ctl = .idle) ∧
      (c.comm.freed = false → ∀ e ∈ commFdes, target a ≠ some (c.ids e) ∧ ¬ Dispatches s a c e)
  | .dispatch a i e sys ops => Event.Allowed s.ev a ∧ target a = none ∧ (∀ c ∈ s.comms, c.comm.ctl = .idle) ∧
      ∃ c ∈ s.comms[i]?, c.comm.freed = false ∧ Dispatches s a c e ∧
        Realises (fired c.comm e).armed ops (step c.comm (.fire e sys))
  | .create ids _ _ _ _ _ => (commFdes.map ids).Nodup ∧ ∀ e ∈ commFdes, s.ev.head.fdes (ids e) = none
  | .call i call ops => ∃ c ∈ s.comms[i]?, c.comm.freed = false ∧
      Realises c.comm.armed ops (step c.comm (.client call))
  | .resume i sys ops => ∃ c ∈ s.comms[i]?, c.comm.ctl ≠ .idle ∧ Realises c.comm.armed ops (step c.comm (.resume sys))

def sysMachine (κ : Type) [Kq κ] : Machine (System κ) (SysAct κ) :=
  ⟨fun s => ∃ kqfd, s = ⟨Event.initial kqfd,[]⟩,SysAllowed,sysStep⟩

theorem allFdes (e : CommFde) : e ∈ commFdes := by cases e <;> simp [commFdes]

theorem allCleanup (e : CommFde) : e ∈ cleanupFdes := by cases e <;> simp [cleanupFdes]

section Calls
variable {ids : CommFde → FdeId} {ev : Event.State κ} {armed : CommFde → Bool}

theorem callsCtl (ops : List Op) : (calls ev ops).ctl = ev.ctl := by
  induction ops generalizing ev with
  | nil => rfl
  | cons o rest ih => exact ih

/- Calls on other fdes. -/
theorem callsOther {ops : List Op} {g : FdeId} (reached : Reach (fdeMachine κ) ev)
    (possible : Possible (fdeMachine κ) ev (ops.map .op)) (other : ∀ o ∈ ops, g ≠ o.target) :
    (calls ev ops).head.fdes g = ev.head.fdes g := by
  induction ops generalizing ev with
  | nil => rfl
  | cons o rest ih =>
    obtain ⟨allowed,later⟩ := possible
    have known := (Event.reachSound reached).lists.known
    exact (ih (.next reached allowed) later fun o mem => other o (List.mem_cons_of_mem _ mem)).trans
      (Event.opOther known (other o List.mem_cons_self))

theorem switchedAll (ops : List (CommFde × Bool)) (reached : Reach (fdeMachine κ) ev) (views : Views ids ev.head armed) :
    Possible (fdeMachine κ) ev ((ops.map (switchOp ids)).map .op) ∧
      Views ids (calls ev (ops.map (switchOp ids))).head (switched armed ops) := by
  induction ops generalizing ev armed with
  | nil => exact ⟨trivial,views⟩
  | cons o rest ih =>
    obtain ⟨e,on⟩ := o
    obtain ⟨f,found,_⟩ := views.known e
    have lists := (Event.reachSound reached).lists
    have here : (ev.head.fdes (ids e)).isSome = true := by rw [found]; rfl
    have allowed : (fdeMachine κ).allowed ev (.op (switchOp ids (e,on))) := by
      cases on <;> exact here
    have first : Views ids (Event.step ev (.op (switchOp ids (e,on)))).head (Function.update armed e on) := by
      cases on with
      | true => exact addViews e views
      | false => exact deleteViews e lists.known views
    obtain ⟨later,after⟩ := ih (.next reached allowed) first
    exact ⟨⟨allowed,later⟩,after⟩

/- Freeing is for callbacks outside the I/O loop. -/
theorem freedAll (l : List CommFde) (once : l.Nodup) (distinct : Function.Injective ids)
    (reached : Reach (fdeMachine κ) ev) (plain : ev.ctl.inRw = false)
    (known : ∀ e ∈ l, (ev.head.fdes (ids e)).isSome = true) :
    Possible (fdeMachine κ) ev ((l.map (freeOp ids)).map .op) := by
  induction l generalizing ev with
  | nil => trivial
  | cons e rest ih =>
    obtain ⟨fresh,once⟩ := List.nodup_cons.mp once
    have lists := (Event.reachSound reached).lists
    have allowed : (fdeMachine κ).allowed ev (.op (freeOp ids e)) :=
      ⟨known e List.mem_cons_self,fun inside => never (plain.symm.trans inside)⟩
    refine ⟨allowed,ih once (.next reached allowed) plain fun e' mem => ?_⟩
    have other : ids e' ≠ ids e := fun same => fresh (distinct same ▸ mem)
    have kept : ((fdeMachine κ).step ev (.op (freeOp ids e))).head.fdes (ids e') = ev.head.fdes (ids e') :=
      Event.freeOther lists.known other
    rw [kept]
    exact known e' (List.mem_cons_of_mem _ mem)

theorem createMade (fh : FdeHead κ) (fd : Int) (cb : CommFde → Nat) (cbdata : Nat) (e : CommFde) :
    Event.fdeCreate fh (ids e) (e.ident fd) e.fType e.fFlags (some (cb e)) cbdata =
      some (Event.applyOp fh (createOp ids fd cb cbdata e)) := by
  cases e <;> rfl

theorem createdAll (l : List CommFde) (once : l.Nodup) (distinct : Function.Injective ids) (fd : Int)
    (cb : CommFde → Nat) (cbdata : Nat) (reached : Reach (fdeMachine κ) ev)
    (fresh : ∀ e ∈ l, ev.head.fdes (ids e) = none) :
    Possible (fdeMachine κ) ev ((l.map (createOp ids fd cb cbdata)).map .op) ∧
      l.foldlM (fun fh e => Event.fdeCreate fh (ids e) (e.ident fd) e.fType e.fFlags (some (cb e)) cbdata) ev.head =
        some (calls ev (l.map (createOp ids fd cb cbdata))).head := by
  induction l generalizing ev with
  | nil => exact ⟨trivial,rfl⟩
  | cons e rest ih =>
    obtain ⟨new,once⟩ := List.nodup_cons.mp once
    have lists := (Event.reachSound reached).lists
    have allowed : (fdeMachine κ).allowed ev (.op (createOp ids fd cb cbdata e)) := fresh e List.mem_cons_self
    have others : ∀ e' ∈ rest, ((fdeMachine κ).step ev (.op (createOp ids fd cb cbdata e))).head.fdes (ids e') = none := by
      intro e' mem
      have other : ids e' ≠ ids e := fun same => new (distinct same ▸ mem)
      have kept : ((fdeMachine κ).step ev (.op (createOp ids fd cb cbdata e))).head.fdes (ids e') = ev.head.fdes (ids e') :=
        Event.opOther lists.known other
      rw [kept]
      exact fresh e' (List.mem_cons_of_mem _ mem)
    obtain ⟨later,made⟩ := ih once (.next reached allowed) others
    refine ⟨⟨allowed,later⟩,?_⟩
    rw [List.foldlM_cons,createMade]
    exact made

end Calls

/- What a client call leaves alone. -/
theorem callKept (s : State) (call : Call) : (client s call).ctl = s.ctl ∧ (client s call).freed = s.freed := by
  cases call with
  | close => exact ⟨closeCtl s,(closeApart s).freed⟩
  | markNonclose => exact ⟨rfl,rfl⟩
  | udpWrite fr =>
    simp only [client,commCall,commUdpWrite]
    repeat' split
    all_goals exact ⟨rfl,rfl⟩
  | _ => exact ⟨(started rfl).1.ctl,(started rfl).1.freed⟩

/- A comm is freed, and waits for its close callback, in comm_cb_cleanup only. -/
def Cleans (c : State) (a : Act) : Prop := (∃ sys, a = .fire .cleanup sys) ∨ (∃ sys, a = .resume sys ∧ c.ctl = .cleanup)

theorem freesCleaning {c : State} {a} (alive : c.freed = false) (gone : (step c a).freed = true) : Cleans c a := by
  cases a with
  | client call => exact never (alive.symm.trans ((callKept c call).2.symm.trans gone))
  | fire e sys =>
    by_cases cleans : e = .cleanup
    · exact Or.inl ⟨sys,by rw [cleans]⟩
    · have kept := (handleWinds (fired c e) sys cleans).freed.trans (firedWinds c e).freed
      exact never (alive.symm.trans (kept.symm.trans gone))
  | resume sys =>
    by_cases cleans : c.ctl = .cleanup
    · exact Or.inr ⟨sys,rfl,cleans⟩
    · exact never (alive.symm.trans ((goOnWinds { c with ctl := .idle } sys cleans).freed.symm.trans gone))

theorem entersCleaning {c : State} {a} (allowed : Allowed c a) (inside : (step c a).ctl.inCleanup = true) :
    (∃ sys, a = .fire .cleanup sys) ∨ c.ctl.inCleanup = true := by
  cases a with
  | client call =>
    have same : (step c (.client call)).ctl = c.ctl := (callKept c call).1
    rw [same] at inside
    exact Or.inr inside
  | fire e sys =>
    by_cases cleans : e = .cleanup
    · exact Or.inl ⟨sys,by rw [cleans]⟩
    · exact Or.inr ((firedWinds c e).inCleanup ((handleWinds (fired c e) sys cleans).inCleanup inside))
  | resume sys =>
    by_cases cleans : c.ctl = .cleanup
    · exact Or.inr (by rw [cleans]; rfl)
    · exact never ((goOnWinds { c with ctl := .idle } sys cleans).inCleanup inside)

/- One comm in the whole. -/
structure Seat (ev : Event.State κ) (c : Linked) : Prop where
  comm : Reach commMachine c.comm
  views : c.comm.freed = false → Views c.ids ev.head c.comm.armed
  cleaning : c.comm.ctl.inCleanup = true → ev.ctl.inRw = false

/- No two comms that live have an fde in common. -/
def Separate (comms : List Linked) : Prop := ∀ (i j : Nat) (c d : Linked) e e', comms[i]? = some c → comms[j]? = some d →
  c.comm.freed = false → d.comm.freed = false → c.ids e = d.ids e' → i = j

structure Joined (s : System κ) : Prop where
  event : Reach (fdeMachine κ) s.ev
  seats : ∀ (i : Nat) c, s.comms[i]? = some c → Seat s.ev c
  apart : Separate s.comms

/- What is left of a seat whose comm is not the one that moves. -/
theorem Seat.other {ev : Event.State κ} {ops : List Op} {c} (seat : Seat ev c) (reached : Reach (fdeMachine κ) ev)
    (possible : Possible (fdeMachine κ) ev (ops.map .op))
    (apart : c.comm.freed = false → ∀ o ∈ ops, ∀ e, c.ids e ≠ o.target) : Seat (calls ev ops) c where
  comm := seat.comm
  views alive := otherViews (seat.views alive) fun e => callsOther reached possible fun o mem => apart alive o mem e
  cleaning inside := (congrArg Event.Ctl.inRw (callsCtl ops)).trans (seat.cleaning inside)

theorem switchTarget (ids : CommFde → FdeId) (o : CommFde × Bool) : (switchOp ids o).target = ids o.1 := by
  unfold switchOp
  split <;> rfl

theorem moveTarget {ids : CommFde → FdeId} {after : State} {ops o} (mem : o ∈ moveOps ids after ops) :
    ∃ e, o.target = ids e := by
  unfold moveOps at mem
  split at mem
  · obtain ⟨e,_,rfl⟩ := List.mem_map.mp mem
    exact ⟨e,rfl⟩
  · obtain ⟨o',_,rfl⟩ := List.mem_map.mp mem
    exact ⟨o'.1,switchTarget ids o'⟩

/- The calls of a comm are allowed, and behind them it sees what its model says. -/
theorem moveCalls {ids : CommFde → FdeId} {ev : Event.State κ} {armed} {after : State} {ops}
    (event : Reach (fdeMachine κ) ev) (views : Views ids ev.head armed) (realises : Realises armed ops after)
    (frees : after.freed = true → ev.ctl.inRw = false) :
    Possible (fdeMachine κ) ev ((moveOps ids after ops).map .op) ∧
      (after.freed = false → Views ids (calls ev (moveOps ids after ops)).head after.armed) := by
  unfold moveOps
  cases gone : after.freed with
  | true =>
    refine ⟨freedAll cleanupFdes (by decide) views.distinct event (frees gone) fun e _ => ?_,fun h => never h.symm⟩
    obtain ⟨f,found,_⟩ := views.known e
    rw [found]
    rfl
  | false =>
    obtain ⟨possible,seen⟩ := switchedAll ops event views
    have same : switched armed ops = after.armed := funext fun e => realises gone e (allFdes e)
    exact ⟨possible,fun _ => same ▸ seen⟩

theorem setSource {comms : List Linked} {i j : Nat} {c c' d : Linked} (found : comms[i]? = some c)
    (after : (comms.set i c')[j]? = some d) : (j = i ∧ d = c') ∨ (j ≠ i ∧ comms[j]? = some d) := by
  have inside : i < comms.length := (List.getElem?_eq_some_iff.mp found).1
  by_cases same : j = i
  · subst j
    rw [List.getElem?_set_self inside] at after
    exact Or.inl ⟨rfl,(Option.some.inj after).symm⟩
  · rw [List.getElem?_set_ne (Ne.symm same)] at after
    exact Or.inr ⟨same,after⟩

theorem setSeparate {comms : List Linked} {i : Nat} {c : Linked} {after : State} (apart : Separate comms)
    (found : comms[i]? = some c) (alive : c.comm.freed = false) : Separate (comms.set i { c with comm := after }) := by
  have old {j : Nat} {d : Linked} (at' : (comms.set i { c with comm := after })[j]? = some d)
      (live : d.comm.freed = false) : ∃ d' : Linked, comms[j]? = some d' ∧ d'.comm.freed = false ∧ d'.ids = d.ids := by
    rcases setSource found at' with ⟨rfl,rfl⟩ | ⟨_,before⟩
    · exact ⟨c,found,alive,rfl⟩
    · exact ⟨d,before,live,rfl⟩
  intro j k d d' e e' first second live live' equal
  obtain ⟨f,first,fAlive,fIds⟩ := old first live
  obtain ⟨g,second,gAlive,gIds⟩ := old second live'
  exact apart j k f g e e' first second fAlive gAlive (by rw [fIds,gIds]; exact equal)

/- The comm at `i` moves, from what it sees when its code starts to run. -/
theorem moveJoined {s : System κ} {i : Nat} {c : Linked} {a ops armed} (event : Reach (fdeMachine κ) s.ev)
    (found : s.comms[i]? = some c) (alive : c.comm.freed = false) (reached : Reach commMachine c.comm)
    (views : Views c.ids s.ev.head armed) (others : ∀ (j : Nat) d, s.comms[j]? = some d → j ≠ i → Seat s.ev d)
    (apart : Separate s.comms) (allowed : Allowed c.comm a) (realises : Realises armed ops (step c.comm a))
    (cleans : (step c.comm a).freed = true ∨ (step c.comm a).ctl.inCleanup = true → s.ev.ctl.inRw = false) :
    Joined (s.move i c a ops) := by
  have next : Reach commMachine (step c.comm a) := .next reached allowed
  obtain ⟨possible,own⟩ := moveCalls event views realises (cleans ∘ Or.inl)
  refine ⟨reachRun event possible,fun j d at' => ?_,setSeparate apart found alive⟩
  rcases setSource found at' with ⟨rfl,rfl⟩ | ⟨different,before⟩
  · exact ⟨next,own,fun inside => (congrArg Event.Ctl.inRw (callsCtl _)).trans (cleans (Or.inr inside))⟩
  · refine (others j d before different).other event possible fun live o mem e hit => ?_
    obtain ⟨e',target⟩ := moveTarget mem
    exact different (apart j i d c e e' before found live alive (hit.trans target))

/- A comm that stops in comm_cb_cleanup, or is freed by it, was called outside the I/O loop. -/
omit [Kq κ] in
theorem cleansPlain {ev : Event.State κ} {c : Linked} {a} (seat : Seat ev c) (alive : c.comm.freed = false)
    (allowed : Allowed c.comm a) (later : ∀ sys, a ≠ .fire .cleanup sys)
    (cleans : (step c.comm a).freed = true ∨ (step c.comm a).ctl.inCleanup = true) : ev.ctl.inRw = false := by
  rcases cleans with gone | inside
  · rcases freesCleaning alive gone with ⟨sys,fires⟩ | ⟨sys,_,cleaning⟩
    · exact absurd fires (later sys)
    · exact seat.cleaning (by rw [cleaning]; rfl)
  · rcases entersCleaning allowed inside with ⟨sys,fires⟩ | cleaning
    · exact absurd fires (later sys)
    · exact seat.cleaning cleaning

theorem callJoined {s : System κ} {i : Nat} {c : Linked} {a ops} (joined : Joined s) (found : s.comms[i]? = some c)
    (alive : c.comm.freed = false) (allowed : Allowed c.comm a) (later : ∀ sys, a ≠ .fire .cleanup sys)
    (realises : Realises c.comm.armed ops (step c.comm a)) : Joined (s.move i c a ops) :=
  have seat := joined.seats i c found
  moveJoined joined.event found alive seat.comm (seat.views alive) (fun j d at' _ => joined.seats j d at') joined.apart
    allowed realises (cleansPlain seat alive allowed later)

/- Nothing of a comm runs once it is freed. -/
theorem reachFreed {c} (h : Reach commMachine c) (gone : c.freed = true) : c.ctl = .idle ∧ ∀ e, c.armed e = false := by
  induction h with
  | start created =>
    obtain ⟨fd,cb,cbdata,rfl⟩ := created
    exact never gone
  | @next c a _ allowed ih =>
    cases before : c.freed with
    | true =>
      obtain ⟨idle,off⟩ := ih before
      cases a with
      | client call => exact never ((show c.freed = false from allowed).symm.trans before)
      | fire e sys => exact never ((off e).symm.trans allowed.2)
      | resume sys => exact absurd idle allowed
    | false =>
      rcases freesCleaning before gone with ⟨sys,rfl⟩ | ⟨sys,rfl,cleaning⟩
      · simp only [commMachine,step,handle,commCbCleanup] at gone ⊢
        split at gone
        · exact ⟨allowed.1,fun _ => rfl⟩
        · exact never (before.symm.trans gone)
      · simp only [commMachine,step,cleaning,goOn]
        exact ⟨rfl,fun _ => rfl⟩

/- The event layer takes a step, in which a comm sees none of its fdes dispatched. -/
theorem Seat.passed {ev : Event.State κ} {c a} (seat : Seat ev c) (reached : Reach (fdeMachine κ) ev)
    (idle : target a = none → c.comm.ctl = .idle)
    (unseen : c.comm.freed = false → ∀ e, target a ≠ some (c.ids e) ∧
      (Event.step ev a).log ≠ ev.log ++ [.dispatched (c.ids e)]) : Seat (Event.step ev a) c where
  comm := seat.comm
  views alive := by
    have others : ∀ o, a = .op o → ∀ e, c.ids e ≠ o.target := by
      rintro o rfl e same
      exact (unseen alive e).1 (congrArg some same.symm)
    rcases stepViews (Event.reachSound reached).lists (seat.views alive) others with ⟨e,new,_⟩ | ⟨_,after⟩
    · exact absurd new (unseen alive e).2
    · exact after
  cleaning inside := by
    cases a with
    | op o => exact seat.cleaning inside
    | _ =>
      rw [idle rfl] at inside
      exact never inside

theorem eventJoined {s : System κ} {a} (joined : Joined s) (allowed : SysAllowed s (.event a)) :
    Joined (sysStep s (.event a)) := by
  obtain ⟨possible,others⟩ := allowed
  have next : Reach (fdeMachine κ) (Event.step s.ev a) := .next joined.event possible
  refine ⟨next,fun i c at' => ?_,joined.apart⟩
  obtain ⟨idle,unseen⟩ := others c (List.mem_of_getElem? at')
  exact (joined.seats i c at').passed joined.event idle fun alive e => unseen alive e (allFdes e)

theorem dispatchJoined {s : System κ} {a i e sys ops} (joined : Joined s)
    (allowed : SysAllowed s (.dispatch a i e sys ops)) : Joined (sysStep s (.dispatch a i e sys ops)) := by
  obtain ⟨possible,loop,idle,c,found,alive,new,realises⟩ := allowed
  have found : s.comms[i]? = some c := found
  have next : Reach (fdeMachine κ) (Event.step s.ev a) := .next joined.event possible
  have seat := joined.seats i c found
  have lists := (Event.reachSound joined.event).lists
  have noOp : ∀ o, a = .op o → ∀ e, c.ids e ≠ o.target := by
    rintro o rfl
    contradiction
  obtain ⟨armed,views⟩ : c.comm.armed e = true ∧ Views c.ids (Event.step s.ev a).head (fired c.comm e).armed := by
    rcases stepViews lists (seat.views alive) noOp with ⟨e',seen,armed,views⟩ | ⟨unseen,_⟩
    · have same : c.ids e = c.ids e' := by simpa using new.symm.trans seen
      cases (seat.views alive).distinct same
      exact ⟨armed,views⟩
    · exact absurd new (unseen e)
  have others : ∀ (j : Nat) d, s.comms[j]? = some d → j ≠ i → Seat (Event.step s.ev a) d := by
    intro j d at' different
    refine (joined.seats j d at').passed joined.event (fun _ => idle d (List.mem_of_getElem? at')) fun live e' => ?_
    refine ⟨by rw [loop]; simp,fun seen => different ?_⟩
    exact joined.apart j i d c e' e at' found live alive (by simpa using seen.symm.trans new)
  have fires : Allowed c.comm (.fire e sys) := ⟨idle c (List.mem_of_getElem? found),armed⟩
  have stepped : sysStep s (.dispatch a i e sys ops) =
      ({ s with ev := Event.step s.ev a } : System κ).move i c (.fire e sys) ops := by
    simp only [sysStep,found]
  rw [stepped]
  refine moveJoined next found alive seat.comm views others joined.apart fires realises fun cleans => ?_
  -- The cleanup fde is a callback fde.
  have cleaning : e = .cleanup := by
    rcases cleans with gone | inside
    · rcases freesCleaning alive gone with ⟨sys,fires⟩ | ⟨sys,fires,_⟩
      · cases fires
        rfl
      · contradiction
    · rcases entersCleaning fires inside with ⟨sys,fires⟩ | inside
      · cases fires
        rfl
      · rw [idle c (List.mem_of_getElem? found)] at inside
        exact never inside
  subst cleaning
  obtain ⟨f,here,type,_⟩ := (seat.views alive).known .cleanup
  refine Event.dispatchedPlain joined.event possible new ?_
  simp [Event.FdeHead.io,here,type,CommFde.fType,Event.FdeType.io]

theorem appendSource {comms : List Linked} {j : Nat} {c d : Linked} (after : (comms ++ [c])[j]? = some d) :
    comms[j]? = some d ∨ (j = comms.length ∧ d = c) := by
  by_cases inside : j < comms.length
  · rw [List.getElem?_append_left inside] at after
    exact Or.inl after
  · rw [List.getElem?_append_right (Nat.le_of_not_lt inside)] at after
    obtain ⟨last,rfl⟩ := List.getElem?_eq_some_iff.mp after
    rw [List.length_singleton] at last
    exact Or.inr ⟨by omega,List.getElem_singleton _⟩

theorem createJoined {s : System κ} {ids fd cb cbdata close closeData} (joined : Joined s)
    (allowed : SysAllowed s (.create ids fd cb cbdata close closeData)) :
    Joined (sysStep s (.create ids fd cb cbdata close closeData)) := by
  obtain ⟨once,fresh⟩ := allowed
  have distinct : Function.Injective ids := fun e e' same => List.inj_on_of_nodup_map once (allFdes e) (allFdes e') same
  obtain ⟨possible,made⟩ := createdAll commFdes (by decide) distinct fd cb cbdata joined.event fresh
  -- The fdes of the comms that are there are known, and those of the new one are not.
  have new {i : Nat} {d : Linked} (at' : s.comms[i]? = some d) (alive : d.comm.freed = false) (e e') : d.ids e ≠ ids e' := by
    intro same
    obtain ⟨f,found,_⟩ := ((joined.seats i d at').views alive).known e
    rw [same,fresh e' (allFdes e')] at found
    contradiction
  refine ⟨reachRun joined.event possible,fun j d at' => ?_,fun i j c d e e' first second live live' same => ?_⟩
  · rcases appendSource at' with before | ⟨_,rfl⟩
    · refine (joined.seats j d before).other joined.event possible fun live o mem e => ?_
      obtain ⟨e',_,rfl⟩ := List.mem_map.mp mem
      exact new before live e e'
    · exact ⟨.start ⟨fd,close,closeData,rfl⟩,fun _ => createViews distinct made,never⟩
  · rcases appendSource first with first | ⟨rfl,rfl⟩ <;> rcases appendSource second with second | ⟨rfl,rfl⟩
    · exact joined.apart i j c d e e' first second live live' same
    · exact absurd same (new first live e e')
    · exact absurd same.symm (new second live' e' e)
    · rfl

theorem stepJoined {s : System κ} {a} (joined : Joined s) (allowed : SysAllowed s a) : Joined (sysStep s a) := by
  cases a with
  | event a => exact eventJoined joined allowed
  | dispatch a i e sys ops => exact dispatchJoined joined allowed
  | create ids fd cb cbdata close closeData => exact createJoined joined allowed
  | call i call ops =>
    obtain ⟨c,found,alive,realises⟩ := allowed
    have found : s.comms[i]? = some c := found
    simp only [sysStep,found]
    exact callJoined joined found alive alive (fun _ => by simp) realises
  | resume i sys ops =>
    obtain ⟨c,found,inside,realises⟩ := allowed
    have found : s.comms[i]? = some c := found
    have alive : c.comm.freed = false :=
      Bool.eq_false_iff.mpr fun gone => inside (reachFreed (joined.seats i c found).comm gone).1
    simp only [sysStep,found]
    exact callJoined joined found alive inside (fun _ => by simp) realises

theorem reachJoined {s : System κ} (h : Reach (sysMachine κ) s) : Joined s := by
  refine reachInvariant (m := sysMachine κ) ?_ (fun _ _ => stepJoined) h
  rintro s ⟨kqfd,rfl⟩
  exact ⟨.start ⟨kqfd,rfl⟩,fun _ _ none => (nomatch none),fun _ _ _ _ _ _ none => (nomatch none)⟩

theorem callsHead (ev : Event.State κ) (ops : List Op) : (calls ev ops).head = ops.foldl Event.applyOp ev.head := by
  induction ops generalizing ev with
  | nil => rfl
  | cons o rest ih => exact ih _

theorem moveFrees {s : System κ} {i j : Nat} {c d d' : Linked} {a ops} (known : Event.Supported s.ev.head)
    (found : s.comms[i]? = some c) (before : s.comms[j]? = some d) (alive : d.comm.freed = false)
    (after : (s.move i c a ops).comms[j]? = some d') (gone : d'.comm.freed = true) (e : CommFde) :
    (s.move i c a ops).ev.head.fdes (d.ids e) = none := by
  rcases setSource found after with ⟨rfl,rfl⟩ | ⟨_,same⟩
  · cases Option.some.inj (before.symm.trans found)
    have frees : moveOps c.ids (step c.comm a) ops = cleanupFdes.map (freeOp c.ids) := if_pos gone
    simp only [System.move,frees,callsHead,List.foldl_map]
    exact freedFdes known e cleanupFdes (allCleanup e)
  · cases Option.some.inj (before.symm.trans same)
    exact never (alive.symm.trans gone)

/- The step that frees a comm leaves none of its fdes behind. -/
theorem freedLeavesNone {s : System κ} {a} {i : Nat} {c c' : Linked} (h : Reach (sysMachine κ) s)
    (allowed : SysAllowed s a) (before : s.comms[i]? = some c) (alive : c.comm.freed = false)
    (after : (sysStep s a).comms[i]? = some c') (gone : c'.comm.freed = true) (e : CommFde) :
    (sysStep s a).ev.head.fdes (c.ids e) = none := by
  have joined := reachJoined h
  have known := (Event.reachSound joined.event).lists.known
  have stays (same : s.comms[i]? = some c') : (sysStep s a).ev.head.fdes (c.ids e) = none := by
    cases Option.some.inj (before.symm.trans same)
    exact never (alive.symm.trans gone)
  cases a with
  | event a => exact stays after
  | create ids fd cb cbdata close closeData =>
    rcases appendSource after with same | ⟨last,_⟩
    · exact stays same
    · exact absurd (List.getElem?_eq_some_iff.mp before).1 (by omega)
  | dispatch a j e' sys ops =>
    obtain ⟨possible,_,_,d,found,_⟩ := allowed
    have found : s.comms[j]? = some d := found
    have next : Reach (fdeMachine κ) (Event.step s.ev a) := .next joined.event possible
    simp only [sysStep,found] at after ⊢
    exact moveFrees (s := { s with ev := Event.step s.ev a }) (Event.reachSound next).lists.known found before alive after
      gone e
  | call j call ops =>
    obtain ⟨d,found,_⟩ := allowed
    have found : s.comms[j]? = some d := found
    simp only [sysStep,found] at after ⊢
    exact moveFrees known found before alive after gone e
  | resume j sys ops =>
    obtain ⟨d,found,_⟩ := allowed
    have found : s.comms[j]? = some d := found
    simp only [sysStep,found] at after ⊢
    exact moveFrees known found before alive after gone e

/- What was proved of an fde_head holds under all its comms, and what was proved of one comm
holds of each of them: between the two, is_active of an fde is what its comm believes. -/
theorem layersAgree {s : System κ} (h : Reach (sysMachine κ) s) :
    Reach (fdeMachine κ) s.ev ∧
    ∀ c ∈ s.comms, Reach commMachine c.comm ∧
      (c.comm.freed = false → ∀ e, s.ev.head.active (c.ids e) = c.comm.armed e) := by
  have joined := reachJoined h
  refine ⟨joined.event,fun c mem => ?_⟩
  obtain ⟨i,at'⟩ := List.mem_iff_getElem?.mp mem
  have seat := joined.seats i c at'
  exact ⟨seat.comm,fun alive e => activeViews (seat.views alive)⟩

instance (s : System Unit) : (a : SysAct Unit) → Decidable ((sysMachine Unit).allowed s a)
  | .event a =>
    have := Event.decidableAllowed s.ev a
    inferInstanceAs (Decidable ((fdeMachine Unit).allowed s.ev a ∧ ∀ c ∈ s.comms, (target a = none → c.comm.ctl = .idle) ∧
      (c.comm.freed = false → ∀ e ∈ commFdes, target a ≠ some (c.ids e) ∧ ¬ Dispatches s a c e)))
  | .dispatch a i e sys ops =>
    have := Event.decidableAllowed s.ev a
    inferInstanceAs (Decidable ((fdeMachine Unit).allowed s.ev a ∧ target a = none ∧ (∀ c ∈ s.comms, c.comm.ctl = .idle) ∧
      ∃ c ∈ s.comms[i]?, c.comm.freed = false ∧ Dispatches s a c e ∧
        Realises (fired c.comm e).armed ops (step c.comm (.fire e sys))))
  | .create ids _ _ _ _ _ =>
    inferInstanceAs (Decidable ((commFdes.map ids).Nodup ∧ ∀ e ∈ commFdes, s.ev.head.fdes (ids e) = none))
  | .call i call ops =>
    inferInstanceAs (Decidable (∃ c ∈ s.comms[i]?, c.comm.freed = false ∧
      Realises c.comm.armed ops (step c.comm (.client call))))
  | .resume i sys ops =>
    inferInstanceAs (Decidable (∃ c ∈ s.comms[i]?, c.comm.ctl ≠ .idle ∧
      Realises c.comm.armed ops (step c.comm (.resume sys))))

def CommFde.number : CommFde → Nat
  | .read => 0 | .readCb => 1 | .write => 2 | .writeCb => 3 | .accept => 4 | .connect => 5 | .connectStart => 6
  | .cleanup => 7 | .udpRead => 8 | .udpWrite => 9

/- Two comms: the first one reads what has come, and closes in its read callback. -/
def layersRun : List (SysAct Unit) :=
  [.create (fun e => e.number + 10) 5 CommFde.number 0 none 0,.create (fun e => e.number + 30) 6 CommFde.number 0 none 0,
    .call 0 (.read 1 64 2 3) [(.read,true)],.call 1 (.listen 4 5) [(.accept,true)],
    .dispatch (.rwRunloop () [⟨5,.read,0#16,0#32,0,some 10⟩]) 0 .read ⟨0,0,0,none⟩ [(.readCb,true)],.event .ret,
    .dispatch .cbRunloop 0 .readCb ⟨20,0,0,none⟩ [],.call 0 .close [(.read,false),(.cleanup,true)],
    .resume 0 ⟨0,0,0,none⟩ [],.event .ret,.dispatch .cbRunloop 0 .cleanup ⟨0,0,0,none⟩ []]

theorem layersAgreeRun :
    let s := run (sysMachine Unit) ⟨Event.initial (),[]⟩ layersRun
    s.comms.map (·.comm.freed) = [true,false] ∧ s.ev.head.active 34 = true := by
  have reached : Reach (sysMachine Unit) (run (sysMachine Unit) ⟨Event.initial (),[]⟩ layersRun) :=
    reachRun (.start ⟨(),rfl⟩) (by decide)
  obtain ⟨_,comms⟩ := layersAgree reached
  have second := (comms _ (List.getElem_mem (n := 1) (by decide))).2 (by decide) .accept
  exact ⟨by decide,second⟩

end Libiapp.Comm
