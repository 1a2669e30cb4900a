import Libiapp.FdeChanges
import Libiapp.FdeOnce
import Libiapp.KernelRegister

/-! What the change records of one I/O fde say. The flags live in the fde and the mask of
every add and delete keeps EV_ADD and EV_DELETE. So a delete that takes effect, which always
follows an add, is pushed with both bits, and so is every add after it. -/
namespace Libiapp.Event
open Kqueue Runs

/- The record asks for what the operation did and for nothing else. -/
def Records (k : Kevent) : Ev → Prop
  | .added _ => has k.flags evAdd = true ∧ has k.flags evDelete = false
  | .deleted _ => has k.flags evDelete = true ∧ has k.flags evAdd = false
  | .dispatched _ => False

/- The record asks at least for what the operation did. -/
def Marks (k : Kevent) : Ev → Prop
  | .added _ => has k.flags evAdd = true
  | .deleted _ => has k.flags evDelete = true
  | .dispatched _ => False

def Ev.toggles (f : FdeId) (ev : Ev) : Bool := ev == .added f || ev == .deleted f

def Kevent.names (f : FdeId) (k : Kevent) : Bool := k.udata == some f

/- What one step pushes and logs for `f`; `marked` says that EV_DELETE is among its flags. -/
inductive Entry (f : FdeId) (marked : Bool) : Bool → List Kevent → List Ev → Prop where
  | none : Entry f marked marked [] []
  | added (k : Kevent) (add : has k.flags evAdd = true) (delete : has k.flags evDelete = marked) :
      Entry f marked marked [k] [.added f]
  | deleted (k : Kevent) (add : has k.flags evAdd = true) (delete : has k.flags evDelete = true) :
      Entry f marked true [k] [.deleted f]

def Follows {κ} (f : FdeId) (marked : Bool) (fh : FdeHead κ) : Prop :=
  ∀ e, fh.fdes f = some e → FdeFlags f e ∧ has e.kev.flags evDelete = marked

def Tagged {κ} (fh : FdeHead κ) : Prop := ∀ g e, fh.fdes g = some e → e.fType.io = true → e.kev.udata = some g

def Keeps {κ} (fh fh' : FdeHead κ) : Prop :=
  ∀ g e', fh'.fdes g = some e' → ∃ e, fh.fdes g = some e ∧ e'.fType = e.fType ∧ e'.kev.udata = e.kev.udata

theorem keepsTagged {κ} {fh fh' : FdeHead κ} (keeps : Keeps fh fh') (tagged : Tagged fh) : Tagged fh' := by
  intro g e' found io
  obtain ⟨e,old,type,udata⟩ := keeps g e' found
  rw [udata]
  exact tagged g e old (type ▸ io)

theorem keepsSame {κ} {fh fh' : FdeHead κ} (fdes : fh'.fdes = fh.fdes) : Keeps fh fh' := by
  intro g e' found
  exact ⟨e',fdes ▸ found,rfl,rfl⟩

theorem keepsUpdate {κ} {fh fh' : FdeHead κ} {f e e'} (found : fh.fdes f = some e)
    (fdes : fh'.fdes = Function.update fh.fdes f (some e')) (type : e'.fType = e.fType)
    (udata : e'.kev.udata = e.kev.udata) : Keeps fh fh' := by
  intro g x here
  rcases lookupUpdate fdes here with ⟨rfl,rfl⟩ | ⟨_,old⟩
  · exact ⟨e,found,type,udata⟩
  · exact ⟨x,old,rfl,rfl⟩

theorem kevAddKeeps {κ} [Kq κ] {fh : FdeHead κ} {f e} (found : fh.fdes f = some e) : Keeps fh (fdeKevAdd fh f e) := by
  unfold fdeKevAdd
  split
  · exact keepsSame rfl
  · have stored : ((fdeKqPush fh (addedKev e)).put f { e with kev := addedKev e, isActive := true }).fdes =
        Function.update fh.fdes f (some { e with kev := addedKev e, isActive := true }) := by simp [FdeHead.put]
    exact keepsUpdate found stored rfl rfl

theorem kevDeleteKeeps {κ} [Kq κ] {fh : FdeHead κ} {f e} (found : fh.fdes f = some e) : Keeps fh (fdeKevDelete fh f e) := by
  unfold fdeKevDelete
  split
  · exact keepsSame rfl
  · have stored : ((fdeKqPush fh (deletedKev e)).put f { e with kev := deletedKev e, isActive := false }).fdes =
        Function.update fh.fdes f (some { e with kev := deletedKev e, isActive := false }) := by simp [FdeHead.put]
    exact keepsUpdate found stored rfl rfl

theorem addKeeps {κ} [Kq κ] (fh : FdeHead κ) (f) : Keeps fh (fdeAdd fh f) := by
  unfold fdeAdd
  cases found : fh.fdes f with
  | none => exact keepsSame rfl
  | some e =>
    dsimp only
    cases e.fType with
    | read | write | user =>
      exact kevAddKeeps found
    | callback =>
      simp only [fdeCbAdd]
      split
      · exact keepsSame rfl
      · exact keepsUpdate found rfl rfl rfl
    | _ => exact keepsSame rfl

theorem deleteKeeps {κ} [Kq κ] (fh : FdeHead κ) (f) : Keeps fh (fdeDelete fh f) := by
  unfold fdeDelete
  cases found : fh.fdes f with
  | none => exact keepsSame rfl
  | some e =>
    dsimp only
    cases e.fType with
    | read | write | user =>
      exact kevDeleteKeeps found
    | callback =>
      simp only [fdeCbDelete]
      split
      · exact keepsSame rfl
      · exact keepsUpdate found rfl rfl rfl
    | timer =>
      simp only [fdeTDelete]
      split
      · exact keepsSame rfl
      · exact keepsUpdate found rfl rfl rfl
    | _ => exact keepsSame rfl

theorem opTagged {κ} [Kq κ] {fh : FdeHead κ} (known : Supported fh) (o) (tagged : Tagged fh) : Tagged (applyOp fh o) := by
  cases o with
  | create f fd t fl cb cbdata =>
    simp only [applyOp,fdeCreate]
    cases set : fdeEvSet f ⟨fd,zeroKevent,t,fl,cb,false,⟨0,0⟩,cbdata,0⟩ with
    | none => exact tagged
    | some kev =>
      intro g e found io
      rcases lookupUpdate (show ((fh.put f _).fdes = _) from rfl) found with ⟨rfl,rfl⟩ | ⟨_,old⟩
      · exact (evSetIo set io).2.1
      · exact tagged g e old io
  | add f => exact keepsTagged (addKeeps fh f) tagged
  | addTimeout f tv =>
    simp only [applyOp,fdeAddTimeout]
    cases found : fh.fdes f with
    | none => exact tagged
    | some e =>
      dsimp only
      split
      · exact tagged
      · exact keepsTagged (keepsUpdate found rfl rfl rfl) tagged
  | delete f => exact keepsTagged (deleteKeeps fh f) tagged
  | free f =>
    have deleted := keepsTagged (deleteKeeps fh f) tagged
    intro g e found io
    rw [applyOp,freeFdes known] at found
    by_cases same : g = f
    · subst g
      rw [Function.update_self] at found
      contradiction
    · rw [Function.update_of_ne same] at found
      exact deleted g e found io

theorem rwEventKeeps {κ} (fh : FdeHead κ) (k) : Keeps fh (fdeRwEvent fh k).1 := by
  rcases rwEventSource fh k with same | ⟨f,e,_,found,_,_,after⟩
  · exact keepsSame (by rw [same])
  · rw [after]
    exact keepsUpdate found rfl rfl rfl

/- A firing leaves the flags of the fde alone. -/
theorem rwEventFollows {κ} {fh : FdeHead κ} {f marked} (follows : Follows f marked fh) (k) :
    Follows f marked (fdeRwEvent fh k).1 := by
  rcases rwEventSource fh k with same | ⟨g,e,_,found,_,_,after⟩
  · rw [same]; exact follows
  · intro x here
    rw [after] at here
    rcases lookupUpdate (show ((fh.put g _).fdes = _) from rfl) here with ⟨rfl,rfl⟩ | ⟨_,old⟩
    · obtain ⟨flags,delete⟩ := follows e found
      exact ⟨⟨flags.io,flags.udata,flags.oneshot,by simp⟩,delete⟩
    · exact follows x old

theorem stepTagged {κ} [Kq κ] {s : State κ} {a} (known : Supported s.head) (tagged : Tagged s.head) :
    Tagged (step s a).head := by
  have op (o) (_ : a = .op o) : Tagged (applyOp s.head o) := opTagged known o tagged
  have deleted (fh : FdeHead κ) (f) (before : Tagged fh) : Tagged (fdeDelete fh f) := keepsTagged (deleteKeeps fh f) before
  have event (fh : FdeHead κ) (k) (before : Tagged fh) : Tagged (fdeRwEvent fh k).1 := keepsTagged (rwEventKeeps fh k) before
  exact stepHeadKept tagged op deleted event tagged (fun _ _ _ => tagged)

theorem opPushesTagged {κ} {fh : FdeHead κ} (tagged : Tagged fh) (o) : ∀ k ∈ opPushes fh o, k.udata = some o.target := by
  intro k mem
  cases o with
  | create f fd t fl cb cbdata => exact absurd mem List.not_mem_nil
  | addTimeout f tv => exact absurd mem List.not_mem_nil
  | add f | delete f | free f =>
    simp only [opPushes] at mem
    cases found : fh.fdes f with
    | none =>
      rw [found] at mem
      exact absurd mem List.not_mem_nil
    | some e =>
      simp only [found] at mem
      split at mem
      · rename_i ready
        rw [List.mem_singleton.mp mem]
        exact tagged f e found (by simp only [Bool.and_eq_true] at ready; exact ready.1)
      · exact absurd mem List.not_mem_nil

theorem opEventsTarget {κ} [Kq κ] (fh : FdeHead κ) (o) :
    ∀ ev ∈ opEvents fh o, ev = .added o.target ∨ ev = .deleted o.target := by
  intro ev mem
  unfold opEvents at mem
  split at mem
  · exact Or.inl (List.mem_singleton.mp mem)
  · exact Or.inr (List.mem_singleton.mp mem)
  · exact absurd mem List.not_mem_nil

theorem opElsewhere {κ} [Kq κ] {fh : FdeHead κ} {o f marked} (known : Supported fh) (tagged : Tagged fh)
    (follows : Follows f marked fh) (other : f ≠ o.target) :
    (opPushes fh o).filter (Kevent.names f) = [] ∧ (opEvents fh o).filter (Ev.toggles f) = [] ∧
      Follows f marked (applyOp fh o) := by
  refine ⟨?_,?_,?_⟩
  · rw [List.filter_eq_nil_iff]
    intro k mem
    simp [Kevent.names,opPushesTagged tagged o k mem,Ne.symm other]
  · rw [List.filter_eq_nil_iff]
    intro ev mem
    rcases opEventsTarget fh o ev mem with rfl | rfl <;> simp [Ev.toggles,Ne.symm other]
  · intro e found
    exact follows e (opOther known other ▸ found)

theorem addEntry {κ} [Kq κ] {fh : FdeHead κ} {f e marked} (found : fh.fdes f = some e) (follows : Follows f marked fh) :
    Entry f marked marked (opPushes fh (.add f)) (opEvents fh (.add f)) ∧ Follows f marked (fdeAdd fh f) := by
  obtain ⟨flags,delete⟩ := follows e found
  have before : fh.active f = e.isActive := by simp [FdeHead.active,found]
  have add := fdeAddIo found flags.io
  simp only [opPushes,opEvents,Op.target,applyOp,add,found,flags.io,before,Bool.true_and]
  cases active : e.isActive with
  | true =>
    have same : fdeKevAdd fh f e = fh := by rw [fdeKevAdd,if_pos active]
    rw [same,before,active]
    exact ⟨.none,follows⟩
  | false =>
    obtain ⟨adds,deletes,oneshot⟩ := addedHas e
    rw [flags.oneshot,Bool.or_self] at oneshot
    have stored : (fdeKevAdd fh f e).fdes f = some { e with kev := addedKev e, isActive := true } := by
      simp [fdeKevAdd,active,FdeHead.put]
    have after : (fdeKevAdd fh f e).active f = true := by simp [FdeHead.active,stored]
    rw [after]
    refine ⟨.added _ adds (deletes.trans delete),?_⟩
    intro x here
    cases Option.some.inj (here.symm.trans stored)
    exact ⟨⟨flags.io,flags.udata,oneshot,fun _ => adds⟩,deletes.trans delete⟩

theorem deleteEntry {κ} [Kq κ] {fh : FdeHead κ} {f e marked} (found : fh.fdes f = some e) (follows : Follows f marked fh) :
    ∃ after, Entry f marked after (opPushes fh (.delete f)) (opEvents fh (.delete f)) ∧ Follows f after (fdeDelete fh f) := by
  obtain ⟨flags,delete⟩ := follows e found
  have before : fh.active f = e.isActive := by simp [FdeHead.active,found]
  have removal := fdeDeleteIo found flags.io
  simp only [opPushes,opEvents,Op.target,applyOp,removal,found,flags.io,before,Bool.true_and]
  cases active : e.isActive with
  | false =>
    have same : fdeKevDelete fh f e = fh := by rw [fdeKevDelete,if_pos (by simp [active])]
    rw [same,before,active]
    exact ⟨marked,.none,follows⟩
  | true =>
    obtain ⟨adds,deletes,oneshot⟩ := deletedHas e
    have added := adds.trans (flags.added active)
    have stored : (fdeKevDelete fh f e).fdes f = some { e with kev := deletedKev e, isActive := false } := by
      simp [fdeKevDelete,active,FdeHead.put]
    have after : (fdeKevDelete fh f e).active f = false := by simp [FdeHead.active,stored]
    rw [after]
    refine ⟨true,.deleted _ added deletes,?_⟩
    intro x here
    cases Option.some.inj (here.symm.trans stored)
    exact ⟨⟨flags.io,flags.udata,oneshot.trans flags.oneshot,fun _ => added⟩,deletes⟩

theorem freeEntry {κ} [Kq κ] {fh : FdeHead κ} {f e marked} (known : Supported fh) (found : fh.fdes f = some e)
    (follows : Follows f marked fh) :
    ∃ after, Entry f marked after (opPushes fh (.free f)) (opEvents fh (.free f)) ∧ Follows f after (fdeFree fh f) := by
  obtain ⟨after,entry,_⟩ := deleteEntry found follows
  have gone : (fdeFree fh f).fdes f = none := by rw [freeFdes known,Function.update_self]
  have events : opEvents fh (.free f) = opEvents fh (.delete f) := by
    have off : (fdeFree fh f).active f = false := by simp [FdeHead.active,gone]
    simp only [opEvents,Op.target,applyOp,off,deleteOff known]
  refine ⟨after,by rw [events]; exact entry,?_⟩
  intro x here
  rw [gone] at here
  contradiction

theorem entryNames {f marked after changes events} (entry : Entry f marked after changes events)
    (named : ∀ k ∈ changes, k.udata = some f) :
    Entry f marked after (changes.filter (Kevent.names f)) (events.filter (Ev.toggles f)) := by
  have all : changes.filter (Kevent.names f) = changes := by
    rw [List.filter_eq_self]
    intro k mem
    simp [Kevent.names,named k mem]
  rw [all]
  cases entry with
  | none => exact .none
  | added k add delete => simpa [Ev.toggles] using Entry.added k add delete
  | deleted k add delete => simpa [Ev.toggles] using Entry.deleted k add delete

theorem opEntry {κ} [Kq κ] {fh : FdeHead κ} {inRw o f marked} (lists : Lists fh) (tagged : Tagged fh)
    (follows : Follows f marked fh) (ok : OpAllowed fh inRw o)
    (kept : ∀ fd t fl cb cbdata, o ≠ .create f fd t fl cb cbdata) :
    ∃ after, Entry f marked after ((opPushes fh o).filter (Kevent.names f)) ((opEvents fh o).filter (Ev.toggles f)) ∧
      Follows f after (applyOp fh o) := by
  by_cases target : o.target = f
  · subst f
    have named := opPushesTagged tagged o
    cases o with
    | create f fd t fl cb cbdata => exact absurd rfl (kept fd t fl cb cbdata)
    | add f =>
      obtain ⟨e,found⟩ := Option.isSome_iff_exists.mp ok
      obtain ⟨entry,after⟩ := addEntry found follows
      exact ⟨marked,entryNames entry named,after⟩
    | addTimeout f tv =>
      have timer : fh.typeOf f = some .timer := ok
      obtain ⟨e,found,type⟩ := Option.map_eq_some_iff.mp timer
      have io := (follows e found).1.io
      rw [type] at io
      contradiction
    | delete f =>
      obtain ⟨e,found⟩ := Option.isSome_iff_exists.mp ok
      obtain ⟨after,entry,later⟩ := deleteEntry found follows
      exact ⟨after,entryNames entry named,later⟩
    | free f =>
      obtain ⟨e,found⟩ := Option.isSome_iff_exists.mp ok.1
      obtain ⟨after,entry,later⟩ := freeEntry lists.known found follows
      exact ⟨after,entryNames entry named,later⟩
  · obtain ⟨changes,events,after⟩ := opElsewhere lists.known tagged follows (Ne.symm target)
    rw [changes,events]
    exact ⟨marked,.none,after⟩

/- The callback and the timer loop take an fde that is not for I/O. -/
theorem takenQuiet {κ} [Kq κ] {fh : FdeHead κ} {g t f marked} (lists : Lists fh) (follows : Follows f marked fh)
    (type : fh.typeOf g = some t) (plain : t.io = false) :
    opPushes fh (.delete g) = [] ∧ Follows f marked (fdeDelete fh g) := by
  obtain ⟨e,found,rfl⟩ := Option.map_eq_some_iff.mp type
  refine ⟨by simp [opPushes,found,plain],?_⟩
  have other : f ≠ g := by
    rintro rfl
    have io := (follows e found).1.io
    rw [plain] at io
    contradiction
  intro x here
  exact follows x (deleteOther lists.known other ▸ here)

/- A step that pushes and logs nothing for `f`. -/
structure Quiet {κ} (f : FdeId) (marked : Bool) (s' : State κ) (log : List Ev) (changes : List Kevent) : Prop where
  changes : changes = []
  log : ∃ events, s'.log = log ++ events ∧ events.filter (Ev.toggles f) = []
  follows : Follows f marked s'.head

theorem afterCbQuiet {κ} [Kq κ] {fh : FdeHead κ} {f marked} (lists : Lists fh) (follows : Follows f marked fh) (cur log) :
    Quiet f marked (afterCb cur fh log) log (takenPushes fh (fdeCbNext cur fh)) := by
  unfold afterCb
  split
  · rename_i next
    exact ⟨by rw [next]; rfl,⟨[],by simp,rfl⟩,follows⟩
  · rename_i g fh' next
    rw [next]
    obtain ⟨rest,e,first,_,_,rfl⟩ := cbNextSource next
    have type := ((queued lists g).mp (first ▸ List.mem_cons_self)).2
    obtain ⟨changes,after⟩ := takenQuiet lists follows type rfl
    exact ⟨changes,⟨[.dispatched g],rfl,rfl⟩,after⟩

theorem afterTQuiet {κ} [Kq κ] {fh : FdeHead κ} {f marked} (lists : Lists fh) (follows : Follows f marked fh) (now log) :
    Quiet f marked (afterT now fh log) log (takenPushes fh (fdeTNext now fh)) := by
  unfold afterT
  split
  · rename_i next
    exact ⟨by rw [next]; rfl,⟨[],by simp,rfl⟩,follows⟩
  · rename_i g fh' next
    rw [next]
    obtain ⟨rest,e,first,_,_,rfl⟩ := tNextSource next
    have type := ((timed lists g).mp (first ▸ List.mem_cons_self)).2
    obtain ⟨changes,after⟩ := takenQuiet lists follows type rfl
    exact ⟨changes,⟨[.dispatched g],rfl,rfl⟩,after⟩

theorem afterRwQuiet {κ} {fh : FdeHead κ} {f marked} (follows : Follows f marked fh) (events log) :
    Quiet f marked (afterRw events fh log) log [] := by
  have after := rwNextKept (p := Follows f marked) (fun _ k before => rwEventFollows before k) events follows
  unfold afterRw
  split <;> rename_i next <;> rw [next] at after
  · exact ⟨rfl,⟨[],by simp,rfl⟩,after⟩
  · exact ⟨rfl,⟨[.dispatched _],rfl,rfl⟩,after⟩

theorem quietEntry {κ} {f marked log} {s' : State κ} {changes} (quiet : Quiet f marked s' log changes) :
    ∃ after events, s'.log = log ++ events ∧
      Entry f marked after (changes.filter (Kevent.names f)) (events.filter (Ev.toggles f)) ∧ Follows f after s'.head := by
  obtain ⟨rfl,⟨events,log,none⟩,after⟩ := quiet
  exact ⟨marked,events,log,by rw [none]; exact .none,after⟩

theorem stepEntry {κ} [Kq κ] {s : State κ} {a f marked} (sound : Sound s) (ok : Allowed s a) (tagged : Tagged s.head)
    (follows : Follows f marked s.head) (kept : ¬ a.creates f) :
    ∃ after events, (step s a).log = s.log ++ events ∧
      Entry f marked after ((actPushes s a).filter (Kevent.names f)) (events.filter (Ev.toggles f)) ∧
      Follows f after (step s a).head := by
  cases a with
  | op o =>
    have other : ∀ fd t fl cb cbdata, o ≠ .create f fd t fl cb cbdata := by
      rintro fd t fl cb cbdata rfl
      exact kept rfl
    obtain ⟨after,entry,later⟩ := opEntry sound.lists tagged follows ok other
    exact ⟨after,opEvents s.head o,rfl,entry,later⟩
  | cbRunloop =>
    have lists : Lists { s.head with fCbGenid := s.head.fCbGenid + 1 } :=
      ⟨sound.lists.known,sound.lists.head,sound.lists.cbHead,sound.lists.tHead⟩
    have turned := afterCbQuiet lists follows s.head.fCbGenid s.log
    have pushes (next) : takenPushes { s.head with fCbGenid := s.head.fCbGenid + 1 } next = takenPushes s.head next := by
      cases next <;> rfl
    rw [pushes] at turned
    exact quietEntry turned
  | tRunloop now => exact quietEntry (afterTQuiet sound.lists follows now s.log)
  | rwRunloop kqfd events =>
    have same : Follows f marked { s.head with kqfd := kqfd, pending := { s.head.pending with n := 0 } } := follows
    exact quietEntry (afterRwQuiet same events s.log)
  | ret =>
    simp only [step,actPushes]
    cases s.ctl with
    | outside => exact ⟨marked,[],by simp,.none,follows⟩
    | cbLoop cur => exact quietEntry (afterCbQuiet sound.lists follows cur s.log)
    | tLoop now => exact quietEntry (afterTQuiet sound.lists follows now s.log)
    | rwLoop rest => exact quietEntry (afterRwQuiet follows rest s.log)

theorem entryCons {f marked after changes events more later} (entry : Entry f marked after changes events)
    (marks : List.Forall₂ Marks more later)
    (rest : after = false → (List.Forall₂ Records more later ↔ Ev.deleted f ∉ later)) :
    List.Forall₂ Marks (changes ++ more) (events ++ later) ∧
      (marked = false → (List.Forall₂ Records (changes ++ more) (events ++ later) ↔ Ev.deleted f ∉ events ++ later)) := by
  cases entry with
  | none => exact ⟨marks,rest⟩
  | added k add delete =>
    refine ⟨.cons add marks,?_⟩
    rintro rfl
    have first : Records k (.added f) := ⟨add,delete⟩
    simp only [List.singleton_append,List.forall₂_cons,first,true_and,List.mem_cons,reduceCtorEq,false_or]
    exact rest rfl
  | deleted k add delete =>
    refine ⟨.cons delete marks,fun _ => iff_of_false ?_ (by simp)⟩
    intro all
    have clear := (List.forall₂_cons.mp all).1.2
    rw [add] at clear
    contradiction

structure Ready {κ} (s : State (Recorded κ)) : Prop where
  sound : Sound s
  tagged : Tagged s.head
  bound : s.head.pending.n < fdeHeadMaxevents

theorem stepReady {κ} [Kq κ] {s : State (Recorded κ)} {a} (ready : Ready s) (ok : Allowed s a) :
    Ready (step s a) ∧ Grows s.head (step s a).head (actPushes s a) := by
  have grows : Grows s.head (step s a).head (actPushes s a) := by
    refine stepGrows ready.bound ?_
    rintro kqfd events rfl
    exact ok.2.2.2
  exact ⟨⟨stepSound ready.sound ok,stepTagged ready.sound.lists.known ready.tagged,grows.bound⟩,grows⟩

theorem reachReady {κ} [Kq κ] {s : State (Recorded κ)} (reached : Reach (fdeMachine (Recorded κ)) s) : Ready s := by
  refine reachInvariant (m := fdeMachine (Recorded κ)) ?_ (fun _ _ ready ok => (stepReady ready ok).1) reached
  rintro _ ⟨kqfd,rfl⟩
  exact ⟨initialSound kqfd,by simp [Tagged,initial,fdeCtxNew],Nat.zero_lt_succ 127⟩

theorem runEntries {κ} [Kq κ] {s : State (Recorded κ)} {actions f marked} (ready : Ready s)
    (follows : Follows f marked s.head) (possible : Possible (fdeMachine (Recorded κ)) s actions)
    (kept : ∀ a ∈ actions, ¬ a.creates f) :
    ∃ changes events, (run (fdeMachine (Recorded κ)) s actions).head.sent = s.head.sent ++ changes ∧
      (run (fdeMachine (Recorded κ)) s actions).log = s.log ++ events ∧
      List.Forall₂ Marks (changes.filter (Kevent.names f)) (events.filter (Ev.toggles f)) ∧
      (marked = false → (List.Forall₂ Records (changes.filter (Kevent.names f)) (events.filter (Ev.toggles f)) ↔
        Ev.deleted f ∉ events.filter (Ev.toggles f))) := by
  induction actions generalizing s marked with
  | nil => exact ⟨[],[],by simp [run],by simp [run],.nil,by simp⟩
  | cons a rest ih =>
    obtain ⟨after,events,log,entry,next⟩ :=
      stepEntry ready.sound possible.1 ready.tagged follows (kept a List.mem_cons_self)
    obtain ⟨later,grows⟩ := stepReady ready possible.1
    obtain ⟨more,others,sent,logged,marks,records⟩ := ih later next possible.2
      (fun b mem => kept b (List.mem_cons_of_mem _ mem))
    refine ⟨actPushes s a ++ more,events ++ others,?_,?_,?_⟩
    · rw [← List.append_assoc,← grows.sent]
      exact sent
    · rw [← List.append_assoc,← log]
      exact logged
    · simp only [List.filter_append]
      exact entryCons entry marks records

/- A new I/O fde has neither bit. -/
theorem createFollows {κ} [Kq κ] {fh : FdeHead κ} {f t} (io : t.io = true) (fresh : fh.fdes f = none) (fd fl cb cbdata) :
    Follows f false (applyOp fh (.create f fd t fl cb cbdata)) ∧ opEvents fh (.create f fd t fl cb cbdata) = [] := by
  cases made : fdeCreate fh f fd t fl cb cbdata with
  | none => cases t <;> contradiction
  | some fh' =>
    obtain ⟨e,rfl,off,delete,_,flags⟩ := createdIo io made
    have stored : (applyOp fh (.create f fd t fl cb cbdata)).fdes f = some e := by
      simp [applyOp,made,FdeHead.put]
    constructor
    · intro x here
      cases Option.some.inj (here.symm.trans stored)
      exact ⟨flags,delete⟩
    · have before : fh.active f = false := by simp [FdeHead.active,fresh]
      have after : (applyOp fh (.create f fd t fl cb cbdata)).active f = false := by simp [FdeHead.active,stored,off]
      simp only [opEvents,Op.target,before,after]

/- The life of one I/O fde, from its creation. A delete takes effect through fde_delete or
through fde_free. -/
theorem recordsUnambiguousIff {κ} [Kq κ] {s : State (Recorded κ)} {f fd t fl cb cbdata actions}
    (reached : Reach (fdeMachine (Recorded κ)) s) (io : t.io = true)
    (possible : Possible (fdeMachine (Recorded κ)) s (.op (.create f fd t fl cb cbdata)::actions))
    (kept : ∀ a ∈ actions, ¬ a.creates f) :
    ∃ changes events,
      (run (fdeMachine (Recorded κ)) s (.op (.create f fd t fl cb cbdata)::actions)).head.sent = s.head.sent ++ changes ∧
      (run (fdeMachine (Recorded κ)) s (.op (.create f fd t fl cb cbdata)::actions)).log = s.log ++ events ∧
      List.Forall₂ Marks (changes.filter (Kevent.names f)) (events.filter (Ev.toggles f)) ∧
      (List.Forall₂ Records (changes.filter (Kevent.names f)) (events.filter (Ev.toggles f)) ↔ Ev.deleted f ∉ events) := by
  have created : Allowed s (.op (.create f fd t fl cb cbdata)) := possible.1
  have rest : Possible (fdeMachine (Recorded κ)) (step s (.op (.create f fd t fl cb cbdata))) actions := possible.2
  obtain ⟨follows,silent⟩ := createFollows io created fd fl cb cbdata
  obtain ⟨ready,grows⟩ := stepReady (reachReady reached) created
  obtain ⟨changes,events,sent,log,marks,records⟩ := runEntries ready follows rest kept
  refine ⟨changes,events,?_,?_,marks,?_⟩
  · have same := grows.sent
    simp only [actPushes,opPushes,List.append_nil] at same
    rw [← same]
    exact sent
  · have same : (step s (.op (.create f fd t fl cb cbdata))).log = s.log := by simp [step,silent]
    rw [← same]
    exact log
  · rw [records rfl]
    simp [Ev.toggles]

/- A one-shot read fde is added, fires, and its callback adds it again. -/
def firedRun : List (Act (Recorded Unit)) :=
  [.op (.create 3 7 .read 0 (some 0) 0),.op (.add 3),
    .rwRunloop ⟨(),[[⟨7,.read,0x15#16,0#32,0,some 3⟩]]⟩ [⟨7,.read,0#16,0#32,0,some 3⟩],.op (.add 3),.ret]

def fresh : State (Recorded Unit) := initial ⟨(),[]⟩

set_option maxRecDepth 8000 in
theorem firedPossible : Possible (fdeMachine (Recorded Unit)) fresh firedRun :=
  ⟨(rfl : fresh.head.fdes 3 = none),(rfl : Option.isSome _ = true),
    ⟨rfl,by decide,by simp [NamesLiveIo]; decide,by decide,trivial⟩,
    (rfl : Option.isSome _ = true),nofun,trivial⟩

set_option maxRecDepth 8000 in
theorem recordsUnambiguousFired :
    (run (fdeMachine (Recorded Unit)) fresh firedRun).log = [.added 3,.dispatched 3,.added 3] ∧
    ∃ changes, (run (fdeMachine (Recorded Unit)) fresh firedRun).head.sent = changes ∧
      List.Forall₂ Records (changes.filter (Kevent.names 3)) [.added 3,.added 3] := by
  have logged : (run (fdeMachine (Recorded Unit)) fresh firedRun).log = [.added 3,.dispatched 3,.added 3] := by decide
  obtain ⟨changes,events,sent,log,_,records⟩ := recordsUnambiguousIff (.start ⟨⟨(),[]⟩,rfl⟩) rfl firedPossible
    (by simp [Act.creates])
  have whole : events = [.added 3,.dispatched 3,.added 3] := log.symm.trans logged
  subst whole
  exact ⟨logged,changes,sent,records.mpr (by decide)⟩

def deletedRun : List (Act (Recorded Unit)) := [.op (.create 3 7 .read 0 (some 0) 0),.op (.add 3),.op (.delete 3)]

set_option maxRecDepth 8000 in
/- The record of the delete is EV_ADD | EV_DELETE | EV_ONESHOT. -/
theorem recordsAmbiguous :
    Possible (fdeMachine (Recorded Unit)) fresh deletedRun ∧
    (run (fdeMachine (Recorded Unit)) fresh deletedRun).log = [.added 3,.deleted 3] ∧
    (run (fdeMachine (Recorded Unit)) fresh deletedRun).head.sent =
      [⟨7,.read,0x15#16,0#32,0,some 3⟩,⟨7,.read,0x13#16,0#32,0,some 3⟩] ∧
    ¬ Records ⟨7,.read,0x13#16,0#32,0,some 3⟩ (.deleted 3) :=
  ⟨⟨(rfl : fresh.head.fdes 3 = none),(rfl : Option.isSome _ = true),(rfl : Option.isSome _ = true),trivial⟩,
    by decide,by decide,fun clear => absurd clear.2 (by decide)⟩

end Libiapp.Event
