import Libiapp.FdeEffect
import Libiapp.Runs

/-! The three dispatch loops of fde.c and the machine they make of an fde_head.
Callbacks are client code: at each dispatch the loop stops (`Ctl` says in which
loop) and any operations may follow before `ret` returns into the loop.
fde_runloop is the three loops one after the other; the machine lets a client
call them in any order. A kevent() call takes what it returned from the action. -/
namespace Libiapp.Event
open Kqueue Runs

def fdeCbNext {κ} [Kq κ] (curGenid : UInt32) (fh : FdeHead κ) : Option (FdeId × FdeHead κ) :=
  match fh.fCbHead with
  | [] => none
  | f::_ =>
    match fh.fdes f with
    | none => none
    | some e => if e.fCbGenid ≠ curGenid then none else some (f,fdeDelete fh f)

def fdeTNext {κ} [Kq κ] (tv : Timeval) (fh : FdeHead κ) : Option (FdeId × FdeHead κ) :=
  match fh.fTHead with
  | [] => none
  | f::_ =>
    match fh.fdes f with
    | none => none
    | some e => if timevalCmp tv e.tv < 0 then none else some (f,fdeDelete fh f)

theorem cbNextSource {κ} [Kq κ] {cur} {fh fh' : FdeHead κ} {f} (next : fdeCbNext cur fh = some (f,fh')) :
    ∃ rest e, fh.fCbHead = f::rest ∧ fh.fdes f = some e ∧ e.fCbGenid = cur ∧ fh' = fdeDelete fh f := by
  unfold fdeCbNext at next
  split at next <;> try contradiction
  rename_i head rest first
  split at next <;> try contradiction
  rename_i e found
  split at next <;> try contradiction
  rename_i stamp
  cases Option.some.inj next
  exact ⟨rest,e,first,found,by simpa using stamp,rfl⟩

theorem tNextSource {κ} [Kq κ] {now} {fh fh' : FdeHead κ} {f} (next : fdeTNext now fh = some (f,fh')) :
    ∃ rest e, fh.fTHead = f::rest ∧ fh.fdes f = some e ∧ 0 ≤ timevalCmp now e.tv ∧ fh' = fdeDelete fh f := by
  unfold fdeTNext at next
  split at next <;> try contradiction
  rename_i head rest first
  split at next <;> try contradiction
  rename_i e found
  split at next <;> try contradiction
  rename_i due
  cases Option.some.inj next
  exact ⟨rest,e,first,found,by simpa using due,rfl⟩

/- EPERM and EPIPE go on to the callback, any other error entry is skipped. -/
def skipError (k : Kevent) : Bool := has k.flags evError && !(k.data == ePerm || k.data == ePipe)

/- One kev_list entry. An fde that does not persist is unlinked by hand, and the
callback is called (`some f`) unless it is NULL. -/
def fdeRwEvent {κ} (fh : FdeHead κ) (k : Kevent) : FdeHead κ × Option FdeId :=
  match k.udata with
  | none => (fh,none)
  | some f =>
    if skipError k then (fh,none) else
      match fh.fdes f with
      | none => (fh,none)
      | some e =>
        if ¬ e.isActive then (fh,none) else
          let called := if e.cb.isSome then some f else none
          if e.persist then (fh,called) else
            ({ fh.put f { e with isActive := false } with fHead := fh.fHead.erase f },called)

/- An entry is passed over, or it names an active fde, which is taken off unless it persists. -/
theorem rwEventSpec {κ} (fh : FdeHead κ) (k) : fdeRwEvent fh k = (fh,none) ∨
    ∃ f e, (k.udata = some f ∧ skipError k = false) ∧ fh.fdes f = some e ∧ e.isActive = true ∧ fdeRwEvent fh k =
      (if e.persist then fh else { fh.put f { e with isActive := false } with fHead := fh.fHead.erase f },
        if e.cb.isSome then some f else none) := by
  unfold fdeRwEvent
  cases k.udata with
  | none => exact Or.inl rfl
  | some f =>
    dsimp only
    split
    · exact Or.inl rfl
    · rename_i clean
      cases found : fh.fdes f with
      | none => exact Or.inl rfl
      | some e =>
        dsimp only
        split
        · exact Or.inl rfl
        · rename_i on
          refine Or.inr ⟨f,e,⟨rfl,by simpa using clean⟩,found,by simpa using on,?_⟩
          split <;> rfl

theorem rwEventSource {κ} (fh : FdeHead κ) (k) : (fdeRwEvent fh k).1 = fh ∨
    ∃ f e, (k.udata = some f ∧ skipError k = false) ∧ fh.fdes f = some e ∧ e.isActive = true ∧ e.persist = false ∧
      (fdeRwEvent fh k).1 = { fh.put f { e with isActive := false } with fHead := fh.fHead.erase f } := by
  rcases rwEventSpec fh k with skipped | ⟨f,e,named,found,on,after⟩
  · exact Or.inl (by rw [skipped])
  · rw [after]
    cases persists : e.persist with
    | true => exact Or.inl rfl
    | false => exact Or.inr ⟨f,e,named,found,on,persists,rfl⟩

def fdeRwNext {κ} : List Kevent → FdeHead κ → FdeHead κ × Option (FdeId × List Kevent)
  | [],fh => (fh,none)
  | k::rest,fh =>
    match fdeRwEvent fh k with
    | (fh,none) => fdeRwNext rest fh
    | (fh,some f) => (fh,some (f,rest))

inductive Ctl where
  | outside
  | cbLoop (curGenid : UInt32)
  | tLoop (now : Timeval)
  | rwLoop (rest : List Kevent)
  deriving DecidableEq, Repr

inductive Ev where
  | added (f : FdeId)
  | deleted (f : FdeId)
  | dispatched (f : FdeId)
  deriving DecidableEq, Repr

structure State (κ : Type) where
  head : FdeHead κ
  ctl : Ctl
  log : List Ev

def Op.target : Op → FdeId
  | .create f .. | .add f | .addTimeout f _ | .delete f | .free f => f

theorem opOther {κ} [Kq κ] {fh : FdeHead κ} {o : Op} {g : FdeId} (known : Supported fh) (different : g ≠ o.target) :
    (applyOp fh o).fdes g = fh.fdes g := by
  cases o with
  | create f fd t fl cb cbdata =>
    simp only [applyOp]
    cases made : fdeCreate fh f fd t fl cb cbdata with
    | none => rfl
    | some fh₁ =>
      obtain ⟨e,rfl,_⟩ := fdeCreateEffect made
      exact Function.update_of_ne different ..
  | add f =>
    rcases fdeAddEffect fh f with same | ⟨_,_,effect,_⟩
    · simp only [applyOp,same]
    · rw [applyOp,effect.fdes]
      exact Function.update_of_ne different ..
  | addTimeout f tv =>
    simp only [applyOp,fdeAddTimeout]
    split
    · rfl
    · split
      · rfl
      · exact Function.update_of_ne different ..
  | delete f => exact deleteOther known different
  | free f => exact freeOther known different

/- An operation took effect when its fde was switched on or off by it. -/
def opEvents {κ} [Kq κ] (fh : FdeHead κ) (o : Op) : List Ev :=
  match fh.active o.target,(applyOp fh o).active o.target with
  | false,true => [.added o.target]
  | true,false => [.deleted o.target]
  | _,_ => []

def afterCb {κ} [Kq κ] (curGenid : UInt32) (fh : FdeHead κ) (log : List Ev) : State κ :=
  match fdeCbNext curGenid fh with
  | none => ⟨fh,.outside,log⟩
  | some (f,fh) => ⟨fh,.cbLoop curGenid,log ++ [.dispatched f]⟩

def afterT {κ} [Kq κ] (now : Timeval) (fh : FdeHead κ) (log : List Ev) : State κ :=
  match fdeTNext now fh with
  | none => ⟨fh,.outside,log⟩
  | some (f,fh) => ⟨fh,.tLoop now,log ++ [.dispatched f]⟩

def afterRw {κ} (rest : List Kevent) (fh : FdeHead κ) (log : List Ev) : State κ :=
  match fdeRwNext rest fh with
  | (fh,none) => ⟨fh,.outside,log⟩
  | (fh,some (f,rest)) => ⟨fh,.rwLoop rest,log ++ [.dispatched f]⟩

inductive Act (κ : Type) where
  | op (o : Op)
  | cbRunloop
  | tRunloop (now : Timeval)
  | rwRunloop (kqfd : κ) (events : List Kevent)
  | ret

def step {κ} [Kq κ] (s : State κ) : Act κ → State κ
  | .op o => ⟨applyOp s.head o,s.ctl,s.log ++ opEvents s.head o⟩
  | .cbRunloop => afterCb s.head.fCbGenid { s.head with fCbGenid := s.head.fCbGenid + 1 } s.log
  | .tRunloop now => afterT now s.head s.log
  | .rwRunloop kqfd events =>
    afterRw events { s.head with kqfd := kqfd, pending := { s.head.pending with n := 0 } } s.log
  | .ret =>
    match s.ctl with
    | .outside => s
    | .cbLoop curGenid => afterCb curGenid s.head s.log
    | .tLoop now => afterT now s.head s.log
    | .rwLoop rest => afterRw rest s.head s.log

/- What one entry of kev_list and fde_delete keep of an fde_head, the loops keep. -/
theorem rwNextKept {κ} {p : FdeHead κ → Prop} (event : ∀ fh k, p fh → p (fdeRwEvent fh k).1) {fh : FdeHead κ} (events)
    (holds : p fh) : p (fdeRwNext events fh).1 := by
  induction events generalizing fh with
  | nil => exact holds
  | cons k rest ih =>
    have first := event fh k holds
    unfold fdeRwNext
    cases called : fdeRwEvent fh k with
    | mk fh' who =>
      rw [called] at first
      cases who with
      | none => exact ih first
      | some f => exact first

/- The other two loops take the first fde off their list with fde_delete, or stop. -/
theorem afterCbTaken {κ} [Kq κ] {p : FdeHead κ → List Ev → Prop} {fh : FdeHead κ} (holds : p fh [])
    (taken : ∀ f ∈ fh.fCbHead, p (fdeDelete fh f) [.dispatched f]) (cur log) :
    ∃ new, (afterCb cur fh log).log = log ++ new ∧ p (afterCb cur fh log).head new := by
  unfold afterCb
  split
  · exact ⟨[],(List.append_nil log).symm,holds⟩
  · rename_i f fh' next
    obtain ⟨rest,e,first,_,_,rfl⟩ := cbNextSource next
    exact ⟨[.dispatched f],rfl,taken f (first ▸ List.mem_cons_self)⟩

theorem afterTTaken {κ} [Kq κ] {p : FdeHead κ → List Ev → Prop} {fh : FdeHead κ} (holds : p fh [])
    (taken : ∀ f ∈ fh.fTHead, p (fdeDelete fh f) [.dispatched f]) (now log) :
    ∃ new, (afterT now fh log).log = log ++ new ∧ p (afterT now fh log).head new := by
  unfold afterT
  split
  · exact ⟨[],(List.append_nil log).symm,holds⟩
  · rename_i f fh' next
    obtain ⟨rest,e,first,_,_,rfl⟩ := tNextSource next
    exact ⟨[.dispatched f],rfl,taken f (first ▸ List.mem_cons_self)⟩

theorem afterCbKept {κ} [Kq κ] {p : FdeHead κ → Prop} {fh : FdeHead κ} (deleted : ∀ f, p (fdeDelete fh f))
    (holds : p fh) (cur log) : p (afterCb cur fh log).head := by
  obtain ⟨_,_,kept⟩ := afterCbTaken (p := fun fh _ => p fh) holds (fun f _ => deleted f) cur log
  exact kept

theorem afterTKept {κ} [Kq κ] {p : FdeHead κ → Prop} {fh : FdeHead κ} (deleted : ∀ f, p (fdeDelete fh f))
    (holds : p fh) (now log) : p (afterT now fh log).head := by
  obtain ⟨_,_,kept⟩ := afterTTaken (p := fun fh _ => p fh) holds (fun f _ => deleted f) now log
  exact kept

theorem afterRwKept {κ} {p : FdeHead κ → Prop} {fh : FdeHead κ} {events} (holds : p (fdeRwNext events fh).1) (log) :
    p (afterRw events fh log).head := by
  unfold afterRw
  split <;> rename_i next <;> rw [next] at holds <;> exact holds

theorem stepHeadKept {κ} [Kq κ] {p : FdeHead κ → Prop} {s : State κ} {a} (holds : p s.head)
    (op : ∀ o, a = .op o → p (applyOp s.head o)) (deleted : ∀ fh f, p fh → p (fdeDelete fh f))
    (event : ∀ fh k, p fh → p (fdeRwEvent fh k).1) (turned : p { s.head with fCbGenid := s.head.fCbGenid + 1 })
    (submitted : ∀ kqfd events, a = .rwRunloop kqfd events →
      p { s.head with kqfd := kqfd, pending := { s.head.pending with n := 0 } }) : p (step s a).head := by
  cases a with
  | op o => exact op o rfl
  | cbRunloop => exact afterCbKept (fun f => deleted _ f turned) turned _ _
  | tRunloop now => exact afterTKept (fun f => deleted _ f holds) holds _ _
  | rwRunloop kqfd events => exact afterRwKept (rwNextKept event events (submitted kqfd events rfl)) _
  | ret =>
    simp only [step]
    split
    · exact holds
    · exact afterCbKept (fun f => deleted _ f holds) holds _ _
    · exact afterTKept (fun f => deleted _ f holds) holds _ _
    · exact afterRwKept (rwNextKept event _ holds) _

def FdeType.io : FdeType → Bool
  | .read | .write | .user => true
  | _ => false

def FdeHead.io {κ} (fh : FdeHead κ) (f : FdeId) : Bool := (fh.fdes f).any (·.fType.io)

def Ctl.inRw : Ctl → Bool
  | .rwLoop _ => true
  | _ => false

/- What fde.h asks of client code: no call on a dangling pointer, timeouts on
timers only, and no I/O fde freed from inside an I/O callback. -/
def OpAllowed {κ} (fh : FdeHead κ) (inRw : Bool) : Op → Prop
  | .create f .. => fh.fdes f = none
  | .add f | .delete f => (fh.fdes f).isSome
  | .addTimeout f _ => fh.typeOf f = some .timer
  | .free f => (fh.fdes f).isSome ∧ (inRw = true → fh.io f = false)

/- The udata of an error entry that is skipped is not followed: comm_cb_cleanup leaves such
entries behind for fdes that are gone. -/
def NamesLiveIo {κ} (fh : FdeHead κ) (events : List Kevent) : Prop :=
  ∀ k ∈ events, skipError k = false → ∀ f ∈ k.udata, fh.io f = true

def Allowed {κ} [Kq κ] (s : State κ) : Act κ → Prop
  | .op o => OpAllowed s.head s.ctl.inRw o
  | .cbRunloop | .tRunloop _ => s.ctl = .outside
  | .rwRunloop kqfd events => s.ctl = .outside ∧ events.length ≤ fdeHeadMaxevents ∧
      NamesLiveIo s.head events ∧ Kq.Waits s.head.kqfd s.head.pending.changes kqfd events
  | .ret => s.ctl ≠ .outside

def initial {κ} (kqfd : κ) : State κ := ⟨fdeCtxNew kqfd,.outside,[]⟩

def fdeMachine (κ : Type) [Kq κ] : Machine (State κ) (Act κ) :=
  ⟨fun s => ∃ kqfd, s = initial kqfd,Allowed,step⟩

instance decidableOpAllowed {κ} (fh : FdeHead κ) (inRw : Bool) : (o : Op) → Decidable (OpAllowed fh inRw o)
  | .create f .. => inferInstanceAs (Decidable (fh.fdes f = none))
  | .add f => inferInstanceAs (Decidable ((fh.fdes f).isSome = true))
  | .delete f => inferInstanceAs (Decidable ((fh.fdes f).isSome = true))
  | .addTimeout f _ => inferInstanceAs (Decidable (fh.typeOf f = some .timer))
  | .free f => inferInstanceAs (Decidable ((fh.fdes f).isSome = true ∧ (inRw = true → fh.io f = false)))

instance {κ} (fh : FdeHead κ) (events) : Decidable (NamesLiveIo fh events) := by
  unfold NamesLiveIo; infer_instance

/- A kqueue of which nothing is known: any events may come back from any call. -/
instance : Kq Unit := ⟨fun _ _ => (),fun _ _ _ _ => True⟩

instance decidableAllowed (s : State Unit) : (a : Act Unit) → Decidable ((fdeMachine Unit).allowed s a)
  | .op o => inferInstanceAs (Decidable (OpAllowed s.head s.ctl.inRw o))
  | .cbRunloop => inferInstanceAs (Decidable (s.ctl = .outside))
  | .tRunloop _ => inferInstanceAs (Decidable (s.ctl = .outside))
  | .rwRunloop _ events => inferInstanceAs (Decidable (s.ctl = .outside ∧ events.length ≤ fdeHeadMaxevents ∧
      NamesLiveIo s.head events ∧ True))
  | .ret => inferInstanceAs (Decidable (s.ctl ≠ .outside))

end Libiapp.Event
