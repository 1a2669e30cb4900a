import Libiapp.Kernel

/-! User events: the kernel of Kernel.lean with the triggered state of each
registration, fde_ue_push, and when its trigger is accepted. EVFILT_USER events
come back only while they are triggered, and an event that was returned is no
longer triggered, for it was set up with EV_CLEAR or EV_ONESHOT. -/
namespace Libiapp.Event
open Kqueue Runs

def noteFfcopy : BitVec 32 := 0xc0000000#32
def noteTrigger : BitVec 32 := 0x01000000#32

def triggers (k : Kevent) : Bool := k.filter == .user && k.fflags &&& noteTrigger != 0#32

structure Queue where
  kernel : Kernel
  triggered : Key → Bool

-- kqueue(): nothing is registered; which descriptors are closed is up to the process.
def kqueue (closed : Int → Bool) : Queue := ⟨⟨closed,fun _ => none⟩,fun _ => false⟩

def Queue.change (q : Queue) (k : Kevent) : Except Int Queue :=
  match accept q.kernel k with
  | .error e => .error e
  | .ok kernel => .ok ⟨kernel,Function.update q.triggered k.key
      ((kernel.reg k.key).isSome && (triggers k || q.triggered k.key))⟩

def Queue.take (q : Queue) : List Kevent → Option Queue
  | [] => some q
  | k::rest =>
    match q.kernel.take [k] with
    | none => none
    | some kernel =>
      if k.filter = .user ∧ q.triggered k.key = false then none else
        Queue.take ⟨kernel,Function.update q.triggered k.key false⟩ rest

instance : Kq Queue where
  submit := Batch.untilError Queue.change
  Waits q changes q' events := ∃ returned,
    (Batch.each Queue.change q changes).take returned = some q' ∧
      events = (Batch.rejected Queue.change q changes).map errorEntry ++ returned

def Queue.accepts (q : Queue) (k : Kevent) : Bool := (Batch.rejected Queue.change q [k]).isEmpty

/- kevent() with one change and nevents = 0. -/
def Queue.kevent (q : Queue) (k : Kevent) : Queue × Int :=
  (Kq.submit q [k],if q.accepts k then 0 else -1)

def pushedKev (f : FdeId) : Kevent :=
  ⟨f,.user,evEnable ||| evOneshot,noteFfcopy ||| noteTrigger ||| 1#32,0,some f⟩

def fdeUePush (fh : FdeHead Queue) (f : FdeId) : FdeHead Queue × Int :=
  let (kqfd,ret) := fh.kqfd.kevent (pushedKev f)
  ({ fh with kqfd := kqfd },if ret ≠ 1 then 0 else 1)

def userKey (f : FdeId) : Key := (f,.user)

def FdeHead.listed (fh : FdeHead Queue) (f : FdeId) : Bool := (fh.kqfd.kernel.reg (userKey f)).isSome

theorem pushedFlags (f) : has (pushedKev f).flags evAdd = false ∧ has (pushedKev f).flags evDelete = false ∧
    has (pushedKev f).flags evOneshot = true ∧ triggers (pushedKev f) = true := by
  simp only [pushedKev,triggers]
  decide

theorem changeListed {q : Queue} {f r} (listed : q.kernel.reg (userKey f) = some r) : q.change (pushedKev f) =
    .ok ⟨q.kernel.set (userKey f) (some ⟨true,some f⟩),Function.update q.triggered (userKey f) true⟩ := by
  have key : (pushedKev f).key = userKey f := rfl
  obtain ⟨_,noDelete,oneshot,trigger⟩ := pushedFlags f
  have accepted : accept q.kernel (pushedKev f) = .ok (q.kernel.set (userKey f) (some ⟨true,some f⟩)) := by
    unfold accept
    rw [if_neg (by simp [pushedKev]),key,listed]
    simp only [noDelete,oneshot,Bool.false_eq_true,if_false]
    rfl
  simp only [Queue.change,accepted,key,setSelf,trigger,Option.isSome_some,Bool.true_or,Bool.and_self]

theorem changeUnlisted {q : Queue} {f} (unlisted : q.kernel.reg (userKey f) = none) :
    q.change (pushedKev f) = .error eNoent := by
  have key : (pushedKev f).key = userKey f := rfl
  have rejected : accept q.kernel (pushedKev f) = .error eNoent := by
    unfold accept
    rw [if_neg (by simp [pushedKev]),key,unlisted]
    simp only [(pushedFlags f).1,Bool.false_eq_true,if_false]
  simp only [Queue.change,rejected]

/- The kernel takes the trigger, and the event is then registered and triggered. -/
structure Woken (fh : FdeHead Queue) (f : FdeId) : Prop where
  accepted : fh.kqfd.accepts (pushedKev f) = true
  listed : (fdeUePush fh f).1.listed f = true
  triggered : (fdeUePush fh f).1.kqfd.triggered (userKey f) = true

def Told (fh : FdeHead Queue) (f : FdeId) : Prop :=
  (fdeUePush fh f).2 = 1 ↔ fh.kqfd.accepts (pushedKev f) = true

theorem acceptsListed (fh : FdeHead Queue) (f) : fh.kqfd.accepts (pushedKev f) = fh.listed f := by
  unfold Queue.accepts FdeHead.listed
  cases reg : fh.kqfd.kernel.reg (userKey f) with
  | none => simp [Batch.rejected,changeUnlisted reg]
  | some r => simp [Batch.rejected,changeListed reg]

-- kevent() returns the number of events it placed, which is 0 for an accepted change too.
theorem pushReturns (fh : FdeHead Queue) (f) : (fdeUePush fh f).2 = 0 := by
  unfold fdeUePush Queue.kevent
  cases fh.kqfd.accepts (pushedKev f) <;> rfl

theorem pushUnlisted {fh : FdeHead Queue} {f} (unlisted : fh.kqfd.kernel.reg (userKey f) = none) :
    (fdeUePush fh f).1 = fh := by
  have same : Kq.submit fh.kqfd [pushedKev f] = fh.kqfd := by
    simp [Kq.submit,Batch.untilError,changeUnlisted unlisted]
  simp only [fdeUePush,Queue.kevent,same]

theorem wokenIff (fh : FdeHead Queue) (f) : Woken fh f ↔ fh.listed f = true := by
  constructor
  · intro woken
    rw [← acceptsListed]
    exact woken.accepted
  · intro listed
    obtain ⟨r,reg⟩ := Option.isSome_iff_exists.mp listed
    have after : Kq.submit fh.kqfd [pushedKev f] =
        ⟨fh.kqfd.kernel.set (userKey f) (some ⟨true,some f⟩),Function.update fh.kqfd.triggered (userKey f) true⟩ := by
      simp [Kq.submit,Batch.untilError,changeListed reg]
    refine ⟨by rw [acceptsListed]; exact listed,?_,?_⟩
    · simp [FdeHead.listed,fdeUePush,Queue.kevent,after]
    · simp [fdeUePush,Queue.kevent,after]

theorem toldIff (fh : FdeHead Queue) (f) : Told fh f ↔ fh.listed f = false := by
  unfold Told
  rw [acceptsListed,pushReturns]
  simp

/- Nobody asked for the events of the user fde at `f`: there is no registration, no
change on its way, and no active fde whose deletion would push one. -/
structure Unasked (f : FdeId) (fh : FdeHead Queue) : Prop where
  others : ∀ g e, fh.fdes g = some e → g ≠ f → e.kev.key ≠ userKey f
  idle : ∀ e, fh.fdes f = some e → e.isActive = true → e.fType = .timer
  pending : ∀ k ∈ fh.pending.changes, k.key ≠ userKey f
  reg : fh.kqfd.kernel.reg (userKey f) = none

theorem changeKept (key : Key) (q : Queue) (k) (q' : Queue) (here : q.kernel.reg key = none) (apart : k.key ≠ key)
    (accepted : q.change k = .ok q') : q'.kernel.reg key = none := by
  unfold Queue.change at accepted
  split at accepted <;> try contradiction
  rename_i kernel taken
  cases accepted
  obtain ⟨r,rfl⟩ := acceptSource taken
  rw [setOther _ _ apart.symm]
  exact here

theorem takeKept {key : Key} {q q' : Queue} {events} (here : q.kernel.reg key = none)
    (taken : q.take events = some q') : q'.kernel.reg key = none := by
  induction events generalizing q with
  | nil => cases Option.some.inj taken; exact here
  | cons k rest ih =>
    unfold Queue.take at taken
    split at taken <;> try contradiction
    rename_i kernel one
    split at taken <;> try contradiction
    refine ih ?_ taken
    -- The event belongs to a registration, so not to this key.
    unfold Kernel.take at one
    split at one <;> try contradiction
    rename_i r found
    split at one <;> try contradiction
    cases Option.some.inj one
    have apart : key ≠ k.key := by
      rintro rfl
      rw [here] at found
      contradiction
    dsimp only
    split
    · rw [setOther _ _ apart]; exact here
    · exact here

theorem pushUnasked {f} {fh : FdeHead Queue} {k} (h : Unasked f fh) (apart : k.key ≠ userKey f) :
    Unasked f (fdeKqPush fh k) := by
  have fdes := pushFdes fh k
  by_cases room : fh.pending.n < fdeHeadMaxevents - 1
  · obtain ⟨changes,_,kq⟩ := pushRoom k room
    refine ⟨by rw [fdes]; exact h.others,by rw [fdes]; exact h.idle,?_,by rw [kq]; exact h.reg⟩
    rw [changes]
    intro k' mem
    rcases List.mem_append.mp mem with old | new
    · exact h.pending k' old
    · rw [List.mem_singleton.mp new]; exact apart
  · obtain ⟨changes,_,kq⟩ := pushFull k (Nat.not_lt.mp room)
    refine ⟨by rw [fdes]; exact h.others,by rw [fdes]; exact h.idle,?_,?_⟩
    · rw [changes]
      intro k' mem
      rw [List.mem_singleton.mp mem]; exact apart
    · rw [kq]
      exact Batch.untilErrorKept (changeKept (userKey f)) h.reg h.pending

theorem putUnasked {f g} {fh : FdeHead Queue} {e : Fde} (h : Unasked f fh) (other : g ≠ f → e.kev.key ≠ userKey f)
    (own : g = f → e.isActive = true → e.fType = .timer) : Unasked f (fh.put g e) := by
  refine ⟨?_,?_,h.pending,h.reg⟩
  · intro g' e' found apart
    rcases lookupUpdate rfl found with ⟨rfl,rfl⟩ | ⟨_,old⟩
    · exact other apart
    · exact h.others g' e' old apart
  · intro e' found on
    rcases lookupUpdate rfl found with ⟨rfl,rfl⟩ | ⟨_,old⟩
    · exact own rfl on
    · exact h.idle e' old on

theorem createUnasked {f g fd t fl cb cbdata} {fh fh' : FdeHead Queue} (h : Unasked f fh)
    (made : fdeCreate fh g fd t fl cb cbdata = some fh') : Unasked f fh' := by
  simp only [fdeCreate,Option.map_eq_some_iff] at made
  obtain ⟨kev,set,rfl⟩ := made
  refine putUnasked h (fun other => ?_) (by simp)
  -- Only the EV_SET of a user fde names EVFILT_USER, with the fde's own address.
  cases t with
  | user =>
    cases set
    exact fun same => other (Int.ofNat_inj.mp (Prod.mk.inj same).1)
  | _ => cases set <;> simp [Kevent.key,userKey,zeroKevent]

theorem addUnasked {f g} {fh : FdeHead Queue} (h : Unasked f fh) (other : g ≠ f) : Unasked f (fdeAdd fh g) := by
  unfold fdeAdd
  cases found : fh.fdes g with
  | none => exact h
  | some e =>
    have apart := h.others g e found other
    have kev : Unasked f (fdeKevAdd fh g e) := by
      unfold fdeKevAdd
      split
      · exact h
      · have put := putUnasked (pushUnasked h (k := addedKev e) apart) (g := g)
          (e := { e with kev := addedKev e, isActive := true }) (fun _ => apart) (fun same => absurd same other)
        exact ⟨put.others,put.idle,put.pending,put.reg⟩
    have cb : Unasked f (fdeCbAdd fh g e) := by
      unfold fdeCbAdd
      split
      · exact h
      · have put := putUnasked h (g := g) (e := { e with isActive := true, fCbGenid := fh.fCbGenid })
          (fun _ => apart) (fun same => absurd same other)
        exact ⟨put.others,put.idle,put.pending,put.reg⟩
    dsimp only
    split
    · exact kev
    · exact kev
    · exact cb
    · exact kev
    · exact h

theorem addTimeoutUnasked {f g tv} {fh : FdeHead Queue} (h : Unasked f fh) (timer : fh.typeOf g = some .timer) :
    Unasked f (fdeAddTimeout fh g tv) := by
  unfold fdeAddTimeout
  cases found : fh.fdes g with
  | none => exact h
  | some e =>
    have type : e.fType = .timer := by simpa [FdeHead.typeOf,found] using timer
    dsimp only
    split
    · exact h
    · have put := putUnasked h (g := g) (e := { e with isActive := true, tv := tv })
        (fun other => h.others g e found other) (fun _ _ => type)
      exact ⟨put.others,put.idle,put.pending,put.reg⟩

theorem deleteUnasked {f} {fh : FdeHead Queue} (h : Unasked f fh) (g) : Unasked f (fdeDelete fh g) := by
  unfold fdeDelete
  cases found : fh.fdes g with
  | none => exact h
  | some e =>
    have off := putUnasked h (g := g) (e := { e with isActive := false })
      (fun other => h.others g e found other) (by simp)
    have kev (io : e.fType ≠ .timer) : Unasked f (fdeKevDelete fh g e) := by
      unfold fdeKevDelete
      split
      · exact h
      · rename_i on
        -- An active fde at this address would be a timer.
        have other : g ≠ f := by
          rintro rfl
          exact io (h.idle e found (by simpa using on))
        have apart := h.others g e found other
        have put := putUnasked (pushUnasked h (k := deletedKev e) apart) (g := g)
          (e := { e with kev := deletedKev e, isActive := false }) (fun _ => apart) (by simp)
        exact ⟨put.others,put.idle,put.pending,put.reg⟩
    dsimp only
    split
    case h_1 type => exact kev (by simp [type])
    case h_2 type => exact kev (by simp [type])
    case h_3 =>
      unfold fdeCbDelete
      split
      · exact h
      · exact ⟨off.others,off.idle,off.pending,off.reg⟩
    case h_4 =>
      unfold fdeTDelete
      split
      · exact h
      · exact ⟨off.others,off.idle,off.pending,off.reg⟩
    case h_5 type => exact kev (by simp [type])
    case h_6 => exact h

theorem freeUnasked {f} {fh : FdeHead Queue} (h : Unasked f fh) (g) : Unasked f (fdeFree fh g) := by
  unfold fdeFree
  cases found : fh.fdes g with
  | none => exact h
  | some e =>
    have deleted : Unasked f (if e.isActive then fdeDelete fh g else fh) := by
      split
      · exact deleteUnasked h g
      · exact h
    refine ⟨?_,?_,deleted.pending,deleted.reg⟩
    · intro g' e' found' apart
      by_cases same : g' = g
      · subst g'; simp at found'
      · exact deleted.others g' e' (by simpa [same] using found') apart
    · intro e' found' on
      by_cases same : f = g
      · subst g; simp at found'
      · exact deleted.idle e' (by simpa [same] using found') on

theorem opUnasked {f inRw} {fh : FdeHead Queue} {o : Op} (h : Unasked f fh) (allowed : OpAllowed fh inRw o)
    (apart : o ≠ .add f) : Unasked f (applyOp fh o) := by
  cases o with
  | create g fd t fl cb cbdata =>
    simp only [applyOp]
    cases made : fdeCreate fh g fd t fl cb cbdata with
    | none => exact h
    | some fh' => exact createUnasked h made
  | add g => exact addUnasked h (fun same => apart (by rw [same]))
  | addTimeout g tv => exact addTimeoutUnasked h allowed
  | delete g => exact deleteUnasked h g
  | free g => exact freeUnasked h g

theorem rwEventUnasked {f} {fh : FdeHead Queue} (h : Unasked f fh) (k) : Unasked f (fdeRwEvent fh k).1 := by
  rcases rwEventSource fh k with same | ⟨g,e,_,found,_,_,after⟩
  · rw [same]; exact h
  · rw [after]
    have put := putUnasked h (g := g) (e := { e with isActive := false })
      (fun other => h.others g e found other) (by simp)
    exact ⟨put.others,put.idle,put.pending,put.reg⟩

theorem waitsUnasked {f q events} {fh : FdeHead Queue} (h : Unasked f fh)
    (waits : Kq.Waits fh.kqfd fh.pending.changes q events) :
    Unasked f { fh with kqfd := q, pending := { fh.pending with n := 0 } } := by
  obtain ⟨returned,taken,_⟩ := waits
  have submitted := Batch.eachKept (changeKept (userKey f)) h.reg h.pending
  exact ⟨h.others,h.idle,by simp [Pending.changes],takeKept submitted taken⟩

theorem stepUnasked {f} {s : State Queue} {a} (h : Unasked f s.head) (allowed : Allowed s a)
    (apart : a ≠ .op (.add f)) : Unasked f (step s a).head := by
  have turned : Unasked f { s.head with fCbGenid := s.head.fCbGenid + 1 } := ⟨h.others,h.idle,h.pending,h.reg⟩
  refine stepHeadKept h ?_ (fun _ g before => deleteUnasked before g) (fun _ k before => rwEventUnasked before k) turned ?_
  · rintro o rfl
    exact opUnasked h allowed (fun same => apart (by rw [same]))
  · rintro q events rfl
    exact waitsUnasked h allowed.2.2.2

end Libiapp.Event
