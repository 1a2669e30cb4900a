import Libiapp.FdeUser

/-! thr.c: a group of worker threads, each with an fde_head of its own and a user fde
`f_wakeup` on it, and libiapp_thr_wakeup from any of them to any other. A thread's own
steps are those of the machine of FdeRunloop.lean: its loops, and what its callbacks do.
libiapp_thr_group_stop only ends the loops, and a run may end anywhere. -/
namespace Libiapp.Thr
open Event Kqueue Runs

-- A callback is named by a number.
def libiappThrWakeupCb : Nat := 1

structure LibiappThr where
  h : State Queue
  fWakeup : FdeId

/- The two addresses are those of the fde and of the thread, which calloc() chose. -/
def libiappThrCreate (closed : Int → Bool) (fWakeup t : Nat) : Option LibiappThr :=
  (fdeCreate (fdeCtxNew (kqueue closed)) fWakeup (-1) .user fdeFPersist (some libiappThrWakeupCb) t).map
    (fun h => ⟨⟨h,.outside,[]⟩,fWakeup⟩)

def libiappThrGroupCreate (closed : Int → Bool) : List (Nat × Nat) → Option (List LibiappThr)
  | [] => some []
  | (fWakeup,t)::rest => do
    let thread ← libiappThrCreate closed fWakeup t
    let threads ← libiappThrGroupCreate closed rest
    some (thread::threads)

def libiappThrWakeup (target : LibiappThr) : LibiappThr :=
  { target with h := { target.h with head := (fdeUePush target.h.head target.fWakeup).1 } }

inductive GroupAct where
  | thread (i : Nat) (a : Act Queue)
  | wakeup (target : Nat)

def groupStep (threads : List LibiappThr) : GroupAct → List LibiappThr
  | .thread i a => threads.modify i (fun t => { t with h := step t.h a })
  | .wakeup target => threads.modify target libiappThrWakeup

def GroupAllowed (threads : List LibiappThr) : GroupAct → Prop
  | .thread i a => ∃ t, threads[i]? = some t ∧ Allowed t.h a
  | .wakeup target => target < threads.length

def groupMachine (n : Nat) : Machine (List LibiappThr) GroupAct :=
  ⟨fun threads => ∃ closed places, places.length = n ∧ libiappThrGroupCreate closed places = some threads,
    GroupAllowed,groupStep⟩

def LibiappThr.listed (t : LibiappThr) : Bool := t.h.head.listed t.fWakeup

/- Nothing of f_wakeup has reached the kernel or is on its way to it. -/
def LibiappThr.Unasked (t : LibiappThr) : Prop := Event.Unasked t.fWakeup t.h.head

theorem createdUnasked {closed fWakeup t thread} (created : libiappThrCreate closed fWakeup t = some thread) :
    thread.Unasked := by
  obtain ⟨h,made,rfl⟩ := Option.map_eq_some_iff.mp created
  have empty : Event.Unasked fWakeup (fdeCtxNew (kqueue closed)) :=
    ⟨by simp [fdeCtxNew],by simp [fdeCtxNew],by simp [fdeCtxNew,Pending.changes],rfl⟩
  exact createUnasked empty made

theorem groupUnasked {closed places threads} (created : libiappThrGroupCreate closed places = some threads) :
    ∀ t ∈ threads, t.Unasked := by
  induction places generalizing threads with
  | nil =>
    cases Option.some.inj created
    simp
  | cons place rest ih =>
    simp only [libiappThrGroupCreate,bind,Option.bind_eq_some_iff] at created
    obtain ⟨thread,first,others,later,last⟩ := created
    cases Option.some.inj last
    intro t mem
    rcases List.mem_cons.mp mem with rfl | tail
    · exact createdUnasked first
    · exact ih later t tail

/- What a step does to the thread at one index. -/
def LibiappThr.after (i : Nat) (t : LibiappThr) : GroupAct → LibiappThr
  | .thread j a => if j = i then { t with h := step t.h a } else t
  | .wakeup target => if target = i then libiappThrWakeup t else t

theorem groupStepAt (threads : List LibiappThr) (a i) : (groupStep threads a)[i]? = threads[i]?.map (LibiappThr.after i · a) := by
  cases a with
  | thread j a =>
    simp only [groupStep,LibiappThr.after,List.getElem?_modify]
    split <;> simp
  | wakeup target =>
    simp only [groupStep,LibiappThr.after,List.getElem?_modify]
    split <;> simp

theorem afterWakeup (i) (t : LibiappThr) (a) : (t.after i a).fWakeup = t.fWakeup := by
  cases a <;> simp only [LibiappThr.after] <;> split <;> rfl

theorem afterUnasked {threads : List LibiappThr} {i t a} (found : threads[i]? = some t) (h : t.Unasked)
    (allowed : GroupAllowed threads a) (apart : a ≠ .thread i (.op (.add t.fWakeup))) : (t.after i a).Unasked := by
  cases a with
  | thread j a =>
    simp only [LibiappThr.after]
    split
    · rename_i same
      subst j
      obtain ⟨t',found',possible⟩ := allowed
      cases Option.some.inj (found.symm.trans found')
      exact stepUnasked h possible (fun same => apart (by rw [same]))
    · exact h
  | wakeup target =>
    simp only [LibiappThr.after]
    split
    · -- The kernel rejects the trigger, and the kqueue stays as it was.
      have same := pushUnlisted h.reg
      simp only [LibiappThr.Unasked,libiappThrWakeup,same]
      exact h
    · exact h

theorem runUnasked {n threads actions i t} (possible : Possible (groupMachine n) threads actions)
    (found : threads[i]? = some t) (h : t.Unasked) (never : .thread i (.op (.add t.fWakeup)) ∉ actions) :
    ∃ t', (run (groupMachine n) threads actions)[i]? = some t' ∧ t'.Unasked := by
  induction actions generalizing threads t with
  | nil => exact ⟨t,found,h⟩
  | cons a rest ih =>
    have apart : a ≠ .thread i (.op (.add t.fWakeup)) := fun same => never (by simp [same])
    have next : (groupStep threads a)[i]? = some (t.after i a) := by rw [groupStepAt,found]; rfl
    refine ih possible.2 next (afterUnasked found h possible.1 apart) ?_
    rw [afterWakeup]
    exact fun mem => never (List.mem_cons_of_mem _ mem)

/- The thread at an index is the one that was created there. -/
theorem runFrom {n threads actions} {i : Nat} {t : LibiappThr} (found : (run (groupMachine n) threads actions)[i]? = some t) :
    ∃ t₀, threads[i]? = some t₀ ∧ t.fWakeup = t₀.fWakeup := by
  induction actions generalizing threads with
  | nil => exact ⟨t,found,rfl⟩
  | cons a rest ih =>
    obtain ⟨t₁,next,same⟩ := ih found
    have next : (groupStep threads a)[i]? = some t₁ := next
    rw [groupStepAt] at next
    obtain ⟨t₀,first,rfl⟩ := Option.map_eq_some_iff.mp next
    exact ⟨t₀,first,same.trans (afterWakeup i t₀ a)⟩

section Example
/- Two threads, whose wakeup fdes are at the addresses 1 and 2. -/
def pair : List LibiappThr := (libiappThrGroupCreate (fun _ => false) [(1,3),(2,4)]).getD []

theorem pairCreated : (groupMachine 2).start pair := ⟨fun _ => false,[(1,3),(2,4)],rfl,rfl⟩

def started : Act Queue := .rwRunloop (kqueue fun _ => false) []

def addedQueue : Queue := ⟨⟨fun _ => false,Function.update (fun _ => none) (userKey 2) (some ⟨false,some 2⟩)⟩,
  Function.update (fun _ => false) (userKey 2) false⟩

theorem startedPossible : Possible (groupMachine 2) pair [.thread 0 started,.thread 1 started] :=
  ⟨⟨_,rfl,rfl,by decide,by decide,[],rfl,rfl⟩,⟨_,rfl,rfl,by decide,by decide,[],rfl,rfl⟩,trivial⟩

end Example

/- A wakeup arrives exactly when f_wakeup is registered in the target's kqueue, which takes
an fde_add that thr.c never makes, and then fde_ue_push reports it as failed. -/
theorem wakeupIff {n threads actions i t} (created : (groupMachine n).start threads)
    (possible : Possible (groupMachine n) threads actions)
    (target : (run (groupMachine n) threads actions)[i]? = some t) :
    (Woken t.h.head t.fWakeup ↔ t.listed = true) ∧ (Told t.h.head t.fWakeup ↔ t.listed = false) ∧
      (t.listed = true → .thread i (.op (.add t.fWakeup)) ∈ actions) := by
  refine ⟨wokenIff _ _,toldIff _ _,?_⟩
  intro listed
  obtain ⟨closed,places,_,made⟩ := created
  obtain ⟨t₀,first,same⟩ := runFrom target
  by_contra never
  rw [same] at never
  have unasked := groupUnasked made t₀ (List.mem_of_getElem? first)
  obtain ⟨t',final,later⟩ := runUnasked possible first unasked never
  cases Option.some.inj (target.symm.trans final)
  simp [LibiappThr.listed,FdeHead.listed,later.reg] at listed

set_option maxRecDepth 8000 in
/- The wakeup fde of the second thread was added by one of the callbacks. -/
theorem wakeupAdded : ∃ t, (run (groupMachine 2) pair [.thread 1 (.op (.add 2)),.thread 1 (.rwRunloop addedQueue [])])[1]? =
    some t ∧ Woken t.h.head t.fWakeup := by
  have possible : Possible (groupMachine 2) pair [.thread 1 (.op (.add 2)),.thread 1 (.rwRunloop addedQueue [])] :=
    ⟨⟨_,rfl,rfl⟩,⟨_,rfl,rfl,by decide,by decide,[],rfl,rfl⟩,trivial⟩
  exact ⟨_,rfl,(wakeupIff (i := 1) pairCreated possible rfl).1.mpr rfl⟩

/- Both threads have gone once through fde_runloop, and the first one wakes the second. -/
theorem wakeupLost : ∃ t, Possible (groupMachine 2) pair [.thread 0 started,.thread 1 started,.wakeup 1] ∧
    (run (groupMachine 2) pair [.thread 0 started,.thread 1 started])[1]? = some t ∧
    t.h.head.kqfd.accepts (pushedKev t.fWakeup) = false ∧ (fdeUePush t.h.head t.fWakeup).2 = 0 ∧
    (libiappThrWakeup t).h.head.kqfd.triggered (userKey t.fWakeup) = false := by
  have inside : 1 < (run (groupMachine 2) pair [.thread 0 started,.thread 1 started]).length := by decide
  exact ⟨_,⟨startedPossible.1,startedPossible.2.1,inside,trivial⟩,rfl,by decide,by decide,by decide⟩

end Libiapp.Thr
