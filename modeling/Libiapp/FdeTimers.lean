import Libiapp.FdeLists
import Libiapp.FdeTime

/-! The order of f_t_head. Removals keep it. fde_add_timeout keeps it except on
its walk: TAILQ_FOREACH stops at the first timer that is earlier than the new one,
which is always the head, so a time behind the second timer and before the last
one is linked too early. -/
namespace Libiapp.Event
open Kqueue Runs

def Ordered (tvOf : FdeId → Timeval) (l : List FdeId) : Prop :=
  l.Pairwise (fun a b => (tvOf a).usecs ≤ (tvOf b).usecs)

def Sorted {κ} (fh : FdeHead κ) : Prop := Ordered fh.tvOf fh.fTHead

/- The new time lies behind the second timer and before the last. -/
def Misplaced (tv : Timeval) (tvOf : FdeId → Timeval) : List FdeId → Prop
  | _::second::rest => (tvOf second).usecs < tv.usecs ∧
      tv.usecs < (tvOf ((second::rest).getLast (List.cons_ne_nil _ _))).usecs
  | _ => False

instance (tv tvOf) : (l : List FdeId) → Decidable (Misplaced tv tvOf l)
  | [] | [_] => isFalse id
  | _::second::rest => inferInstanceAs (Decidable ((tvOf second).usecs < tv.usecs ∧
      tv.usecs < (tvOf ((second::rest).getLast (List.cons_ne_nil _ _))).usecs))

theorem orderedLast {tvOf n} {rest : List FdeId} (ordered : Ordered tvOf (n::rest)) :
    ∀ m ∈ n::rest, (tvOf m).usecs ≤ (tvOf ((n::rest).getLast (by simp))).usecs := by
  induction rest generalizing n with
  | nil => intro m mem; rw [List.mem_singleton.mp mem]; exact Int.le_refl _
  | cons k rest ih =>
    obtain ⟨first,later⟩ := List.pairwise_cons.mp ordered
    intro m mem
    rw [List.getLast_cons (by simp)]
    rcases List.mem_cons.mp mem with rfl | inside
    · exact Int.le_trans (first k List.mem_cons_self) (ih later k List.mem_cons_self)
    · exact ih later m inside

theorem orderedFront {f n tvOf} {rest : List FdeId} (ordered : Ordered tvOf (n::rest))
    (early : (tvOf f).usecs ≤ (tvOf n).usecs) : Ordered tvOf (f::n::rest) := by
  refine List.pairwise_cons.mpr ⟨?_,ordered⟩
  intro m mem
  rcases List.mem_cons.mp mem with rfl | inside
  · exact early
  · exact Int.le_trans early ((List.pairwise_cons.mp ordered).1 m inside)

theorem orderedBehind {f n tvOf} {rest : List FdeId} (ordered : Ordered tvOf (n::rest))
    (late : (tvOf ((n::rest).getLast (by simp))).usecs ≤ (tvOf f).usecs) : Ordered tvOf (n::rest ++ [f]) := by
  refine List.pairwise_append.mpr ⟨ordered,List.pairwise_singleton _ _,?_⟩
  intro m mem g same
  rw [List.mem_singleton.mp same]
  exact Int.le_trans (orderedLast ordered m mem) late

theorem orderedSecond {f n second tvOf} {rest : List FdeId} (ordered : Ordered tvOf (n::second::rest))
    (behind : (tvOf n).usecs ≤ (tvOf f).usecs) :
    Ordered tvOf (n::f::second::rest) ↔ (tvOf f).usecs ≤ (tvOf second).usecs := by
  obtain ⟨first,later⟩ := List.pairwise_cons.mp ordered
  constructor
  · intro placed
    exact (List.pairwise_cons.mp (List.pairwise_cons.mp placed).2).1 second List.mem_cons_self
  · intro before
    refine List.pairwise_cons.mpr ⟨?_,orderedFront later before⟩
    intro m mem
    rcases List.mem_cons.mp mem with rfl | inside
    · exact behind
    · exact first m inside

theorem timerInsertOrdered {f tv tvOf} {l : List FdeId} (self : tvOf f = tv) (normal : tv.Normal)
    (normals : ∀ n ∈ l, (tvOf n).Normal) (ordered : Ordered tvOf l) :
    Ordered tvOf (timerInsert f tv tvOf l) ↔ ¬ Misplaced tv tvOf l := by
  subst tv
  cases l with
  | nil => simp [timerInsert,Ordered,Misplaced]
  | cons n rest =>
    have normalN := normals n List.mem_cons_self
    have lastMem : (n::rest).getLast (by simp) ∈ n::rest := List.getLast_mem _
    simp only [timerInsert]
    split
    · rename_i early
      rw [cmpNonpos normal normalN] at early
      refine iff_of_true (orderedFront ordered early) ?_
      cases rest with
      | nil => simp [Misplaced]
      | cons second rest =>
        have := (List.pairwise_cons.mp ordered).1 second List.mem_cons_self
        simp only [Misplaced]
        omega
    · rename_i notEarly
      rw [cmpNonpos normal normalN] at notEarly
      split
      · rename_i late
        rw [ge_iff_le,cmpNonneg normal (normals _ lastMem)] at late
        refine iff_of_true (orderedBehind ordered late) ?_
        cases rest with
        | nil => simp [Misplaced]
        | cons second rest =>
          rw [List.getLast_cons (by simp)] at late
          simp only [Misplaced]
          omega
      · -- the walk: the head is already earlier, so it stops there
        rename_i notLate
        rw [ge_iff_le,cmpNonneg normal (normals _ lastMem)] at notLate
        have stops : (decide (timevalCmp (tvOf f) (tvOf n) > 0)) = true := by
          have := cmpNonpos normal normalN
          simp only [decide_eq_true_eq]
          omega
        rw [walkInsert,if_pos stops]
        cases rest with
        | nil => simp only [List.getLast_singleton] at notLate; omega
        | cons second rest =>
          rw [List.getLast_cons (by simp)] at notLate
          rw [orderedSecond ordered (by omega)]
          simp only [Misplaced]
          omega

/- What every step but an effective fde_add_timeout does to the timers. -/
structure TimerFrame {κ} (fh fh' : FdeHead κ) : Prop where
  list : fh'.fTHead.Sublist fh.fTHead
  times : ∀ f ∈ fh'.fTHead, fh'.tvOf f = fh.tvOf f

theorem timerFrameTrans {κ} {a b c : FdeHead κ} (first : TimerFrame a b) (second : TimerFrame b c) :
    TimerFrame a c :=
  ⟨second.list.trans first.list,
    fun f mem => (second.times f mem).trans (first.times f (second.list.subset mem))⟩

theorem sameTimers {κ} {fh fh' : FdeHead κ} (fdes : fh'.fdes = fh.fdes) (list : fh'.fTHead = fh.fTHead) :
    TimerFrame fh fh' :=
  ⟨by rw [list],fun f _ => by simp only [FdeHead.tvOf,fdes]⟩

theorem frameOrdered {κ} {fh fh' : FdeHead κ} (frame : TimerFrame fh fh') (sorted : Sorted fh) : Sorted fh' := by
  refine (List.Pairwise.sublist frame.list sorted).imp_of_mem ?_
  intro a b memA memB le
  rw [frame.times a memA,frame.times b memB]
  exact le

theorem tvUpdate {κ} {fh fh' : FdeHead κ} {f e'} (fdes : fh'.fdes = Function.update fh.fdes f (some e')) (g) :
    fh'.tvOf g = if g = f then e'.tv else fh.tvOf g := by
  unfold FdeHead.tvOf
  rw [fdes]
  by_cases same : g = f
  · subst g; simp
  · simp [same]

theorem inactiveUnlisted {κ} {fh : FdeHead κ} {f} (lists : Lists fh) (off : fh.active f = false) : f ∉ fh.fTHead := by
  simp [timed lists,off]

theorem deactivatesTimers {κ} {fh fh' : FdeHead κ} {f e e'} (effect : Deactivates fh fh' f e e') :
    TimerFrame fh fh' := by
  constructor
  · rw [effect.tHead]
    split
    · exact List.erase_sublist
    · exact List.Sublist.refl _
  · intro g _
    rw [tvUpdate effect.fdes,effect.tv]
    by_cases same : g = f
    · subst g; simp [FdeHead.tvOf,effect.found]
    · rw [if_neg same]

theorem deleteTimers {κ} [Kq κ] {fh : FdeHead κ} (lists : Lists fh) (f) : TimerFrame fh (fdeDelete fh f) := by
  rcases fdeDeleteEffect lists.known f with ⟨same,_⟩ | ⟨e,e',effect⟩
  · rw [same]; exact sameTimers rfl rfl
  · exact deactivatesTimers effect

/- The entry of an fde that is on no list may change in any way. -/
theorem unlistedTimers {κ} {fh fh' : FdeHead κ} {f new} (lists : Lists fh) (off : fh.active f = false)
    (fdes : fh'.fdes = Function.update fh.fdes f new) (list : fh'.fTHead = fh.fTHead) : TimerFrame fh fh' := by
  refine ⟨by rw [list],?_⟩
  intro g mem
  have other : g ≠ f := by
    intro same
    rw [same,list] at mem
    exact inactiveUnlisted lists off mem
  simp [FdeHead.tvOf,fdes,other]

def Op.setsTimer {κ} (fh : FdeHead κ) : Op → Prop
  | .addTimeout f _ => fh.active f = false
  | _ => False

theorem opTimers {κ} [Kq κ] {fh : FdeHead κ} {inRw o} (lists : Lists fh) (ok : OpAllowed fh inRw o)
    (other : ¬ o.setsTimer fh) : TimerFrame fh (applyOp fh o) := by
  cases o with
  | create f fd t fl cb cbdata =>
    simp only [applyOp]
    cases made : fdeCreate fh f fd t fl cb cbdata with
    | none => exact sameTimers rfl rfl
    | some fh' =>
      obtain ⟨e,rfl,_⟩ := fdeCreateEffect made
      have fresh : fh.fdes f = none := ok
      exact unlistedTimers lists (by simp [FdeHead.active,fresh]) rfl rfl
  | add f =>
    rcases fdeAddEffect fh f with same | ⟨e,e',effect,type⟩
    · rw [applyOp,same]; exact sameTimers rfl rfl
    · have off : fh.active f = false := by simp [FdeHead.active,effect.found,effect.idle]
      exact unlistedTimers lists off effect.fdes (by rw [applyOp,effect.tHead,if_neg type])
  | addTimeout f tv =>
    have on : fh.active f = true := by simpa [Op.setsTimer] using other
    rcases fdeAddTimeoutEffect fh f tv ok with ⟨same,_⟩ | ⟨e,e',effect,_⟩
    · rw [applyOp,same]; exact sameTimers rfl rfl
    · simp [FdeHead.active,effect.found,effect.idle] at on
  | delete f => exact deleteTimers lists f
  | free f =>
    rw [applyOp,fdeFreeEq lists.known]
    exact timerFrameTrans (deleteTimers lists f)
      (unlistedTimers (deleteLists lists f) (deleteOff lists.known f) rfl rfl)

theorem rwNextTimers {κ} {events} {fh : FdeHead κ} (lists : Lists fh) (live : NamesLiveIo fh events) :
    TimerFrame fh (fdeRwNext events fh).1 := by
  induction events generalizing fh with
  | nil => exact sameTimers rfl rfl
  | cons k rest ih =>
    have io := live k List.mem_cons_self
    have after := rwEventLists lists io
    have tail := liveTail live
    have frame : TimerFrame fh (fdeRwEvent fh k).1 := by
      rcases rwEventEffect io with same | ⟨f,e,e',effect⟩
      · rw [same]; exact sameTimers rfl rfl
      · exact deactivatesTimers effect
    unfold fdeRwNext
    cases called : fdeRwEvent fh k with
    | mk fh' who =>
      rw [called] at after tail frame
      cases who with
      | none => exact timerFrameTrans frame (ih after tail)
      | some f => exact frame

theorem misplacedCongr {tv tvOf tvOf'} {l : List FdeId} (same : ∀ n ∈ l, tvOf' n = tvOf n) :
    Misplaced tv tvOf' l ↔ Misplaced tv tvOf l := by
  match l with
  | [] | [_] => exact Iff.rfl
  | first::second::rest =>
    simp only [Misplaced]
    rw [same second (by simp),same _ (List.mem_cons_of_mem _ (List.getLast_mem _))]

structure Timers {κ} (fh : FdeHead κ) : Prop where
  lists : Lists fh
  normal : ∀ f ∈ fh.fTHead, (fh.tvOf f).Normal

/- What holds of every time that is given holds of every time on the list. -/
theorem frameTimes {κ} {p : Timeval → Prop} {fh fh' : FdeHead κ} (times : ∀ f ∈ fh.fTHead, p (fh.tvOf f))
    (frame : TimerFrame fh fh') : ∀ f ∈ fh'.fTHead, p (fh'.tvOf f) := by
  intro f mem
  rw [frame.times f mem]
  exact times f (frame.list.subset mem)

theorem addTimeoutOthers {κ} {fh fh' : FdeHead κ} {f e e'} (lists : Lists fh) (effect : Activates fh fh' f e e') :
    ∀ n ∈ fh.fTHead, fh'.tvOf n = fh.tvOf n := by
  intro n mem
  have off : fh.active f = false := by simp [FdeHead.active,effect.found,effect.idle]
  rw [tvUpdate effect.fdes,if_neg]
  rintro rfl
  exact inactiveUnlisted lists off mem

theorem addTimeoutTimes {κ} [Kq κ] {p : Timeval → Prop} {fh : FdeHead κ} {f tv} (lists : Lists fh)
    (times : ∀ f ∈ fh.fTHead, p (fh.tvOf f)) (given : p tv) (timer : fh.typeOf f = some .timer) :
    ∀ n ∈ (fdeAddTimeout fh f tv).fTHead, p ((fdeAddTimeout fh f tv).tvOf n) := by
  rcases fdeAddTimeoutEffect fh f tv timer with ⟨same,_⟩ | ⟨e,e',effect,type,time⟩
  · rw [same]; exact times
  · intro n mem
    rw [effect.tHead,if_pos type,time,← List.count_pos_iff,timerInsertCount] at mem
    by_cases same : f = n
    · subst n
      rw [tvUpdate effect.fdes,if_pos rfl,time]
      exact given
    · rw [if_neg same] at mem
      have listed := List.count_pos_iff.mp mem
      rw [addTimeoutOthers lists effect n listed]
      exact times n listed

theorem addTimeoutTimers {κ} [Kq κ] {fh : FdeHead κ} {f tv} (timers : Timers fh) (normal : tv.Normal)
    (timer : fh.typeOf f = some .timer) (off : fh.active f = false) :
    Timers (fdeAddTimeout fh f tv) ∧
      (Sorted fh → (Sorted (fdeAddTimeout fh f tv) ↔ ¬ Misplaced tv fh.tvOf fh.fTHead)) := by
  rcases fdeAddTimeoutEffect fh f tv timer with ⟨_,on⟩ | ⟨e,e',effect,type,time⟩
  · rw [off] at on; contradiction
  · have self : (fdeAddTimeout fh f tv).tvOf f = tv := by rw [tvUpdate effect.fdes,if_pos rfl,time]
    have others := addTimeoutOthers timers.lists effect
    have normals : ∀ n ∈ fh.fTHead, ((fdeAddTimeout fh f tv).tvOf n).Normal := by
      intro n mem
      rw [others n mem]
      exact timers.normal n mem
    have list := effect.tHead
    rw [if_pos type,time] at list
    constructor
    · exact ⟨activatesLists timers.lists effect,addTimeoutTimes timers.lists timers.normal normal timer⟩
    · intro sorted
      have ordered : Ordered (fdeAddTimeout fh f tv).tvOf fh.fTHead := by
        refine List.Pairwise.imp_of_mem ?_ sorted
        intro a b memA memB le
        rw [others a memA,others b memB]
        exact le
      rw [Sorted,list,timerInsertOrdered self normal normals ordered,misplacedCongr others]

def OnTimeout {κ} (p : FdeId → Timeval → Prop) : Act κ → Prop
  | .op (.addTimeout f tv) => p f tv
  | _ => True

instance {κ} (p : FdeId → Timeval → Prop) [∀ f tv, Decidable (p f tv)] : (a : Act κ) → Decidable (OnTimeout p a)
  | .op (.addTimeout f tv) => inferInstanceAs (Decidable (p f tv))
  | .op (.create ..) | .op (.add _) | .op (.delete _) | .op (.free _) => isTrue trivial
  | .cbRunloop | .tRunloop _ | .rwRunloop .. | .ret => isTrue trivial

/- Timeouts are given as normalised times. -/
abbrev NormalTimes {κ} (_ : State κ) : Act κ → Prop := OnTimeout (fun _ tv => tv.Normal)

abbrev timerMachine (κ : Type) [Kq κ] : Machine (State κ) (Act κ) := (fdeMachine κ).guard NormalTimes

/- A timer that is really added does not go behind the second timer and before
the last one of the list. -/
abbrev InOrder {κ} (s : State κ) : Act κ → Prop :=
  OnTimeout (fun f tv => s.head.active f = true ∨ ¬ Misplaced tv s.head.tvOf s.head.fTHead)

/- Only an effective fde_add_timeout does more than take timers away. -/
theorem stepFrame {κ} [Kq κ] {s : State κ} {a} (sound : Sound s) (ok : Allowed s a)
    (other : ∀ f tv, a = .op (.addTimeout f tv) → s.head.active f = true) :
    TimerFrame s.head (step s a).head := by
  have lists := sound.lists
  cases a with
  | op o =>
    refine opTimers lists ok ?_
    cases o with
    | addTimeout f tv => simpa [Op.setsTimer] using other f tv rfl
    | _ => exact id
  | cbRunloop =>
    have lists' : Lists { s.head with fCbGenid := s.head.fCbGenid + 1 } :=
      ⟨lists.known,lists.head,lists.cbHead,lists.tHead⟩
    have turned : TimerFrame s.head { s.head with fCbGenid := s.head.fCbGenid + 1 } := sameTimers rfl rfl
    exact timerFrameTrans turned (afterCbKept (deleteTimers lists') (sameTimers rfl rfl) _ _)
  | tRunloop now => exact afterTKept (deleteTimers lists) (sameTimers rfl rfl) now s.log
  | rwRunloop kqfd events =>
    have lists' : Lists { s.head with kqfd := kqfd, pending := { s.head.pending with n := 0 } } :=
      ⟨lists.known,lists.head,lists.cbHead,lists.tHead⟩
    have taken : TimerFrame s.head { s.head with kqfd := kqfd, pending := { s.head.pending with n := 0 } } :=
      sameTimers rfl rfl
    exact timerFrameTrans taken (afterRwKept (rwNextTimers lists' ok.2.2.1) s.log)
  | ret =>
    simp only [step]
    split
    · exact sameTimers rfl rfl
    · exact afterCbKept (deleteTimers lists) (sameTimers rfl rfl) _ _
    · exact afterTKept (deleteTimers lists) (sameTimers rfl rfl) _ _
    · rename_i rest inRw
      exact afterRwKept (rwNextTimers lists (sound.rest rest inRw)) _

theorem stepTimes {κ} [Kq κ] {p : Timeval → Prop} {s : State κ} {a} (sound : Sound s) (ok : Allowed s a)
    (times : ∀ f ∈ s.head.fTHead, p (s.head.tvOf f)) (given : OnTimeout (fun _ => p) a) :
    ∀ f ∈ (step s a).head.fTHead, p ((step s a).head.tvOf f) := by
  by_cases sets : ∃ f tv, a = .op (.addTimeout f tv)
  · obtain ⟨f,tv,rfl⟩ := sets
    exact addTimeoutTimes sound.lists times given ok
  · exact frameTimes times (stepFrame sound ok fun f tv same => absurd ⟨f,tv,same⟩ sets)

theorem stepTimers {κ} [Kq κ] {s : State κ} {a} (sound : Sound s) (timers : Timers s.head) (ok : Allowed s a)
    (normal : NormalTimes s a) :
    Timers (step s a).head ∧ (Sorted s.head → (Sorted (step s a).head ↔ InOrder s a)) := by
  by_cases sets : ∃ f tv, a = .op (.addTimeout f tv) ∧ s.head.active f = false
  · obtain ⟨f,tv,rfl,off⟩ := sets
    obtain ⟨kept,sorted⟩ := addTimeoutTimers timers normal ok off
    refine ⟨kept,fun before => ?_⟩
    simpa only [InOrder,OnTimeout,step,applyOp,off,Bool.false_eq_true,false_or] using sorted before
  · have other : ∀ f tv, a = .op (.addTimeout f tv) → s.head.active f = true := by
      intro f tv same
      by_contra off
      exact sets ⟨f,tv,same,by simpa using off⟩
    have frame := stepFrame sound ok other
    refine ⟨⟨(stepSound sound ok).lists,frameTimes timers.normal frame⟩,fun before => ?_⟩
    refine iff_of_true (frameOrdered frame before) ?_
    cases a with
    | op o =>
      cases o with
      | addTimeout f tv => exact Or.inl (other f tv rfl)
      | _ => trivial
    | _ => trivial

structure TimerSound {κ} (s : State κ) : Prop where
  sound : Sound s
  timers : Timers s.head

theorem initialTimers {κ} (kqfd : κ) : TimerSound (initial kqfd) :=
  ⟨initialSound kqfd,(initialSound kqfd).lists,by simp [initial,fdeCtxNew]⟩

theorem stepTimerSound {κ} [Kq κ] {s : State κ} {a} (inv : TimerSound s) (ok : (timerMachine κ).allowed s a) :
    TimerSound (step s a) :=
  ⟨stepSound inv.sound ok.1,(stepTimers inv.sound inv.timers ok.1 ok.2).1⟩

theorem reachTimers {κ} [Kq κ] {s : State κ} (reached : Reach (timerMachine κ) s) : TimerSound s := by
  refine reachInvariant (m := timerMachine κ) ?_ (fun _ _ inv ok => stepTimerSound inv ok) reached
  rintro _ ⟨kqfd,rfl⟩
  exact initialTimers kqfd

theorem timersSortedIff {κ} [Kq κ] {kqfd : κ} {actions}
    (possible : Possible (timerMachine κ) (initial kqfd) actions) :
    Along (timerMachine κ) (fun s => Sorted s.head) (initial kqfd) actions ↔
      Each (timerMachine κ) InOrder (initial kqfd) actions := by
  refine alongIffEach (fun _ _ inv ok _ => stepTimerSound inv ok) ?_ (initialTimers kqfd) List.Pairwise.nil possible
  intro s a inv ok sorted
  exact (stepTimers inv.sound inv.timers ok.1 ok.2).2 sorted

instance (tvOf : FdeId → Timeval) (l : List FdeId) : Decidable (Ordered tvOf l) := by
  unfold Ordered; infer_instance

def fourTimers : List (Act Unit) :=
  [.op (.create 1 (-1) .timer 0 (some 0) 0),.op (.create 2 (-1) .timer 0 (some 0) 0),
    .op (.create 3 (-1) .timer 0 (some 0) 0),.op (.create 4 (-1) .timer 0 (some 0) 0)]

/- A timer that is due at 2 fires; its callback deletes the last timer and arms
itself again as the new last one. -/
def orderedRun : List (Act Unit) :=
  fourTimers ++ [.op (.addTimeout 1 ⟨5,0⟩),.op (.addTimeout 2 ⟨2,0⟩),.op (.addTimeout 3 ⟨9,0⟩),
    .tRunloop ⟨3,0⟩,.op (.delete 3),.op (.addTimeout 2 ⟨7,0⟩),.ret]

theorem timersSortedRun :
    Along (timerMachine Unit) (fun s => Sorted s.head) (initial ()) orderedRun ∧
      (run (timerMachine Unit) (initial ()) orderedRun).head.fTHead = [1,2] :=
  ⟨(timersSortedIff (by decide)).mpr (by decide),by decide⟩

/- Timers at 1, 3 and 10; the one at 5 is linked right behind the first. -/
def misplacedRun : List (Act Unit) :=
  fourTimers ++ [.op (.addTimeout 1 ⟨1,0⟩),.op (.addTimeout 2 ⟨3,0⟩),.op (.addTimeout 3 ⟨10,0⟩),
    .op (.addTimeout 4 ⟨5,0⟩)]

theorem timersUnsorted : Reach (timerMachine Unit) (run (timerMachine Unit) (initial ()) misplacedRun) ∧
    ¬ Sorted (run (timerMachine Unit) (initial ()) misplacedRun).head := by
  refine ⟨reachRun (.start ⟨(),rfl⟩) (by decide),?_⟩
  unfold Sorted
  decide

end Libiapp.Event
