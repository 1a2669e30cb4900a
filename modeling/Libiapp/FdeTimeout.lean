import Libiapp.FdeTimers

/-! How long fde_runloop lets kevent() sleep. With a callback queued it does not sleep,
without a timer it sleeps for what the caller allows, and otherwise until the first timer
of f_t_head. The times of the timers come from the schedulers of the two programs, whose
carry lets one second be written as 1000000 microseconds. -/
namespace Libiapp.Event
open Kqueue Runs Words

structure Timespec where
  tvSec : Int64
  tvNsec : Int64
  deriving DecidableEq, Repr

-- What kevent() asks of its timeout.
def Timespec.Valid (ts : Timespec) : Prop := 0 ≤ ts.tvSec ∧ 0 ≤ ts.tvNsec ∧ ts.tvNsec < 1000000000
instance (ts : Timespec) : Decidable ts.Valid := by unfold Timespec.Valid; infer_instance

def fdeTGetTimeout {κ} (fh : FdeHead κ) (tvNow tvTimeout : Timeval) : Timeval :=
  match fh.fTHead with
  | [] => tvTimeout
  | f::_ =>
    let tv := fh.tvOf f
    if timevalCmp tvNow tv ≥ 0 then ⟨0,0⟩
    else if tvNow.tvUsec > tv.tvUsec then ⟨tv.tvSec - tvNow.tvSec - 1,tv.tvUsec + 1000000 - tvNow.tvUsec⟩
    else ⟨tv.tvSec - tvNow.tvSec,tv.tvUsec - tvNow.tvUsec⟩

/- The timeout of the kevent() call of fde_runloop. `tvNow` was read before the callback
and the timer loop, `fh` is what they leave. -/
def fdeRunloopTimespec {κ} (fh : FdeHead κ) (tvNow timeout : Timeval) : Timespec :=
  match fh.fCbHead with
  | _::_ => ⟨0,0⟩
  | [] =>
    let tvSleep := fdeTGetTimeout fh tvNow timeout
    ⟨tvSleep.tvSec,tvSleep.tvUsec*1000⟩

/- The times that srv.c and clt.c give to fde_add_timeout, from a reading of the clock. -/
inductive Scheduler where
  | now
  | second
  | thrcltEvNewconnCb
  | thrsrvRunDeferred
  deriving DecidableEq, Repr

def addUsec (tv : Timeval) (usec second : Int64) : Timeval :=
  let tv := { tv with tvUsec := tv.tvUsec + usec }
  if tv.tvUsec > second then ⟨tv.tvSec + 1,tv.tvUsec - second⟩ else tv

def Scheduler.time (tv : Timeval) : Scheduler → Timeval
  | .now => tv
  | .second => { tv with tvSec := tv.tvSec + 1 }
  | .thrcltEvNewconnCb => addUsec tv 100000 1000000
  | .thrsrvRunDeferred => addUsec tv (100*1000) (1000*1000)

/- A reading is normalised, and one second more is still a time_t. -/
def Timeval.Reading (t : Timeval) : Prop := t.Normal ∧ t.tvSec < Int64.maxValue
instance (t : Timeval) : Decidable t.Reading := by unfold Timeval.Reading; infer_instance

def Scheduled (tv : Timeval) : Prop := ∃ reading scheduler, reading.Reading ∧ tv = Scheduler.time reading scheduler

abbrev ScheduledTimes {κ} (_ : State κ) : Act κ → Prop := OnTimeout (fun _ => Scheduled)

abbrev scheduledMachine (κ : Type) [Kq κ] : Machine (State κ) (Act κ) := (fdeMachine κ).guard ScheduledTimes

structure NearNormal (tv : Timeval) : Prop where
  sec : 0 ≤ tv.tvSec.toInt
  usec : 0 ≤ tv.tvUsec.toInt
  carry : tv.tvUsec.toInt ≤ 1000000

theorem readingSec {tv : Timeval} (reading : tv.Reading) :
    0 ≤ tv.tvSec.toInt ∧ (tv.tvSec + 1).toInt = tv.tvSec.toInt + 1 := by
  have low := normalSec reading.1
  have high : tv.tvSec.toInt < Int64.maxValue.toInt := Int64.lt_iff_toInt_lt.mp reading.2
  rw [show Int64.maxValue.toInt = 0x7fffffffffffffff from rfl] at high
  have one : (1 : Int64).toInt = 1 := rfl
  exact ⟨low,by rw [addToInt (by omega) (by omega),one]⟩

theorem addUsecNear {tv : Timeval} (reading : tv.Reading) : NearNormal (addUsec tv 100000 1000000) := by
  obtain ⟨low,next⟩ := readingSec reading
  obtain ⟨usecLow,usecHigh⟩ := normalUsec reading.1
  have usec : (100000 : Int64).toInt = 100000 := rfl
  have second : (1000000 : Int64).toInt = 1000000 := rfl
  have sum : (tv.tvUsec + 100000).toInt = tv.tvUsec.toInt + 100000 := by
    rw [addToInt (by omega) (by omega),usec]
  unfold addUsec
  dsimp only
  split
  · rename_i over_
    have past : 1000000 < tv.tvUsec.toInt + 100000 := by
      rw [← sum,← second]
      exact Int64.lt_iff_toInt_lt.mp over_
    have rest : (tv.tvUsec + 100000 - 1000000).toInt = tv.tvUsec.toInt + 100000 - 1000000 := by
      rw [subToInt (by omega) (by omega),sum,second]
    exact ⟨by rw [next]; omega,by rw [rest]; omega,by rw [rest]; omega⟩
  · rename_i within
    have most : tv.tvUsec.toInt + 100000 ≤ 1000000 := by
      rw [← sum,← second]
      exact Int64.le_iff_toInt_le.mp (Int64.not_lt.mp within)
    exact ⟨low,by rw [sum]; omega,by rw [sum]; exact most⟩

theorem scheduledNear {tv : Timeval} (scheduled : Scheduled tv) : NearNormal tv := by
  obtain ⟨reading,scheduler,read,rfl⟩ := scheduled
  obtain ⟨low,next⟩ := readingSec read
  obtain ⟨usecLow,usecHigh⟩ := normalUsec read.1
  cases scheduler with
  | now => exact ⟨low,usecLow,Int.le_of_lt usecHigh⟩
  | second => exact ⟨by rw [Scheduler.time,next]; omega,usecLow,Int.le_of_lt usecHigh⟩
  | thrcltEvNewconnCb =>
    rw [Scheduler.time]
    exact addUsecNear read
  | thrsrvRunDeferred =>
    rw [Scheduler.time,show (100*1000 : Int64) = 100000 by decide,show (1000*1000 : Int64) = 1000000 by decide]
    exact addUsecNear read

/- The first timer was given a full second of microseconds, is not due, and the clock
stood at the beginning of a second. -/
def Unlucky {κ} (fh : FdeHead κ) (tvNow : Timeval) : Prop :=
  fh.fCbHead = [] ∧ tvNow.tvUsec = 0 ∧
    ∃ f ∈ fh.fTHead.head?, (fh.tvOf f).tvUsec = 1000000 ∧ tvNow.tvSec ≤ (fh.tvOf f).tvSec

theorem validIff (ts : Timespec) : ts.Valid ↔ 0 ≤ ts.tvSec.toInt ∧ 0 ≤ ts.tvNsec.toInt ∧ ts.tvNsec.toInt < 1000000000 := by
  simp only [Timespec.Valid,Int64.le_iff_toInt_le,Int64.lt_iff_toInt_lt]
  rfl

theorem nsec {usec : Int64} (low : 0 ≤ usec.toInt) (high : usec.toInt ≤ 1000000) :
    (usec*1000).toInt = usec.toInt*1000 := by
  have thousand : (1000 : Int64).toInt = 1000 := rfl
  rw [mulToInt (by rw [thousand]; omega) (by rw [thousand]; omega),thousand]

/- The delta to a timer that is not due, with the borrow as a number. -/
theorem sleepFields {tv tvNow sleep : Timeval} (near : NearNormal tv) (normal : tvNow.Normal)
    (later : ¬ timevalCmp tvNow tv ≥ 0)
    (slept : sleep = if tvNow.tvUsec > tv.tvUsec then ⟨tv.tvSec - tvNow.tvSec - 1,tv.tvUsec + 1000000 - tvNow.tvUsec⟩
      else ⟨tv.tvSec - tvNow.tvSec,tv.tvUsec - tvNow.tvUsec⟩) :
    ∃ borrow, borrow = (if tv.tvUsec.toInt < tvNow.tvUsec.toInt then 1 else 0) ∧
      sleep.tvSec.toInt = tv.tvSec.toInt - tvNow.tvSec.toInt - borrow ∧
      sleep.tvUsec.toInt = tv.tvUsec.toInt - tvNow.tvUsec.toInt + borrow*1000000 := by
  obtain ⟨sec,usec,carry⟩ := near
  have nowSec := normalSec normal
  obtain ⟨nowUsec,nowHigh⟩ := normalUsec normal
  have secHigh := tv.tvSec.toInt_lt
  have second : (1000000 : Int64).toInt = 1000000 := rfl
  have one : (1 : Int64).toInt = 1 := rfl
  rw [ge_iff_le,cmpNonnegFields nowSec nowUsec sec usec] at later
  have delta : (tv.tvSec - tvNow.tvSec).toInt = tv.tvSec.toInt - tvNow.tvSec.toInt := subToInt (by omega) (by omega)
  split at slept <;> subst slept
  · rename_i borrow
    have less : tv.tvUsec.toInt < tvNow.tvUsec.toInt := Int64.lt_iff_toInt_lt.mp borrow
    have lent : (tv.tvSec - tvNow.tvSec - 1).toInt = tv.tvSec.toInt - tvNow.tvSec.toInt - 1 := by
      rw [subToInt (by omega) (by omega),delta,one]
    have filled : (tv.tvUsec + 1000000).toInt = tv.tvUsec.toInt + 1000000 := by
      rw [addToInt (by omega) (by omega),second]
    have rest : (tv.tvUsec + 1000000 - tvNow.tvUsec).toInt = tv.tvUsec.toInt + 1000000 - tvNow.tvUsec.toInt := by
      rw [subToInt (by omega) (by omega),filled]
    exact ⟨1,by rw [if_pos less],lent,by rw [rest]; omega⟩
  · rename_i straight
    have enough : tvNow.tvUsec.toInt ≤ tv.tvUsec.toInt := Int64.le_iff_toInt_le.mp (Int64.not_lt.mp straight)
    have rest : (tv.tvUsec - tvNow.tvUsec).toInt = tv.tvUsec.toInt - tvNow.tvUsec.toInt :=
      subToInt (by omega) (by omega)
    exact ⟨0,by rw [if_neg (by omega)],by rw [delta]; omega,by rw [rest]; omega⟩

/- The borrow makes the delta a normalised time unless the timer carries a full second and
nothing is taken from it. -/
theorem sleepValid {tv tvNow sleep : Timeval} (near : NearNormal tv) (normal : tvNow.Normal)
    (later : ¬ timevalCmp tvNow tv ≥ 0)
    (slept : sleep = if tvNow.tvUsec > tv.tvUsec then ⟨tv.tvSec - tvNow.tvSec - 1,tv.tvUsec + 1000000 - tvNow.tvUsec⟩
      else ⟨tv.tvSec - tvNow.tvSec,tv.tvUsec - tvNow.tvUsec⟩) :
    Timespec.Valid ⟨sleep.tvSec,sleep.tvUsec*1000⟩ ↔ ¬ (tvNow.tvUsec.toInt = 0 ∧ tv.tvUsec.toInt = 1000000) := by
  obtain ⟨borrow,lent,sec,usec⟩ := sleepFields near normal later slept
  have nowSec := normalSec normal
  obtain ⟨nowUsec,nowHigh⟩ := normalUsec normal
  have carry := near.carry
  have low := near.usec
  rw [ge_iff_le,cmpNonnegFields nowSec nowUsec near.sec near.usec] at later
  rw [validIff,nsec (by omega) (by omega),sec,usec]
  omega

theorem unluckyIff {κ} {fh : FdeHead κ} {tvNow : Timeval} {f rest} (queue : fh.fCbHead = []) (list : fh.fTHead = f::rest)
    (near : NearNormal (fh.tvOf f)) (normal : tvNow.Normal) :
    Unlucky fh tvNow ↔ ¬ timevalCmp tvNow (fh.tvOf f) ≥ 0 ∧
      tvNow.tvUsec.toInt = 0 ∧ (fh.tvOf f).tvUsec.toInt = 1000000 := by
  have second : (1000000 : Int64).toInt = 1000000 := rfl
  have none : (0 : Int64).toInt = 0 := rfl
  rw [ge_iff_le,cmpNonnegFields (normalSec normal) (normalUsec normal).1 near.sec near.usec]
  simp only [Unlucky,queue,list,true_and,List.head?_cons,Option.mem_some_iff,exists_eq_left',
    ← Int64.toInt_inj,second,none,Int64.le_iff_toInt_le]
  omega

structure ScheduleSound {κ} (s : State κ) : Prop where
  sound : Sound s
  times : ∀ f ∈ s.head.fTHead, Scheduled (s.head.tvOf f)

theorem reachSchedule {κ} [Kq κ] {s : State κ} (h : Reach (scheduledMachine κ) s) : ScheduleSound s := by
  refine reachInvariant (m := scheduledMachine κ) ?_ ?_ h
  · rintro s ⟨kqfd,rfl⟩
    exact ⟨initialSound kqfd,by simp [initial,fdeCtxNew]⟩
  · intro s a inv possible
    exact ⟨stepSound inv.sound possible.1,stepTimes inv.sound possible.1 inv.times possible.2⟩

theorem timeoutNormal {timeout : Timeval} (normal : timeout.Normal) :
    Timespec.Valid ⟨timeout.tvSec,timeout.tvUsec*1000⟩ := by
  have sec := normalSec normal
  obtain ⟨low,high⟩ := normalUsec normal
  rw [validIff,nsec low (Int.le_of_lt high)]
  dsimp only
  omega

/- `tvNow` may be any reading, before or behind those of the timers. -/
theorem timeoutValidIff {κ} [Kq κ] {s : State κ} {tvNow timeout : Timeval} (h : Reach (scheduledMachine κ) s)
    (now : tvNow.Normal) (normal : timeout.Normal) :
    (fdeRunloopTimespec s.head tvNow timeout).Valid ↔ ¬ Unlucky s.head tvNow := by
  have times := (reachSchedule h).times
  unfold fdeRunloopTimespec
  split
  · rename_i queue
    exact iff_of_true (by decide) fun unlucky => by simp [queue,Unlucky] at unlucky
  · rename_i queue
    dsimp only
    unfold fdeTGetTimeout
    split
    · rename_i list
      exact iff_of_true (timeoutNormal normal) fun unlucky => by simp [list,Unlucky] at unlucky
    · rename_i f rest list
      have near := scheduledNear (times f (list ▸ List.mem_cons_self))
      rw [unluckyIff queue list near now]
      dsimp only
      split
      · rename_i due
        exact iff_of_true (by decide) fun unlucky => unlucky.1 due
      · rename_i later
        rw [sleepValid near now later rfl]
        simp only [later,not_false_eq_true,true_and]

/- thrsrv_run_deferred is called at the beginning of second 5, takes 0.9 s, and is then
scheduled 0.1 s later. -/
def deferredRun : List (Act Unit) :=
  [.op (.create 1 (-1) .timer 0 (some 0) 0),.op (.addTimeout 1 (Scheduler.time ⟨5,0⟩ .now)),.cbRunloop,.tRunloop ⟨5,0⟩,
    .op (.addTimeout 1 (Scheduler.time ⟨5,900000⟩ .thrsrvRunDeferred)),.ret]

theorem deferredReach : Reach (scheduledMachine Unit) (run (scheduledMachine Unit) (initial ()) deferredRun) := by
  have first : Scheduled (Scheduler.time ⟨5,0⟩ .now) := ⟨⟨5,0⟩,.now,by decide,rfl⟩
  have again : Scheduled (Scheduler.time ⟨5,900000⟩ .thrsrvRunDeferred) := ⟨⟨5,900000⟩,.thrsrvRunDeferred,by decide,rfl⟩
  refine reachRun (.start ⟨(),rfl⟩) ?_
  exact ⟨⟨rfl,trivial⟩,⟨rfl,first⟩,⟨rfl,trivial⟩,⟨by decide,trivial⟩,⟨by decide,again⟩,⟨by decide,trivial⟩,trivial⟩

/- The clock reads 5.000001, which is not unlucky. -/
theorem timeoutValidDeferred :
    (fdeRunloopTimespec (run (scheduledMachine Unit) (initial ()) deferredRun).head ⟨5,1⟩ ⟨1,0⟩).Valid := by
  refine (timeoutValidIff deferredReach (by decide) (by decide)).mpr ?_
  rintro ⟨_,zero,_⟩
  exact absurd zero (by decide)

/- fde_runloop has read 5.000000 before it called the timer. -/
theorem timeoutInvalid :
    Reach (scheduledMachine Unit) (run (scheduledMachine Unit) (initial ()) deferredRun) ∧
    (run (scheduledMachine Unit) (initial ()) deferredRun).ctl = .outside ∧
    fdeRunloopTimespec (run (scheduledMachine Unit) (initial ()) deferredRun).head ⟨5,0⟩ ⟨1,0⟩ = ⟨0,1000000000⟩ ∧
    ¬ (fdeRunloopTimespec (run (scheduledMachine Unit) (initial ()) deferredRun).head ⟨5,0⟩ ⟨1,0⟩).Valid :=
  ⟨deferredReach,by decide,by decide,by decide⟩

end Libiapp.Event
