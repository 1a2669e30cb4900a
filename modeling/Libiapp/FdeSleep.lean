import Libiapp.FdeTimeout

/-! The sleep of fde_runloop in numbers. With normalised times fde_t_get_timeout returns the
exact distance to the first timer of f_t_head. The cap by the caller's timeout that its
comment speaks of is not in the code, and no other timer of the list is looked at. -/
namespace Libiapp.Event
open Kqueue Runs

def Timespec.nsecs (ts : Timespec) : Int := ts.tvSec.toInt*1000000000 + ts.tvNsec.toInt

theorem normalNear {tv : Timeval} (normal : tv.Normal) : NearNormal tv := by
  obtain ⟨low,high⟩ := normalUsec normal
  exact ⟨normalSec normal,low,Int.le_of_lt high⟩

theorem sleepExact {κ} {fh : FdeHead κ} {tvNow f rest} (timeout : Timeval) (list : fh.fTHead = f::rest)
    (now : tvNow.Normal) (normal : (fh.tvOf f).Normal) :
    (fdeTGetTimeout fh tvNow timeout).Normal ∧
      (fdeTGetTimeout fh tvNow timeout).usecs = max 0 ((fh.tvOf f).usecs - tvNow.usecs) := by
  unfold fdeTGetTimeout
  rw [list]
  dsimp only
  split
  · rename_i due
    rw [ge_iff_le,cmpNonneg now normal] at due
    exact ⟨by decide,by rw [show Timeval.usecs ⟨0,0⟩ = 0 from rfl]; omega⟩
  · rename_i later
    obtain ⟨borrow,lent,sec,usec⟩ := sleepFields (normalNear normal) now later rfl
    rw [ge_iff_le,cmpNonneg now normal] at later
    obtain ⟨nowLow,nowHigh⟩ := normalUsec now
    obtain ⟨low,high⟩ := normalUsec normal
    rw [normalIff]
    unfold Timeval.usecs at later ⊢
    omega

/- What fde_runloop makes of a normalised sleep. -/
theorem timespecExact {κ} {fh : FdeHead κ} {tvNow timeout : Timeval} (queue : fh.fCbHead = [])
    (normal : (fdeTGetTimeout fh tvNow timeout).Normal) :
    (fdeRunloopTimespec fh tvNow timeout).Valid ∧
    (fdeRunloopTimespec fh tvNow timeout).tvNsec.toInt = (fdeTGetTimeout fh tvNow timeout).tvUsec.toInt*1000 ∧
    (fdeRunloopTimespec fh tvNow timeout).nsecs = (fdeTGetTimeout fh tvNow timeout).usecs*1000 := by
  obtain ⟨low,high⟩ := normalUsec normal
  have scaled := nsec low (Int.le_of_lt high)
  have passed : fdeRunloopTimespec fh tvNow timeout =
      ⟨(fdeTGetTimeout fh tvNow timeout).tvSec,(fdeTGetTimeout fh tvNow timeout).tvUsec*1000⟩ := by
    simp only [fdeRunloopTimespec,queue]
  rw [passed]
  refine ⟨timeoutNormal normal,scaled,?_⟩
  simp only [Timespec.nsecs,Timeval.usecs,scaled]
  omega

/- The caller's timeout has no part in it. -/
theorem timeArithmeticExact {κ} :
    (∀ a b : Timeval, a.Normal → b.Normal →
      (timevalCmp a b < 0 ↔ a.usecs < b.usecs) ∧ (timevalCmp a b = 0 ↔ a.usecs = b.usecs) ∧
      (0 < timevalCmp a b ↔ b.usecs < a.usecs)) ∧
    ∀ (fh : FdeHead κ) (tvNow timeout : Timeval) f rest, fh.fTHead = f::rest → tvNow.Normal → (fh.tvOf f).Normal →
      (fdeTGetTimeout fh tvNow timeout).Normal ∧
      ((fh.tvOf f).usecs ≤ tvNow.usecs → (fdeTGetTimeout fh tvNow timeout).usecs = 0) ∧
      (tvNow.usecs < (fh.tvOf f).usecs →
        (fdeTGetTimeout fh tvNow timeout).usecs = (fh.tvOf f).usecs - tvNow.usecs) ∧
      (fh.fCbHead = [] → (fdeRunloopTimespec fh tvNow timeout).Valid ∧
        (fdeRunloopTimespec fh tvNow timeout).tvNsec.toInt = (fdeTGetTimeout fh tvNow timeout).tvUsec.toInt*1000) := by
  constructor
  · intro a b left right
    rw [timevalCmpNormal left right]
    refine ⟨?_,?_,?_⟩ <;> (split <;> split <;> omega)
  · intro fh tvNow timeout f rest list now normal
    obtain ⟨normalised,exact⟩ := sleepExact timeout list now normal
    refine ⟨normalised,by omega,by omega,fun queue => ?_⟩
    obtain ⟨valid,scaled,_⟩ := timespecExact queue normalised
    exact ⟨valid,scaled⟩

/- One timer at 10.2 s; the clock reads 7.5 s. -/
def armedRun : List (Act Unit) := [.op (.create 1 (-1) .timer 0 (some 0) 0),.op (.addTimeout 1 ⟨10,200000⟩)]

def armed : State Unit := run (timerMachine Unit) (initial ()) armedRun

theorem timeArithmeticArmed :
    timevalCmp ⟨7,500000⟩ ⟨10,200000⟩ < 0 ∧ fdeTGetTimeout armed.head ⟨7,500000⟩ ⟨1,0⟩ = ⟨2,700000⟩ ∧
    (fdeTGetTimeout armed.head ⟨7,500000⟩ ⟨1,0⟩).Normal := by
  obtain ⟨order,sleep⟩ := timeArithmeticExact (κ := Unit)
  have earlier := (order ⟨7,500000⟩ ⟨10,200000⟩ (by decide) (by decide)).1.mpr (by decide)
  exact ⟨earlier,by decide,(sleep armed.head ⟨7,500000⟩ ⟨1,0⟩ 1 [] (by decide) (by decide) (by decide)).1⟩

structure Within {κ} (fh : FdeHead κ) (tvNow timeout sleep : Timeval) : Prop where
  cap : sleep.usecs ≤ timeout.usecs
  due : ∀ f ∈ fh.fTHead, (fh.tvOf f).usecs ≤ tvNow.usecs → sleep.usecs = 0
  early : ∀ f ∈ fh.fTHead, tvNow.usecs < (fh.tvOf f).usecs → sleep.usecs ≤ (fh.tvOf f).usecs - tvNow.usecs

/- The first timer is due, or it is the earliest of all and lies within the caller's timeout. -/
def FirstDecides {κ} (fh : FdeHead κ) (tvNow timeout : Timeval) : Prop :=
  ∀ f ∈ fh.fTHead.head?,
    (fh.tvOf f).usecs ≤ tvNow.usecs ∧ 0 ≤ timeout.usecs ∨
    tvNow.usecs < (fh.tvOf f).usecs ∧ (fh.tvOf f).usecs - tvNow.usecs ≤ timeout.usecs ∧
      ∀ g ∈ fh.fTHead, (fh.tvOf f).usecs ≤ (fh.tvOf g).usecs

instance {κ} (fh : FdeHead κ) (tvNow timeout) : Decidable (FirstDecides fh tvNow timeout) := by
  unfold FirstDecides; infer_instance

theorem withinIff {κ} {fh : FdeHead κ} {tvNow timeout sleep : Timeval} {f rest} (list : fh.fTHead = f::rest)
    (slept : sleep.usecs = max 0 ((fh.tvOf f).usecs - tvNow.usecs)) :
    Within fh tvNow timeout sleep ↔ FirstDecides fh tvNow timeout := by
  have first : f ∈ fh.fTHead := by rw [list]; exact List.mem_cons_self
  have head : fh.fTHead.head? = some f := by rw [list]; rfl
  simp only [FirstDecides,head,Option.mem_some_iff,forall_eq']
  constructor
  · rintro ⟨cap,due,early⟩
    by_cases now : (fh.tvOf f).usecs ≤ tvNow.usecs
    · exact Or.inl ⟨now,by omega⟩
    · refine Or.inr ⟨by omega,by omega,fun g mem => ?_⟩
      have none := due g mem
      have short := early g mem
      omega
  · rintro (⟨now,cap⟩ | ⟨later,cap,earliest⟩)
    · exact ⟨by omega,fun g _ _ => by omega,fun g _ _ => by omega⟩
    · refine ⟨by omega,fun g mem past => ?_,fun g mem _ => ?_⟩
      · have := earliest g mem
        omega
      · have := earliest g mem
        omega

theorem sleepWithinIff {κ} [Kq κ] {s : State κ} {tvNow timeout : Timeval} (reached : Reach (timerMachine κ) s)
    (now : tvNow.Normal) (queue : s.head.fCbHead = []) :
    (s.head.fTHead ≠ [] ∨ timeout.Normal →
      (fdeRunloopTimespec s.head tvNow timeout).nsecs = (fdeTGetTimeout s.head tvNow timeout).usecs*1000) ∧
    (Within s.head tvNow timeout (fdeTGetTimeout s.head tvNow timeout) ↔ FirstDecides s.head tvNow timeout) := by
  have normal := (reachTimers reached).timers.normal
  cases list : s.head.fTHead with
  | nil =>
    have sleep : fdeTGetTimeout s.head tvNow timeout = timeout := by simp only [fdeTGetTimeout,list]
    constructor
    · rintro (some | whole)
      · exact absurd rfl some
      · exact (timespecExact queue (by rw [sleep]; exact whole)).2.2
    · rw [sleep]
      exact iff_of_true ⟨Int.le_refl _,by simp [list],by simp [list]⟩ (by simp [FirstDecides,list])
  | cons f rest =>
    have first := normal f (list ▸ List.mem_cons_self)
    obtain ⟨normalised,exact⟩ := sleepExact timeout list now first
    exact ⟨fun _ => (timespecExact queue normalised).2.2,withinIff list exact⟩

theorem armedReach : Reach (timerMachine Unit) armed := reachRun (.start ⟨(),rfl⟩) (by decide)

theorem sleepWithinArmed : Within armed.head ⟨7,500000⟩ ⟨3,0⟩ (fdeTGetTimeout armed.head ⟨7,500000⟩ ⟨3,0⟩) :=
  (sleepWithinIff armedReach (by decide) (by decide)).2.mpr (by decide)

/- The caller allows one second and 2.7 are slept; and behind the misplaced timer at 5 s
the one at 3 s is overslept by two seconds. -/
theorem sleepExceeds :
    (Reach (timerMachine Unit) armed ∧ armed.head.fCbHead = [] ∧
      fdeRunloopTimespec armed.head ⟨7,500000⟩ ⟨1,0⟩ = ⟨2,700000000⟩ ∧
      ¬ Within armed.head ⟨7,500000⟩ ⟨1,0⟩ (fdeTGetTimeout armed.head ⟨7,500000⟩ ⟨1,0⟩)) ∧
    let late := run (timerMachine Unit) (initial ()) (misplacedRun ++ [.tRunloop ⟨2,0⟩,.ret])
    Reach (timerMachine Unit) late ∧ late.head.fCbHead = [] ∧ 2 ∈ late.head.fTHead ∧ late.head.tvOf 2 = ⟨3,0⟩ ∧
      fdeRunloopTimespec late.head ⟨2,0⟩ ⟨60,0⟩ = ⟨3,0⟩ := by
  refine ⟨⟨armedReach,by decide,by decide,fun within => ?_⟩,reachRun (.start ⟨(),rfl⟩) (by decide),by decide,by decide,
    by decide,by decide⟩
  exact absurd within.cap (by decide)

end Libiapp.Event
