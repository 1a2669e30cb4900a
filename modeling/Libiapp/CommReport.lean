import Libiapp.CommWire

/-! What a write callback is told. comm_cb_write_cb calls comm_cb_write_complete only
when write() has returned 0 or less, so FDE_COMM_CB_COMPLETED is never reported: a write
whose last byte was taken is reported by the next write(), of no bytes, as an EOF or an
error. -/
namespace Libiapp.Comm
open Runs Parcels

/- The bytes taken of a write so far, with those of this step. -/
def total (w : Wire) (a : Act) (p : Posted) : Int := p.parcel.taken + (outgoing w a).length

def Reports (s s' : State) (st : CommStatus) (nwritten : Int) : Prop := backs s' = (st,nwritten)::backs s

/- What the callback of a write of more than 0 bytes should say if the comm is not
closed, and that it comes with the last byte. -/
def Truthful (w : Wire) : WireAct → Prop
  | .comm a => ∀ p ∈ w.posted.head?, w.s.c.w.isActive = true → w.s.c.isClosing = false → 0 < p.len →
      (∀ st nwritten, Reports w.s (step w.s a) st nwritten →
        (st = .completed ↔ total w a p = p.len) ∧ (st = .completed → nwritten = p.len) ∧
        (st = .eof ∨ st = .error → total w a p < p.len)) ∧
      (p.parcel.taken < p.len → total w a p = p.len → ∃ st nwritten, Reports w.s (step w.s a) st nwritten)
  | .store _ => True

/- The kernel does not take the last byte of the write. -/
def Unfinished (w : Wire) : WireAct → Prop
  | .comm a => ∀ p ∈ w.posted.head?, w.s.c.w.isActive = true → 0 < p.len → total w a p < p.len
  | .store _ => True

def Pending (w : Wire) : Prop :=
  ∀ p ∈ w.posted.head?, w.s.c.w.isActive = true → 0 < p.len → (p.parcel.taken : Int) < p.len

theorem notReported {s s' : State} {st nwritten} (back : backs s' = backs s) : ¬ Reports s s' st nwritten := by
  intro reported
  have longer := congrArg List.length (back.symm.trans reported)
  simp at longer

theorem totalNone {w a} (p) (silent : outgoing w a = []) : total w a p = p.parcel.taken := by simp [total,silent]

/- Nothing is taken in the step. -/
theorem takenNone {w : Wire} {a} (pending : Pending w) (silent : outgoing w a = []) : Unfinished w (.comm a) := by
  intro p head on some
  rw [totalNone p silent]
  exact pending p head on some

/- Without a report, what is told is right unless the last byte was taken. -/
theorem unreported {w : Wire} {a} (back : backs (step w.s a) = backs w.s) (unfinished : Unfinished w (.comm a)) :
    Truthful w (.comm a) := by
  intro p head on _ some
  refine ⟨fun st nwritten reported => absurd reported (notReported back),fun _ whole => ?_⟩
  exact absurd whole (Int.ne_of_lt (unfinished p head on some))

theorem quietTruthful {w : Wire} {a} (pending : Pending w) (silent : outgoing w a = [])
    (back : backs (step w.s a) = backs w.s) : Truthful w (.comm a) ↔ Unfinished w (.comm a) :=
  have unfinished := takenNone pending silent
  iff_of_true (unreported back unfinished) unfinished

theorem newest {w : Wire} {p q rest} (posted : w.posted = p::rest) (head : q ∈ w.posted.head?) : q = p := by
  rw [posted] at head
  exact (Option.some.inj head).symm

/- The last byte is taken and nothing reported. -/
theorem wroteTruthful {w : Wire} {a j} (inv : Streams w) (pending : Pending w) (before : w.s.c.w.job = some j)
    (opened : w.s.c.isClosing = false) (call : systemCall w.s a = some (j.call w.s.c.fd)) (positive : 0 < a.ret)
    (room : a.ret ≤ j.len - j.offset) (back : backs (step w.s a) = backs w.s) (truthful : Truthful w (.comm a)) :
    Unfinished w (.comm a) := by
  obtain ⟨p,rest,posted,_,_,len,taken,_⟩ := inv.under j before
  have out : ((outgoing w a).length : Int) = a.ret := by
    rw [outgoingCall call,contentsLength,Int.toNat_of_nonneg (by omega)]
  have most : total w a p ≤ p.len := by rw [total,out]; omega
  intro q head on some
  cases newest posted head
  have less := pending p head on some
  obtain ⟨_,last⟩ := truthful p head on opened some
  refine Int.lt_iff_le_and_ne.mpr ⟨most,fun whole => ?_⟩
  obtain ⟨st,nwritten,reported⟩ := last less whole
  exact notReported back reported

/- A write() that takes nothing ends a write of which bytes are left, so it has failed. -/
theorem finishedTruthful {w : Wire} {a j st} (inv : Streams w) (before : w.s.c.w.job = some j)
    (silent : outgoing w a = []) (status : st = if a.ret < 0 then .error else .eof) (late : 0 ≤ a.ret → j.len ≤ j.offset)
    (back : backs (step w.s a) = (st,j.offset)::backs w.s) (unfinished : Unfinished w (.comm a)) : Truthful w (.comm a) := by
  obtain ⟨p,rest,posted,_,_,len,taken,_⟩ := inv.under j before
  intro q head on _ some
  have less := unfinished q head on some
  cases newest posted head
  rw [totalNone p silent] at less ⊢
  have failed : st = .error := by rw [status,if_pos (by omega)]
  refine ⟨fun st' nwritten reported => ?_,fun _ whole => absurd whole (Int.ne_of_lt less)⟩
  cases (List.cons.inj (reported.symm.trans back)).1
  rw [failed]
  exact ⟨⟨nofun,fun whole => absurd whole (Int.ne_of_lt less)⟩,nofun,fun _ => less⟩

theorem truthfulStep {w : Wire} {a} (inv : Streams w) (pending : Pending w) (allowed : WireAllowed w (.comm a)) :
    Truthful w (.comm a) ↔ Unfinished w (.comm a) := by
  obtain ⟨possible,bounded,_⟩ := allowed
  cases (stepProgress inv.fit possible).1 with
  | kept same back silent => exact quietTruthful pending (outgoingNone silent) back
  | started posted fresh idle after back silent => exact quietTruthful pending (outgoingNone silent) back
  | wrote before opened call positive after back =>
    have room := of_decide_eq_true (bounded _ call)
    exact ⟨wroteTruthful inv pending before opened call positive room back,unreported back⟩
  | waited before opened call nothing same back => exact quietTruthful pending (outgoingWaited call nothing) back
  | finished before opened call nothing status late after back =>
    have silent := outgoingWaited call nothing
    have unfinished := takenNone pending silent
    exact iff_of_true (finishedTruthful inv before silent status late back unfinished) unfinished
  | closed before closing after back silent =>
    exact iff_of_true (fun _ _ _ opened => never (opened.symm.trans closing)) (takenNone pending (outgoingNone silent))

theorem pendingStep {w : Wire} {a} (inv : Streams w) (pending : Pending w) (allowed : WireAllowed w (.comm a))
    (unfinished : Unfinished w (.comm a)) : Pending (wireStep w (.comm a)) := by
  obtain ⟨possible,_,sized⟩ := allowed
  cases (stepProgress inv.fit possible).1 with
  | kept same back silent none =>
    rw [wireKept silent none]
    exact fun p head on => pending p head (sameActive same ▸ on)
  | @started j posted fresh idle after back silent =>
    rw [wirePosted silent posted]
    intro p head on some
    cases newest rfl head
    exact some
  | @wrote j before opened call positive after back none =>
    obtain ⟨p,rest,posted,_,_,len,taken,_⟩ := inv.under j before
    have head : p ∈ w.posted.head? := by rw [posted]; rfl
    have on := jobActive before
    rw [wireWrote call none,posted]
    intro q first _ some
    cases newest rfl first
    have less := unfinished p head on some
    rw [total,outgoingCall call,contentsLength] at less
    exact less
  | waited before opened call nothing same back none =>
    rw [wireWaited call none nothing]
    exact fun p head on => pending p head (sameActive same ▸ on)
  | finished before opened call nothing status late after back none =>
    rw [wireWaited call none nothing]
    exact fun p head on => never ((jobNone after).symm.trans on)
  | closed before closing after back silent none =>
    rw [wireKept silent none]
    exact fun p head on => never ((jobNone after).symm.trans on)

/- In a run that begins with nothing or not everything taken of the write under way, what
is reported is right in every step exactly if the kernel never takes the last byte. -/
theorem truthfulIff {w actions} (h : Reach wireMachine w) (pending : Pending w)
    (possible : Possible wireMachine w actions) :
    Each wireMachine Truthful w actions ↔ Each wireMachine Unfinished w actions := by
  have same (w a) (inv : Streams w ∧ Pending w) (allowed : wireMachine.allowed w a) : Truthful w a ↔ Unfinished w a := by
    cases a with
    | comm a => exact truthfulStep inv.1 inv.2 allowed
    | store mem => exact Iff.rfl
  have kept (w a) (inv : Streams w ∧ Pending w) (allowed : wireMachine.allowed w a) (unfinished : Unfinished w a) :
      Streams (wireStep w a) ∧ Pending (wireStep w a) := by
    cases a with
    | comm a => exact ⟨commStreams inv.1 allowed,pendingStep inv.1 inv.2 allowed unfinished⟩
    | store mem => exact ⟨storeStreams inv.1 allowed,inv.2⟩
  exact eachIff same kept ⟨reachStreams h,pending⟩ possible

/- Two of three bytes are taken, and then write() fails. -/
def failedRun : List WireAct :=
  [.comm (.client (.write 64 0 3 1 2)),.comm (.fire .write ⟨0,0,0,none⟩),.comm (.fire .writeCb ⟨2,0,0,none⟩),
    .comm (.fire .write ⟨0,0,0,none⟩),.comm (.fire .writeCb ⟨-1,eNomem,0,none⟩)]

theorem truthfulFailed :
    Each wireMachine Truthful ⟨commCreate 5 none 0,letters 0,[],[]⟩ failedRun ∧
    backs (run wireMachine ⟨commCreate 5 none 0,letters 0,[],[]⟩ failedRun).s = [(.error,2)] := by
  have reached : Reach wireMachine ⟨commCreate 5 none 0,letters 0,[],[]⟩ := .start ⟨⟨5,none,0,rfl⟩,rfl,rfl⟩
  refine ⟨(truthfulIff reached nofun (by decide)).mpr ?_,by decide⟩
  refine ⟨nofun,fun p head _ _ => ?_,fun p head _ _ => ?_,fun p head _ _ => ?_,fun p head _ _ => ?_,trivial⟩ <;>
    cases head <;> decide

/- All three bytes are taken at once. The callback comes with the next write(), which
has nothing to write and returns 0. -/
def wholeRun : List WireAct :=
  [.comm (.client (.write 64 0 3 1 2)),.comm (.fire .write ⟨0,0,0,none⟩),.comm (.fire .writeCb ⟨3,0,0,none⟩)]

theorem wholeUntold :
    let w := run wireMachine ⟨commCreate 5 none 0,letters 0,[],[]⟩ wholeRun
    let later := run wireMachine w [.comm (.fire .write ⟨0,0,0,none⟩),.comm (.fire .writeCb ⟨0,0,0,none⟩)]
    Possible wireMachine ⟨commCreate 5 none 0,letters 0,[],[]⟩ wholeRun ∧ w.sent = [64,65,66] ∧ backs w.s = [] ∧
    Possible wireMachine w [.comm (.fire .write ⟨0,0,0,none⟩),.comm (.fire .writeCb ⟨0,0,0,none⟩)] ∧
    later.sent = [64,65,66] ∧ backs later.s = [(.eof,3)] := by
  refine ⟨by decide,by decide,by decide,by decide,by decide,by decide⟩

end Libiapp.Comm
