import Libiapp.Kernel

/-! Batching of kernel changes. A full buffer leaves through fde_kq_flush, whose
kevent() call has no event list, so the changes behind a rejected one are lost. -/
namespace Libiapp.Event
open Kqueue Runs

-- The #else branch of fde_kq_push: one kevent() call for each change.
def fdeKqPushPlain {κ} [Kq κ] (fh : FdeHead κ) (k : Kevent) : FdeHead κ :=
  { fh with kqfd := Kq.submit fh.kqfd [k] }

/- If the next push flushes, what the flush leaves out would change nothing. -/
def LosesNothing (fh : FdeHead Kernel) : Prop :=
  fdeHeadMaxevents - 1 ≤ fh.pending.n →
    let left := Batch.untilError accept fh.kqfd fh.pending.changes
    Batch.each accept left (Batch.behind accept fh.kqfd fh.pending.changes) = left

theorem losesNothingIff (fh : FdeHead Kernel) : LosesNothing fh ↔
    (fdeHeadMaxevents - 1 ≤ fh.pending.n → fh.settled = Batch.untilError accept fh.kqfd fh.pending.changes) := by
  unfold LosesNothing FdeHead.settled
  rw [Batch.eachBehind accept fh.kqfd fh.pending.changes]

theorem pushPlain (fh : FdeHead Kernel) (k) : (fdeKqPushPlain fh k).kqfd = Batch.one accept fh.kqfd k := by
  unfold fdeKqPushPlain
  change Batch.untilError accept fh.kqfd [k] = Batch.one accept fh.kqfd k
  unfold Batch.one
  cases result : accept fh.kqfd k with
  | ok next => simp [Batch.untilError,result]
  | error e => simp [Batch.untilError,result]

theorem pushKept {fh : FdeHead Kernel} (kept : LosesNothing fh) (k) :
    (fdeKqPush fh k).settled = Batch.one accept fh.settled k := by
  rw [pushSettled]
  split
  · rfl
  · rename_i full
    rw [(losesNothingIff fh).mp kept (Nat.not_lt.mp full)]

theorem pushesKept {fh plain : FdeHead Kernel} {changes} (same : fh.settled = plain.kqfd)
    (kept : ∀ pushed, pushed <+: changes → LosesNothing (pushed.foldl fdeKqPush fh)) (k) :
    ((changes ++ [k]).foldl fdeKqPush fh).settled = ((changes ++ [k]).foldl fdeKqPushPlain plain).kqfd := by
  induction changes generalizing fh plain with
  | nil =>
    have now : LosesNothing fh := kept [] (List.prefix_refl _)
    simp only [List.nil_append,List.foldl_cons,List.foldl_nil]
    rw [pushKept now,pushPlain,same]
  | cons c rest ih =>
    have now : LosesNothing fh := kept [] List.nil_prefix
    refine ih ?_ ?_
    · rw [pushKept now,pushPlain,same]
    · intro pushed before
      exact kept (c::pushed) (List.prefix_cons_iff.mpr (Or.inr ⟨pushed,rfl,before⟩))

/- Two kernels that no further change makes equal are told apart by a change on
another (ident, filter) than the one they differ at. -/
theorem kernelSeparated {u v : Kernel} (same : ∀ k, Batch.one accept u k = Batch.one accept v k) : u = v := by
  have closed : u.closed = v.closed := by
    have after := congrArg Kernel.closed (same zeroKevent)
    simpa only [oneClosed] using after
  have reg : u.reg = v.reg := by
    funext key
    let k : Kevent := { zeroKevent with ident := key.1 + 1 }
    have other : key ≠ k.key := by
      intro equal
      have first : key.1 = key.1 + 1 := congrArg Prod.fst equal
      omega
    have after := congrArg (fun kq : Kernel => kq.reg key) (same k)
    simpa only [oneOther _ other] using after
  cases u
  cases v
  simp_all

theorem pushesRoom {fh : FdeHead Kernel} {changes} (room : fh.pending.n + changes.length ≤ fdeHeadMaxevents - 1) :
    (changes.foldl fdeKqPush fh).pending.changes = fh.pending.changes ++ changes ∧
      (changes.foldl fdeKqPush fh).pending.n = fh.pending.n + changes.length ∧
      (changes.foldl fdeKqPush fh).kqfd = fh.kqfd := by
  induction changes generalizing fh with
  | nil => simp
  | cons c rest ih =>
    rw [List.length_cons] at room
    obtain ⟨changes,n,kq⟩ := pushRoom c (show fh.pending.n < fdeHeadMaxevents - 1 by omega)
    have later : (fdeKqPush fh c).pending.n + rest.length ≤ fdeHeadMaxevents - 1 := by omega
    obtain ⟨changes',n',kq'⟩ := ih later
    rw [List.foldl_cons,changes',n',kq',changes,n,kq,List.length_cons]
    exact ⟨by simp,by omega,rfl⟩

theorem batchedIff {fh : FdeHead Kernel} {changes} (empty : fh.pending.n = 0) :
    (∀ pushed, pushed <+: changes → ∀ k,
      ((pushed ++ [k]).foldl fdeKqPush fh).settled = ((pushed ++ [k]).foldl fdeKqPushPlain fh).kqfd) ↔
    ∀ pushed, pushed <+: changes → LosesNothing (pushed.foldl fdeKqPush fh) := by
  have start : fh.settled = fh.kqfd := by simp [FdeHead.settled,Pending.changes,empty,Batch.each]
  constructor
  · intro equal pushed before
    rw [losesNothingIff]
    intro full
    have here : (pushed.foldl fdeKqPush fh).settled = (pushed.foldl fdeKqPushPlain fh).kqfd := by
      rcases List.eq_nil_or_concat' pushed with rfl | ⟨front,last,rfl⟩
      · exact start
      · exact equal front ((List.prefix_append front [last]).trans before) last
    refine kernelSeparated (fun k => ?_)
    have next := equal pushed before k
    rw [List.foldl_append,List.foldl_append] at next
    simp only [List.foldl_cons,List.foldl_nil] at next
    rw [pushSettled,if_neg (Nat.not_lt.mpr full),pushPlain,← here] at next
    exact next.symm
  · intro kept pushed before k
    exact pushesKept start (fun front inside => kept front (inside.trans before)) k

/- Descriptor 7 is closed while changes for it and for 8 are still to be submitted. -/
def sevenClosed : FdeHead Kernel := fdeCtxNew ⟨fun d => d == 7,fun _ => none⟩

def addRead (d : Nat) : Kevent := ⟨d,.read,evAdd ||| evEnable ||| evOneshot,0#32,0,some d⟩

theorem batchedTwo : ([addRead 7,addRead 8].foldl fdeKqPush sevenClosed).settled =
    ([addRead 7,addRead 8].foldl fdeKqPushPlain sevenClosed).kqfd := by
  have empty : sevenClosed.pending.n = 0 := rfl
  have kept : ∀ pushed, pushed <+: [addRead 7] → LosesNothing (pushed.foldl fdeKqPush sevenClosed) := by
    intro pushed before full
    have short : pushed.length ≤ 1 := before.length_le
    have room : sevenClosed.pending.n + pushed.length ≤ fdeHeadMaxevents - 1 := by
      rw [empty,fdeHeadMaxevents]; omega
    rw [(pushesRoom room).2.1,empty,fdeHeadMaxevents] at full
    omega
  exact (batchedIff empty).mpr kept [addRead 7] (List.prefix_refl _) (addRead 8)

/- A full buffer: the first change is rejected and the one for 8 is lost with it. -/
def lostChanges : List Kevent := addRead 7::addRead 8::List.replicate 125 (addRead 7)

theorem plainStays {fh : FdeHead Kernel} {k} (rejected : Batch.one accept fh.kqfd k = fh.kqfd) (n) :
    ((List.replicate n k).foldl fdeKqPushPlain fh).kqfd = fh.kqfd := by
  induction n generalizing fh with
  | zero => rfl
  | succ n ih =>
    have same : (fdeKqPushPlain fh k).kqfd = fh.kqfd := by rw [pushPlain,rejected]
    rw [List.replicate_succ,List.foldl_cons,ih (by rw [same,rejected]),same]

theorem batchedLoses :
    ((lostChanges ++ [addRead 7]).foldl fdeKqPush sevenClosed).settled.reg (8,.read) = none ∧
    ((lostChanges ++ [addRead 7]).foldl fdeKqPushPlain sevenClosed).kqfd.reg (8,.read) = some ⟨true,some 8⟩ := by
  constructor
  · have room : sevenClosed.pending.n + lostChanges.length ≤ fdeHeadMaxevents - 1 := by
      simp [lostChanges,sevenClosed,fdeCtxNew,fdeHeadMaxevents]
    obtain ⟨changes,n,kq⟩ := pushesRoom room
    have full : ¬ (lostChanges.foldl fdeKqPush sevenClosed).pending.n < fdeHeadMaxevents - 1 := by
      rw [n]; simp [lostChanges,sevenClosed,fdeCtxNew,fdeHeadMaxevents]
    rw [List.foldl_append,List.foldl_cons,List.foldl_nil,pushSettled,if_neg full,changes,kq]
    decide
  · have tail : lostChanges ++ [addRead 7] = [addRead 7,addRead 8] ++ List.replicate 126 (addRead 7) := by decide
    rw [tail,List.foldl_append,plainStays rfl]
    decide

end Libiapp.Event
