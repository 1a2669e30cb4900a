import Libiapp.Batch
import Libiapp.FdeRunloop

/-! kevent() as FreeBSD documents it. Changes are applied in order. A change for an
unregistered (ident, filter) needs EV_ADD, one for a registered (ident, filter)
removes it with EV_DELETE and updates it otherwise, and a closed descriptor is
rejected. Without room for events the first rejection ends the call, with room it
becomes an EV_ERROR entry. A one-shot registration goes with its event. -/
namespace Libiapp.Event
open Kqueue Runs

structure Reg where
  oneshot : Bool
  udata : Option Nat
  deriving DecidableEq, Repr

structure Kernel where
  closed : Int → Bool
  reg : Key → Option Reg

def Kernel.set (kq : Kernel) (key : Key) (r : Option Reg) : Kernel :=
  { kq with reg := Function.update kq.reg key r }

@[simp] theorem setSelf (kq : Kernel) (key r) : (kq.set key r).reg key = r := by simp [Kernel.set]

theorem setOther (kq : Kernel) {key other} (r) (apart : other ≠ key) : (kq.set key r).reg other = kq.reg other := by
  simp [Kernel.set,apart]

def accept (kq : Kernel) (k : Kevent) : Except Int Kernel :=
  if k.filter ≠ .user ∧ kq.closed k.ident then .error eBadf else
    match kq.reg k.key with
    | none =>
      if has k.flags evAdd then .ok (kq.set k.key (some ⟨has k.flags evOneshot,k.udata⟩))
      else .error eNoent
    | some _ =>
      if has k.flags evDelete then .ok (kq.set k.key none)
      else .ok (kq.set k.key (some ⟨has k.flags evOneshot,k.udata⟩))

/- The events of one call, in order; each belongs to a registration. -/
def Kernel.take (kq : Kernel) : List Kevent → Option Kernel
  | [] => some kq
  | k::rest =>
    match kq.reg k.key with
    | none => none
    | some r =>
      if k.udata = r.udata ∧ has k.flags evError = false then
        Kernel.take (if r.oneshot then kq.set k.key none else kq) rest
      else none

def errorEntry (rejection : Kevent × Int) : Kevent :=
  { rejection.1 with flags := evError, data := rejection.2 }

instance : Kq Kernel where
  submit := Batch.untilError accept
  Waits kq changes kq' events := ∃ returned,
    (Batch.each accept kq changes).take returned = some kq' ∧
      events = (Batch.rejected accept kq changes).map errorEntry ++ returned

/- The kernel once the pending changes have been given to a call with room. -/
def FdeHead.settled (fh : FdeHead Kernel) : Kernel := Batch.each accept fh.kqfd fh.pending.changes

theorem takeSet (v : Vector Kevent fdeHeadMaxevents) {n} (inside : n < fdeHeadMaxevents) (k : Kevent) :
    (v.setIfInBounds n k).toList.take (n+1) = v.toList.take n ++ [k] := by
  rw [Vector.toList_setIfInBounds,List.take_add_one,List.take_set_of_le (Nat.le_refl n)]
  simp [inside]

theorem pushRoom {κ} [Kq κ] {fh : FdeHead κ} (k) (room : fh.pending.n < fdeHeadMaxevents - 1) :
    (fdeKqPush fh k).pending.changes = fh.pending.changes ++ [k] ∧ (fdeKqPush fh k).pending.n = fh.pending.n + 1 ∧
      (fdeKqPush fh k).kqfd = fh.kqfd := by
  have inside : fh.pending.n < fdeHeadMaxevents := by omega
  simp only [fdeKqPush,fdeKqFlush,if_pos room,Pending.changes,and_self,and_true]
  exact takeSet _ inside k

theorem pushFull {κ} [Kq κ] {fh : FdeHead κ} (k) (full : fdeHeadMaxevents - 1 ≤ fh.pending.n) :
    (fdeKqPush fh k).pending.changes = [k] ∧ (fdeKqPush fh k).pending.n = 1 ∧
      (fdeKqPush fh k).kqfd = Kq.submit fh.kqfd fh.pending.changes := by
  simp only [fdeKqPush,fdeKqFlush,if_neg (Nat.not_lt.mpr full),Pending.changes,and_true]
  exact takeSet _ (by decide) k

theorem pushBound {κ} [Kq κ] {fh : FdeHead κ} (k) (bound : fh.pending.n < fdeHeadMaxevents) :
    (fdeKqPush fh k).pending.n < fdeHeadMaxevents := by
  by_cases room : fh.pending.n < fdeHeadMaxevents - 1
  · rw [(pushRoom k room).2.1]; omega
  · rw [(pushFull k (Nat.not_lt.mp room)).2.1]; decide

theorem acceptSource {kq kq' : Kernel} {k} (accepted : accept kq k = .ok kq') : ∃ r, kq' = kq.set k.key r := by
  unfold accept at accepted
  split at accepted <;> try contradiction
  split at accepted
  · split at accepted <;> try contradiction
    cases accepted
    exact ⟨_,rfl⟩
  · split at accepted
    · cases accepted; exact ⟨_,rfl⟩
    · cases accepted; exact ⟨_,rfl⟩

theorem oneOther (kq : Kernel) {k key} (other : key ≠ k.key) : (Batch.one accept kq k).reg key = kq.reg key := by
  unfold Batch.one
  split
  · rename_i kq' accepted
    obtain ⟨r,rfl⟩ := acceptSource accepted
    exact setOther kq r other
  · rfl

theorem oneClosed (kq : Kernel) (k) : (Batch.one accept kq k).closed = kq.closed := by
  unfold Batch.one
  split
  · rename_i kq' accepted
    obtain ⟨r,rfl⟩ := acceptSource accepted
    rfl
  · rfl

theorem pushSettled (fh : FdeHead Kernel) (k) : (fdeKqPush fh k).settled =
    Batch.one accept (if fh.pending.n < fdeHeadMaxevents - 1 then fh.settled
      else Batch.untilError accept fh.kqfd fh.pending.changes) k := by
  unfold FdeHead.settled
  split
  · rename_i room
    obtain ⟨changes,_,kq⟩ := pushRoom k room
    rw [changes,kq,Batch.eachAppend]
    rfl
  · rename_i full
    obtain ⟨changes,_,kq⟩ := pushFull k (Nat.not_lt.mp full)
    rw [changes,kq]
    rfl

end Libiapp.Event
