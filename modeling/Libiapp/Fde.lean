import Libiapp.Kqueue
import Mathlib.Logic.Function.Basic

/-! fde.c without its dispatch loops: the fdes of one fde_head, the three lists,
the pending change buffer, and the operations on them. An fde is named by its
address and `fdes` is the heap, so `none` is memory that is not (or no longer)
an fde. A TAILQ is the list of the addresses linked on it. The code never checks
for a dangling pointer; an operation on one leaves the model's state alone. -/
namespace Libiapp.Event
open Kqueue

abbrev FdeId := Nat

inductive FdeType where
  | none | read | write | callback | signal | timer | aio | user
  deriving DecidableEq, Repr

def fdeFPersist : UInt32 := 0x00000001

structure Timeval where
  tvSec : Int64
  tvUsec : Int64
  deriving DecidableEq, Repr

-- Both fields are cast to uint64_t before they are compared.
def timevalCmp (t1 t2 : Timeval) : Int :=
  let l := if t1.tvSec ≠ t2.tvSec then t1.tvSec.toUInt64 else t1.tvUsec.toUInt64
  let r := if t1.tvSec ≠ t2.tvSec then t2.tvSec.toUInt64 else t2.tvUsec.toUInt64
  (if r < l then 1 else 0) - (if l < r then 1 else 0)

structure Fde where
  fd : Int
  kev : Kevent
  fType : FdeType
  fFlags : UInt32
  cb : Option Nat
  isActive : Bool
  tv : Timeval
  cbdata : Nat
  fCbGenid : UInt32
  deriving DecidableEq, Repr

def Fde.persist (e : Fde) : Bool := e.fFlags &&& fdeFPersist != 0

def fdeHeadMaxevents : Nat := 128

structure Pending where
  kevList : Vector Kevent fdeHeadMaxevents
  n : Nat

def Pending.changes (p : Pending) : List Kevent := p.kevList.toList.take p.n

structure FdeHead (κ : Type) where
  fdes : FdeId → Option Fde
  fHead : List FdeId
  fCbHead : List FdeId
  fTHead : List FdeId
  kqfd : κ
  pending : Pending
  fCbGenid : UInt32

def zeroKevent : Kevent := ⟨0,.none,0#16,0#32,0,none⟩

-- fde_ctx_new: calloc() leaves everything but the kqueue zero.
def fdeCtxNew {κ} (kqfd : κ) : FdeHead κ :=
  ⟨fun _ => none,[],[],[],kqfd,⟨Vector.replicate fdeHeadMaxevents zeroKevent,0⟩,0⟩

def FdeHead.put {κ} (fh : FdeHead κ) (f : FdeId) (e : Fde) : FdeHead κ :=
  { fh with fdes := Function.update fh.fdes f (some e) }

def fdeEvFlags (e : Fde) (kevFlags : Flags) : Flags :=
  if e.persist then kevFlags ||| evClear else kevFlags ||| evOneshot

/- The EV_SET of fde_create; `none` is the default branch, which frees the fde.
FreeBSD has no NOTE_EOF, so fflags is 0 for a read fde too. -/
def fdeEvSet (f : FdeId) (e : Fde) : Option Kevent :=
  match e.fType with
  | .read => some ⟨e.fd,.read,fdeEvFlags e evEnable,0#32,0,some f⟩
  | .write => some ⟨e.fd,.write,fdeEvFlags e evEnable,0#32,0,some f⟩
  | .callback | .timer => some zeroKevent
  | .user => some ⟨f,.user,fdeEvFlags e evEnable,0#32,0,some f⟩
  | _ => none

def fdeCreate {κ} (fh : FdeHead κ) (f : FdeId) (fd : Int) (t : FdeType) (fl : UInt32)
    (cb : Option Nat) (cbdata : Nat) : Option (FdeHead κ) :=
  let e : Fde := ⟨fd,zeroKevent,t,fl,cb,false,⟨0,0⟩,cbdata,0⟩
  (fdeEvSet f e).map (fun kev => fh.put f { e with kev := kev })

def fdeKqFlush {κ} [Kq κ] (fh : FdeHead κ) : FdeHead κ :=
  if fh.pending.n < fdeHeadMaxevents - 1 then fh else
    { fh with kqfd := Kq.submit fh.kqfd fh.pending.changes, pending := { fh.pending with n := 0 } }

def fdeKqPush {κ} [Kq κ] (fh : FdeHead κ) (k : Kevent) : FdeHead κ :=
  let fh := fdeKqFlush fh
  { fh with pending := ⟨fh.pending.kevList.setIfInBounds fh.pending.n k,fh.pending.n+1⟩ }

-- The mask keeps these four bits of the flags left by the previous operation.
def keptFlags : Flags := evDelete ||| evAdd ||| evClear ||| evOneshot

def addedKev (e : Fde) : Kevent :=
  { e.kev with flags := e.kev.flags &&& keptFlags ||| fdeEvFlags e (evAdd ||| evEnable) }

def deletedKev (e : Fde) : Kevent :=
  { e.kev with flags := e.kev.flags &&& keptFlags ||| evDelete }

/- fde_rw_add and fde_ue_add have one body, and so do the two deletes. -/
def fdeKevAdd {κ} [Kq κ] (fh : FdeHead κ) (f : FdeId) (e : Fde) : FdeHead κ :=
  if e.isActive then fh else
    let fh := (fdeKqPush fh (addedKev e)).put f { e with kev := addedKev e, isActive := true }
    { fh with fHead := fh.fHead ++ [f] }

def fdeKevDelete {κ} [Kq κ] (fh : FdeHead κ) (f : FdeId) (e : Fde) : FdeHead κ :=
  if ¬ e.isActive then fh else
    let fh := (fdeKqPush fh (deletedKev e)).put f { e with kev := deletedKev e, isActive := false }
    { fh with fHead := fh.fHead.erase f }

def fdeRwAdd {κ} [Kq κ] (fh : FdeHead κ) (f : FdeId) (e : Fde) : FdeHead κ := fdeKevAdd fh f e
def fdeRwDelete {κ} [Kq κ] (fh : FdeHead κ) (f : FdeId) (e : Fde) : FdeHead κ := fdeKevDelete fh f e
def fdeUeAdd {κ} [Kq κ] (fh : FdeHead κ) (f : FdeId) (e : Fde) : FdeHead κ := fdeKevAdd fh f e
def fdeUeDelete {κ} [Kq κ] (fh : FdeHead κ) (f : FdeId) (e : Fde) : FdeHead κ := fdeKevDelete fh f e

def fdeCbAdd {κ} (fh : FdeHead κ) (f : FdeId) (e : Fde) : FdeHead κ :=
  if e.isActive then fh else
    let fh := fh.put f { e with isActive := true, fCbGenid := fh.fCbGenid }
    { fh with fHead := fh.fHead ++ [f], fCbHead := fh.fCbHead ++ [f] }

def fdeCbDelete {κ} (fh : FdeHead κ) (f : FdeId) (e : Fde) : FdeHead κ :=
  if ¬ e.isActive then fh else
    let fh := fh.put f { e with isActive := false }
    { fh with fHead := fh.fHead.erase f, fCbHead := fh.fCbHead.erase f }

def fdeTDelete {κ} (fh : FdeHead κ) (f : FdeId) (e : Fde) : FdeHead κ :=
  if ¬ e.isActive then fh else
    let fh := fh.put f { e with isActive := false }
    { fh with fHead := fh.fHead.erase f, fTHead := fh.fTHead.erase f }

def fdeAdd {κ} [Kq κ] (fh : FdeHead κ) (f : FdeId) : FdeHead κ :=
  match fh.fdes f with
  | none => fh
  | some e =>
    match e.fType with
    | .read | .write => fdeRwAdd fh f e
    | .callback => fdeCbAdd fh f e
    | .user => fdeUeAdd fh f e
    | _ => fh

def FdeHead.tvOf {κ} (fh : FdeHead κ) (f : FdeId) : Timeval := ((fh.fdes f).map Fde.tv).getD ⟨0,0⟩

/- TAILQ_FOREACH stops at the first timer the new one is later than, and the new
one is linked after it. On the empty list the loop would end with n == NULL. -/
def walkInsert (f : FdeId) (later : FdeId → Bool) : List FdeId → List FdeId
  | [] => []
  | n::rest => if later n then n::f::rest else n::walkInsert f later rest

def timerInsert (f : FdeId) (tv : Timeval) (tvOf : FdeId → Timeval) : List FdeId → List FdeId
  | [] => [f]
  | n::rest =>
    if timevalCmp tv (tvOf n) ≤ 0 then f::n::rest
    else if timevalCmp tv (tvOf ((n::rest).getLast (by simp))) ≥ 0 then n::rest ++ [f]
    else walkInsert f (fun m => timevalCmp tv (tvOf m) > 0) (n::rest)

-- A wrong type is reported on stderr and then added all the same.
def fdeAddTimeout {κ} (fh : FdeHead κ) (f : FdeId) (tv : Timeval) : FdeHead κ :=
  match fh.fdes f with
  | none => fh
  | some e =>
    if e.isActive then fh else
      let fh := fh.put f { e with isActive := true, tv := tv }
      { fh with fHead := fh.fHead ++ [f], fTHead := timerInsert f tv fh.tvOf fh.fTHead }

def fdeDelete {κ} [Kq κ] (fh : FdeHead κ) (f : FdeId) : FdeHead κ :=
  match fh.fdes f with
  | none => fh
  | some e =>
    match e.fType with
    | .read | .write => fdeRwDelete fh f e
    | .callback => fdeCbDelete fh f e
    | .timer => fdeTDelete fh f e
    | .user => fdeUeDelete fh f e
    | _ => fh

def fdeFree {κ} [Kq κ] (fh : FdeHead κ) (f : FdeId) : FdeHead κ :=
  match fh.fdes f with
  | none => fh
  | some e =>
    let fh := if e.isActive then fdeDelete fh f else fh
    { fh with fdes := Function.update fh.fdes f none }

/- What client code calls, from outside the event loop or inside a callback. -/
inductive Op where
  | create (f : FdeId) (fd : Int) (t : FdeType) (fl : UInt32) (cb : Option Nat) (cbdata : Nat)
  | add (f : FdeId)
  | addTimeout (f : FdeId) (tv : Timeval)
  | delete (f : FdeId)
  | free (f : FdeId)
  deriving DecidableEq, Repr

def applyOp {κ} [Kq κ] (fh : FdeHead κ) : Op → FdeHead κ
  | .create f fd t fl cb cbdata => (fdeCreate fh f fd t fl cb cbdata).getD fh
  | .add f => fdeAdd fh f
  | .addTimeout f tv => fdeAddTimeout fh f tv
  | .delete f => fdeDelete fh f
  | .free f => fdeFree fh f

end Libiapp.Event
