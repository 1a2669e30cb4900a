import Libiapp.Runs
import Mathlib.Algebra.Group.Nat.Defs
import Mathlib.Logic.Function.Basic

/-! shm_alloc.c: slabs of shared memory and the allocations carved from them. Slabs
and allocations are named by the address of their node; nodes are never freed.
The system calls and malloc() answer from outside. size_t is UInt64, off_t Int64.
free_list_cnt is an int in C and an Int here, which is the same while a free list has
fewer than 2^31 allocations. -/
namespace Libiapp.Shm
open Runs

abbrev SlabId := Nat
abbrev AllocId := Nat

structure Allocation where
  shaSlab : SlabId
  shaFd : Int
  shaOffset : Int64
  shaLen : UInt64
  shaPtr : UInt64
  shaIsactive : Bool
  deriving DecidableEq, Repr

structure Slab where
  shmFd : Int
  shmSize : UInt64
  shmM : UInt64
  shmCurofs : Int64
  freeList : List AllocId
  freeListCnt : Int
  deriving DecidableEq, Repr

/- `locked` is the mutex. An error checking mutex, which FreeBSD makes by default, lets
a second lock of its owner fail, and nobody looks at the result. -/
structure State where
  slabList : List SlabId
  slabs : SlabId → Option Slab
  allocs : AllocId → Option Allocation
  locked : Bool

structure SlabSys where
  calloc : Option SlabId
  shmOpen : Int
  ftruncate : Int
  mmap : Option UInt64
  mlock : Int
  deriving DecidableEq, Repr

-- The function returns NULL whether it has made a slab or not.
def shmAllocNewSlab (s : State) (size : UInt64) (doMlock : Bool) (sys : SlabSys) : State × Option SlabId :=
  match sys.calloc with
  | none => (s,none)
  | some sh =>
    if sys.shmOpen < 0 then (s,none)
    else if sys.ftruncate < 0 then (s,none)
    else match sys.mmap with
      | none => (s,none)
      | some m =>
        if doMlock ∧ sys.mlock < 0 then (s,none) else
          ({ s with
            slabList := s.slabList ++ [sh]
            slabs := Function.update s.slabs sh (some ⟨sys.shmOpen,size,m,0,[],0⟩) },none)

def shmAllocInit (slabSize : UInt64) (doMlock : Bool) (sys : SlabSys) : State :=
  let s : State := ⟨[],fun _ => none,fun _ => none,true⟩
  { (shmAllocNewSlab s slabSize doMlock sys).1 with locked := false }

def State.setSlab (s : State) (sh : SlabId) (f : Slab → Slab) : State :=
  { s with slabs := Function.update s.slabs sh ((s.slabs sh).map f) }

def State.setAlloc (s : State) (sa : AllocId) (al : Allocation) : State :=
  { s with allocs := Function.update s.allocs sa (some al) }

/- Nothing is the end of the program in assert(). -/
def shmAllocAddFreelist (s : State) (sa : AllocId) : Option State := do
  let al ← s.allocs sa
  if al.shaIsactive then
    let s := s.setAlloc sa { al with shaIsactive := false }
    let s := { s with locked := true }
    let s := s.setSlab al.shaSlab fun slab =>
      { slab with freeList := sa::slab.freeList, freeListCnt := slab.freeListCnt + 1 }
    some { s with locked := false }
  else none

def State.len (s : State) (sa : AllocId) : Option UInt64 := (s.allocs sa).map Allocation.shaLen

-- The inner loop of the search: the first entry of one free list that fits.
def firstFit (s : State) (size : UInt64) (sh : SlabId) : Option AllocId := do
  let slab ← s.slabs sh
  slab.freeList.find? fun sa => s.len sa == some size

-- The break leaves the inner loop only, so a later slab replaces what an earlier one gave.
def lookupFit (s : State) (size : UInt64) : Option AllocId :=
  s.slabList.foldl (fun found sh => (firstFit s size sh).or found) none

def shmAllocLookupFreelist (s : State) (size : UInt64) : State × Option AllocId :=
  match lookupFit s size with
  | none => (s,none)
  | some sa =>
    match s.allocs sa with
    | none => (s,none)
    | some al =>
      let s := s.setSlab al.shaSlab fun slab =>
        { slab with freeList := slab.freeList.erase sa, freeListCnt := slab.freeListCnt - 1 }
      (s.setAlloc sa { al with shaIsactive := true },some sa)

-- The sum is made with unsigned numbers, as size is one.
def Slab.hasRoom (slab : Slab) (size : UInt64) : Bool := !(slab.shmCurofs.toUInt64 + size > slab.shmSize)

def firstRoom (s : State) (size : UInt64) : Option SlabId :=
  s.slabList.find? fun sh => (s.slabs sh).any (Slab.hasRoom · size)

-- The range behind shm_curofs.
def Slab.carve (slab : Slab) (sh : SlabId) (size : UInt64) : Allocation :=
  ⟨sh,slab.shmFd,slab.shmCurofs,size,slab.shmM + slab.shmCurofs.toUInt64,true⟩

/- A malloc() that fails returns to the caller with the mutex held. -/
def shmAllocAlloc (s : State) (size : UInt64) (malloc : Option AllocId) : State × Option AllocId :=
  let s := { s with locked := true }
  match shmAllocLookupFreelist s size with
  | (s,some sa) => ({ s with locked := false },some sa)
  | (s,none) =>
    match firstRoom s size with
    | none => ({ s with locked := false },none)
    | some sh =>
      match s.slabs sh,malloc with
      | some slab,some sa =>
        let s := s.setAlloc sa (slab.carve sh size)
        let s := s.setSlab sh fun slab => { slab with shmCurofs := (slab.shmCurofs.toUInt64 + size).toInt64 }
        ({ s with locked := false },some sa)
      | _,_ => (s,none)

def shmAllocFree (s : State) (sa : AllocId) : Option (State × Int) := do
  let s ← shmAllocAddFreelist s sa
  some (s,0)

inductive Act where
  | newSlab (size : UInt64) (doMlock : Bool) (sys : SlabSys)
  | alloc (size : UInt64) (malloc : Option AllocId)
  | free (sa : AllocId)
  deriving DecidableEq, Repr

def step (s : State) : Act → State
  | .newSlab size doMlock sys => (shmAllocNewSlab s size doMlock sys).1
  | .alloc size malloc => (shmAllocAlloc s size malloc).1
  | .free sa => ((shmAllocFree s sa).map Prod.fst).getD s

def State.active (s : State) (sa : AllocId) : Bool := (s.allocs sa).any Allocation.shaIsactive

/- malloc() and calloc() give fresh addresses, sizes are below 2^63, and only active
allocations are freed. -/
def Allowed (s : State) : Act → Prop
  | .newSlab size _ sys => size.toNat < 2^63 ∧ ∀ sh ∈ sys.calloc, s.slabs sh = none
  | .alloc size malloc => size.toNat < 2^63 ∧ ∀ sa ∈ malloc, s.allocs sa = none
  | .free sa => s.active sa = true

instance (s : State) : (a : Act) → Decidable (Allowed s a)
  | .newSlab size _ sys => inferInstanceAs (Decidable (size.toNat < 2^63 ∧ ∀ sh ∈ sys.calloc, s.slabs sh = none))
  | .alloc size malloc => inferInstanceAs (Decidable (size.toNat < 2^63 ∧ ∀ sa ∈ malloc, s.allocs sa = none))
  | .free sa => inferInstanceAs (Decidable (s.active sa = true))

def Started (s : State) : Prop :=
  ∃ slabSize doMlock sys, slabSize.toNat < 2^63 ∧ s = shmAllocInit slabSize doMlock sys

def shmMachine : Machine State Act := ⟨Started,Allowed,step⟩

instance (s a) : Decidable (shmMachine.allowed s a) := inferInstanceAs (Decidable (Allowed s a))

end Libiapp.Shm
