import Mathlib.Data.List.Basic

/-! A stream that is filled from a sequence of parcels: of each parcel some bytes, from
its beginning on, have been taken. The newest parcel stands first. -/
namespace Libiapp.Parcels

structure Parcel (α : Type) where
  bytes : List α
  taken : Nat
  deriving DecidableEq, Repr

variable {α : Type}

def Parcel.out (p : Parcel α) : List α := p.bytes.take p.taken

def stream (parcels : List (Parcel α)) : List α := (parcels.reverse.map Parcel.out).flatten

theorem streamCons (p : Parcel α) (parcels) : stream (p::parcels) = stream parcels ++ p.out := by
  simp [stream]

theorem streamPost (bytes : List α) (parcels) : stream (⟨bytes,0⟩::parcels) = stream parcels := by
  rw [streamCons,Parcel.out,List.take_zero,List.append_nil]

/- Taking more from the newest parcel continues the stream with its next bytes. -/
theorem streamTake (p : Parcel α) (parcels) (n : Nat) :
    stream ({ p with taken := p.taken + n }::parcels) = stream (p::parcels) ++ (p.bytes.drop p.taken).take n := by
  rw [streamCons,streamCons,Parcel.out,Parcel.out,List.take_add,List.append_assoc]

end Libiapp.Parcels
