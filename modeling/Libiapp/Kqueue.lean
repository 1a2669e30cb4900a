import Mathlib.Init

/-! The kevent records that fde.c builds and what it relies on of a kqueue.
A kqueue is a parameter of the model: `submit` is a kevent() call without room
for events, `Waits` relates a call with an event list to what it may return. -/
namespace Libiapp.Kqueue

inductive Filter where | none | read | write | user
  deriving DecidableEq, Repr

abbrev Flags := BitVec 16

def evAdd : Flags := 0x0001#16
def evDelete : Flags := 0x0002#16
def evEnable : Flags := 0x0004#16
def evOneshot : Flags := 0x0010#16
def evClear : Flags := 0x0020#16
def evError : Flags := 0x4000#16

def has (flags bit : Flags) : Bool := flags &&& bit != 0#16

theorem hasOr (a b bit : Flags) : has (a ||| b) bit = (has a bit || has b bit) := by
  simp only [has,BitVec.and_or_distrib_right]
  grind

theorem hasMask {a mask bit : Flags} (kept : mask &&& bit = bit) : has (a &&& mask) bit = has a bit := by
  simp only [has]
  rw [BitVec.and_assoc,kept]

-- The errno values that fde_rw_runloop tells apart in an EV_ERROR entry.
def ePerm : Int := 1
def eNoent : Int := 2
def eBadf : Int := 9
def ePipe : Int := 32

/- `udata` is the address of the fde, and NULL is `none`. -/
structure Kevent where
  ident : Int
  filter : Filter
  flags : Flags
  fflags : BitVec 32
  data : Int
  udata : Option Nat
  deriving DecidableEq, Repr

-- A registration is named by these two fields.
abbrev Key := Int × Filter

def Kevent.key (k : Kevent) : Key := (k.ident,k.filter)

class Kq (κ : Type) where
  submit : κ → List Kevent → κ
  Waits : κ → List Kevent → κ → List Kevent → Prop

end Libiapp.Kqueue
