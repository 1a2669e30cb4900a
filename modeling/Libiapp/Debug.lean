import Libiapp.Runs
import Mathlib.Data.List.Basic
import Mathlib.Logic.Function.Basic

/-! libidebug: the sections of debug.c and their masks. debug_levels has a row for each
type, one behind the other, and its sections are not checked: memory is indexed by
integers, and the table is a part of it. debug_register returns -1 when it has no section
to give, and libiapp_thr_init passes on whatever it returns. -/
namespace Libiapp.Debug
open Runs

def debugSectionMax : Nat := 256
def debugTypeMax : Nat := 3
def lastSection : Nat := debugSectionMax - 1

-- debug_type_t. The C type has values that are none of these.
def debugTypePrint : Nat := 0
def debugTypeLog : Nat := 1
def debugTypeSyslog : Nat := 2

structure State where
  levelStrs : Nat → Option String
  memory : Int → UInt64

-- &debug_levels[t][section], counted in masks from the start of the table.
def entry (t : Nat) (sec : Int) : Int := t * debugSectionMax + sec

def InTable (i : Int) : Prop := 0 ≤ i ∧ i < debugTypeMax * debugSectionMax

instance (i) : Decidable (InTable i) := inferInstanceAs (Decidable (_ ∧ _))

def State.mask (s : State) (t : Nat) (sec : Int) : UInt64 := s.memory (entry t sec)

def State.put (s : State) (t : Nat) (sec : Int) (mask : UInt64) : State :=
  { s with memory := Function.update s.memory (entry t sec) mask }

def debugInit (memory : Int → UInt64) : State := ⟨fun _ => none,fun i => if InTable i then 0 else memory i⟩

-- `dup` says whether strdup() has memory; its result is not looked at.
def debugRegister (s : State) (dbgname : Option String) (dup : Bool) : State × Int :=
  match dbgname with
  | none => (s,-1)
  | some name =>
    match (List.range debugSectionMax).find? fun i => (s.levelStrs i).isNone with
    | none => (s,-1)
    | some i =>
      let s := { s with levelStrs := Function.update s.levelStrs i (if dup then some name else none) }
      (((s.put debugTypePrint i 0).put debugTypeLog i 0).put debugTypeSyslog i 0,i)

def debugSetmask (s : State) (sec : Int) (t : Nat) (mask : UInt64) : State :=
  if t ≥ debugTypeMax then s else s.put t sec mask

def libiappThrDbgInit : UInt64 := 1
def libiappThrDbgRun : UInt64 := 2

def libiappThrInit (s : State) (dup : Bool) : State × Int :=
  let (s,thrDbg) := debugRegister s (some "thr") dup
  (debugSetmask s thrDbg debugTypePrint (libiappThrDbgInit ||| libiappThrDbgRun),thrDbg)

/- The programs that register sections and set masks. `given` has what debug_register
returned to them. -/
structure Client where
  debug : State
  given : List Int

inductive Act where
  | register (dbgname : Option String) (dup : Bool)
  | setmask (handle : Int) (t : Nat) (mask : UInt64)
  deriving DecidableEq, Repr

def step (c : Client) : Act → Client
  | .register dbgname dup =>
    let (debug,handle) := debugRegister c.debug dbgname dup
    ⟨debug,handle::c.given⟩
  | .setmask handle t mask => { c with debug := debugSetmask c.debug handle t mask }

/- A handle is one that debug_register returned, and a type is one of the three. -/
def Allowed (c : Client) : Act → Prop
  | .register .. => True
  | .setmask handle t _ => handle ∈ c.given ∧ t < debugTypeMax

instance (c : Client) : (a : Act) → Decidable (Allowed c a)
  | .register .. => isTrue trivial
  | .setmask handle t _ => inferInstanceAs (Decidable (handle ∈ c.given ∧ t < debugTypeMax))

def Started (c : Client) : Prop := ∃ memory, c = ⟨debugInit memory,[]⟩

def debugMachine : Machine Client Act := ⟨Started,Allowed,step⟩

instance (c a) : Decidable (debugMachine.allowed c a) := inferInstanceAs (Decidable (Allowed c a))

/- libiapp_thr_init is one registration, and a mask for the handle that it returned. -/
theorem thrInitSteps (c : Client) (dup : Bool) :
    let thrDbg := (libiappThrInit c.debug dup).2
    (run debugMachine c [.register (some "thr") dup,.setmask thrDbg debugTypePrint 3]).debug =
      (libiappThrInit c.debug dup).1 ∧
    Possible debugMachine c [.register (some "thr") dup,.setmask thrDbg debugTypePrint 3] :=
  ⟨rfl,trivial,⟨List.mem_cons_self,by decide⟩,trivial⟩

/- The entry is one of the table, and the masks of all other sections stay. -/
def Isolated (c : Client) : Act → Prop
  | .register .. => True
  | .setmask handle t mask => InTable (entry t handle) ∧
    ∀ other : Nat, other < debugSectionMax → (other : Int) ≠ handle → ∀ t', t' < debugTypeMax →
      (step c (.setmask handle t mask)).debug.mask t' other = c.debug.mask t' other

/- The handle is a section, or what is written is there already: the handle -1 has the
last section of the type before. -/
def Harmless (c : Client) : Act → Prop
  | .register .. => True
  | .setmask handle t mask => handle ≠ -1 ∨ t ≠ debugTypePrint ∧ c.debug.mask (t-1) lastSection = mask

instance (c : Client) : (a : Act) → Decidable (Harmless c a)
  | .register .. => isTrue trivial
  | .setmask handle t mask => inferInstanceAs (Decidable (handle ≠ -1 ∨ t ≠ debugTypePrint ∧
      c.debug.mask (t-1) lastSection = mask))

def Section (handle : Int) : Prop := 0 ≤ handle ∧ handle < debugSectionMax

def Handles (c : Client) : Prop := ∀ handle ∈ c.given, handle = -1 ∨ Section handle

theorem registerHandle (s : State) (dbgname : Option String) (dup : Bool) :
    (debugRegister s dbgname dup).2 = -1 ∨ Section (debugRegister s dbgname dup).2 := by
  unfold debugRegister
  split
  · exact Or.inl rfl
  · split
    · exact Or.inl rfl
    · rename_i i found
      have below : i < debugSectionMax := List.mem_range.mp (List.mem_of_find?_eq_some found)
      exact Or.inr ⟨Int.natCast_nonneg i,Int.ofNat_lt.mpr below⟩

theorem stepHandles {c : Client} {a : Act} (handles : Handles c) : Handles (step c a) := by
  cases a with
  | register dbgname dup =>
    intro handle own
    rcases List.mem_cons.mp own with rfl | before
    · exact registerHandle c.debug dbgname dup
    · exact handles handle before
  | setmask handle t mask => exact handles

theorem setmaskMask {c : Client} {handle : Int} {t : Nat} {mask : UInt64} (valid : t < debugTypeMax) (t' : Nat)
    (other : Int) : (step c (.setmask handle t mask)).debug.mask t' other =
      if entry t' other = entry t handle then mask else c.debug.mask t' other := by
  have range : ¬ t ≥ debugTypeMax := Nat.not_le.mpr valid
  simp only [step,debugSetmask,if_neg range,State.put,State.mask,Function.update_apply]

theorem sectionIsolated {c : Client} {handle : Int} {t : Nat} {mask : UInt64} (valid : t < debugTypeMax)
    (own : Section handle) : Isolated c (.setmask handle t mask) := by
  obtain ⟨low,high⟩ := own
  simp only [debugSectionMax,debugTypeMax] at high valid
  refine ⟨?_,fun other below apart t' _ => ?_⟩
  · simp only [InTable,entry,debugSectionMax,debugTypeMax]
    omega
  · have elsewhere : entry t' other ≠ entry t handle := by
      simp only [entry,debugSectionMax] at below ⊢
      omega
    rw [setmaskMask valid,if_neg elsewhere]

/- The row of a type begins where that of the type before ends. -/
theorem entryBefore {t : Nat} (later : t ≠ debugTypePrint) : entry t (-1) = entry (t-1) lastSection := by
  simp only [entry,lastSection,debugSectionMax,debugTypePrint] at later ⊢
  omega

theorem invalidIsolatedIff {c : Client} {t : Nat} {mask : UInt64} (valid : t < debugTypeMax) :
    Isolated c (.setmask (-1) t mask) ↔
      t ≠ debugTypePrint ∧ c.debug.mask (t-1) lastSection = mask := by
  constructor
  · rintro ⟨⟨low,_⟩,same⟩
    have later : t ≠ debugTypePrint := by
      simp only [entry,debugSectionMax,debugTypePrint] at low ⊢
      omega
    have last := same lastSection (by decide) (by decide) (t-1) (by omega)
    rw [setmaskMask valid,entryBefore later,if_pos rfl] at last
    exact ⟨later,last.symm⟩
  · rintro ⟨later,already⟩
    refine ⟨?_,fun other _ _ t' _ => ?_⟩
    · simp only [InTable,entry,debugSectionMax,debugTypeMax,debugTypePrint] at valid later ⊢
      omega
    · rw [setmaskMask valid,entryBefore later]
      split
      · rename_i there
        rw [← already,State.mask,State.mask,there]
      · rfl

theorem isolatedIff {c : Client} {a : Act} (handles : Handles c) (allowed : Allowed c a) :
    Isolated c a ↔ Harmless c a := by
  cases a with
  | register => exact Iff.rfl
  | setmask handle t mask =>
    obtain ⟨own,valid⟩ := allowed
    rcases handles handle own with rfl | inside
    · simp only [Harmless,ne_eq,not_true_eq_false,false_or]
      exact invalidIsolatedIff valid
    · have good : handle ≠ -1 := by
        have := inside.1
        omega
      exact iff_of_true (sectionIsolated valid inside) (Or.inl good)

/- The masks of the sections are isolated through a run exactly when debug_setmask is never
given the handle of a failed registration, writes that change nothing apart. -/
theorem masksIsolatedIff {c : Client} {actions : List Act} (started : Started c)
    (possible : Possible debugMachine c actions) :
    Each debugMachine Isolated c actions ↔ Each debugMachine Harmless c actions := by
  have nothing : Handles c := by
    obtain ⟨memory,rfl⟩ := started
    exact fun _ own => absurd own List.not_mem_nil
  exact eachIff (fun _ _ => isolatedIff) (fun _ _ handles _ _ => stepHandles handles) nothing possible

def firstRun : List Act :=
  [.register (some "debug") true,.register (some "thr") true,.setmask 1 debugTypePrint 3,.setmask 0 debugTypeLog 5,
    .register none true,.setmask 1 debugTypeSyslog 1]

theorem masksIsolatedRun : Each debugMachine Isolated ⟨debugInit fun _ => 7,[]⟩ firstRun :=
  (masksIsolatedIff ⟨_,rfl⟩ (by decide)).mpr (by decide)

/- The first `n` sections are taken. -/
def Filled (n : Nat) (c : Client) : Prop := ∀ i, (c.debug.levelStrs i).isNone = true ↔ n ≤ i

theorem Filled.taken {n : Nat} {c : Client} (filled : Filled n c) {i : Nat} (before : i < n) :
    (!(c.debug.levelStrs i).isNone) = true := by
  rw [Bool.not_eq_true',Bool.eq_false_iff]
  exact fun free => Nat.not_le.mpr before ((filled i).mp free)

theorem registerFilled {n : Nat} {c : Client} (name : String) (filled : Filled n c) (room : n < debugSectionMax) :
    Filled (n+1) (step c (.register (some name) true)) := by
  have found : (List.range debugSectionMax).find? (fun i => (c.debug.levelStrs i).isNone) = some n := by
    have free := (filled n).mpr (Nat.le_refl n)
    exact List.find?_range_eq_some.mpr ⟨free,List.mem_range.mpr room,fun _ before => filled.taken before⟩
  intro i
  simp only [step,debugRegister,found,State.put,Function.update_apply]
  split
  · rename_i here
    subst here
    simp
  · rename_i elsewhere
    rw [filled i]
    omega

theorem registerFull {c : Client} (name : String) (filled : Filled debugSectionMax c) :
    debugRegister c.debug (some name) true = (c.debug,-1) := by
  have nothing : (List.range debugSectionMax).find? (fun i => (c.debug.levelStrs i).isNone) = none :=
    List.find?_range_eq_none.mpr fun _ below => filled.taken below
  simp only [debugRegister,nothing]

theorem runFilled (names : List String) {n : Nat} {c : Client} (filled : Filled n c)
    (fits : n + names.length ≤ debugSectionMax) :
    let registers := names.map fun name => Act.register (some name) true
    Possible debugMachine c registers ∧ Filled (n + names.length) (run debugMachine c registers) := by
  induction names generalizing n c with
  | nil => exact ⟨trivial,filled⟩
  | cons name rest ih =>
    simp only [List.length_cons] at fits
    have next := registerFilled name filled (by omega)
    obtain ⟨possible,last⟩ := ih next (by omega)
    refine ⟨⟨trivial,possible⟩,?_⟩
    have length : n + (name::rest).length = n + 1 + rest.length := by
      rw [List.length_cons]
      omega
    rw [length]
    exact last

/- Once every section is taken, the steps of libiapp_thr_init write in front of the table. -/
theorem thrInitLeaks {c : Client} (filled : Filled debugSectionMax c) :
    let steps : List Act := [.register (some "thr") true,.setmask (-1) debugTypePrint 3]
    Possible debugMachine c steps ∧ ¬ Each debugMachine Isolated c steps := by
  have invalid : -1 ∈ (step c (.register (some "thr") true)).given := by
    simp only [step,registerFull "thr" filled]
    exact List.mem_cons_self
  refine ⟨⟨trivial,⟨invalid,by decide⟩,trivial⟩,fun each => ?_⟩
  obtain ⟨_,outside,_⟩ := each
  exact absurd rfl ((invalidIsolatedIff (by decide)).mp outside).1

def everySection : List Act := (List.replicate debugSectionMax "section").map fun name => .register (some name) true

theorem masksLeak :
    let c : Client := ⟨debugInit fun _ => 0,[]⟩
    let actions := everySection ++ [.register (some "thr") true,.setmask (-1) debugTypePrint 3]
    Possible debugMachine c actions ∧ ¬ Each debugMachine Isolated c actions := by
  intro c actions
  have empty : Filled 0 c := fun i => iff_of_true rfl (Nat.zero_le i)
  have length : 0 + (List.replicate debugSectionMax "section").length = debugSectionMax := by
    rw [List.length_replicate,Nat.zero_add]
  obtain ⟨possible,filled⟩ := runFilled (List.replicate debugSectionMax "section") empty (Nat.le_of_eq length)
  rw [length] at filled
  obtain ⟨goes,leaks⟩ := thrInitLeaks filled
  exact ⟨possibleAppend possible goes,fun each => leaks (eachLater each)⟩

end Libiapp.Debug
