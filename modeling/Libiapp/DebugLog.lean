import Libiapp.Debug

/-! debug.c as a whole: sections found by name, the log file, and where a message goes. The
tables stand for a list of named sections, each with a mask for each destination (`Registry`),
and every run of debug.c is a run of that. A registration for which strdup() has no memory
hands out a section that stays without a name: the next registration gives it again. Messages
and names are compared, measured and cut as bytes. What the library says on stderr about its
own calls is left out, and calls do not overlap. -/
namespace Libiapp.Debug
open Runs

inductive Sink where
  | stderr
  | file (name : String)
  | syslog
  deriving DecidableEq, Repr

structure Line where
  sink : Sink
  text : List UInt8
  deriving DecidableEq, Repr

/- debug_file, by the name under which it was opened, and debug_filename. -/
structure Files where
  file : Option String
  filename : Option String
  deriving DecidableEq, Repr

-- `opens` says whether fopen() succeeds.
def debugFileOpenLocked (f : Files) (opens : Bool) : Files :=
  match f.filename with
  | none => { f with file := none }
  | some name => { f with file := if opens then some name else none }

def debugFileCloseLocked (f : Files) : Files := { f with file := none }

-- `dup` says whether strdup() has memory; its result is not looked at.
def debugSetFilename (f : Files) (filename : String) (dup : Bool) : Files :=
  { f with filename := if dup then some filename else none }

def debugFileReopen (f : Files) (opens : Bool) : Files := debugFileOpenLocked (debugFileCloseLocked f) opens

def bytes (s : String) : List UInt8 := s.toByteArray.data.toList

def strlen (s : String) : Nat := (bytes s).length

-- strncmp() == 0 of two C strings
def strncmp (a b : String) (n : Nat) : Bool := (bytes a ++ [0]).take n == (bytes b ++ [0]).take n

def isCString (s : String) : Bool := !(bytes s).contains 0

def sameName (name dbg : String) : Bool := strlen name == strlen dbg && strncmp name dbg (strlen dbg)

/- The loop with which both lookups begin. -/
def debugLookup (s : State) (dbg : String) : Nat :=
  ((List.range debugSectionMax).find? fun i => (s.levelStrs i).all (sameName · dbg)).getD debugSectionMax

def debugSetmaskStr (s : State) (dbg : String) (t : Nat) (mask : UInt64) : State :=
  let i := debugLookup s dbg
  if i ≥ debugSectionMax then s else debugSetmask s i t mask

def debugTypeOf (dtype : String) : Option Nat :=
  if strncmp "syslog" dtype 6 then some debugTypeSyslog
  else if strncmp "log" dtype 4 then some debugTypeLog
  else if strncmp "print" dtype 4 then some debugTypePrint
  else none

def debugSetmaskStr2 (s : State) (dbg dtype : String) (mask : UInt64) : State × Int :=
  let i := debugLookup s dbg
  if i ≥ debugSectionMax then (s,-1)
  else if (s.levelStrs i).isNone then (s,-1)
  else
    match debugTypeOf dtype with
    | none => (s,-1)
    | some t => (debugSetmask s i t mask,0)

/- `given` has what debug_register returned since debug_init. -/
structure Log where
  debug : State
  given : List Int
  initialised : Bool
  files : Files
  syslogEnable : Int
  out : List Line
  results : List Int

def Log.debugInit (l : Log) : Log :=
  if l.initialised then l else { l with debug := Debug.debugInit l.debug.memory, initialised := true }

def debugShutdown (l : Log) : Log :=
  if !l.initialised then l else { l with debug := Debug.debugInit l.debug.memory, given := [], initialised := false }

-- %0*llu
def decimal (width : Nat) (n : UInt64) : List UInt8 :=
  let digits := (Nat.toDigits 10 n.toNat).map fun c => UInt8.ofNat c.toNat
  List.replicate (width - digits.length) 48 ++ digits

/- tbuf and buf, as %s prints them. `text` is what the format makes of its arguments: 511 of
its bytes fit into buf, and a zero byte among them ends the message. The time always fits. -/
def stamp (tvSec tvUsec : UInt64) (text : List UInt8) : List UInt8 :=
  decimal 0 tvSec ++ bytes "." ++ decimal 6 tvUsec ++ bytes "| " ++ (text.take 511).takeWhile (· != 0)

def doDebug (l : Log) (sec : Int) (mask : UInt64) (tvSec tvUsec : UInt64) (text : List UInt8) : Log :=
  let line := stamp tvSec tvUsec text
  let l := if l.debug.mask debugTypePrint sec &&& mask ≠ 0 then { l with out := l.out ++ [⟨.stderr,line⟩] } else l
  let l :=
    match l.files.file with
    | some name => if l.debug.mask debugTypeLog sec &&& mask ≠ 0 then { l with out := l.out ++ [⟨.file name,line⟩] } else l
    | none => l
  if l.syslogEnable = 1 ∧ l.debug.mask debugTypeSyslog sec &&& mask ≠ 0 then
    { l with out := l.out ++ [⟨.syslog,line⟩] }
  else l

-- DEBUG()
def debugMacro (l : Log) (sec : Int) (mask : UInt64) (tvSec tvUsec : UInt64) (text : List UInt8) : Log :=
  if l.debug.mask debugTypePrint sec &&& mask ≠ 0 ∨ l.debug.mask debugTypeLog sec &&& mask ≠ 0 ∨
      l.debug.mask debugTypeSyslog sec &&& mask ≠ 0 then
    doDebug l sec mask tvSec tvUsec text
  else l

inductive LogAct where
  | init
  | shutdown
  | register (dbgname : Option String) (dup : Bool)
  | setmask (sec : Nat) (t : Nat) (mask : UInt64)
  | setmaskStr (dbg : String) (t : Nat) (mask : UInt64)
  | setmaskStr2 (dbg dtype : String) (mask : UInt64)
  | setFilename (filename : String) (dup : Bool)
  | fileOpen (opens : Bool)
  | fileClose
  | fileReopen (opens : Bool)
  | debug (sec : Nat) (mask : UInt64) (tvSec tvUsec : UInt64) (text : List UInt8)
  deriving DecidableEq, Repr

def logStep (l : Log) : LogAct → Log
  | .init => l.debugInit
  | .shutdown => debugShutdown l
  | .register dbgname dup =>
    let (debug,handle) := debugRegister l.debug dbgname dup
    { l with debug := debug, given := handle::l.given, results := handle::l.results }
  | .setmask sec t mask => { l with debug := debugSetmask l.debug sec t mask }
  | .setmaskStr dbg t mask => { l with debug := debugSetmaskStr l.debug dbg t mask }
  | .setmaskStr2 dbg dtype mask =>
    let (debug,ret) := debugSetmaskStr2 l.debug dbg dtype mask
    { l with debug := debug, results := ret::l.results }
  | .setFilename filename dup => { l with files := debugSetFilename l.files filename dup }
  | .fileOpen opens => { l with files := debugFileOpenLocked l.files opens }
  | .fileClose => { l with files := debugFileCloseLocked l.files }
  | .fileReopen opens => { l with files := debugFileReopen l.files opens }
  | .debug sec mask tvSec tvUsec text => debugMacro l sec mask tvSec tvUsec text

/- A section is one that debug_register returned, and the library is used between debug_init
and debug_shutdown. -/
def LogAllowed (l : Log) : LogAct → Prop
  | .init => True
  | .setmask sec _ _ | .debug sec _ _ _ _ => l.initialised = true ∧ (sec : Int) ∈ l.given
  | .setmaskStr2 _ dtype _ => l.initialised = true ∧ isCString dtype = true
  | _ => l.initialised = true

instance (l : Log) : (a : LogAct) → Decidable (LogAllowed l a)
  | .init => isTrue trivial
  | .setmask sec _ _ | .debug sec _ _ _ _ => inferInstanceAs (Decidable (l.initialised = true ∧ (sec : Int) ∈ l.given))
  | .setmaskStr2 _ dtype _ => inferInstanceAs (Decidable (l.initialised = true ∧ isCString dtype = true))
  | .shutdown | .register .. | .setmaskStr .. | .setFilename .. | .fileOpen _ | .fileClose | .fileReopen _ =>
    inferInstanceAs (Decidable (l.initialised = true))

/- The globals as the program finds them. -/
def fresh (memory : Int → UInt64) : Log :=
  ⟨Debug.debugInit memory,[],false,⟨none,none⟩,0,[],[]⟩

def logMachine : Machine Log LogAct := ⟨fun l => ∃ memory, l = fresh memory,LogAllowed,logStep⟩

instance (l a) : Decidable (logMachine.allowed l a) := inferInstanceAs (Decidable (LogAllowed l a))

/- What the library is for. -/
structure Named where
  name : String
  masks : Nat → UInt64

/- `next` has the masks of the section that the next registration gives. A registration that
could not keep its name has given it already, and a mask for an unknown name goes there. -/
structure Registry where
  sections : List Named
  next : Nat → UInt64
  files : Files
  out : List Line
  results : List Int

def Registry.row (r : Registry) (i : Nat) : Nat → UInt64 :=
  match r.sections[i]? with
  | some c => c.masks
  | none => if i = r.sections.length then r.next else fun _ => 0

def Registry.setmask (r : Registry) (i t : Nat) (mask : UInt64) : Registry :=
  if t ≥ debugTypeMax ∨ i ≥ debugSectionMax then r
  else if i < r.sections.length then
    { r with sections := r.sections.modify i fun c => { c with masks := Function.update c.masks t mask } }
  else { r with next := Function.update r.next t mask }

def Registry.find (r : Registry) (dbg : String) : Nat := r.sections.findIdx fun c => c.name == dbg

def Registry.register (r : Registry) (name : String) (dup : Bool) : Registry :=
  { r with sections := if dup then r.sections ++ [⟨name,fun _ => 0⟩] else r.sections, next := fun _ => 0 }

def Registry.cleared (r : Registry) : Registry := { r with sections := [], next := fun _ => 0 }

def typeNamed (dtype : String) : Option Nat :=
  if bytes "syslog" <+: bytes dtype then some debugTypeSyslog
  else if dtype = "log" then some debugTypeLog
  else if bytes "prin" <+: bytes dtype then some debugTypePrint
  else none

/- Nothing goes to syslog: debug_syslog_enable is never set. -/
def Registry.sinks (r : Registry) (i : Nat) (mask : UInt64) : List Sink :=
  (if r.row i debugTypePrint &&& mask ≠ 0 then [.stderr] else []) ++
    (if r.row i debugTypeLog &&& mask ≠ 0 then r.files.file.toList.map .file else [])

def Registry.step (r : Registry) : LogAct → Registry
  | .init => r
  | .shutdown => r.cleared
  | .register none _ => { r with results := -1::r.results }
  | .register (some name) dup =>
    if r.sections.length < debugSectionMax then { r.register name dup with results := r.sections.length::r.results }
    else { r with results := -1::r.results }
  | .setmask sec t mask => r.setmask sec t mask
  | .setmaskStr dbg t mask => r.setmask (r.find dbg) t mask
  | .setmaskStr2 dbg dtype mask =>
    match r.sections[r.find dbg]?,typeNamed dtype with
    | some _,some t => { r.setmask (r.find dbg) t mask with results := 0::r.results }
    | _,_ => { r with results := -1::r.results }
  | .setFilename filename dup => { r with files := debugSetFilename r.files filename dup }
  | .fileOpen opens => { r with files := debugFileOpenLocked r.files opens }
  | .fileClose => { r with files := debugFileCloseLocked r.files }
  | .fileReopen opens => { r with files := debugFileReopen r.files opens }
  | .debug sec mask tvSec tvUsec text =>
    { r with out := r.out ++ (r.sinks sec mask).map fun sink => ⟨sink,stamp tvSec tvUsec text⟩ }

/- Only the section behind the last one with a name can have been given without one. -/
structure Represents (l : Log) (r : Registry) : Prop where
  names : ∀ i, l.debug.levelStrs i = r.sections[i]?.map Named.name
  masks : ∀ i : Nat, i < debugSectionMax → ∀ t, t < debugTypeMax → l.debug.mask t i = r.row i t
  given : ∀ i : Nat, (i : Int) ∈ l.given → i ≤ r.sections.length ∧ i < debugSectionMax
  room : r.sections.length ≤ debugSectionMax
  ready : l.initialised = false → r.sections = [] ∧ r.next = (fun _ => 0) ∧ l.given = []
  files : l.files = r.files
  syslog : l.syslogEnable = 0
  out : l.out = r.out
  results : l.results = r.results

theorem bytesInj {a b : String} (same : bytes a = bytes b) : a = b :=
  String.toByteArray_inj.mp (ByteArray.ext (Array.toList_inj.mp same))

theorem sameNameIff (name dbg : String) : sameName name dbg = true ↔ name = dbg := by
  constructor
  · intro same
    simp only [sameName,strlen,strncmp,Bool.and_eq_true,beq_iff_eq] at same
    obtain ⟨length,chars⟩ := same
    rw [List.take_left' rfl,← length,List.take_left' rfl] at chars
    exact bytesInj chars
  · rintro rfl
    simp [sameName,strncmp]

theorem strncmpPrefix {word : List UInt8} (dtype : String) (plain : 0 ∉ word) :
    word = (bytes dtype ++ [0]).take word.length ↔ word <+: bytes dtype := by
  rw [← List.prefix_iff_eq_take,List.prefix_concat_iff]
  constructor
  · rintro (whole | inside)
    · exact absurd (by rw [whole]; simp) plain
    · exact inside
  · exact Or.inr

theorem typeAgrees {dtype : String} (valid : isCString dtype = true) : debugTypeOf dtype = typeNamed dtype := by
  have plain : 0 ∉ bytes dtype := by simpa [isCString] using valid
  have syslog : strncmp "syslog" dtype 6 = true ↔ bytes "syslog" <+: bytes dtype := by
    rw [strncmp,beq_iff_eq]
    exact strncmpPrefix dtype (by decide)
  have print : strncmp "print" dtype 4 = true ↔ bytes "prin" <+: bytes dtype := by
    rw [strncmp,beq_iff_eq]
    exact strncmpPrefix dtype (by decide)
  -- the four bytes of "log" include the one that ends it
  have log : strncmp "log" dtype 4 = true ↔ dtype = "log" := by
    have whole : strncmp "log" dtype 4 = true ↔ bytes "log" ++ [0] <+: bytes dtype ++ [0] := by
      rw [strncmp,beq_iff_eq,List.prefix_iff_eq_take]
      rfl
    rw [whole,List.prefix_concat_iff]
    constructor
    · rintro (same | inside)
      · exact (bytesInj (List.append_cancel_right same)).symm
      · exact absurd (inside.subset (by simp)) plain
    · rintro rfl
      exact Or.inl rfl
  simp only [debugTypeOf,typeNamed,syslog,log,print]

/- The first section with the name, or the first that is free. -/
theorem lookupFinds {l r} (h : Represents l r) (dbg : String) : debugLookup l.debug dbg = r.find dbg := by
  have matching (i : Nat) : (l.debug.levelStrs i).all (sameName · dbg) = true ↔
      ∀ c, r.sections[i]? = some c → c.name = dbg := by
    rw [h.names i]
    cases r.sections[i]? with
    | none => simp
    | some c => simp [sameNameIff]
  have before (j) (earlier : j < r.find dbg) : (!(l.debug.levelStrs j).all (sameName · dbg)) = true := by
    rw [Bool.not_eq_true',Bool.eq_false_iff,ne_eq,matching]
    intro all
    have inside : j < r.sections.length := Nat.lt_of_lt_of_le earlier List.findIdx_le_length
    have other := List.not_of_lt_findIdx earlier
    have same := all _ (List.getElem?_eq_getElem inside)
    simp [same] at other
  have here : (l.debug.levelStrs (r.find dbg)).all (sameName · dbg) = true := by
    rw [matching]
    intro c found
    obtain ⟨inside,rfl⟩ := List.getElem?_eq_some_iff.mp found
    exact beq_iff_eq.mp (List.findIdx_getElem (w := inside))
  have most : r.find dbg ≤ r.sections.length := List.findIdx_le_length
  unfold debugLookup
  rcases Nat.lt_or_ge (r.find dbg) debugSectionMax with below | full
  · rw [List.find?_range_eq_some.mpr ⟨here,List.mem_range.mpr below,before⟩]
    rfl
  · have all : r.find dbg = debugSectionMax := Nat.le_antisymm (Nat.le_trans most h.room) full
    rw [List.find?_range_eq_none.mpr fun j below => before j (all ▸ below),all]
    rfl

theorem entryInj {t t' i j : Nat} (belowI : i < debugSectionMax) (belowJ : j < debugSectionMax)
    (same : entry t' j = entry t i) : t' = t ∧ j = i := by
  simp only [entry,debugSectionMax] at same belowI belowJ
  omega

theorem putMask (s : State) {t t' i j : Nat} (mask : UInt64) (belowI : i < debugSectionMax) (belowJ : j < debugSectionMax) :
    (s.put t i mask).mask t' j = if t' = t ∧ j = i then mask else s.mask t' j := by
  simp only [State.mask,State.put,Function.update_apply]
  split
  · rename_i same
    rw [if_pos (entryInj belowI belowJ same)]
  · rename_i other
    rw [if_neg fun both => other (by rw [both.1,both.2])]

theorem setmaskNames (r : Registry) (i t : Nat) (mask : UInt64) (j : Nat) :
    (r.setmask i t mask).sections[j]?.map Named.name = r.sections[j]?.map Named.name := by
  unfold Registry.setmask
  split
  · rfl
  · split
    · rw [List.getElem?_modify]
      cases r.sections[j]? with
      | none => rfl
      | some c =>
        simp only [Option.map_eq_map,Option.map_some]
        split <;> rfl
    · rfl

theorem setmaskLength (r : Registry) (i t : Nat) (mask : UInt64) :
    (r.setmask i t mask).sections.length = r.sections.length := by
  unfold Registry.setmask
  split
  · rfl
  · split
    · exact List.length_modify ..
    · rfl

theorem rowInside {r : Registry} {i : Nat} (inside : i < r.sections.length) : r.row i = r.sections[i].masks := by
  rw [Registry.row,List.getElem?_eq_getElem inside]

theorem rowOutside {r : Registry} {i : Nat} (outside : r.sections.length ≤ i) :
    r.row i = if i = r.sections.length then r.next else fun _ => 0 := by
  rw [Registry.row,List.getElem?_eq_none outside]

theorem setmaskRow {r : Registry} {i t : Nat} (mask : UInt64) (valid : t < debugTypeMax) (below : i < debugSectionMax)
    (given : i ≤ r.sections.length) (j t' : Nat) :
    (r.setmask i t mask).row j t' = if t' = t ∧ j = i then mask else r.row j t' := by
  have goes : ¬ (t ≥ debugTypeMax ∨ i ≥ debugSectionMax) := by omega
  rw [Registry.setmask,if_neg goes]
  split
  · rename_i named
    rcases Nat.lt_or_ge j r.sections.length with inside | outside
    · rw [rowInside (by rw [List.length_modify]; exact inside),rowInside inside,List.getElem_modify]
      rcases eq_or_ne i j with rfl | other
      · simp [Function.update_apply]
      · rw [if_neg other,if_neg fun both => other both.2.symm]
    · have other : ¬ (t' = t ∧ j = i) := by omega
      rw [rowOutside (by rw [List.length_modify]; exact outside),rowOutside outside,List.length_modify,if_neg other]
  · rename_i unnamed
    have last : i = r.sections.length := by omega
    rcases Nat.lt_or_ge j r.sections.length with inside | outside
    · have other : ¬ (t' = t ∧ j = i) := by omega
      rw [if_neg other,rowInside inside]
      exact congrFun (rowInside (r := { r with next := Function.update r.next t mask }) inside) t'
    · rw [rowOutside outside,rowOutside (r := { r with next := Function.update r.next t mask }) outside,last]
      rcases eq_or_ne j r.sections.length with same | other
      · simp [same,Function.update_apply]
      · simp [other]

theorem setmaskRepresents {l r} (h : Represents l r) (started : l.initialised = true) {i t mask}
    (below : i < debugSectionMax) (given : i ≤ r.sections.length) :
    Represents { l with debug := debugSetmask l.debug i t mask } (r.setmask i t mask) := by
  rcases Nat.lt_or_ge t debugTypeMax with valid | other
  · have kept : (r.setmask i t mask).files = r.files ∧ (r.setmask i t mask).out = r.out ∧
        (r.setmask i t mask).results = r.results := by
      unfold Registry.setmask
      split
      · exact ⟨rfl,rfl,rfl⟩
      · split <;> exact ⟨rfl,rfl,rfl⟩
    have goes : debugSetmask l.debug i t mask = l.debug.put t i mask := if_neg (Nat.not_le.mpr valid)
    exact {
      names := fun j => by
        rw [setmaskNames,goes]
        exact h.names j
      masks := fun j inside t' real => by
        show (debugSetmask l.debug i t mask).mask t' j = _
        rw [setmaskRow mask valid below given,goes,putMask l.debug mask below inside,h.masks j inside t' real]
      given := fun j mem => by
        rw [setmaskLength]
        exact h.given j mem
      room := by
        rw [setmaskLength]
        exact h.room
      ready := fun off => absurd (started.symm.trans off) (by decide)
      files := h.files.trans kept.1.symm
      syslog := h.syslog
      out := h.out.trans kept.2.1.symm
      results := h.results.trans kept.2.2.symm }
  · rw [debugSetmask,if_pos other,Registry.setmask,if_pos (Or.inl other)]
    exact h

theorem registerRow (r : Registry) (name : String) (dup : Bool) (j : Nat) :
    (r.register name dup).row j = if j = r.sections.length then fun _ => 0 else r.row j := by
  cases dup with
  | false =>
    rcases Nat.lt_or_ge j r.sections.length with inside | outside
    · rw [if_neg (Nat.ne_of_lt inside),rowInside inside]
      exact rowInside (r := r.register name false) inside
    · rw [rowOutside outside,rowOutside (r := r.register name false) outside]
      change (if j = r.sections.length then fun _ => 0 else fun _ => 0) = _
      split <;> rfl
  | true =>
    have length : (r.register name true).sections.length = r.sections.length + 1 := by simp [Registry.register]
    rcases Nat.lt_trichotomy j r.sections.length with inside | last | outside
    · rw [if_neg (Nat.ne_of_lt inside),rowInside inside,rowInside (length ▸ Nat.lt_succ_of_lt inside)]
      simp [Registry.register,List.getElem_append_left inside]
    · rw [if_pos last,rowInside (length ▸ last ▸ Nat.lt_succ_self _)]
      simp [Registry.register,last]
    · rw [if_neg (Nat.ne_of_gt outside),rowOutside (Nat.le_of_lt outside),rowOutside (length ▸ outside),
        if_neg (Nat.ne_of_gt outside)]
      split <;> rfl

theorem registerNames (r : Registry) (name : String) (dup : Bool) (j : Nat) :
    (r.register name dup).sections[j]?.map Named.name =
      if j = r.sections.length then (if dup then some name else none) else r.sections[j]?.map Named.name := by
  cases dup with
  | false =>
    change r.sections[j]?.map Named.name = if j = r.sections.length then none else _
    split
    · rename_i last
      rw [last,List.getElem?_eq_none (Nat.le_refl _)]
      rfl
    · rfl
  | true =>
    change (r.sections ++ [⟨name,fun _ => 0⟩])[j]?.map Named.name = if j = r.sections.length then some name else _
    rcases Nat.lt_trichotomy j r.sections.length with inside | last | outside
    · rw [if_neg (Nat.ne_of_lt inside),List.getElem?_append_left inside]
    · rw [if_pos last,last,List.getElem?_concat_length]
      rfl
    · rw [if_neg (Nat.ne_of_gt outside),List.getElem?_eq_none (Nat.le_of_lt outside),List.getElem?_eq_none]
      rw [List.length_append]
      exact outside

/- A registration clears the masks of its section for every destination. -/
theorem clearsMasks (s : State) {t i j : Nat} (valid : t < debugTypeMax) (belowI : i < debugSectionMax)
    (belowJ : j < debugSectionMax) :
    (((s.put debugTypePrint i 0).put debugTypeLog i 0).put debugTypeSyslog i 0).mask t j =
      if j = i then 0 else s.mask t j := by
  have three : t = debugTypePrint ∨ t = debugTypeLog ∨ t = debugTypeSyslog := by
    simp only [debugTypeMax,debugTypePrint,debugTypeLog,debugTypeSyslog] at valid ⊢
    omega
  rw [putMask _ _ belowI belowJ,putMask _ _ belowI belowJ,putMask _ _ belowI belowJ]
  by_cases here : j = i
  · rcases three with rfl | rfl | rfl <;> simp [here,debugTypePrint,debugTypeLog,debugTypeSyslog]
  · simp [here]

theorem refusedRepresents {l r} (h : Represents l r) (started : l.initialised = true) :
    Represents { l with given := -1::l.given, results := -1::l.results } { r with results := -1::r.results } :=
  { h with
    given := fun i mem => h.given i ((List.mem_cons.mp mem).resolve_left (by omega))
    ready := fun off => absurd (started.symm.trans off) (by decide)
    results := by rw [h.results] }

/- The section that debug_register finds. -/
theorem freeFound {l r} (h : Represents l r) :
    (List.range debugSectionMax).find? (fun i => (l.debug.levelStrs i).isNone) =
      if r.sections.length < debugSectionMax then some r.sections.length else none := by
  have taken (j) (inside : j < r.sections.length) : (!(l.debug.levelStrs j).isNone) = true := by
    rw [h.names j,List.getElem?_eq_getElem inside]
    rfl
  have free : (l.debug.levelStrs r.sections.length).isNone = true := by
    rw [h.names,List.getElem?_eq_none (Nat.le_refl _)]
    rfl
  split
  · rename_i room
    exact List.find?_range_eq_some.mpr ⟨free,List.mem_range.mpr room,taken⟩
  · rename_i full
    exact List.find?_range_eq_none.mpr fun j below => taken j (Nat.lt_of_lt_of_le below (Nat.not_lt.mp full))

theorem registerRepresents {l r} (h : Represents l r) (started : l.initialised = true) (dbgname : Option String)
    (dup : Bool) : Represents (logStep l (.register dbgname dup)) (r.step (.register dbgname dup)) := by
  cases dbgname with
  | none => exact refusedRepresents h started
  | some name =>
    have found := freeFound h
    rcases Nat.lt_or_ge r.sections.length debugSectionMax with room | full
    · rw [if_pos room] at found
      have most : (r.register name dup).sections.length ≤ debugSectionMax ∧
          r.sections.length ≤ (r.register name dup).sections.length := by
        cases dup with
        | false => exact ⟨h.room,Nat.le_refl _⟩
        | true =>
          simp only [Registry.register,if_true,List.length_append,List.length_singleton]
          omega
      simp only [logStep,debugRegister,found,Registry.step,if_pos room]
      exact {
        names := fun j => by
          show Function.update l.debug.levelStrs _ _ j = _
          rw [Function.update_apply,h.names j]
          exact (registerNames r name dup j).symm
        masks := fun j below t valid => by
          show State.mask _ t j = (r.register name dup).row j t
          rw [clearsMasks _ valid room below,registerRow]
          split
          · rfl
          · exact h.masks j below t valid
        given := fun i mem => by
          rcases List.mem_cons.mp mem with new | old
          · cases Int.ofNat_inj.mp new
            exact ⟨most.2,room⟩
          · obtain ⟨known,below⟩ := h.given i old
            exact ⟨Nat.le_trans known most.2,below⟩
        room := most.1
        ready := fun off => absurd (started.symm.trans off) (by decide)
        files := h.files
        syslog := h.syslog
        out := h.out
        results := by rw [h.results] }
    · rw [if_neg (Nat.not_lt.mpr full)] at found
      simp only [logStep,debugRegister,found,Registry.step,if_neg (Nat.not_lt.mpr full)]
      exact refusedRepresents h started

/- DEBUG() spares a call that would write nothing. -/
theorem macroAgrees (l : Log) (sec mask tvSec tvUsec text) :
    debugMacro l sec mask tvSec tvUsec text = doDebug l sec mask tvSec tvUsec text := by
  unfold debugMacro
  split
  · rfl
  · rename_i quiet
    simp only [not_or,not_not] at quiet
    obtain ⟨print,log,syslog⟩ := quiet
    simp only [doDebug,print,log,ne_eq,not_true,if_false]
    split <;> simp [syslog]

theorem debugRepresents {l r} (h : Represents l r) {sec : Nat} (below : sec < debugSectionMax) (mask tvSec tvUsec text) :
    Represents (doDebug l sec mask tvSec tvUsec text) (r.step (.debug sec mask tvSec tvUsec text)) := by
  have print := h.masks sec below debugTypePrint (by decide)
  have log := h.masks sec below debugTypeLog (by decide)
  have disabled : ¬ l.syslogEnable = 1 := by
    rw [h.syslog]
    decide
  have file : l.files.file = r.files.file := by rw [h.files]
  have goes : doDebug l sec mask tvSec tvUsec text =
      { l with out := l.out ++ (r.sinks sec mask).map fun sink => ⟨sink,stamp tvSec tvUsec text⟩ } := by
    by_cases toStderr : r.row sec debugTypePrint &&& mask = 0 <;> by_cases toFile : r.row sec debugTypeLog &&& mask = 0 <;>
      cases opened : r.files.file <;>
      simp [doDebug,Registry.sinks,print,log,toStderr,toFile,file,opened,disabled]
  rw [goes]
  exact { h with out := by rw [h.out]; rfl }

theorem initMask (memory : Int → UInt64) {t i : Nat} (below : i < debugSectionMax) (valid : t < debugTypeMax) :
    (Debug.debugInit memory).mask t i = 0 := by
  have inside : InTable (entry t i) := by
    simp only [InTable,entry,debugTypeMax,debugSectionMax] at below valid ⊢
    omega
  simp only [State.mask,Debug.debugInit,if_pos inside]

theorem clearedRow (r : Registry) (i : Nat) : r.cleared.row i = fun _ => 0 := by
  rw [rowOutside (Nat.zero_le i)]
  split <;> rfl

theorem clearedRepresents {l r} (h : Represents l r) (initialised : Bool) :
    Represents { l with debug := Debug.debugInit l.debug.memory, given := [], initialised := initialised } r.cleared :=
  { h with
    names := fun _ => rfl
    masks := fun i below t valid => (initMask l.debug.memory below valid).trans (congrFun (clearedRow r i) t).symm
    given := fun _ mem => absurd mem List.not_mem_nil
    room := Nat.zero_le _
    ready := fun _ => ⟨rfl,rfl,rfl⟩ }

theorem setmaskStrRepresents {l r} (h : Represents l r) (started : l.initialised = true) (dbg t mask) :
    Represents (logStep l (.setmaskStr dbg t mask)) (r.step (.setmaskStr dbg t mask)) := by
  simp only [logStep,Registry.step,debugSetmaskStr,lookupFinds h]
  split
  · rename_i full
    rw [Registry.setmask,if_pos (Or.inr full)]
    exact h
  · rename_i below
    exact setmaskRepresents h started (Nat.not_le.mp below) List.findIdx_le_length

theorem setmaskStr2Represents {l r} (h : Represents l r) (started : l.initialised = true) (dbg dtype mask)
    (valid : isCString dtype = true) :
    Represents (logStep l (.setmaskStr2 dbg dtype mask)) (r.step (.setmaskStr2 dbg dtype mask)) := by
  have refused : Represents { l with results := -1::l.results } { r with results := -1::r.results } :=
    { h with results := by rw [h.results] }
  simp only [logStep,Registry.step,debugSetmaskStr2,lookupFinds h,typeAgrees valid,h.names]
  cases found : r.sections[r.find dbg]? with
  | none =>
    simp only [Option.map_none,Option.isNone_none,if_true,ite_self]
    exact refused
  | some c =>
    have inside : r.find dbg < r.sections.length := (List.getElem?_eq_some_iff.mp found).1
    have below : r.find dbg < debugSectionMax := Nat.lt_of_lt_of_le inside h.room
    simp only [Option.map_some,Option.isNone_some,Bool.false_eq_true,if_false,if_neg (Nat.not_le.mpr below)]
    cases typeNamed dtype with
    | none => exact refused
    | some t =>
      exact { setmaskRepresents h started below (Nat.le_of_lt inside) with results := by rw [h.results] }

theorem stepRepresents {l r a} (h : Represents l r) (allowed : LogAllowed l a) : Represents (logStep l a) (r.step a) := by
  cases a with
  | init =>
    simp only [logStep,Log.debugInit,Registry.step]
    split
    · exact h
    · rename_i off
      obtain ⟨sections,next,none⟩ := h.ready (Bool.not_eq_true _ ▸ off)
      have same : r.cleared = r := by rw [Registry.cleared,← sections,← next]
      have cleared := clearedRepresents h true
      rw [same,← none] at cleared
      exact cleared
  | shutdown =>
    have on : l.initialised = true := allowed
    simp only [logStep,debugShutdown,on]
    exact clearedRepresents h false
  | register dbgname dup => exact registerRepresents h allowed dbgname dup
  | setmask sec t mask =>
    obtain ⟨known,below⟩ := h.given sec allowed.2
    exact setmaskRepresents h allowed.1 below known
  | setmaskStr dbg t mask => exact setmaskStrRepresents h allowed dbg t mask
  | setmaskStr2 dbg dtype mask => exact setmaskStr2Represents h allowed.1 dbg dtype mask allowed.2
  | setFilename filename dup => exact { h with files := by simp only [logStep,Registry.step,h.files] }
  | fileOpen opens => exact { h with files := by simp only [logStep,Registry.step,h.files] }
  | fileClose => exact { h with files := by simp only [logStep,Registry.step,h.files] }
  | fileReopen opens => exact { h with files := by simp only [logStep,Registry.step,h.files] }
  | debug sec mask tvSec tvUsec text =>
    simp only [logStep,macroAgrees]
    exact debugRepresents h (h.given sec allowed.2).2 mask tvSec tvUsec text

def Registry.start : Registry := ⟨[],fun _ => 0,⟨none,none⟩,[],[]⟩

theorem freshRepresents (memory : Int → UInt64) : Represents (fresh memory) Registry.start where
  names _ := rfl
  masks i below t valid := (initMask memory below valid).trans (congrFun (clearedRow Registry.start i) t).symm
  given _ mem := absurd mem List.not_mem_nil
  room := Nat.zero_le _
  ready _ := ⟨rfl,rfl,rfl⟩
  files := rfl
  syslog := rfl
  out := rfl
  results := rfl

theorem runRepresents {l r acts} (h : Represents l r) (possible : Possible logMachine l acts) :
    Represents (run logMachine l acts) (acts.foldl Registry.step r) := by
  induction acts generalizing l r with
  | nil => exact h
  | cons a rest ih => exact ih (stepRepresents h possible.1) possible.2

/- What DEBUG() writes and what the library returns is what the list of named sections says,
whatever is in memory around its tables and whatever strdup() and fopen() do. -/
theorem registryRefined {memory : Int → UInt64} {acts : List LogAct} (possible : Possible logMachine (fresh memory) acts) :
    let l := run logMachine (fresh memory) acts
    let r := acts.foldl Registry.step Registry.start
    l.out = r.out ∧ l.results = r.results ∧ (∀ i, l.debug.levelStrs i = r.sections[i]?.map Named.name) ∧
      ∀ i : Nat, i < debugSectionMax → ∀ t, t < debugTypeMax → l.debug.mask t i = r.row i t := by
  have h := runRepresents (freshRepresents memory) possible
  exact ⟨h.out,h.results,h.names,h.masks⟩

/- A section that is given without its name, given again with it, and one line for two
destinations. -/
def namedRun : List LogAct :=
  [.init,.register (some "comm") false,.setmaskStr "comm" debugTypePrint 1,.debug 0 1 5 7 (bytes "first"),
    .register (some "comm") true,.debug 0 1 5 8 (bytes "early"),.setFilename "iapp.log" true,.fileOpen true,
    .setmaskStr2 "comm" "print" 3,.setmaskStr2 "comm" "log" 2,.setmaskStr2 "conn" "log" 2,.debug 0 2 5 9 (bytes "late")]

theorem registryRefinedRun :
    let l := run logMachine (fresh fun _ => 9) namedRun
    l.out = [⟨.stderr,bytes "5.000007| first"⟩,⟨.stderr,bytes "5.000009| late"⟩,⟨.file "iapp.log",bytes "5.000009| late"⟩] ∧
      l.results = [-1,0,0,0,0] := by
  have refined := registryRefined (show Possible logMachine (fresh fun _ => 9) namedRun by decide)
  exact ⟨refined.1.trans (by decide),refined.2.1.trans (by decide)⟩

end Libiapp.Debug
