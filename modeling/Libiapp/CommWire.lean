import Libiapp.CommWriter
import Libiapp.Parcels

/-! What comes out of the stream writer. The client's buffers are in `mem`, which may
change except for the buffer of the write under way; `sent` is what the kernel took out
of it in the write() calls, and `posted` has the accepted writes, the newest first, each
with the bytes it was accepted with and the number of them that the kernel took. -/
namespace Libiapp.Comm
open Runs Parcels

abbrev Memory := Nat → Int → UInt8

def contents (mem : Memory) (nb : Nat) (start len : Int) : List UInt8 :=
  (List.range len.toNat).map fun i : Nat => mem nb (start + i)

structure Posted where
  nb : Nat
  start : Int
  len : Int
  parcel : Parcel UInt8
  deriving DecidableEq

structure Wire where
  s : State
  mem : Memory
  sent : List UInt8
  posted : List Posted

inductive WireAct where
  | comm (a : Act)
  | store (mem : Memory)

/- The bytes that the kernel takes in a step. -/
def outgoing (w : Wire) (a : Act) : List UInt8 :=
  match systemCall w.s a with
  | some (.write _ nb offset _) => contents w.mem nb offset a.ret
  | _ => []

def credit (n : Nat) : List Posted → List Posted
  | [] => []
  | p::rest => { p with parcel.taken := p.parcel.taken + n }::rest

def wireStep (w : Wire) : WireAct → Wire
  | .comm a => { w with
      s := step w.s a
      sent := w.sent ++ outgoing w a
      posted := match posting w.s a with
        | some j => ⟨j.nb,j.start,j.len,⟨contents w.mem j.nb j.start j.len,0⟩⟩::w.posted
        | none => if writes w.s a then credit a.ret.toNat w.posted else w.posted }
  | .store mem => { w with mem := mem }

-- write() does not return more than it was asked for.
def Syscall.bounds (ret : Int) : Syscall → Bool
  | .write _ _ _ count => ret ≤ count
  | _ => true

def Act.sized : Act → Bool
  | .client (.write _ _ len _ _) => 0 ≤ len
  | _ => true

def WireAllowed (w : Wire) : WireAct → Prop
  | .comm a => Allowed w.s a ∧ (∀ call ∈ systemCall w.s a, call.bounds a.ret = true) ∧ a.sized = true
  | .store mem => ∀ j ∈ w.s.c.w.job, contents mem j.nb j.start j.len = contents w.mem j.nb j.start j.len

instance (w : Wire) : (a : WireAct) → Decidable (WireAllowed w a)
  | .comm a => inferInstanceAs
      (Decidable (Allowed w.s a ∧ (∀ call ∈ systemCall w.s a, call.bounds a.ret = true) ∧ a.sized = true))
  | .store mem => inferInstanceAs
      (Decidable (∀ j ∈ w.s.c.w.job, contents mem j.nb j.start j.len = contents w.mem j.nb j.start j.len))

def wireMachine : Machine Wire WireAct :=
  ⟨fun w => Created w.s ∧ w.sent = [] ∧ w.posted = [],WireAllowed,wireStep⟩

instance (w a) : Decidable (wireMachine.allowed w a) := inferInstanceAs (Decidable (WireAllowed w a))

theorem contentsLength (mem nb start len) : (contents mem nb start len).length = len.toNat := by simp [contents]

theorem contentsNone {mem nb start len} (none : len ≤ 0) : contents mem nb start len = [] := by
  simp [contents,Int.toNat_of_nonpos none]

theorem contentsPart {mem nb start len} {offset : Nat} {n : Int} (room : offset + n ≤ len) :
    ((contents mem nb start len).drop offset).take n.toNat = contents mem nb (start + offset) n := by
  apply List.ext_getElem
  · simp only [List.length_take,List.length_drop,contentsLength]
    omega
  · intro i _ _
    simp [contents,Int.add_assoc]

structure Streams (w : Wire) : Prop where
  fit : Fit w.s
  sent : w.sent = stream (w.posted.map Posted.parcel)
  size : ∀ p ∈ w.posted, p.parcel.bytes.length = p.len ∧ p.parcel.taken ≤ p.parcel.bytes.length
  back : (backs w.s).map Prod.snd =
    (if w.s.c.w.isActive then w.posted.tail else w.posted).map fun p => (p.parcel.taken : Int)
  under : ∀ j, w.s.c.w.job = some j → ∃ p rest, w.posted = p::rest ∧ p.nb = j.nb ∧ p.start = j.start ∧ p.len = j.len ∧
    p.parcel.taken = j.offset ∧ p.parcel.bytes = contents w.mem j.nb j.start j.len

theorem storeStreams {w mem} (inv : Streams w) (allowed : WireAllowed w (.store mem)) :
    Streams (wireStep w (.store mem)) :=
  { inv with
    under := fun j job => by
      obtain ⟨p,rest,posted,nb,start,len,taken,bytes⟩ := inv.under j job
      exact ⟨p,rest,posted,nb,start,len,taken,bytes.trans (allowed j job).symm⟩ }

section Step
variable {w : Wire} {a : Act} {j : Job}

theorem outgoingNone (silent : writes w.s a = false) : outgoing w a = [] := by
  unfold outgoing
  split
  · rename_i call
    rw [writes,call] at silent
    contradiction
  · rfl

theorem outgoingCall {fd} (call : systemCall w.s a = some (j.call fd)) :
    outgoing w a = contents w.mem j.nb (j.start + j.offset) a.ret := by
  rw [outgoing,call]
  rfl

theorem outgoingWaited {fd} (call : systemCall w.s a = some (j.call fd)) (nothing : a.ret ≤ 0) : outgoing w a = [] := by
  rw [outgoingCall call,contentsNone nothing]

theorem wireKept (silent : writes w.s a = false) (none : posting w.s a = none) :
    wireStep w (.comm a) = { w with s := step w.s a } := by
  simp only [wireStep,outgoingNone silent,List.append_nil,none,silent,Bool.false_eq_true,if_false]

theorem wirePosted (silent : writes w.s a = false) (posted : posting w.s a = some j) :
    wireStep w (.comm a) = { w with
      s := step w.s a
      posted := ⟨j.nb,j.start,j.len,⟨contents w.mem j.nb j.start j.len,0⟩⟩::w.posted } := by
  simp only [wireStep,outgoingNone silent,List.append_nil,posted]

theorem wireWrote {fd} (call : systemCall w.s a = some (j.call fd)) (none : posting w.s a = none) :
    wireStep w (.comm a) = { w with
      s := step w.s a
      sent := w.sent ++ contents w.mem j.nb (j.start + j.offset) a.ret
      posted := credit a.ret.toNat w.posted } := by
  have made : writes w.s a = true := by rw [writes,call]; rfl
  simp only [wireStep,outgoingCall call,none,made,if_true]

/- A write() that takes nothing. -/
theorem wireWaited {fd} (call : systemCall w.s a = some (j.call fd)) (none : posting w.s a = none)
    (nothing : a.ret ≤ 0) : wireStep w (.comm a) = { w with s := step w.s a } := by
  have same : credit a.ret.toNat w.posted = w.posted := by
    rw [Int.toNat_of_nonpos nothing]
    cases w.posted <;> rfl
  rw [wireWrote call none,contentsNone nothing,List.append_nil,same]

end Step

theorem sameActive {w w' : WriteState} (same : w'.job = w.job) : w'.isActive = w.isActive := by
  have isSome := congrArg Option.isSome same
  simpa [WriteState.job,apply_ite] using isSome

/- The job of a step that leaves it alone is described as before. -/
theorem sameStreams {w : Wire} {s'} (inv : Streams w) (fit : Fit s') (same : s'.c.w.job = w.s.c.w.job)
    (back : backs s' = backs w.s) : Streams { w with s := s' } := by
  have active := sameActive same
  exact {
    fit
    sent := inv.sent
    size := inv.size
    back := by rw [back,active]; exact inv.back
    under := fun j job => inv.under j (same.symm.trans job) }

/- The write under way has been reported with the number of bytes taken of it. -/
theorem doneStreams {w : Wire} {s' j st} (inv : Streams w) (fit : Fit s') (before : w.s.c.w.job = some j)
    (after : s'.c.w.job = none) (back : backs s' = (st,j.offset)::backs w.s) : Streams { w with s := s' } := by
  obtain ⟨p,rest,posted,_,_,_,taken,_⟩ := inv.under j before
  have on := jobActive before
  have off := jobNone after
  have earlier := inv.back
  rw [on,posted] at earlier
  exact {
    fit
    sent := inv.sent
    size := inv.size
    back := by
      rw [back,off,show ({ w with s := s' } : Wire).posted = p::rest from posted]
      simpa [taken] using earlier
    under := fun j job => nomatch after.symm.trans job }

theorem postedSized {s a j} (posted : posting s a = some j) (sized : a.sized = true) : 0 ≤ j.len := by
  unfold posting at posted
  split at posted
  · split at posted
    · contradiction
    · cases posted
      exact of_decide_eq_true sized
  · contradiction

/- A write has been accepted. -/
theorem postedStreams {w : Wire} {s' j} (inv : Streams w) (fit : Fit s') (len : 0 ≤ j.len) (fresh : j.offset = 0)
    (idle : w.s.c.w.job = none) (after : s'.c.w.job = some j) (back : backs s' = backs w.s) :
    Streams { w with
      s := s'
      posted := ⟨j.nb,j.start,j.len,⟨contents w.mem j.nb j.start j.len,0⟩⟩::w.posted } := by
  have off := jobNone idle
  have on := jobActive after
  have earlier := inv.back
  rw [off] at earlier
  refine ⟨fit,?_,?_,?_,?_⟩
  · rw [inv.sent,List.map_cons,streamPost]
  · rintro p mem
    rcases List.mem_cons.mp mem with rfl | older
    · refine ⟨?_,Nat.zero_le _⟩
      rw [contentsLength]
      exact Int.toNat_of_nonneg len
    · exact inv.size p older
  · rw [back,on]
    exact earlier
  · intro j' job
    cases Option.some.inj (after.symm.trans job)
    exact ⟨_,_,rfl,rfl,rfl,rfl,fresh.symm,rfl⟩

/- The kernel has taken some bytes of the write under way. -/
theorem wroteStreams {w : Wire} {s' j} {ret : Int} (inv : Streams w) (fit : Fit s') (positive : 0 < ret)
    (room : ret ≤ j.len - j.offset) (before : w.s.c.w.job = some j)
    (after : s'.c.w.job = some { j with offset := j.offset + ret }) (back : backs s' = backs w.s) :
    Streams { w with
      s := s'
      sent := w.sent ++ contents w.mem j.nb (j.start + j.offset) ret
      posted := credit ret.toNat w.posted } := by
  obtain ⟨p,rest,posted,nb,start,len,taken,bytes⟩ := inv.under j before
  obtain ⟨size,fits⟩ := inv.size p (by rw [posted]; exact List.mem_cons_self)
  have on := jobActive before
  have still := jobActive after
  have earlier := inv.back
  rw [on,posted] at earlier
  have part : ((contents w.mem j.nb j.start j.len).drop p.parcel.taken).take ret.toNat =
      contents w.mem j.nb (j.start + p.parcel.taken) ret := contentsPart (by omega)
  rw [posted]
  refine ⟨fit,?_,?_,?_,?_⟩
  · rw [credit,List.map_cons,streamTake,inv.sent,posted,List.map_cons,bytes,part,taken]
  · rintro q mem
    rcases List.mem_cons.mp mem with rfl | older
    · exact ⟨size,by dsimp only; omega⟩
    · exact inv.size q (by rw [posted]; exact List.mem_cons_of_mem _ older)
  · rw [back,still]
    exact earlier
  · intro j' job
    cases Option.some.inj (after.symm.trans job)
    exact ⟨_,_,rfl,nb,start,len,by dsimp only; omega,bytes⟩

theorem commStreams {w a} (inv : Streams w) (allowed : WireAllowed w (.comm a)) : Streams (wireStep w (.comm a)) := by
  obtain ⟨possible,bounded,sized⟩ := allowed
  obtain ⟨progress,fit⟩ := stepProgress inv.fit possible
  cases progress with
  | kept same back silent none =>
    rw [wireKept silent none]
    exact sameStreams inv fit same back
  | started posted fresh idle after back silent =>
    rw [wirePosted silent posted]
    exact postedStreams inv fit (postedSized posted sized) fresh idle after back
  | wrote before _ call positive after back none =>
    rw [wireWrote call none]
    exact wroteStreams inv fit positive (of_decide_eq_true (bounded _ call)) before after back
  | waited before _ call nothing same back none =>
    rw [wireWaited call none nothing]
    exact sameStreams inv fit same back
  | finished before _ call nothing status late after back none =>
    rw [wireWaited call none nothing]
    exact doneStreams inv fit before after back
  | closed before closing after back silent none =>
    rw [wireKept silent none]
    exact doneStreams inv fit before after back

theorem reachStreams {w} (h : Reach wireMachine w) : Streams w := by
  refine reachInvariant (m := wireMachine) (fun w created => ?_) (fun w a inv possible => ?_) h
  · obtain ⟨⟨fd,cb,cbdata,made⟩,sent,posted⟩ := created
    obtain ⟨s,mem,_,_⟩ := w
    cases made
    cases sent
    cases posted
    exact ⟨⟨never,nofun⟩,rfl,nofun,rfl,nofun⟩
  · cases a with
    | comm a => exact commStreams inv possible
    | store mem => exact storeStreams inv possible

/- What the kernel has taken is made of the prefixes of the accepted buffers, each write
callback is told the length of its prefix, and write() is asked for a part of the
newest buffer. -/
theorem streamIntegrity {w} (h : Reach wireMachine w) :
    w.sent = stream (w.posted.map Posted.parcel) ∧
    (∀ p ∈ w.posted, p.parcel.bytes.length = p.len ∧ p.parcel.taken ≤ p.parcel.bytes.length) ∧
    (backs w.s).map Prod.snd =
      (if w.s.c.w.isActive then w.posted.tail else w.posted).map (fun p => (p.parcel.taken : Int)) ∧
    ∀ a fd nb offset count, Allowed w.s a → systemCall w.s a = some (.write fd nb offset count) →
      ∃ p rest, w.posted = p::rest ∧ nb = p.nb ∧ p.start ≤ offset ∧ 0 ≤ count ∧ offset + count ≤ p.start + p.len := by
  have inv := reachStreams h
  refine ⟨inv.sent,inv.size,inv.back,fun a fd nb offset count possible asked => ?_⟩
  obtain ⟨j,job,call⟩ := writesJob inv.fit possible asked
  obtain ⟨p,rest,posted,sameNb,start,len,taken,_⟩ := inv.under j job
  obtain ⟨size,fits⟩ := inv.size p (by rw [posted]; exact List.mem_cons_self)
  cases call
  exact ⟨p,rest,posted,sameNb.symm,by omega,by omega,by omega⟩

/- A write of five bytes goes out in two parts, the client changes the buffer behind its
callback and writes it again, and closes when one more byte has gone out. -/
def letters (shift : UInt8) : Memory := fun nb i => UInt8.ofNat nb + UInt8.ofInt i + shift

def wireRun : List WireAct :=
  [.comm (.client (.write 64 2 5 1 2)),.comm (.fire .write ⟨0,0,0,none⟩),.comm (.fire .writeCb ⟨3,0,0,none⟩),
    .comm (.client (.write 64 0 9 1 2)),.comm (.fire .write ⟨0,0,0,none⟩),.comm (.fire .writeCb ⟨2,0,0,none⟩),
    .comm (.fire .write ⟨0,0,0,none⟩),.comm (.fire .writeCb ⟨0,0,0,none⟩),.store (letters 10),
    .comm (.client (.write 64 2 5 1 2)),.comm (.resume ⟨0,0,0,none⟩),.comm (.fire .writeCb ⟨1,0,0,none⟩),
    .comm (.client .close),.comm (.fire .writeCb ⟨0,0,0,none⟩)]

theorem streamIntegrityRun :
    let w := run wireMachine ⟨commCreate 5 none 0,letters 0,[],[]⟩ wireRun
    w.sent = [66,67,68,69,70] ++ [76] ∧ (backs w.s).map Prod.snd = [1,5] := by
  have reached : Reach wireMachine (run wireMachine ⟨commCreate 5 none 0,letters 0,[],[]⟩ wireRun) :=
    reachRun (.start ⟨⟨5,none,0,rfl⟩,rfl,rfl⟩) (by decide)
  obtain ⟨sent,_,back,_⟩ := streamIntegrity reached
  exact ⟨sent.trans (by decide),back.trans (by decide)⟩

end Libiapp.Comm
