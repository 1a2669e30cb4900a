import Libiapp.Conn

/-! The life of a conn. It goes through seven stages, and the stage says what state,
pointers and history the conn has; every step stays in its stage or goes on to a later one. -/
namespace Libiapp.Connection
open Runs Comm

inductive Stage where | running | failed | asked | waiting | closed | freeing | freed
  deriving DecidableEq, Repr

def Stage.state : Stage → ConnState
  | .running => .running
  | .failed => .error
  | _ => .closing

-- comm_close has not been called yet
def Stage.linked : Stage → Bool
  | .running | .failed | .asked => true
  | _ => false

-- the close callback of the comm has run
def Stage.done : Stage → Bool
  | .closed | .freeing | .freed => true
  | _ => false

-- `made` says whether fde_create gave conn_new a cleanup fde
def Stage.evCleanup (made : Bool) : Stage → Option Bool
  | .closed => some true
  | .freeing => some false
  | .freed => none
  | _ => if made then some false else none

def Stage.gone : Stage → Bool
  | .freed => true
  | _ => false

def Stage.stack : Stage → List Note → Prop
  | .running,stack | .closed,stack | .freed,stack => stack = []
  | .failed,stack | .waiting,stack => stack = [] ∨ stack = [.error]
  | .asked,stack => stack = [.closing] ∨ stack = [.closing,.error]
  | .freeing,stack => stack = [.freeing]

/- Newest first, as the log is. -/
def Stage.notes (erred : Bool) : Stage → List Note
  | .running => []
  | .failed => [.error]
  | .asked | .waiting | .closed => .closing::(if erred then [.error] else [])
  | .freeing | .freed => .freeing::.closing::(if erred then [.error] else [])

def noteOf : Ev → Option Note
  | .notified note => some note
  | _ => none

def closeOf : Ev → Option Bool
  | .commClose comm => some comm.isSome
  | _ => none

def Ev.writes : Ev → Bool
  | .commWrite _ => true
  | _ => false

def Ev.leaves : Ev → Bool
  | .set st => st ≠ .running
  | _ => false

def notes (log : List Ev) : List Note := log.filterMap noteOf
def closes (log : List Ev) : List Bool := log.filterMap closeOf

def Ev.plain : Ev → Bool
  | .entered _ | .stats _ | .commNotNull => true
  | _ => false

/- What has happened to a conn by the time it is in a stage. -/
structure Story (erred : Bool) (stage : Stage) (owner : Bool) (log : List Ev) : Prop where
  notes : notes log = if owner then stage.notes erred else []
  closes : closes log = if stage.linked then [] else [true]
  came : stage.done = true → .entered .close ∈ log
  stays : stage = .running → ∀ e ∈ log, e.leaves = false
  order : log.Pairwise fun newer older => older.leaves = true → newer.writes = false
  alive : stage ≠ .freed → .freed ∉ log
  gone : stage = .freed → ∃ before, log = .freed::before ∧ .entered .close ∈ before ∧ .freed ∉ before

section Story
variable {erred owner : Bool} {stage : Stage} {log : List Ev}

/- Events other than a comm_write and the end, on the way to the same stage or another one. -/
theorem Story.append (h : Story erred stage owner log) (erred' : Bool) (stage' : Stage) (new : List Ev)
    (unfreed : stage ≠ .freed) (unfreed' : stage' ≠ .freed) (plain : ∀ e ∈ new, e.writes = false ∧ e ≠ .freed)
    (notes : new.filterMap noteOf ++ (if owner then stage.notes erred else []) = if owner then stage'.notes erred' else [])
    (closes : new.filterMap closeOf ++ (if stage.linked then [] else [true]) = if stage'.linked then [] else [true])
    (came : stage'.done = true → stage.done = true ∨ .entered .close ∈ new)
    (stays : stage' = .running → stage = .running ∧ ∀ e ∈ new, e.leaves = false) :
    Story erred' stage' owner (new ++ log) where
  notes := by rw [← notes,← h.notes]; exact List.filterMap_append
  closes := by rw [← closes,← h.closes]; exact List.filterMap_append
  came done := by
    rcases came done with before | now
    · exact List.mem_append_right _ (h.came before)
    · exact List.mem_append_left _ now
  stays running e mem := by
    obtain ⟨before,now⟩ := stays running
    rcases List.mem_append.mp mem with new | old
    · exact now e new
    · exact h.stays before e old
  order := by
    have silent : new.Pairwise fun newer older => older.leaves = true → newer.writes = false :=
      List.pairwise_of_forall_mem_list fun e mem _ _ _ => (plain e mem).1
    exact List.pairwise_append.mpr ⟨silent,h.order,fun e mem _ _ _ => (plain e mem).1⟩
  alive _ mem := by
    rcases List.mem_append.mp mem with new | old
    · exact (plain _ new).2 rfl
    · exact h.alive unfreed old
  gone freed := absurd freed unfreed'

/- A later stage that begins with one event and a notification of the owner. -/
theorem Story.told (h : Story erred stage owner log) (erred' : Bool) (stage' : Stage) (note : Note) (ev : Ev)
    (unfreed : stage ≠ .freed) (later : stage' ≠ .running ∧ stage' ≠ .freed) (plain : ev.writes = false ∧ ev ≠ .freed)
    (silent : noteOf ev = none ∧ closeOf ev = none) (notes : stage'.notes erred' = note::stage.notes erred)
    (linked : stage'.linked = stage.linked) (came : stage'.done = true → stage.done = true) :
    Story erred' stage' owner ((if owner then [.notified note] else []) ++ ev::log) := by
  have told : ∀ e ∈ (if owner then [.notified note] else []) ++ [ev], e.writes = false ∧ e ≠ .freed := by
    intro e mem
    rcases List.mem_append.mp mem with note | event
    · split at note
      · cases List.mem_singleton.mp note
        exact ⟨rfl,nofun⟩
      · exact absurd note List.not_mem_nil
    · cases List.mem_singleton.mp event
      exact plain
  have noted : ((if owner then [Ev.notified note] else []) ++ [ev]).filterMap noteOf = if owner then [note] else [] := by
    rw [List.filterMap_append,List.filterMap_cons_none silent.1]
    cases owner <;> rfl
  have unclosed : ((if owner then [Ev.notified note] else []) ++ [ev]).filterMap closeOf = [] := by
    rw [List.filterMap_append,List.filterMap_cons_none silent.2]
    cases owner <;> rfl
  have story := h.append erred' stage' ((if owner then [.notified note] else []) ++ [ev]) unfreed later.2 told
    (by rw [noted,notes]; cases owner <;> rfl) (by rw [unclosed,linked]; rfl)
    (fun done => Or.inl (came done)) (fun running => absurd running later.1)
  rw [List.append_assoc] at story
  exact story

theorem Story.write (h : Story erred .running owner log) (comm) : Story erred .running owner (.commWrite comm::log) where
  notes := h.notes
  closes := h.closes
  came := nofun
  stays _ e mem := by
    rcases List.mem_cons.mp mem with rfl | old
    · rfl
    · exact h.stays rfl e old
  order := by
    refine List.pairwise_cons.mpr ⟨fun older mem leaves => ?_,h.order⟩
    rw [h.stays rfl older mem] at leaves
    contradiction
  alive _ mem := h.alive nofun (by simpa using mem)
  gone := nofun

theorem Story.free (h : Story erred .freeing owner log) : Story erred .freed owner (.freed::log) where
  notes := h.notes
  closes := h.closes
  came _ := List.mem_cons_of_mem _ (h.came rfl)
  stays := nofun
  order := List.pairwise_cons.mpr ⟨fun _ _ _ => rfl,h.order⟩
  alive none := absurd rfl none
  gone _ := ⟨log,rfl,h.came rfl,h.alive nofun⟩

end Story

structure Shape (made erred : Bool) (stage : Stage) (s : State) : Prop where
  state : s.c.state = stage.state
  stack : stage.stack s.stack
  comm : s.c.comm.isSome = stage.linked
  closing : s.port.closing = !stage.linked
  closed : s.port.closed = stage.done
  idle : stage = .failed ∨ stage.done = true → s.port.writing = false
  evCleanup : s.evCleanup = stage.evCleanup made
  freed : s.freed = stage.gone
  crashed : s.crashed = false
  story : Story erred stage s.c.cb.isSome s.log

/- What conn.c does behind the notification that it is closing, and behind the last one. -/
theorem closeTailShape {made erred s rest} (h : Shape made erred .asked s) (stack : rest = [] ∨ rest = [.error]) :
    Shape made erred .waiting (connCloseTail { s with stack := rest }) := by
  have linked : s.c.comm.isSome = true := h.comm
  have unlinked : s.c.comm.isNone = false := by simpa using linked
  have story : Story erred .waiting s.c.cb.isSome ([.commClose s.c.comm] ++ s.log) :=
    h.story.append _ _ _ nofun nofun (by simp [Ev.writes]) rfl (by simp [closeOf,linked,Stage.linked]) nofun nofun
  exact {
    state := h.state
    stack := stack
    comm := rfl
    closing := by simp [connCloseTail,commClose,linked,portStep,Stage.linked]
    closed := by
      simp only [connCloseTail,commClose,linked,if_true,portStep]
      exact h.closed
    idle := by simp [Stage.done]
    evCleanup := h.evCleanup
    freed := h.freed
    crashed := by simpa [connCloseTail,commClose,unlinked] using h.crashed
    story := story }

theorem cleanupTailShape {made erred s} (h : Shape made erred .freeing s) :
    Shape made erred .freed (clientEvCleanupTail { s with stack := [] }) :=
  { h with stack := rfl, idle := fun _ => h.idle (Or.inr rfl), evCleanup := rfl, freed := rfl, story := h.story.free }

theorem retShape {made erred stage s note rest} (h : Shape made erred stage s) (stack : s.stack = note::rest) :
    ∃ stage, Shape made erred stage (behind { s with stack := rest } note) := by
  have inside := h.stack
  rw [stack] at inside
  cases stage with
  | running => exact nomatch inside
  | failed =>
    rcases inside with none | first
    · exact nomatch none
    · cases first
      exact ⟨.failed,{ h with stack := Or.inl rfl }⟩
  | asked =>
    rcases inside with first | second
    · cases first
      exact ⟨.waiting,closeTailShape h (Or.inl rfl)⟩
    · cases second
      exact ⟨.waiting,closeTailShape h (Or.inr rfl)⟩
  | waiting =>
    rcases inside with none | first
    · exact nomatch none
    · cases first
      exact ⟨.waiting,{ h with stack := Or.inl rfl }⟩
  | closed => exact nomatch inside
  | freeing =>
    cases inside
    exact ⟨.freed,cleanupTailShape h⟩
  | freed => exact nomatch inside

/- The start of a notification, as if there always were an owner to call. -/
def told (s : State) (note : Note) : State :=
  { s with stack := note::s.stack, log := (if s.c.cb.isSome then [.notified note] else []) ++ s.log }

theorem notifyShape {made erred stage s note} (h : Shape made erred stage (told s note)) :
    ∃ stage, Shape made erred stage (notify s note) := by
  unfold notify
  split
  · rename_i owner
    have back := retShape h rfl
    simp only [told,owner] at back
    exact back
  · rename_i owner
    simp only [told,owner] at h
    exact ⟨stage,h⟩

theorem failTold {made erred s} (h : Shape made erred .running s) (idle : s.port.writing = false) :
    Shape made erred .failed (told (s.become .error) .error) := by
  have empty : s.stack = [] := h.stack
  have story := h.story.told erred .failed .error (.set .error) nofun ⟨nofun,nofun⟩ ⟨rfl,nofun⟩ ⟨rfl,rfl⟩ rfl rfl nofun
  exact { h with state := rfl, stack := Or.inr (congrArg _ empty), idle := fun _ => idle, story := story }

theorem closeTold {made erred stage s} (h : Shape made erred stage s) (opened : stage = .running ∨ stage = .failed) :
    Shape made (stage = .failed) .asked (told (s.become .closing) .closing) := by
  rcases opened with rfl | rfl
  · have story := h.story.told false .asked .closing (.set .closing) nofun ⟨nofun,nofun⟩ ⟨rfl,nofun⟩ ⟨rfl,rfl⟩ rfl rfl nofun
    have empty : s.stack = [] := h.stack
    exact { h with state := rfl, stack := Or.inl (congrArg _ empty), idle := by simp [Stage.done], story := story }
  · have story := h.story.told true .asked .closing (.set .closing) nofun ⟨nofun,nofun⟩ ⟨rfl,nofun⟩ ⟨rfl,rfl⟩ rfl rfl nofun
    have stack : s.stack = [] ∨ s.stack = [.error] := h.stack
    exact { h with state := rfl, stack := stack.imp (congrArg _) (congrArg _), idle := by simp [Stage.done], story := story }

theorem cleanupTold {made erred s} (h : Shape made erred .closed s) :
    Shape made erred .freeing (told { s.enter .cleanup with evCleanup := some false } .freeing) := by
  have outside : s.stack = [] := h.stack
  have story := h.story.told erred .freeing .freeing (.entered .cleanup) nofun ⟨nofun,nofun⟩ ⟨rfl,nofun⟩ ⟨rfl,rfl⟩ rfl rfl
    (fun _ => rfl)
  exact { h with stack := congrArg _ outside, idle := fun _ => h.idle (Or.inr rfl), evCleanup := rfl, story := story }

/- conn_close does nothing from CLOSING on. -/
theorem connCloseCases {made erred stage s} (h : Shape made erred stage s) :
    connClose s = s ∨ (stage = .running ∨ stage = .failed) ∧ connClose s = notify (s.become .closing) .closing := by
  by_cases opened : stage = .running ∨ stage = .failed
  · refine Or.inr ⟨opened,if_neg ?_⟩
    rw [h.state]
    rcases opened with rfl | rfl <;> nofun
  · refine Or.inl (if_pos ?_)
    rw [h.state]
    cases stage <;> simp_all [Stage.state]

theorem connCloseShape {made erred stage s} (h : Shape made erred stage s) : ∃ erred stage, Shape made erred stage (connClose s) := by
  rcases connCloseCases h with same | ⟨opened,closes⟩
  · rw [same]
    exact ⟨erred,stage,h⟩
  · rw [closes]
    exact ⟨_,notifyShape (closeTold h opened)⟩

theorem commWriteShape {made erred s} (h : Shape made erred .running s) : Shape made erred .running (commWrite s) := by
  have linked : s.c.comm.isSome = true := h.comm
  have unlinked : s.c.comm.isNone = false := by simpa using linked
  exact { h with
    closing := by
      simp only [commWrite,linked,if_true,portStep]
      exact h.closing
    closed := by
      simp only [commWrite,linked,if_true,portStep]
      exact h.closed
    idle := by simp [Stage.done]
    crashed := by simpa [commWrite,unlinked] using h.crashed
    story := h.story.write s.c.comm }

/- An event that is neither a notification, a call of the comm nor a change of state. -/
theorem plainStory {erred stage owner log} (h : Story erred stage owner log) (alive : stage ≠ .freed) {e : Ev}
    (plain : e.plain = true) : Story erred stage owner (e::log) := by
  have silent : noteOf e = none ∧ closeOf e = none ∧ e.writes = false ∧ e.leaves = false ∧ e ≠ .freed := by
    cases e <;> first | contradiction | exact ⟨rfl,rfl,rfl,rfl,nofun⟩
  obtain ⟨note,close,writes,leaves,free⟩ := silent
  exact h.append erred stage [e] alive alive (by simp [writes,free]) (by simp [note]) (by simp [close]) Or.inl
    (fun running => ⟨running,by simp [leaves]⟩)

/- A write callback is ignored, or it ends in an error, a close or the next write. -/
theorem writeCbCases {made erred stage s} (h : Shape made erred stage s) (status nwritten) : connWriteCb s status nwritten = s ∨
    ∃ s', Shape made erred .running s' ∧ s'.port = s.port ∧ s'.c.cb = s.c.cb ∧
      (connWriteCb s status nwritten = connFail s' ∨ connWriteCb s status nwritten = connClose s' ∨
        connWriteCb s status nwritten = commWrite s') := by
  unfold connWriteCb
  split
  · exact Or.inl rfl
  · rename_i running
    right
    have first : stage = .running := by
      have state := h.state
      cases stage <;> simp_all [Stage.state]
    subst stage
    split
    · exact ⟨s,h,rfl,rfl,Or.inl rfl⟩
    · have counted : Shape made erred .running { s with
          c.totalWritten := s.c.totalWritten + UInt64.ofInt nwritten
          log := if s.c.statsCb.isSome then .stats nwritten::s.log else s.log } := by
        refine { h with story := ?_ }
        dsimp only
        split
        · exact plainStory h.story nofun rfl
        · exact h.story
      refine ⟨_,counted,rfl,rfl,?_⟩
      dsimp only
      split
      · exact Or.inr (Or.inl rfl)
      · split
        · exact Or.inl rfl
        · exact Or.inr (Or.inr rfl)

theorem writeCbShape {made erred stage s status nwritten} (h : Shape made erred stage s) (idle : s.port.writing = false) :
    ∃ erred stage, Shape made erred stage (connWriteCb s status nwritten) := by
  rcases writeCbCases h status nwritten with same | ⟨s',running,port,_,fails | closes | writes⟩
  · rw [same]
    exact ⟨erred,stage,h⟩
  · rw [fails]
    exact ⟨erred,notifyShape (failTold running (port ▸ idle))⟩
  · rw [closes]
    exact connCloseShape running
  · rw [writes]
    exact ⟨erred,.running,commWriteShape running⟩

/- Only the write of a conn that is neither done nor in error is under way. -/
theorem answeredShape {made erred stage s status nwritten} (h : Shape made erred stage s) (writing : s.port.writing = true) :
    Shape made erred stage { s.enter .write with port := portStep s.port (.wrote status nwritten) } := by
  have busy : ¬ (stage = .failed ∨ stage.done = true) := fun idle => never ((h.idle idle).symm.trans writing)
  have alive : stage ≠ .freed := fun gone => busy (Or.inr (by rw [gone]; rfl))
  exact { h with idle := fun _ => rfl, story := plainStory h.story alive rfl }

theorem closedWaiting {made erred stage s} (h : Shape made erred stage s) (allowed : PortAllowed s.port .closed) :
    stage = .waiting := by
  have linked := h.closing
  have done := h.closed
  rw [allowed.1] at linked
  rw [allowed.2.2] at done
  cases stage <;> first | rfl | exact absurd linked (by decide) | exact absurd done (by decide)

theorem closedShape {made erred stage s} (h : Shape made erred stage s) (allowed : PortAllowed s.port .closed)
    (outside : s.stack = []) (fde : made = true) : Shape made erred .closed (step s .closed) := by
  obtain rfl := closedWaiting h allowed
  subst made
  have idleFde : s.evCleanup = some false := h.evCleanup
  have story : Story erred .closed s.c.cb.isSome ([.entered .close] ++ s.log) :=
    h.story.append _ _ _ nofun nofun (by simp [Ev.writes]) rfl rfl (by simp) nofun
  exact { h with
    stack := outside
    comm := rfl
    closed := rfl
    idle := fun _ => allowed.2.1
    evCleanup := by simp [step,clientEvCloseCb,State.enter,idleFde,Stage.evCleanup]
    crashed := by simpa [step,clientEvCloseCb,State.enter,idleFde] using h.crashed
    story := story }

theorem cleanupCases {made erred stage s} (h : Shape made erred stage s) (armed : s.evCleanup = some true) : stage = .closed ∧
    step s .cleanup = notify { s.enter .cleanup with evCleanup := some false } .freeing := by
  have closed : stage = .closed := by
    have scheduled := h.evCleanup
    rw [armed] at scheduled
    cases stage <;> cases made <;> first | rfl | exact nomatch scheduled
  subst stage
  have unlinked : s.c.comm.isSome = false := h.comm
  exact ⟨rfl,by simp [step,clientEvCleanupCb,State.enter,unlinked]⟩

theorem newShape {alloc fd comm ioSize cb cbdata s} (made : connNew alloc fd comm ioSize cb cbdata = some s)
    (linked : alloc.comm = true) : Shape alloc.evCleanup false .running s := by
  obtain ⟨_,_,_,link,_⟩ := alloc
  have linked : link = true := linked
  subst link
  unfold connNew at made
  split at made <;> try contradiction
  cases Option.some.inj made
  have empty : Story false .running cb.isSome [.set .running] :=
    ⟨by cases cb <;> rfl,rfl,nofun,fun _ e mem => by rw [List.mem_singleton.mp mem]; rfl,by simp,by simp,nofun⟩
  exact ⟨rfl,rfl,rfl,rfl,rfl,by simp [Stage.done],rfl,rfl,rfl,empty.write (some comm)⟩

/- Without a cleanup fde the close callback would be the end of the process. -/
theorem stepShape {made erred stage s a} (h : Shape made erred stage s) (allowed : Allowed s a)
    (fde : a = .closed → made = true) : ∃ erred stage, Shape made erred stage (step s a) := by
  obtain ⟨_,allowed⟩ := allowed
  cases a with
  | connClose => exact connCloseShape h
  | connSetStatsCb cb => exact ⟨erred,stage,{ h with }⟩
  | setThreshold thr => exact ⟨erred,stage,{ h with }⟩
  | wrote status nwritten => exact writeCbShape (answeredShape h allowed.2) rfl
  | closed => exact ⟨erred,.closed,closedShape h allowed.2 allowed.1 (fde rfl)⟩
  | cleanup =>
    obtain ⟨rfl,notifies⟩ := cleanupCases h allowed.2
    rw [notifies]
    exact ⟨erred,notifyShape (cleanupTold h)⟩
  | ret =>
    cases stack : s.stack with
    | nil => exact absurd stack allowed
    | cons note rest =>
      simp only [step,stack]
      exact ⟨erred,retShape h stack⟩

theorem reachShape {s} (h : Reach connMachine s) : ∃ erred stage, Shape true erred stage s := by
  have initial (s) (created : connMachine.start s) : ∃ erred stage, Shape true erred stage s := by
    obtain ⟨fd,comm,ioSize,cb,cbdata,made⟩ := created
    exact ⟨false,.running,newShape made rfl⟩
  have preserved (s a) (shape : ∃ erred stage, Shape true erred stage s) (allowed : connMachine.allowed s a) :
      ∃ erred stage, Shape true erred stage (connMachine.step s a) := by
    obtain ⟨erred,stage,shape⟩ := shape
    exact stepShape shape allowed fun _ => rfl
  exact reachInvariant initial preserved h

theorem notesPrefix {erred stage owner log} (h : Story erred stage owner log) :
    ∃ erred : Bool, (notes log).reverse <+: (if erred then [.error] else []) ++ [Note.closing,.freeing] := by
  rw [h.notes]
  cases owner with
  | false => exact ⟨false,List.nil_prefix⟩
  | true =>
    cases stage with
    | running => exact ⟨false,List.nil_prefix⟩
    | failed => exact ⟨true,by cases erred <;> decide⟩
    | _ => exact ⟨erred,by cases erred <;> decide⟩

theorem closedReturned {made erred stage s} (h : Shape made erred stage s) (notified : .notified .closing ∈ s.log)
    (returned : .closing ∉ s.stack) : closes s.log = [true] := by
  have heard : .closing ∈ notes s.log := List.mem_filterMap.mpr ⟨_,notified,rfl⟩
  have inside := h.stack
  rw [h.story.closes]
  rw [h.story.notes] at heard
  cases stage with
  | running => simp [Stage.notes] at heard
  | failed => simp [Stage.notes] at heard
  | asked =>
    rcases inside with only | within
    · exact absurd (by rw [only]; decide) returned
    · exact absurd (by rw [within]; decide) returned
  | _ => rfl

theorem freedLast {erred stage owner log} (h : Story erred stage owner log) {after before}
    (split : log = after ++ .freed::before) : after = [] ∧ .entered .close ∈ before := by
  have freed : stage = .freed := by
    by_contra alive
    exact h.alive alive (by simp [split])
  obtain ⟨rest,whole,came,fresh⟩ := h.gone freed
  rw [whole] at split
  cases after with
  | nil =>
    cases split
    exact ⟨rfl,came⟩
  | cons last init =>
    cases split
    exact absurd (by simp) fresh

theorem freedStops {made erred stage s} (h : Shape made erred stage s) (gone : s.freed = true) (a) : ¬ Allowed s a := by
  have freed : stage = .freed := by
    have same := h.freed
    rw [gone] at same
    cases stage <;> first | rfl | exact nomatch same
  subst stage
  rintro ⟨_,allowed⟩
  cases a with
  | wrote => exact never ((h.idle (Or.inr rfl)).symm.trans allowed.2)
  | closed => exact never (allowed.2.2.2.symm.trans h.closed)
  | cleanup => exact nomatch h.evCleanup.symm.trans allowed.2
  | ret => exact allowed h.stack
  | _ => exact never (allowed.symm.trans gone)

/- The owner is told of an error at most once, of the close and of the end, in this order.
comm_close is called once, on a comm; no comm_write follows the end of RUNNING; and the conn
is freed behind the close callback of its comm, with nothing to come. -/
theorem connLifecycle {s} (h : Reach connMachine s) :
    (∃ erred : Bool, (notes s.log).reverse <+: (if erred then [.error] else []) ++ [Note.closing,.freeing]) ∧
    (closes s.log = [] ∨ closes s.log = [true]) ∧
    (.notified .closing ∈ s.log → .closing ∉ s.stack → closes s.log = [true]) ∧
    (∀ after e before, s.log = after ++ e::before → e.leaves = true → ∀ comm, .commWrite comm ∉ after) ∧
    (∀ after before, s.log = after ++ .freed::before →
      .entered .close ∈ before ∧ ∀ callback, .entered callback ∉ after) ∧
    (s.freed = true → ∀ a, ¬ connMachine.allowed s a) := by
  obtain ⟨erred,stage,shape⟩ := reachShape h
  refine ⟨notesPrefix shape.story,?_,closedReturned shape,?_,?_,freedStops shape⟩
  · rw [shape.story.closes]
    cases stage.linked <;> simp
  · intro after e before split leaves comm mem
    have order := shape.story.order
    rw [split] at order
    have silent := (List.pairwise_append.mp order).2.2 _ mem e List.mem_cons_self leaves
    exact nomatch silent
  · intro after before split
    obtain ⟨nothing,came⟩ := freedLast shape.story split
    exact ⟨came,by simp [nothing]⟩

/- The first write goes through and the second fails. The owner closes inside the ERROR
notification and again inside the two that follow. -/
def failedRun : List Act :=
  [.wrote .completed 16,.wrote .error 0,.connClose,.connClose,.ret,.ret,.closed,.cleanup,.connClose,.ret]

def sixteen : State := (connNew allSucceed 5 1 16 (some 7) 0).getD ⟨⟨0,none,.none,0,none,0,none,0,0⟩,⟨false,false,false⟩,none,[],false,false,[]⟩

theorem connLifecycleRun :
    let s := run connMachine sixteen failedRun
    s.freed = true ∧ notes s.log = [.freeing,.closing,.error] ∧ closes s.log = [true] ∧
      ∀ a, ¬ connMachine.allowed s a := by
  have reached : Reach connMachine (run connMachine sixteen failedRun) :=
    reachRun (.start ⟨5,1,16,some 7,0,rfl⟩) (by decide)
  obtain ⟨_,_,once,_,_,stops⟩ := connLifecycle reached
  exact ⟨by decide,by decide,once (by decide) (by decide),stops (by decide)⟩

end Libiapp.Connection
