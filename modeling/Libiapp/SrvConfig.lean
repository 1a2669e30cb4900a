import Libiapp.Netbuf

/-! The configuration of the server, as srv_parse_option reads it and main uses it: each
thread has an allocator with one slab, for max_num_conns netbufs of io_size bytes. Both are
an int, and so is their product, which is widened to size_t only then. Its overflow is taken
to wrap around. An error is the text that is printed. -/
namespace Libiapp.Config
open Runs Shm Netbuf Words

structure Cfg where
  numThreads : Int32
  ioSize : Int32
  maxNumConns : Int32
  atype : AllocType
  port : Int32
  doThreadPin : Int32
  doFdAffinity : Int32
  deriving DecidableEq, Repr

def srvCfg : Cfg := ⟨2,16384,32768,.malloc,1667,1,0⟩

def isspace (c : Char) : Bool := c == ' ' || ('\t' ≤ c && c ≤ '\r')

-- A long: what is out of its range is its largest or its smallest value.
def strtol (str : List Char) : Int :=
  let str := str.dropWhile isspace
  let (negative,digits) := match str with
    | '-'::rest => (true,rest)
    | '+'::rest => (false,rest)
    | _ => (false,str)
  let value : Nat := (digits.takeWhile Char.isDigit).foldl (fun value c => 10 * value + (c.toNat - '0'.toNat)) 0
  if negative then max (-2^63) (-value) else min (2^63 - 1) value

def atoi (str : List Char) : Int32 := Int32.ofInt (strtol str)

-- The token, and what the pointer is set to.
def strsep : Option (List Char) → Option (List Char) × Option (List Char)
  | none => (none,none)
  | some str =>
    (some (str.takeWhile (· != '=')),match str.dropWhile (· != '=') with
      | [] => none
      | _::rest => some rest)

-- `dup` says whether strdup() has memory. A configuration that is refused stays as it was.
def srvParseOption (cfg : Cfg) (opt : Option String) (dup : Bool) : Except String Cfg :=
  match opt with
  | none => .ok cfg
  | some opt =>
    if !dup then .error "srv_parse_option: strdup" else
      let (sa,p) := strsep (some opt.toList)
      let (sv,_) := strsep p
      match sa,sv with
      | some sa,some sv =>
        if "num_threads".toList = sa then .ok { cfg with numThreads := atoi sv }
        else if "io_size".toList = sa then .ok { cfg with ioSize := atoi sv }
        else if "max_num_conns".toList = sa then .ok { cfg with maxNumConns := atoi sv }
        else if "atype".toList = sa then
          if "posixshm".toList = sv then .ok { cfg with atype := .posixshm }
          else if "malloc".toList = sv then .ok { cfg with atype := .malloc }
          else .error ("unknown atype (posixshm or malloc, got '" ++ String.ofList sv ++ "')\n")
        else if "port".toList = sa then .ok { cfg with port := atoi sv }
        else if "do_thread_pin".toList = sa then .ok { cfg with doThreadPin := atoi sv }
        else if "do_fd_affinity".toList = sa then .ok { cfg with doFdAffinity := atoi sv }
        else .error ("unknown option '" ++ String.ofList sa ++ "'\n")
      | _,_ => .error ""

-- The loop of main, which exits at the first error.
def srvOptions (cfg : Cfg) : List (String × Bool) → Except String Cfg
  | [] => .ok cfg
  | (opt,dup)::rest => do
    let cfg ← srvParseOption cfg (some opt) dup
    srvOptions cfg rest

def Cfg.slabSize (cfg : Cfg) : UInt64 := (cfg.maxNumConns * cfg.ioSize).toInt64.toUInt64

def Cfg.ioBytes (cfg : Cfg) : UInt64 := cfg.ioSize.toInt64.toUInt64

-- The allocator of a thread. The threads come from calloc().
def Cfg.sm (cfg : Cfg) (sys : SlabSys) : State :=
  if cfg.atype = .posixshm then shmAllocInit cfg.slabSize true sys else ⟨[],fun _ => none,fun _ => none,false⟩

def srvMain (args : List (String × Bool)) (sys : SlabSys) : Except String (Cfg × State) := do
  let cfg ← srvOptions srvCfg args
  .ok (cfg,cfg.sm sys)

section Capacity
variable {cfg : Cfg}

theorem ioBytesExact (positive : 0 < cfg.ioSize) : (cfg.ioBytes.toNat : Int) = cfg.ioSize.toInt := by
  have wide : cfg.ioSize.toInt64.toInt = cfg.ioSize.toInt := Int32.toInt_toInt64 _
  have some := Int32.lt_iff_toInt_lt.mp positive
  have zero : (0 : Int32).toInt = 0 := rfl
  have nonneg : 0 ≤ cfg.ioSize.toInt64.toInt := by omega
  exact (castToNat nonneg).trans wide

/- A size that ftruncate() takes is the product as the int that it was computed in. -/
theorem slabSizeExact (small : cfg.slabSize.toNat < 2^63) :
    (cfg.slabSize.toNat : Int) = (cfg.maxNumConns.toInt * cfg.ioSize.toInt).bmod (2^32) := by
  have wide : (cfg.maxNumConns * cfg.ioSize).toInt64.toInt = (cfg.maxNumConns * cfg.ioSize).toInt := Int32.toInt_toInt64 _
  have cast : cfg.slabSize.toInt64.toInt = cfg.slabSize.toNat := castToInt small
  have back : cfg.slabSize.toInt64 = (cfg.maxNumConns * cfg.ioSize).toInt64 := Int64.toInt64_toUInt64 _
  rw [← cast,back,wide,Int32.toInt_mul]

theorem bmodKeepsIff (p : Int) (nonneg : 0 ≤ p) : p ≤ p.bmod (2^32) ↔ p < 2^31 := by
  rw [Int.bmod_def]
  split <;> omega

theorem grantedSmall {capacity : UInt64} {doMlock : Bool} {sys : SlabSys} (truncates : Truncates capacity sys)
    (granted : (shmAllocInit capacity doMlock sys).slabList ≠ []) : capacity.toNat < 2^63 := by
  have initial : ∃ sh slab, Even capacity capacity sh slab ⟨shmAllocInit capacity doMlock sys,[],0⟩ :=
    startEven truncates granted
  obtain ⟨_,_,even⟩ := initial
  exact even.small

theorem mainShm {args : List (String × Bool)} {sys : SlabSys} {sm : State} (main : srvMain args sys = .ok (cfg,sm)) :
    sm = cfg.sm sys := by
  simp only [srvMain,bind,Except.bind] at main
  split at main
  · contradiction
  · cases main
    rfl

/- Once its slab is granted, a thread can hold max_num_conns netbufs of io_size bytes
exactly when their product is an int. -/
theorem configuredCapacityIff {args : List (String × Bool)} {sys : SlabSys} {sm : State}
    (main : srvMain args sys = .ok (cfg,sm)) (atype : cfg.atype = .posixshm) (ioSize : 0 < cfg.ioSize)
    (maxNumConns : 0 < cfg.maxNumConns) (truncates : Truncates cfg.slabSize sys) (granted : sm.slabList ≠ []) :
    Provides cfg.atype cfg.ioBytes sm cfg.maxNumConns.toInt.toNat ↔
      cfg.maxNumConns.toInt * cfg.ioSize.toInt < 2^31 := by
  have state : sm = shmAllocInit cfg.slabSize true sys := by
    rw [mainShm main,Cfg.sm,if_pos atype]
  subst state
  have conns : 0 < cfg.maxNumConns.toInt := Int32.lt_iff_toInt_lt.mp maxNumConns
  have io : 0 < cfg.ioSize.toInt := Int32.lt_iff_toInt_lt.mp ioSize
  have bytes := ioBytesExact ioSize
  have positive : 0 < cfg.ioBytes.toNat := by omega
  have product : ((cfg.maxNumConns.toInt.toNat * cfg.ioBytes.toNat : Nat) : Int) =
      cfg.maxNumConns.toInt * cfg.ioSize.toInt := by
    rw [Int.natCast_mul,Int.toNat_of_nonneg (Int.le_of_lt conns),bytes]
  rw [atype,providesIff positive truncates granted,Nat.le_div_iff_mul_le positive,← Int.ofNat_le,product,
    slabSizeExact (grantedSmall truncates granted),bmodKeepsIff _ (Int.le_of_lt (Int.mul_pos conns io))]

end Capacity

/- The slab that every system call allows. -/
def granted : SlabSys := ⟨some 1,5,0,some 4096,0⟩

def defaultArgs : List (String × Bool) := [("atype=posixshm",true),("num_threads=4",true)]

def wideArgs : List (String × Bool) := [("atype=posixshm",true),("io_size=65536",true),("max_num_conns=65537",true)]

theorem defaultCapacity : Provides .posixshm 16384 (shmAllocInit 536870912 true granted) 32768 := by
  have main : srvMain defaultArgs granted =
      .ok (⟨4,16384,32768,.posixshm,1667,1,0⟩,shmAllocInit 536870912 true granted) := rfl
  exact (configuredCapacityIff main rfl (by decide) (by decide) (fun _ => by decide) (by decide)).mpr (by decide)

/- 65536 times 65537 is 65536 as an int: the slab has room for one netbuf. -/
theorem wideCapacity :
    srvMain wideArgs granted = .ok (⟨2,65536,65537,.posixshm,1667,1,0⟩,shmAllocInit 65536 true granted) ∧
    (shmAllocInit 65536 true granted).slabList ≠ [] ∧
    ¬ Provides .posixshm 65536 (shmAllocInit 65536 true granted) 65537 := by
  refine ⟨rfl,by decide,fun provides => ?_⟩
  have most := (providesIff (by decide) (fun _ => by decide) (by decide) _).mp provides
  exact absurd most (by decide)

end Libiapp.Config
