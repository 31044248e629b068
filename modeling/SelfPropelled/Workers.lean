import SelfPropelled.Allocator
import SelfPropelled.Snippet

/-! The workers of `inst_workers/`, the snippet state they share (`snippet.cc`) and
the loop of `instrumenter.cc` that tries them on a point. What the kernel and
the memory allocator answer in one attempt is an input of the attempt. -/

namespace SelfPropelled.Workers
open Machine
open Allocator (pageSize)

/-- How a point is instrumented; a worker is named by the method it installs. -/
inductive InstallMethod
  | trap
  | relocInsn
  | relocBlk
  | springboard
deriving DecidableEq, Repr

/-- A basic block. `saves` tells whether its last instruction can be decoded. -/
structure Block where
  start : Word
  stop : Word
  code : CallBlock
  isBranch : Bool
  containsCall : Bool
  saves : Bool

def Block.last (b : Block) : Word := b.code.last

def Block.size (b : Block) : Nat := (b.stop - b.start).toNat

def Block.callSize (b : Block) : Nat := (b.stop - b.last).toNat

/-- An object with its numbered blocks. Its code base is its load address, and
the parser gives addresses of blocks and code regions relative to it. -/
structure Object where
  loadAddr : Word
  block : Nat → Block
  regions : List (Word × Word)
  findBlocks : Word × Word → Word → List Nat

structure Point where
  block : Nat
  func : Option Word
  address : Word
  entry : Word
  exit : Word
  savedContextLoc : Word
  getCallee : Bool

structure Config where
  lib : ArchX86
  obj : Object
  point : Nat → Point
  wrapperEntry : Word
  wrapperExit : Word
  workers : List InstallMethod
  sigill : Bool
  directcallOnly : Bool
  noTailcall : Bool

namespace Config

def blockOf (c : Config) (pt : Nat) : Block := c.obj.block (c.point pt).block

/-- What code generation reads once the instrumenter has set the tail-call mark
and the return address. -/
def snippet (c : Config) (pt : Nat) : Snippet where
  func := (c.point pt).func
  point := (c.point pt).address
  tailcall := (c.blockOf pt).isBranch
  retAddr := if (c.blockOf pt).isBranch then 0 else (c.blockOf pt).stop
  block := (c.blockOf pt).code
  entry := (c.point pt).entry
  exit := (c.point pt).exit
  savedContextLoc := (c.point pt).savedContextLoc
  wrapperEntry := c.wrapperEntry
  wrapperExit := c.wrapperExit

end Config

/-- The mutable part of a snippet; 0 is the null pointer. -/
structure SnippetState where
  blob : Word
  blobSize : Nat
  spring : Word
  springSize : Nat
  springBlk : Option Nat

def SnippetState.fresh : SnippetState := ⟨0,0,0,0,none⟩

structure World where
  mem : Memory
  rwx : List (Word × Nat)
  freed : Word → Bool
  isSpring : Nat → Bool
  instrumented : Nat → Bool
  snippet : Nat → SnippetState
  method : Nat → Option InstallMethod
  instMap : Word → Option Nat

/-- How a worker ends. The last three end the process: `exit`, a failed
assertion, a write through a null pointer. -/
inductive Result
  | returns (ok : Bool)
  | exits
  | aborts
  | faults
deriving DecidableEq, Repr

/-- What the allocator and the kernel answer in one attempt: the buffers for the
blob and the relocated spring block by their sizes, and whether `mprotect`
succeeds on them, on the spring block and on the call site. -/
structure Answers where
  blob : Nat → Word
  spring : Nat → Word
  blobPerm : Bool
  springPerm : Bool
  springBlkPerm : Bool
  codePerm : Bool

namespace World

def setSnippet (w : World) (pt : Nat) (s : SnippetState) : World :=
  {w with snippet := fun q => if q = pt then s else w.snippet q}

def write (w : World) (dst : Word) (bs : List Byte) : World := {w with mem := storeBytes w.mem dst bs}

def free (w : World) (buf : Word) : World := {w with freed := fun x => x == buf || w.freed x}

end World

/-- An address on the first page is refused before the kernel is asked. -/
def permits (a : Word) (granted : Bool) : Bool :=
  (pageSize < a.toNat || a.toNat % pageSize == 0) && granted

/-- Make a range readable, writable and executable. That the kernel does so for whole
pages is left out. -/
def setMemoryPermission (w : World) (a : Word) (length : Nat) (granted : Bool) : Option World :=
  if permits a granted then some {w with rwx := (a,length) :: w.rwx} else none

def belowPage (a : Word) : Bool := a.toInt < pageSize

/-- The base size of generated code, excluding relocated instructions. -/
def baseEstimateRelocInsnSize : Nat := 600

def usePC (insn : Instruction) : Bool := (insn.readSet ++ insn.accessSet).any (·.reg == .rip)

def baseEstimateRelocBlockSize (b : Block) : Nat :=
  b.size + baseEstimateRelocInsnSize + 20 * (b.code.insns.countP fun i => usePC i.2)

section
variable (c : Config)

def getBlob (w : World) (pt estimateSize : Nat) (malloc : Nat → Word) : World :=
  let blob := malloc estimateSize
  {w.setSnippet pt {w.snippet pt with blob := blob} with freed := fun x => w.freed x && x != blob}

/-- The world in which `BuildBlob` generates: with a blob, unless none is to be had. -/
def ensureBlob (w : World) (pt estSize : Nat) (malloc : Nat → Word) : World :=
  if (w.snippet pt).blob = 0 then getBlob w pt estSize malloc else w

/-- Generate the blob unless there is one already. `none` is a failed assertion
of the generator. -/
def buildBlob (w : World) (pt estSize : Nat) (reloc : Bool) (malloc : Nat → Word) :
    Option (Word × World) :=
  let w := ensureBlob w pt estSize malloc
  let s := w.snippet pt
  if s.blob = 0 then some (0,w)
  else if 0 < s.blobSize then some (s.blob,w)
  else
    match (c.snippet pt).generate c.lib reloc s.blob with
    | none => none
    | some code => some (s.blob,(w.write s.blob code).setSnippet pt {s with blobSize := code.length})

/-- A block can host a spring: a short jump from the call block reaches its second
long jump, its instructions before the last leave room for two long jumps, it
contains no call and is no spring block yet. -/
def suitable (isSpring : Nat → Bool) (callStart : Word) (b : Nat) : Bool :=
  let blk := c.obj.block b
  let loadAddr := c.obj.loadAddr
  let rel := blk.start - loadAddr + BitVec.ofNat 64 jumpAbsSize - (callStart + 2)
  let rel := if loadAddr ≠ 0 then rel + loadAddr else rel
  isDisp8 rel && jumpAbsSize * 2 ≤ (blk.last - blk.start).toNat && !blk.containsCall && !isSpring b

/-- The search through one code region. A step moves the address on, to the end
of the block it is in if that one is not suitable. -/
def scan (isSpring : Nat → Bool) (callStart : Word) (cr : Word × Word) (upper : Word) :
    Nat → Word → Option Nat
  | 0, _ => none
  | fuel + 1, spanAddr =>
    match (c.obj.findBlocks cr spanAddr).getLast? with
    | none =>
      if (spanAddr + 1).slt upper then scan isSpring callStart cr upper fuel (spanAddr + 1) else none
    | some b =>
      if suitable c isSpring callStart b then some b
      else
        let spanAddr := (c.obj.block b).stop - c.obj.loadAddr
        if spanAddr.slt upper then scan isSpring callStart cr upper fuel spanAddr else none

def inRange (lower upper : Word) (cr : Word × Word) : Bool :=
  (lower.sle cr.1 && cr.1.slt upper) || (cr.1.sle lower && upper.slt cr.2) ||
    (lower.sle cr.2 && cr.2.slt upper)

def findSpringboard (w : World) (pt : Nat) : Option Nat × World :=
  match (w.snippet pt).springBlk with
  | some b => (some b,w)
  | none =>
    let callStart := (c.blockOf pt).start
    let upper := 127 + (callStart + 2) - BitVec.ofNat 64 jumpAbsSize - c.obj.loadAddr
    let lower := upper - 255
    match (c.obj.regions.filter (inRange lower upper)).findSome? fun cr =>
        scan c w.isSpring callStart cr upper 256 lower with
    | none => (none,w)
    | some b => (some b,{w.setSnippet pt {w.snippet pt with springBlk := some b} with
        isSpring := fun q => q == b || w.isSpring q})

/-- The relocated spring block and the jump back to its last instruction. -/
def springCode (b : Nat) (spring : Word) : Option (List Byte) := do
  let blk := c.obj.block b
  let moved ← relocBlock c.lib blk.code.insns blk.last spring
  return moved ++ emitJumpAbs blk.last (spring + BitVec.ofNat 64 moved.length) false

/-- Build the spring block; it is written to whatever the allocator returned. -/
def relocateSpring (w : World) (pt b : Nat) (malloc : Nat → Word) : Except Result (Word × World) :=
  let spring := malloc ((c.obj.block b).size + jumpAbsSize)
  if spring = 0 then .error .faults
  else
    match springCode c b spring with
    | none => .error .aborts
    | some code =>
      let w := {w with freed := fun x => w.freed x && x != spring}
      .ok (spring,(w.write spring code).setSnippet pt
        {w.snippet pt with spring := spring,springSize := code.length})

def callInsnJump (b : Block) (blob : Word) : List Byte :=
  0xe9 :: toBytes 4 ((blob - b.last - BitVec.ofNat 64 b.callSize).setWidth 32)

def callInsnInstall (w : World) (pt : Nat) (a : Answers) : Result × World :=
  let b := c.blockOf pt
  if belowPage b.last then (.returns false,w)
  else
    match buildBlob c w pt baseEstimateRelocInsnSize false a.blob with
    | none => (.aborts,w)
    | some (blob,w) =>
      if blob = 0 then (.aborts,w)
      else if belowPage blob then (.returns false,w)
      else if (c.point pt).func.isNone then (.aborts,w)
      else
        match setMemoryPermission w b.last b.callSize a.codePerm with
        | none => (.returns false,w)
        | some w =>
          let w := w.write b.last (callInsnJump b blob)
          match setMemoryPermission w blob (w.snippet pt).blobSize a.blobPerm with
          | none => (.returns false,w.free blob)
          | some w => (.returns true,w)

/-- `RelocCallInsnWorker::run`: only a direct call of at least five bytes whose
blob is near. -/
def callInsnRun (w : World) (pt : Nat) (a : Answers) : Result × World :=
  let b := c.blockOf pt
  if b.callSize < 5 then (.returns false,w)
  else if w.mem b.last ≠ 0xe8 then (.returns false,w)
  else
    let w := getBlob w pt baseEstimateRelocInsnSize a.blob
    if (w.snippet pt).blob = 0 then (.returns false,w)
    else if !isDisp32 ((w.snippet pt).blob - b.last) then (.returns false,w)
    else callInsnInstall c w pt a

/-- `RelocCallBlockWorker::InstallJumpToBlock`; a refused change of the code's
permission is only reported. -/
def installJumpToBlock (w : World) (pt : Nat) (a : Answers) (jump : List Byte) : Result × World :=
  let b := c.blockOf pt
  match buildBlob c w pt (baseEstimateRelocBlockSize b) true a.blob with
  | none => (.aborts,w)
  | some (blob,w) =>
    if blob = 0 || belowPage blob then (.returns false,w)
    else
      match setMemoryPermission w blob (w.snippet pt).blobSize a.blobPerm with
      | none => (.exits,w)
      | some w =>
        if belowPage b.start then (.returns false,w)
        else
          match setMemoryPermission w b.start jump.length a.codePerm with
          | none => (.returns true,w)
          | some w => (.returns true,w.write b.start jump)

/-- `RelocCallBlockWorker::install`: a short jump if the blob is near, else a long
one if the block has room for it. -/
def callBlockRun (w : World) (pt : Nat) (a : Answers) : Result × World :=
  let b := c.blockOf pt
  let w := getBlob w pt (baseEstimateRelocBlockSize b) a.blob
  let blob := (w.snippet pt).blob
  let relAddr := blob - b.start - 5
  if blob = 0 then (.returns false,w)
  else if b.size < 5 then (.returns false,w)
  else if isDisp32 relAddr then installJumpToBlock c w pt a (0xe9 :: toBytes 4 (relAddr.setWidth 32))
  else if jumpAbsSize ≤ b.size then installJumpToBlock c w pt a (emitJumpAbs blob b.start true)
  else (.returns false,w)

/-- Write two jumps to the spring block and one to the call block; refused changes
of permission are only reported. -/
def installSpring (w : World) (pt spring : Nat) (blob relocated : Word) (a : Answers) : World :=
  let callblk := c.blockOf pt
  let springblk := c.obj.block spring
  let first := emitJumpAbs relocated springblk.start true
  let second := emitJumpAbs blob (springblk.start + BitVec.ofNat 64 first.length) true
  let hop := [0xeb,(springblk.start + BitVec.ofNat 64 first.length - (callblk.start + 2)).setWidth 8]
  let w := match setMemoryPermission w springblk.start springblk.size a.springBlkPerm with
    | none => w
    | some w => w.write springblk.start (first ++ second)
  match setMemoryPermission w callblk.start callblk.size a.codePerm with
  | none => w
  | some w => w.write callblk.start hop

/-- `SpringboardWorker::install` from the generated blob on: relocate the spring block,
then patch. -/
def springboardInstall (w : World) (pt spring : Nat) (blob : Word) (a : Answers) : Result × World :=
  if blob = 0 || belowPage blob then (.returns false,w)
  else
    match setMemoryPermission w blob (w.snippet pt).blobSize a.blobPerm with
    | none => (.exits,w)
    | some w =>
      match relocateSpring c w pt spring a.spring with
      | .error r => (r,w)
      | .ok (relocated,w) =>
        if belowPage relocated then (.returns false,w)
        else
          match setMemoryPermission w relocated (w.snippet pt).springSize a.springPerm with
          | none => (.exits,w)
          | some w =>
            if belowPage (c.obj.block spring).start then (.returns false,w)
            else (.returns true,installSpring c w pt spring blob relocated a)

def springboardRun (w : World) (pt : Nat) (a : Answers) : Result × World :=
  match findSpringboard c w pt with
  | (none,w) => (.returns false,w)
  | (some spring,w) =>
    match buildBlob c w pt (baseEstimateRelocBlockSize (c.blockOf pt)) true a.blob with
    | none => (.aborts,w)
    | some (blob,w) => springboardInstall c w pt spring blob a

/-- The instruction that raises the signal. -/
def trapBytes : List Byte := if c.sigill then [0x0f,0x0b] else [0xcc]

def registerTrap (w : World) (pt : Nat) : World :=
  {w with instMap := fun x => if x = (c.blockOf pt).last then some pt else w.instMap x}

/-- `TrapWorker::run` and `install`; the handler makes the blob executable. -/
def trapRun (w : World) (pt : Nat) (a : Answers) : Result × World :=
  let b := c.blockOf pt
  let w := registerTrap c w pt
  if belowPage b.last then (.returns false,w)
  else
    match buildBlob c w pt baseEstimateRelocInsnSize false a.blob with
    | none => (.aborts,w)
    | some (blob,w) =>
      if blob = 0 then (.returns false,w)
      else
        match setMemoryPermission w b.last b.callSize a.codePerm with
        | none => (.returns false,w)
        | some w => (.returns true,w.write b.last (trapBytes c))

/-- The call-site part of `TrapWorker::OnTrap`, for the program counter the signal
reports: the point whose blob is entered. -/
def onTrap (w : World) (pc : Word) (granted : Bool) : Option (Nat × World) :=
  match w.instMap (pc - 1) with
  | none => none
  | some pt =>
    let s := w.snippet pt
    if s.blob = 0 || belowPage s.blob then none
    else some (pt,(setMemoryPermission w s.blob s.blobSize granted).getD w)

def save (w : World) (pt : Nat) : InstallMethod → Bool × World
  | .springboard =>
    match findSpringboard c w pt with
    | (none,w) => (false,w)
    | (some spring,w) => ((c.obj.block spring).saves && (c.blockOf pt).saves,w)
  | .trap | .relocInsn | .relocBlk => ((c.blockOf pt).saves,w)

def worker (w : World) (pt : Nat) (a : Answers) : InstallMethod → Result × World
  | .relocInsn => callInsnRun c w pt a
  | .relocBlk => callBlockRun c w pt a
  | .springboard => springboardRun c w pt a
  | .trap => trapRun c w pt a

/-- Apply workers one by one in order. -/
def tryWorkers (w : World) (pt : Nat) (answers : InstallMethod → Answers) :
    List InstallMethod → Result × World
  | [] => (.returns false,w)
  | k :: rest =>
    match save c w pt k with
    | (false,w) => tryWorkers w pt answers rest
    | (true,w) =>
      match worker c w pt (answers k) k with
      | (.returns true,w) => (.returns true,{w with
          instrumented := fun b => b == (c.point pt).block || w.instrumented b
          method := fun q => if q = pt then some k else w.method q})
      | (.returns false,w) => tryWorkers w pt answers rest
      | stopped => stopped

/-- One command of `SpInstrumenter::run`. -/
def instrumentPoint (w : World) (pt : Nat) (answers : InstallMethod → Answers) : Result × World :=
  let b := c.blockOf pt
  if !(c.point pt).getCallee && c.directcallOnly then (.returns false,w)
  else if w.instrumented (c.point pt).block || !b.saves then (.aborts,w)
  else if b.isBranch && c.noTailcall then (.returns false,w)
  else tryWorkers c w pt answers c.workers

end

end SelfPropelled.Workers
