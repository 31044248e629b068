import SelfPropelled.Library.FlatXml
import SelfPropelled.Mist.TraceMgr

/-! What the checkers write to the trace files, and the documents that should come of it. -/

namespace SelfPropelled.Mist
open Library Xml

def decimal (n : Int) : Str := (toString n).toList

def snprintf (size : Nat) (s : Str) : Str := s.take (size - 1)

/-- `<name>%s</name>` -/
def element (name : String) (content : Str) : Str :=
  '<' :: name.toList ++ ['>'] ++ content ++ '<' :: '/' :: name.toList ++ ['>']

def leaf (name : String) (content : Str) : Tree := .leaf name.toList [] content

def branch (name : String) (children : List Tree) : Tree := .branch name.toList [] children

/-- What is printed of a process. -/
structure Process where
  pid : Nat
  exe : Str
  /-- none where `getcwd` fails -/
  workingDir : Option Str
  host : Str
  ppid : Nat
  parentExe : Str
  realUser : Str × Nat
  effectiveUser : Str × Nat
  realGroup : Str × Nat
  effectiveGroup : Str × Nat

namespace Process

def printProc (pid : Nat) (exe : Str) : List Str := [element "pid" (decimal pid),element "exe_name" exe]

def printCurrentProc (p : Process) : List Str :=
  printProc p.pid p.exe ++ (p.workingDir.map (element "working_dir")).toList ++ [element "host" p.host]

def printParentProc (p : Process) : List Str := "<parent>".toList :: (printProc p.ppid p.parentExe ++ ["</parent>".toList])

def printAccount (name : String) (user : Str × Nat) : Str :=
  element name (element "name" user.1 ++ element "id" (decimal user.2))

def printUserInfo (p : Process) : List Str :=
  [printAccount "real_user" p.realUser,printAccount "effective_user" p.effectiveUser,
    printAccount "real_group" p.realGroup,printAccount "effective_group" p.effectiveGroup]

/-- The entries as they are put together, and as they fit into the buffer. -/
def entries (p : Process) : List Str := p.printCurrentProc ++ p.printParentProc ++ p.printUserInfo

def headers (p : Process) : List Str := p.entries.map (snprintf 1024)

def procTrees (pid : Nat) (exe : Str) : List Tree := [leaf "pid" (decimal pid),leaf "exe_name" exe]

def accountTree (name : String) (user : Str × Nat) : Tree :=
  branch name [leaf "name" user.1,leaf "id" (decimal user.2)]

/-- The head that should come of them. -/
def head (p : Process) : List Tree :=
  procTrees p.pid p.exe ++ (p.workingDir.map (leaf "working_dir")).toList ++ [leaf "host" p.host,
    branch "parent" (procTrees p.ppid p.parentExe),accountTree "real_user" p.realUser,
    accountTree "effective_user" p.effectiveUser,accountTree "real_group" p.realGroup,
    accountTree "effective_group" p.effectiveGroup]

/-- Its texts need no encoding, and no entry is too long for the buffer. -/
structure Fits (p : Process) : Prop where
  exe : Plain p.exe
  workingDir : ∀ dir, p.workingDir = some dir → Plain dir
  host : Plain p.host
  parentExe : Plain p.parentExe
  users : ∀ user ∈ [p.realUser,p.effectiveUser,p.realGroup,p.effectiveGroup], Plain user.1
  short : ∀ entry ∈ p.entries, entry.length < 1024

end Process

inductive NumberTrace
  | fork
  | failedFork
  | clone
  | failedClone
  | exit
  | «_exit»

def NumberTrace.type : NumberTrace → String
  | fork => "fork"
  | failedFork => "failed fork"
  | clone => "clone"
  | failedClone => "failed clone"
  | exit => "exit"
  | «_exit» => "_exit"

/-- The traces that are written with `WriteTrace`. -/
inductive Trace
  | ipc (accept : Bool) (usec : Nat) (host service : Str)
  | number (type : NumberTrace) (usec : Nat) (n : Int)
  | changeId (setuid : Bool) (usec : Nat) (name : Str) (uid : Nat)

def openTag (type : String) (usec : Nat) : Str :=
  "<trace type=\"".toList ++ type.toList ++ "\" time=\"".toList ++ decimal usec ++ "\">".toList

def closeTag : Str := "</trace>".toList

def traceAttrs (type : String) (usec : Nat) : List (Str × Str) :=
  [("type".toList,type.toList),("time".toList,decimal usec)]

namespace Trace

def ipcType (accept : Bool) : String := if accept then "accept from" else "connect to"

def idType (setuid : Bool) : String := if setuid then "setuid" else "seteuid"

/-- What is formatted to a buffer, before the closing tag. -/
def buffers : Trace → List Str
  | ipc accept usec host service => [openTag (ipcType accept) usec,element "host" host ++ element "port" service]
  | number type usec n => [openTag type.type usec ++ decimal n]
  | changeId setuid usec name uid => [openTag (idType setuid) usec ++ element "name" name ++ element "id" (decimal uid)]

def pieces (t : Trace) : List Str := t.buffers.map (snprintf 1024) ++ [closeTag]

def tree : Trace → Tree
  | ipc accept usec host service =>
    .branch "trace".toList (traceAttrs (ipcType accept) usec) [leaf "host" host,leaf "port" service]
  | number type usec n => .leaf "trace".toList (traceAttrs type.type usec) (decimal n)
  | changeId setuid usec name uid =>
    .branch "trace".toList (traceAttrs (idType setuid) usec) [leaf "name" name,leaf "id" (decimal uid)]

def texts : Trace → List Str
  | ipc _ _ host service => [host,service]
  | number .. => []
  | changeId _ _ name _ => [name]

structure Fits (t : Trace) : Prop where
  plain : ∀ s ∈ t.texts, Plain s
  short : ∀ buffer ∈ t.buffers, buffer.length < 1024

end Trace

inductive ExecName
  | execve
  | execl
  | execlp
  | execle
  | execv
  | execvp
deriving DecidableEq

def ExecName.type : ExecName → String
  | execve => "execve"
  | execl => "execl"
  | execlp => "execlp"
  | execle => "execle"
  | execv => "execv"
  | execvp => "execvp"

/-- A call that is about to load another program. The trace file may not be opened again;
the file of the fallback may not either. -/
structure Exec where
  callee : ExecName
  usec : Nat
  path : Str
  opened : Bool
  fallback : Option Nat
  next : Nat

namespace Exec

def buffer (e : Exec) : Str := openTag e.callee.type e.usec ++ e.path

def piece (e : Exec) : Str := snprintf 102400 e.buffer

def tree (e : Exec) : Tree := .leaf "trace".toList (traceAttrs e.callee.type e.usec) e.path

structure Fits (e : Exec) : Prop where
  plain : Plain e.path
  short : e.buffer.length < 102400

end Exec

/-- What an agent does with its trace files. It starts where it is loaded, or in the child of
a fork; a call that loads another program comes back if it fails. -/
inductive Op
  | start (usec : Nat) (p : Process)
  | trace (t : Trace)
  | exec (e : Exec)

/-- The agent ends where a file is closed that was not opened. -/
structure Agent where
  mgr : TraceMgr
  live : Bool

def processInit (m : TraceMgr) (p : Process) : TraceMgr := (p.headers.foldl TraceMgr.writeHeader m).initTraces

/-- The end of an exec's trace in a file that is opened once more. -/
def appendExec (e : Exec) (text : Str) : Str :=
  ((Stream.mk text 0).seekEnd 19 |>.fprintf (e.piece ++ closeTag ++ closeTraces)).text

def fallbackText (e : Exec) : Str :=
  '<' :: declaration ++ ['>'] ++ "<process><head></head><traces>".toList ++ e.piece ++ closeTag ++ closeTraces

def performExec (a : Agent) (e : Exec) : Agent :=
  if e.opened then
    let text := appendExec e a.mgr.stream.text
    {a with mgr := ({a.mgr with files := Dict.set a.mgr.files a.mgr.filename text}).changeTraceFile e.next}
  else if e.callee = .execve then
    let files := match e.fallback with
      | none => a.mgr.files
      | some usec => Dict.set a.mgr.files usec (fallbackText e)
    {a with mgr := ({a.mgr with files := files}).changeTraceFile e.next}
  else {a with live := false}

def Agent.perform (a : Agent) : Op → Agent
  | .start usec p => {a with mgr := processInit (a.mgr.openFile usec) p}
  | .trace t => {a with mgr := t.pieces.foldl TraceMgr.writeTrace a.mgr}
  | .exec e => performExec a e

/-- Characters that are written as they are everywhere. -/
def plainChar (c : Char) : Bool := c.isAlphanum || c = ' ' || c = '_' || c = '-'

theorem plainChar_ne {c d : Char} (plain : plainChar c = true) (other : plainChar d = false) : c ≠ d := by
  rintro rfl
  rw [plain] at other
  cases other

theorem entity_plainChar {c : Char} (plain : plainChar c = true) : entity true c = [c] := by
  have lt := plainChar_ne (d := '<') plain (by decide)
  have gt := plainChar_ne (d := '>') plain (by decide)
  have amp := plainChar_ne (d := '&') plain (by decide)
  have cr := plainChar_ne (d := '\r') plain (by decide)
  have quot := plainChar_ne (d := '"') plain (by decide)
  have nl := plainChar_ne (d := '\n') plain (by decide)
  have tab := plainChar_ne (d := '\t') plain (by decide)
  simp [entity,lt,gt,amp,cr,quot,nl,tab]

theorem blank_le_plainChar {c : Char} (plain : plainChar c = true) : 32 ≤ c.toNat := by
  simp only [plainChar,Char.isAlphanum,Char.isAlpha,Char.isUpper,Char.isLower,Char.isDigit,Bool.or_eq_true,
    Bool.and_eq_true,decide_eq_true_eq] at plain
  rcases plain with ((((⟨low,_⟩ | ⟨low,_⟩) | ⟨low,_⟩) | rfl) | rfl) | rfl
  · exact le_trans (by decide) (UInt32.le_iff_toNat_le.mp low)
  · exact le_trans (by decide) (UInt32.le_iff_toNat_le.mp low)
  · exact le_trans (by decide) (UInt32.le_iff_toNat_le.mp low)
  · decide
  · decide
  · decide

theorem plain_of_plainChars {s : Str} (each : ∀ c ∈ s, plainChar c = true) : Plain s := by
  refine plain_of_easy (List.all_eq_true.mpr fun c member => ?_)
  have plain := each c member
  simp [easyChar,plainChar_ne (d := '<') plain (by decide),plainChar_ne (d := '&') plain (by decide),
    plainChar_ne (d := ']') plain (by decide),blank_le_plainChar plain]

theorem escape_self {s : Str} (each : ∀ c ∈ s, plainChar c = true) : escape true s = s := by
  induction s with
  | nil => rfl
  | cons c s ih =>
    rw [escape,List.flatMap_cons,entity_plainChar (each c List.mem_cons_self)]
    exact congrArg (c :: ·) (ih fun d member => each d (List.mem_cons_of_mem _ member))

theorem decimal_chars (n : Int) : ∀ c ∈ decimal n, plainChar c = true := by
  have digits : ∀ (k : Nat), ∀ c ∈ k.repr.toList, plainChar c = true := fun k c member => by
    rw [Nat.toList_repr] at member
    simp [plainChar,Char.isAlphanum,Nat.isDigit_of_mem_toDigits (by decide) (by decide) member]
  intro c member
  cases n with
  | ofNat k => exact digits k c member
  | negSucc k =>
    have shape : decimal (Int.negSucc k) = '-' :: (k + 1).repr.toList := by
      simp [decimal,toString,Int.repr]
    rw [shape] at member
    rcases List.mem_cons.mp member with rfl | later
    · decide
    · exact digits _ c later

theorem decimal_plain (n : Int) : Plain (decimal n) := plain_of_plainChars (decimal_chars n)

theorem openTag_eq {type : String} (each : type.toList.all plainChar = true) (usec : Nat) :
    openTag type usec = '<' :: tagText "trace".toList (traceAttrs type usec) ++ ['>'] := by
  have attrs : (traceAttrs type usec).flatMap attrText =
      attrText ("type".toList,type.toList) ++ (attrText ("time".toList,decimal usec) ++ []) := rfl
  have shape : ∀ a b : Str, "<trace type=\"".toList ++ a ++ "\" time=\"".toList ++ b ++ "\">".toList =
      '<' :: ("trace".toList ++ (' ' :: "type".toList ++ "=\"".toList ++ a ++ ['"'] ++
        (' ' :: "time".toList ++ "=\"".toList ++ b ++ ['"'] ++ []))) ++ ['>'] := by
    intro a b
    simp only [List.append_assoc,List.cons_append,List.nil_append]
    rfl
  rw [tagText,attrs,attrText,attrText,escape_self (List.all_eq_true.mp each),escape_self (decimal_chars usec)]
  exact shape type.toList (decimal usec)

theorem validTag_trace (type : String) (usec : Nat) : validTag "trace".toList (traceAttrs type usec) = true := by
  refine validTag_iff.mpr ⟨by decide,?_,?_⟩
  · refine List.forall_mem_cons.mpr ⟨?_,List.forall_mem_singleton.mpr ?_⟩
    · exact (by decide : isName "type".toList = true)
    · exact (by decide : isName "time".toList = true)
  · exact (by decide : ["type".toList,"time".toList].Nodup)

theorem element_flat (name : String) (content : Str) : element name content = (leaf name content).flat := by
  simp [element,leaf,Tree.flat,tagText]

theorem validTag_name {name : Str} (named : isName name = true) : validTag name [] = true :=
  validTag_iff.mpr ⟨named,fun _ none => absurd none List.not_mem_nil,List.nodup_nil⟩

theorem clean_leaf {name : String} {content : Str} (named : isName name.toList = true) (plain : Plain content) :
    (leaf name content).Clean := ⟨validTag_name named,plain⟩

theorem clean_branch {name : String} {children : List Tree} (named : isName name.toList = true)
    (clean : AllClean children) : (branch name children).Clean := ⟨validTag_name named,clean⟩

namespace Process
variable {p : Process}

theorem entries_flat (p : Process) : p.entries.flatten = flatAll p.head := by
  have account : ∀ name user, printAccount name user = (accountTree name user).flat := by
    intro name user
    rw [printAccount,element_flat "name",element_flat "id"]
    simp only [accountTree,branch,Tree.flat,flatAll,element,tagText,List.flatMap_nil,List.append_nil]
  have parent : p.printParentProc.flatten = (branch "parent" (procTrees p.ppid p.parentExe)).flat := by
    have tag : "<parent>".toList = '<' :: "parent".toList ++ ['>'] := rfl
    have close : "</parent>".toList = '<' :: '/' :: "parent".toList ++ ['>'] := rfl
    simp only [printParentProc,printProc,procTrees,element_flat,branch,Tree.flat,flatAll,tagText,tag,close,
      List.flatMap_nil,List.append_nil,List.flatten_cons,List.flatten_nil,List.append_assoc,List.cons_append,
      List.nil_append]
  have current : p.printCurrentProc.flatten = flatAll (procTrees p.pid p.exe ++
      (p.workingDir.map (leaf "working_dir")).toList ++ [leaf "host" p.host]) := by
    simp only [printCurrentProc,printProc,procTrees,element_flat]
    cases p.workingDir with
    | none => rfl
    | some dir =>
      rw [Option.map_some,Option.map_some,element_flat]
      rfl
  have whole : p.head = (procTrees p.pid p.exe ++ (p.workingDir.map (leaf "working_dir")).toList ++ [leaf "host" p.host]) ++
      (branch "parent" (procTrees p.ppid p.parentExe) :: [accountTree "real_user" p.realUser,
        accountTree "effective_user" p.effectiveUser,accountTree "real_group" p.realGroup,
        accountTree "effective_group" p.effectiveGroup]) := by
    rw [List.append_assoc _ [leaf "host" p.host]]
    rfl
  rw [whole,flatAll_append,← current,flatAll,← parent,entries,List.flatten_append,List.flatten_append,List.append_assoc]
  simp only [printUserInfo,account,List.flatten_cons,List.flatten_nil,flatAll]

theorem Fits.headers (fits : p.Fits) : p.headers = p.entries := by
  refine (List.map_congr_left fun entry member => ?_).trans (List.map_id _)
  have short := fits.short entry member
  exact List.take_of_length_le (by omega)

theorem Fits.clean (fits : p.Fits) : AllClean p.head := by
  have procs : ∀ pid exe, Plain exe → ∀ t ∈ procTrees pid exe, t.Clean := fun pid exe plain =>
    List.forall_mem_cons.mpr ⟨clean_leaf (by decide) (decimal_plain _),
      List.forall_mem_singleton.mpr (clean_leaf (by decide) plain)⟩
  have accounts : ∀ (name : String) (user : Str × Nat), isName name.toList = true → Plain user.1 →
      (accountTree name user).Clean := fun name user named plain =>
    clean_branch named ⟨clean_leaf (by decide) plain,clean_leaf (by decide) (decimal_plain _),trivial⟩
  have users := fits.users
  simp only [List.forall_mem_cons] at users
  obtain ⟨real,effective,realGroup,effectiveGroup,_⟩ := users
  rw [allClean_iff,head,List.forall_mem_append,List.forall_mem_append]
  refine ⟨⟨procs _ _ fits.exe,fun t member => ?_⟩,?_⟩
  · obtain ⟨dir,known,rfl⟩ := Option.map_eq_some_iff.mp (Option.mem_toList.mp member)
    exact clean_leaf (by decide) (fits.workingDir dir known)
  · simp only [List.forall_mem_cons]
    exact ⟨clean_leaf (by decide) fits.host,
      clean_branch (by decide) (allClean_iff.mpr (procs _ _ fits.parentExe)),accounts _ _ (by decide) real,
      accounts _ _ (by decide) effective,accounts _ _ (by decide) realGroup,accounts _ _ (by decide) effectiveGroup,
      List.forall_mem_nil _⟩

end Process

namespace Trace
variable {t : Trace}

theorem Fits.pieces (fits : t.Fits) : t.pieces.flatten = t.tree.flat := by
  have short : t.buffers.map (snprintf 1024) = t.buffers := by
    refine (List.map_congr_left fun buffer member => ?_).trans (List.map_id _)
    have short := fits.short buffer member
    exact List.take_of_length_le (by omega)
  rw [Trace.pieces,short]
  have close : closeTag = '<' :: '/' :: "trace".toList ++ ['>'] := rfl
  rw [close]
  cases t with
  | ipc accept usec host service =>
    have each : (ipcType accept).toList.all plainChar = true := by cases accept <;> rfl
    have tag := openTag_eq each usec
    simp only [buffers,tag,element_flat,tree,Tree.flat,flatAll,List.flatten_cons,List.flatten_nil,List.append_nil,
      List.append_assoc,List.cons_append,List.nil_append]
  | number type usec n =>
    have each : type.type.toList.all plainChar = true := by cases type <;> rfl
    have tag := openTag_eq each usec
    simp only [buffers,tag,tree,Tree.flat,List.flatten_cons,List.flatten_nil,List.append_nil,
      List.append_assoc,List.cons_append,List.nil_append]
  | changeId setuid usec name uid =>
    have each : (idType setuid).toList.all plainChar = true := by cases setuid <;> rfl
    have tag := openTag_eq each usec
    simp only [buffers,tag,element_flat,tree,Tree.flat,flatAll,List.flatten_cons,List.flatten_nil,List.append_nil,
      List.append_assoc,List.cons_append,List.nil_append]

theorem Fits.clean (fits : t.Fits) : t.tree.Clean := by
  have plain := fits.plain
  cases t with
  | ipc accept usec host service =>
    simp only [texts,List.forall_mem_cons] at plain
    exact ⟨validTag_trace _ _,clean_leaf (by decide) plain.1,clean_leaf (by decide) plain.2.1,trivial⟩
  | number type usec n => exact ⟨validTag_trace _ _,decimal_plain n⟩
  | changeId setuid usec name uid =>
    simp only [texts,List.forall_mem_cons] at plain
    exact ⟨validTag_trace _ _,clean_leaf (by decide) plain.1,clean_leaf (by decide) (decimal_plain uid),trivial⟩

end Trace

namespace Exec
variable {e : Exec}

theorem Fits.piece (fits : e.Fits) : e.piece ++ closeTag = e.tree.flat := by
  have short := fits.short
  have whole : e.piece = e.buffer := List.take_of_length_le (by omega)
  have close : closeTag = '<' :: '/' :: "trace".toList ++ ['>'] := rfl
  have each : e.callee.type.toList.all plainChar = true := by cases e.callee <;> rfl
  have tag := openTag_eq each e.usec
  rw [whole,buffer,close,tag,tree,Tree.flat]
  simp only [List.append_assoc,List.cons_append]

theorem Fits.clean (fits : e.Fits) : e.tree.Clean := ⟨validTag_trace _ _,fits.plain⟩

end Exec

end SelfPropelled.Mist
