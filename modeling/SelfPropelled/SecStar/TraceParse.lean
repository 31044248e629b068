import SelfPropelled.Library.Xml
import SelfPropelled.SecStar.LookupTable

/-! `Trace.parse`: a trace file as the visualizer reads it. Where Python raises an exception
there is no result. -/

namespace SelfPropelled.SecStar
open Library Xml

mutual

/-- `getElementsByTagName(name)[0]` -/
def byTag (name : Str) : Node → Option Node
  | .text _ => none
  | .element n attrs children => if n = name then some (.element n attrs children) else byTagAll name children

def byTagAll (name : Str) : List Node → Option Node
  | [] => none
  | n :: ns => (byTag name n).or (byTagAll name ns)

end

def childNodes : Node → List Node
  | .text _ => []
  | .element _ _ children => children

def firstChild (n : Node) : Option Node := (childNodes n).head?

def named (key : Str) : Node → Bool
  | .text _ => false
  | .element name _ _ => name = key

def nodeValue : Node → Option Str
  | .text s => some s
  | .element .. => none

/-- `__get_node_value1`; an element without a child raises `AttributeError`. -/
def getNodeValue1 (nodes : List Node) (key : String) : Option (Option Str) :=
  match nodes.find? (named key.toList) with
  | none => some none
  | some node => (firstChild node).map nodeValue

def getNodeValue2 (nodes : List Node) (key1 key2 : String) : Option (Option Str) :=
  getNodeValue1 ((nodes.filter (named key1.toList)).flatMap childNodes) key2

/-- `__get_attr_value1`: an attribute of a trace that is not there is empty. -/
def getAttrValue1 (node : Node) (attr : String) : Option Str :=
  match node with
  | .text _ => none
  | .element name attrs _ =>
    if name = "trace".toList then some ((Dict.get attrs attr.toList).getD []) else none

/-- `os.path.basename` -/
def basename (path : Str) : Str := (path.reverse.takeWhile (· ≠ '/')).reverse

def execTypes : List String :=
  ["execve","execv","execvpe","fexecve","execveat","execle","execl","execlp","execvp"]

def openTypes : List String := ["open","fopen","fdopen","freopen","openat"]

def chownTypes : List String := ["chown","fchown","lchown","fchownat"]

/-- What an event of a type adds, given the values of its parameters and its first child;
none for a type that is not known. -/
def readKind (hostname : Option Str) (type : Str) (value : String → Option (Option Str)) (first : Option Node) :
    Option (Option Kind) := do
  let target : Option (Option Str) := (value "host").map fun h => if h = some "127.0.0.1".toList then hostname else h
  if type = "fork".toList then return some (.fork (← value "pid"))
  else if type = "clone".toList then return some (.clone (← value "pid"))
  else if type = "connect".toList then return some (.connect (← target) (← value "port") [])
  else if type = "send".toList then return some (.send (← target) (← value "pid"))
  else if type = "recv".toList then return some (.recv (← target) (← value "port"))
  else if type = "accept".toList then return some (.accept (← target) (← value "port"))
  else if type = "exit".toList then return some (.exit (nodeValue (← first)))
  else if type = "seteuid".toList then return some (.seteuid (← value "name"))
  else if execTypes.any (fun known => type = known.toList) then
    let path ← (← value "path")
    return some (.exec (basename path) type (← value "argvs") (← value "envs") (← value "directory_fd") (← value "flags"))
  else if openTypes.any (fun known => type = known.toList) then
    return some (.open (← value "file") type (← value "mode") (← value "directory_fd") (← value "flags"))
  else if chownTypes.any (fun known => type = known.toList) then
    return some (.chown (← value "file") type (← value "owner") (← value "group") (← value "directory_fd") (← value "flags"))
  else if type = "chroot".toList then return some (.chroot (some (← (← value "directory"))))
  else if type = "chdir".toList then return some (.chdir (some (← (← value "directory"))))
  else return none

def parseKind (hostname : Option Str) (type : Str) (eve : Node) : Option (Option Kind) :=
  readKind hostname type (getNodeValue1 (childNodes eve)) (firstChild eve)

def skipped (type : Str) (eve : Node) : Option Bool :=
  if type = "fork".toList then (firstChild eve).map fun n => decide (nodeValue n = some "4294967295".toList)
  else some false

/-- What a child node of `traces` adds to the list of events; nothing for a fork with the
child's pid -1. -/
def parseEvent (hostname pid : Option Str) (eve : Node) : Option (List (Option Event)) :=
  match getAttrValue1 eve "type" with
  | none => some [none]
  | some type => do
    if ← skipped type eve then return []
    let kind ← parseKind hostname type eve
    return [kind.map fun kind => ⟨(getAttrValue1 eve "time").getD [],hostname,pid,kind⟩]

def parseEvents (hostname pid : Option Str) : List Node → Option (List (Option Event))
  | [] => some []
  | eve :: rest => do return (← parseEvent hostname pid eve) ++ (← parseEvents hostname pid rest)

def acceptedPort : Option Event → Option (Option Str)
  | some ⟨_,_,_,.accept _ port⟩ => some port
  | _ => none

/-- The parent's executable is left empty where it cannot be read. -/
def parse (dom : Node) : Option Trace := do
  let head := childNodes (← byTag "head".toList dom)
  let hostname ← getNodeValue1 head "host"
  let pid ← getNodeValue1 head "pid"
  let exe ← (← getNodeValue1 head "exe_name")
  let workingDir ← getNodeValue1 head "working_dir"
  let euid ← getNodeValue2 head "effective_user" "name"
  let ppid ← getNodeValue2 head "parent" "pid"
  let parentExe := (((getNodeValue2 head "parent" "exe_name").bind id).map basename).getD []
  let events ← parseEvents hostname pid (childNodes (← byTag "traces".toList dom))
  return ⟨hostname,pid,ppid,parentExe,basename exe,euid,workingDir,events,events.filterMap acceptedPort⟩

section
variable (hostname : Option Str) (value : String → Option (Option Str)) (first : Option Node)

theorem readKind_fork : readKind hostname "fork".toList value first = (do return some (.fork (← value "pid"))) := rfl

theorem readKind_clone : readKind hostname "clone".toList value first = (do return some (.clone (← value "pid"))) := rfl

theorem readKind_connect : readKind hostname "connect".toList value first =
    (do return some (.connect (← (value "host").map fun h => if h = some "127.0.0.1".toList then hostname else h)
      (← value "port") [])) := rfl

theorem readKind_accept : readKind hostname "accept".toList value first =
    (do return some (.accept (← (value "host").map fun h => if h = some "127.0.0.1".toList then hostname else h)
      (← value "port"))) := rfl

theorem readKind_exec {type : String} (known : type ∈ execTypes) : readKind hostname type.toList value first =
    (do
      let path ← (← value "path")
      return some (.exec (basename path) type.toList (← value "argvs") (← value "envs") (← value "directory_fd")
        (← value "flags"))) := by
  simp only [execTypes,List.mem_cons,List.not_mem_nil,or_false] at known
  rcases known with rfl | rfl | rfl | rfl | rfl | rfl | rfl | rfl | rfl <;> rfl

theorem readKind_open {type : String} (known : type ∈ openTypes) : readKind hostname type.toList value first =
    (do return some (.open (← value "file") type.toList (← value "mode") (← value "directory_fd") (← value "flags"))) := by
  simp only [openTypes,List.mem_cons,List.not_mem_nil,or_false] at known
  rcases known with rfl | rfl | rfl | rfl | rfl <;> rfl

theorem readKind_chown {type : String} (known : type ∈ chownTypes) : readKind hostname type.toList value first =
    (do return some (.chown (← value "file") type.toList (← value "owner") (← value "group") (← value "directory_fd")
      (← value "flags"))) := by
  simp only [chownTypes,List.mem_cons,List.not_mem_nil,or_false] at known
  rcases known with rfl | rfl | rfl | rfl <;> rfl

theorem readKind_seteuid : readKind hostname "seteuid".toList value first =
    (do return some (.seteuid (← value "name"))) := rfl

theorem readKind_chroot : readKind hostname "chroot".toList value first =
    (do return some (.chroot (some (← (← value "directory"))))) := rfl

theorem readKind_chdir : readKind hostname "chdir".toList value first =
    (do return some (.chdir (some (← (← value "directory"))))) := rfl

theorem readKind_unknown {type : String} (unknown : type = "setuid" ∨ type = "chmod") :
    readKind hostname type.toList value first = some none := by
  rcases unknown with rfl | rfl <;> rfl

end

theorem parseEvent_own {hostname pid : Option Str} {eve : Node} {events : List (Option Event)}
    (parsed : parseEvent hostname pid eve = some events) {e : Event} (member : some e ∈ events) :
    e.host = hostname ∧ e.pid = pid := by
  unfold parseEvent at parsed
  split at parsed
  · cases parsed
    simp at member
  · simp only [Option.bind_eq_bind,Option.bind_eq_some_iff] at parsed
    obtain ⟨abnormal,_,rest⟩ := parsed
    cases abnormal with
    | true =>
      cases rest
      cases member
    | false =>
      simp only [Bool.false_eq_true,if_false] at rest
      obtain ⟨kind,_,made⟩ := Option.bind_eq_some_iff.mp rest
      cases made
      obtain ⟨kind,_,rfl⟩ := Option.map_eq_some_iff.mp (List.mem_singleton.mp member).symm
      exact ⟨rfl,rfl⟩

theorem parseEvents_own {hostname pid : Option Str} {nodes : List Node} {events : List (Option Event)}
    (parsed : parseEvents hostname pid nodes = some events) {e : Event} (member : some e ∈ events) :
    e.host = hostname ∧ e.pid = pid := by
  induction nodes generalizing events with
  | nil =>
    cases parsed
    cases member
  | cons eve rest ih =>
    simp only [parseEvents,Option.bind_eq_bind,Option.bind_eq_some_iff] at parsed
    obtain ⟨first,here,later,there,joined⟩ := parsed
    cases joined
    rcases List.mem_append.mp member with now | after
    · exact parseEvent_own here now
    · exact ih there after

theorem parse_own {dom : Node} {t : Trace} (parsed : parse dom = some t) : t.Own := by
  simp only [parse,Option.bind_eq_bind,Option.bind_eq_some_iff] at parsed
  obtain ⟨head,_,hostname,_,pid,_,exe,_,exe',_,dir,_,euid,_,ppid,_,traces,_,events,read,made⟩ := parsed
  cases made
  exact fun e member => parseEvents_own read member

end SelfPropelled.SecStar
