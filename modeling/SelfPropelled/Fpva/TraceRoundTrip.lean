import SelfPropelled.Fpva.TraceValues

/-! What the visualizer gets back of the documents that the tool writes. -/

namespace SelfPropelled.Fpva
open Library Xml SecStar

/-- The calls of a process, each with the time it is recorded at. -/
abbrev Recorded := List (Call × Nat)

/-- The file of a process. -/
def traceFile (h : Header) (calls : Recorded) : Text :=
  document (traceDocument h (calls.map fun c => c.1.record c.2))

def readTrace (text : Text) : Option Trace := (Xml.parse text).bind SecStar.parse

def Carries (host : Str) (c : Call × Nat) (e : Event) : Prop := e.time = toStr c.2 ∧ Returns host c.1 e.kind

/-- All but the process's parent. -/
structure FaithfulButParent (h : Header) (calls : Recorded) (t : Trace) : Prop where
  host : t.hostname = some h.host
  pid : t.pid = some (toStr h.pid)
  executable : t.initExe = basename h.exeName
  workingDir : t.initWorkingDir = h.workingDir
  user : t.initEuid = some h.effectiveUser.1
  events : List.Forall₂ (Carries h.host) calls (t.eventList.filterMap id)

structure Faithful (h : Header) (calls : Recorded) (t : Trace) : Prop extends FaithfulButParent h calls t where
  parent : t.ppid = some (toStr h.parentPid)
  parentExe : t.parentExe = basename h.parentExe

section
variable (content : Str → Str) (h : Header) (calls : Recorded)

def RoundTrip : Prop :=
  ∃ t, readTrace (traceFile (h.stored content) calls) = some t ∧ Faithful h calls t

def RoundTripButParent : Prop :=
  ∃ t, readTrace (traceFile (h.stored content) calls) = some t ∧ FaithfulButParent h calls t

/-- The head comes back: no text in it is empty, or changed by a reference in it. -/
structure HeadRecovered : Prop where
  host : h.host ≠ [] ∧ content h.host = h.host
  executable : content h.exeName ≠ [] ∧ basename (content h.exeName) = basename h.exeName
  workingDir : h.workingDir ≠ some [] ∧ h.workingDir.map content = h.workingDir
  user : h.effectiveUser.1 ≠ [] ∧ content h.effectiveUser.1 = h.effectiveUser.1

end

/-- No text of the head that the visualizer asks for is empty. -/
def HeadPresent (h : Header) : Prop :=
  h.host ≠ [] ∧ h.exeName ≠ [] ∧ h.workingDir ≠ some [] ∧ h.effectiveUser.1 ≠ []

def treeName : Tree → Str
  | .leaf name .. | .branch name .. => name

theorem named_read (key : Str) (level : Nat) (t : Tree) : named key (t.read level) = decide (treeName t = key) := by
  cases t <;> rfl

/-- The elements with a name, whatever the indentation between them. -/
theorem filter_readAll (key : Str) (level : Nat) (ts : List Tree) :
    (readAll level ts).filter (named key) =
      (ts.filter fun t => decide (treeName t = key)).map (Tree.read (level + 1)) := by
  induction ts with
  | nil => rfl
  | cons t ts ih =>
    rw [readAll,List.filter_cons_of_neg (by simp [named]),List.filter_cons,named_read,ih,List.filter_cons]
    split <;> rfl

theorem find_readAll (key : Str) (level : Nat) (ts : List Tree) :
    (readAll level ts).find? (named key) =
      (ts.find? fun t => decide (treeName t = key)).map (Tree.read (level + 1)) := by
  rw [← List.head?_filter,filter_readAll,List.head?_map,List.head?_filter]

theorem valid_branch {name : Str} {attrs : List (Str × Str)} {children : List Tree}
    (tag : validTag name attrs = true) (inside : ∀ t ∈ children, t.valid = true) :
    (Tree.branch name attrs children).valid = true := by
  rw [Tree.valid,tag,allValid_iff.mpr inside]
  rfl

theorem valid_addTrace (c : Call × Nat) : (addTrace (c.1.record c.2)).valid = true := by
  have names : ∀ key ∈ keys, isName key.toList = true := by decide
  refine valid_branch ?_ ?_
  · rfl
  · intro t member
    obtain ⟨p,listed,rfl⟩ := List.mem_map.mp member
    obtain ⟨q,inserted,key,_⟩ := mem_parameters listed
    have known := names q.1 (inserts_keys c.1 q inserted)
    rw [key] at known
    exact validTag_iff.mpr ⟨known,fun _ none => absurd none List.not_mem_nil,List.nodup_nil⟩

theorem valid_traceDocument (h : Header) (calls : Recorded) :
    (traceDocument h (calls.map fun c => c.1.record c.2)).valid = true := by
  have head : (branch "head" (printCurrentProc h ++ printParentProc h ++ printUserInfo h)).valid = true := by
    obtain ⟨pid,exeName,workingDir,_⟩ := h
    cases workingDir <;> rfl
  have traces : (branch "traces" ((calls.map fun c => c.1.record c.2).map addTrace)).valid = true := by
    refine valid_branch rfl fun t member => ?_
    obtain ⟨trace,listed,rfl⟩ := List.mem_map.mp member
    obtain ⟨c,_,rfl⟩ := List.mem_map.mp listed
    exact valid_addTrace c
  refine valid_branch rfl fun t member => ?_
  rcases List.mem_cons.mp member with rfl | member
  · exact head
  · rw [List.mem_singleton.mp member]
    exact traces

theorem readTrace_traceFile (h : Header) (calls : Recorded) : readTrace (traceFile h calls) =
    SecStar.parse ((traceDocument h (calls.map fun c => c.1.record c.2)).read 0) := by
  rw [readTrace,traceFile,parse_document (valid_traceDocument h calls),Option.bind_some]

theorem getNodeValue1_leaf {ts : List Tree} {key : String} {name : Str} {attrs : List (Str × Str)} {content : Str}
    (found : (ts.find? fun t => decide (treeName t = key.toList)) = some (.leaf name attrs content)) (level : Nat)
    (last : Str) : getNodeValue1 (readAll level ts ++ [.text last]) key =
      if content = [] then none else some (some content) := by
  rw [getNodeValue1,List.find?_append,find_readAll,found]
  by_cases empty : content = [] <;> simp [Tree.read,firstChild,childNodes,empty,nodeValue]

theorem getNodeValue1_none {ts : List Tree} {key : String}
    (missing : (ts.find? fun t => decide (treeName t = key.toList)) = none) (level : Nat) (last : Str) :
    getNodeValue1 (readAll level ts ++ [.text last]) key = some none := by
  rw [getNodeValue1,List.find?_append,find_readAll,missing]
  rfl

def callNode (c : Call × Nat) (level : Nat) : Node := (addTrace (c.1.record c.2)).read level

theorem getNodeValue1_callNode (c : Call × Nat) (level : Nat) (key : String) :
    getNodeValue1 (childNodes (callNode c level)) key = c.1.value key := by
  have same := find_parameters c.1.inserts key
  have leaves : ((c.1.record c.2).parameters.map fun p => Tree.leaf p.1 [] p.2).find?
      (fun t => decide (treeName t = key.toList)) =
        ((parameters c.1.inserts).find? fun p => p.1 = key.toList).map fun p => Tree.leaf p.1 [] p.2 := by
    rw [List.find?_map]
    rfl
  by_cases empty : (c.1.record c.2).parameters = []
  · have none : parameters c.1.inserts = [] := empty
    rw [none] at same
    rw [Call.value,← same,callNode,addTrace,Tree.read,empty]
    rfl
  · have children : childNodes (callNode c level) =
        readAll level ((c.1.record c.2).parameters.map fun p => Tree.leaf p.1 [] p.2) ++ [.text ('\n' :: indent level)] := by
      simp [callNode,addTrace,Tree.read,childNodes,empty]
    rw [children,Call.value,← same]
    cases found : (parameters c.1.inserts).find? fun p => p.1 = key.toList with
    | none => rw [found] at leaves; exact getNodeValue1_none leaves level _
    | some p => rw [found] at leaves; exact getNodeValue1_leaf leaves level _

theorem getAttrValue1_callNode (c : Call × Nat) (level : Nat) :
    getAttrValue1 (callNode c level) "type" = some c.1.functionName.toList ∧
      getAttrValue1 (callNode c level) "time" = some (toStr c.2) := by
  constructor <;> rfl

/-- A call's element begins with its indentation, which is not a pid. -/
theorem skipped_callNode (c : Call × Nat) (level : Nat) : skipped c.1.functionName.toList (callNode c level) = some false := by
  by_cases fork : c.1.functionName = "fork"
  · obtain ⟨c,usec⟩ := c
    cases c with
    | fork ret =>
      have first : firstChild (callNode (.fork ret,usec) level) = some (.text ('\n' :: indent (level + 1))) := rfl
      simp [skipped,Call.functionName,first,nodeValue]
    | execve vpe path argvs envs =>
      cases vpe with
      | false => exact absurd fork (by simp [Call.functionName])
      | true => exact absurd fork (by simp [Call.functionName])
    | _ => exact absurd fork (by simp [Call.functionName])
  · rw [skipped,if_neg fun same => fork (String.toList_inj.mp same)]

def callEvent (host : Str) (pid : Option Str) (c : Call × Nat) (level : Nat) : Option (Option Event) :=
  (readKind (some host) c.1.functionName.toList c.1.value (firstChild (callNode c level))).map fun kind =>
    kind.map fun kind => ⟨toStr c.2,some host,pid,kind⟩

theorem parseEvent_callNode (host : Str) (pid : Option Str) (c : Call × Nat) (level : Nat) :
    parseEvent (some host) pid (callNode c level) = (callEvent host pid c level).map fun e => [e] := by
  obtain ⟨type,time⟩ := getAttrValue1_callNode c level
  have values : getNodeValue1 (childNodes (callNode c level)) = c.1.value := funext (getNodeValue1_callNode c level)
  simp only [parseEvent,type,time,skipped_callNode,parseKind,values]
  rw [callEvent,Option.map_map]
  cases readKind (some host) c.1.functionName.toList c.1.value (firstChild (callNode c level)) <;> rfl

theorem carries_iff (host : Str) (pid : Option Str) (c : Call × Nat) (level : Nat) :
    Recovered c.1 ↔ ∃ e, callEvent host pid c level = some (some e) ∧ Carries host c e := by
  rw [recovered_iff host (firstChild (callNode c level))]
  constructor
  · rintro ⟨kind,read,returns⟩
    exact ⟨⟨toStr c.2,some host,pid,kind⟩,by rw [callEvent,read]; rfl,rfl,returns⟩
  · rintro ⟨e,made,time,returns⟩
    rw [callEvent,Option.map_eq_some_iff] at made
    obtain ⟨kind,read,made⟩ := made
    obtain ⟨kind,rfl,rfl⟩ := Option.map_eq_some_iff.mp made
    exact ⟨kind,read,returns⟩

theorem parseEvents_read (host : Str) (pid : Option Str) (calls : Recorded) (level : Nat) (last : Text) :
    parseEvents (some host) pid (readAll level (calls.map fun c => addTrace (c.1.record c.2)) ++ [.text last]) =
      (calls.mapM fun c => callEvent host pid c (level + 1)).map fun events => events.flatMap ([none,·]) ++ [none] := by
  induction calls with
  | nil => rfl
  | cons c calls ih =>
    rw [List.map_cons,readAll,List.cons_append,List.cons_append,parseEvents,parseEvents,ih]
    rw [← callNode,parseEvent_callNode,List.mapM_cons]
    cases callEvent host pid c (level + 1) <;>
      cases calls.mapM fun c => callEvent host pid c (level + 1) <;> rfl

theorem callEvents_length {host : Str} {pid : Option Str} {level : Nat} {calls : Recorded} {events : List (Option Event)}
    (read : (calls.mapM fun c => callEvent host pid c level) = some events) : events.length = calls.length := by
  induction calls generalizing events with
  | nil =>
    cases read
    rfl
  | cons c calls ih =>
    simp only [List.mapM_cons,Option.bind_eq_bind,Option.bind_eq_some_iff] at read
    obtain ⟨e,_,rest,later,made⟩ := read
    cases made
    rw [List.length_cons,List.length_cons,ih later]

/-- A call that yields no event leaves too few of them. -/
theorem carries_calls_iff (host : Str) (pid : Option Str) (level : Nat) (calls : Recorded) :
    (∃ events, (calls.mapM fun c => callEvent host pid c level) = some events ∧
      List.Forall₂ (Carries host) calls (events.filterMap id)) ↔ ∀ c ∈ calls, Recovered c.1 := by
  induction calls with
  | nil => exact ⟨fun _ c none => absurd none List.not_mem_nil,fun _ => ⟨[],rfl,.nil⟩⟩
  | cons c calls ih =>
    rw [List.forall_mem_cons,← ih,carries_iff host pid c level]
    constructor
    · rintro ⟨events,read,carried⟩
      simp only [List.mapM_cons,Option.bind_eq_bind,Option.bind_eq_some_iff] at read
      obtain ⟨e,first,rest,later,made⟩ := read
      cases made
      cases e with
      | none =>
        have few := List.length_filterMap_le id rest
        rw [callEvents_length later] at few
        have all := carried.length_eq
        rw [List.filterMap_cons_none rfl,List.length_cons] at all
        omega
      | some e =>
        have both : List.Forall₂ (Carries host) (c :: calls) (e :: rest.filterMap id) := carried
        obtain ⟨carries,carried⟩ := List.forall₂_cons.mp both
        exact ⟨⟨e,first,carries⟩,rest,later,carried⟩
    · rintro ⟨⟨e,first,carries⟩,rest,later,carried⟩
      refine ⟨some e :: rest,?_,?_⟩
      · rw [List.mapM_cons,first,later]
        rfl
      · exact .cons carries carried

theorem filterMap_gaps (events : List (Option Event)) :
    (events.flatMap ([none,·]) ++ [none]).filterMap id = events.filterMap id := by
  induction events with
  | nil => rfl
  | cons e events ih =>
    rw [List.flatMap_cons,List.append_assoc,List.filterMap_append,ih]
    cases e <;> rfl

def tracesTree (calls : Recorded) : Tree := branch "traces" ((calls.map fun c => c.1.record c.2).map addTrace)

/-- One event for each call, with what was recorded of it, if all of them can be read back. -/
theorem parseEvents_traces (host : Str) (pid : Option Str) (calls : Recorded) (level : Nat) :
    (∃ events, parseEvents (some host) pid (childNodes ((tracesTree calls).read level)) = some events ∧
      List.Forall₂ (Carries host) calls (events.filterMap id)) ↔ ∀ c ∈ calls, Recovered c.1 := by
  cases calls with
  | nil => exact ⟨fun _ c none => absurd none List.not_mem_nil,fun _ => ⟨[],rfl,.nil⟩⟩
  | cons c calls =>
    have children : childNodes ((tracesTree (c :: calls)).read level) =
        readAll level ((c :: calls).map fun c => addTrace (c.1.record c.2)) ++ [.text ('\n' :: indent level)] := by
      rw [tracesTree,List.map_map]
      rfl
    rw [children,parseEvents_read,← carries_calls_iff host pid (level + 1)]
    constructor
    · rintro ⟨events,read,carried⟩
      obtain ⟨found,each,rfl⟩ := Option.map_eq_some_iff.mp read
      exact ⟨found,each,filterMap_gaps found ▸ carried⟩
    · rintro ⟨found,each,carried⟩
      exact ⟨_,by rw [each,Option.map_some],(filterMap_gaps found).symm ▸ carried⟩

def headTree (h : Header) : Tree := branch "head" (printCurrentProc h ++ printParentProc h ++ printUserInfo h)

theorem byTag_leaf {key name : Str} (other : name ≠ key) (attrs : List (Str × Str)) (content : Str) (level : Nat) :
    byTag key ((Tree.leaf name attrs content).read level) = none := by
  rw [Tree.read,byTag,if_neg other]
  by_cases empty : content = [] <;> simp [empty,byTagAll,byTag]

theorem byTagAll_append (key : Str) (a b : List Node) : byTagAll key (a ++ b) = (byTagAll key a).or (byTagAll key b) := by
  induction a with
  | nil => simp [byTagAll]
  | cons n a ih => rw [List.cons_append,byTagAll,byTagAll,ih,Option.or_assoc]

theorem byTagAll_readAll {key : Str} {ts : List Tree} (none_of : ∀ t ∈ ts, ∀ level, byTag key (t.read level) = none)
    (level : Nat) : byTagAll key (readAll level ts) = none := by
  induction ts with
  | nil => rfl
  | cons t ts ih =>
    obtain ⟨first,later⟩ := List.forall_mem_cons.mp none_of
    rw [readAll,byTagAll,byTagAll,first,ih later]
    rfl

theorem byTag_branch {key name : Str} (other : name ≠ key) {ts : List Tree}
    (none_of : ∀ t ∈ ts, ∀ level, byTag key (t.read level) = none) (attrs : List (Str × Str)) (level : Nat) :
    byTag key ((Tree.branch name attrs ts).read level) = none := by
  rw [Tree.read,byTag,if_neg other]
  by_cases empty : ts.isEmpty = true
  · rw [if_pos empty]
    rfl
  · rw [if_neg empty,byTagAll_append,byTagAll_readAll none_of]
    rfl

theorem byTag_headTree (h : Header) (level : Nat) : byTag "traces".toList ((headTree h).read level) = none := by
  have leaves : ∀ (name : String) (content : Str), name.toList ≠ "traces".toList →
      ∀ level, byTag "traces".toList ((leaf name content).read level) = none :=
    fun name content other level => byTag_leaf other [] content level
  have accounts : ∀ (name : String) (user : Str × Nat), name.toList ≠ "traces".toList →
      ∀ level, byTag "traces".toList ((account name user).read level) = none := by
    refine fun name user other level => byTag_branch other ?_ [] level
    simp only [List.forall_mem_cons]
    exact ⟨leaves _ _ (by decide),leaves _ _ (by decide),List.forall_mem_nil _⟩
  have parents : ∀ t ∈ [leaf "parent_pid" (toStr h.parentPid),leaf "parent_exe" h.parentExe],
      ∀ level, byTag "traces".toList (t.read level) = none := by
    simp only [List.forall_mem_cons]
    exact ⟨leaves _ _ (by decide),leaves _ _ (by decide),List.forall_mem_nil _⟩
  refine byTag_branch (by decide) ?_ [] level
  simp only [printCurrentProc,printParentProc,printUserInfo,List.forall_mem_append,List.forall_mem_cons]
  refine ⟨⟨⟨⟨⟨leaves _ _ (by decide),leaves _ _ (by decide),List.forall_mem_nil _⟩,?_⟩,leaves _ _ (by decide),
    List.forall_mem_nil _⟩,byTag_branch (by decide) parents [],List.forall_mem_nil _⟩,accounts _ _ (by decide),
    accounts _ _ (by decide),accounts _ _ (by decide),accounts _ _ (by decide),List.forall_mem_nil _⟩
  cases h.workingDir with
  | none => exact List.forall_mem_nil _
  | some dir => exact List.forall_mem_singleton.mpr (leaves _ _ (by decide))

theorem byTag_head (h : Header) (calls : Recorded) :
    byTag "head".toList ((branch "program" [headTree h,tracesTree calls]).read 0) = some ((headTree h).read 1) := rfl

theorem byTag_traces (h : Header) (calls : Recorded) :
    byTag "traces".toList ((branch "program" [headTree h,tracesTree calls]).read 0) = some ((tracesTree calls).read 1) := by
  have first := byTag_headTree h 1
  have root : byTag "traces".toList ((branch "program" [headTree h,tracesTree calls]).read 0) =
      (byTag "traces".toList ((headTree h).read 1)).or (some ((tracesTree calls).read 1)) := rfl
  rw [root,first]
  rfl

/-- The elements of the head, as the visualizer looks for them. -/
def headNodes (h : Header) : List Node := childNodes ((headTree h).read 1)

theorem headNodes_eq (h : Header) : headNodes h =
    readAll 1 (printCurrentProc h ++ printParentProc h ++ printUserInfo h) ++ [.text ('\n' :: indent 1)] := rfl

theorem head_leaf {h : Header} {key : String} {content : Str}
    (found : ((printCurrentProc h ++ printParentProc h ++ printUserInfo h).find? fun t => decide (treeName t = key.toList)) =
      some (leaf key content)) : getNodeValue1 (headNodes h) key = present content := by
  rw [headNodes_eq,getNodeValue1_leaf found]
  rfl

theorem head_host (h : Header) : getNodeValue1 (headNodes h) "host" = present h.host := by
  refine head_leaf ?_
  obtain ⟨_,_,dir,_⟩ := h
  cases dir <;> rfl

theorem head_pid (h : Header) : getNodeValue1 (headNodes h) "pid" = present (toStr h.pid) := head_leaf rfl

theorem head_exeName (h : Header) : getNodeValue1 (headNodes h) "exe_name" = present h.exeName := head_leaf rfl

theorem head_workingDir (h : Header) :
    getNodeValue1 (headNodes h) "working_dir" = (h.workingDir.map present).getD (some none) := by
  obtain ⟨pid,exeName,dir,rest⟩ := h
  cases dir with
  | none => exact getNodeValue1_none rfl 1 _
  | some dir => exact head_leaf rfl

theorem head_inner {h : Header} {key1 key2 : String} {ts : List Tree}
    (found : ((printCurrentProc h ++ printParentProc h ++ printUserInfo h).filter fun t => decide (treeName t = key1.toList)) =
      [branch key1 ts]) (some_of : ts ≠ []) :
    getNodeValue2 (headNodes h) key1 key2 = getNodeValue1 (readAll 2 ts ++ [.text ('\n' :: indent 2)]) key2 := by
  rw [getNodeValue2,headNodes_eq,List.filter_append,filter_readAll,found]
  simp [named,branch,Tree.read,childNodes,some_of]

theorem head_user (h : Header) : getNodeValue2 (headNodes h) "effective_user" "name" = present h.effectiveUser.1 := by
  have found : ((printCurrentProc h ++ printParentProc h ++ printUserInfo h).filter
      fun t => decide (treeName t = "effective_user".toList)) = [account "effective_user" h.effectiveUser] := by
    obtain ⟨_,_,dir,_⟩ := h
    cases dir <;> rfl
  rw [head_inner found (by simp)]
  exact getNodeValue1_leaf rfl 2 _

/-- The parent is written under names that are not asked for. -/
theorem head_parent (h : Header) {key : String} (asked : key = "pid" ∨ key = "exe_name") :
    getNodeValue2 (headNodes h) "parent" key = some none := by
  have found : ((printCurrentProc h ++ printParentProc h ++ printUserInfo h).filter
      fun t => decide (treeName t = "parent".toList)) =
        [branch "parent" [leaf "parent_pid" (toStr h.parentPid),leaf "parent_exe" h.parentExe]] := by
    obtain ⟨_,_,dir,_⟩ := h
    cases dir <;> rfl
  rw [head_inner found (by simp)]
  refine getNodeValue1_none ?_ 2 _
  rcases asked with rfl | rfl <;> rfl

/-- What is read of a trace file, given the events. -/
def readBack (h : Header) (events : List (Option Event)) : Trace :=
  ⟨some h.host,some (toStr h.pid),none,[],basename h.exeName,some h.effectiveUser.1,h.workingDir,events,
    events.filterMap acceptedPort⟩

theorem readTrace_eq_some {h : Header} {calls : Recorded} {t : Trace} : readTrace (traceFile h calls) = some t ↔
    HeadPresent h ∧ ∃ events, parseEvents (some h.host) (some (toStr h.pid))
      (childNodes ((tracesTree calls).read 1)) = some events ∧ t = readBack h events := by
  have whole : (traceDocument h (calls.map fun c => c.1.record c.2)).read 0 =
      (branch "program" [headTree h,tracesTree calls]).read 0 := rfl
  rw [readTrace_traceFile,whole]
  have nodes : childNodes ((headTree h).read 1) = headNodes h := rfl
  have dir : ∀ dir, (h.workingDir.map present).getD (some none) = some dir ↔
      h.workingDir ≠ some [] ∧ dir = h.workingDir := by
    intro dir
    cases h.workingDir with
    | none => simp [eq_comm]
    | some d => simp
  simp only [SecStar.parse,byTag_head,byTag_traces,nodes,Option.bind_eq_bind,Option.bind_some,head_host,head_pid,
    head_exeName,head_workingDir,head_user,head_parent h (.inl rfl),head_parent h (.inr rfl)]
  simp only [Option.bind_eq_some_iff,present_eq_some,dir]
  constructor
  · rintro ⟨_,⟨host,rfl⟩,_,⟨_,rfl⟩,_,⟨exe,rfl⟩,_,same,_,⟨wd,rfl⟩,_,⟨user,rfl⟩,events,read,made⟩
    cases same
    cases made
    exact ⟨⟨host,exe,wd,user⟩,events,read,rfl⟩
  · rintro ⟨⟨host,exe,wd,user⟩,events,read,rfl⟩
    exact ⟨_,⟨host,rfl⟩,_,⟨toStr_ne_nil _,rfl⟩,_,⟨exe,rfl⟩,_,rfl,_,⟨wd,rfl⟩,_,⟨user,rfl⟩,events,read,rfl⟩

/-- Everything of a trace but the parent is read back exactly where the head and all the
calls allow it; the parent never is. -/
theorem trace_round_trip (content : Str → Str) (h : Header) (calls : Recorded) : ¬RoundTrip content h calls ∧
    (RoundTripButParent content h calls ↔ HeadRecovered content h ∧ ∀ c ∈ calls, Recovered c.1) := by
  constructor
  · rintro ⟨t,read,faithful⟩
    obtain ⟨_,events,_,rfl⟩ := readTrace_eq_some.mp read
    cases faithful.parent
  rw [← parseEvents_traces h.host (some (toStr h.pid)) calls 1]
  constructor
  · rintro ⟨t,read,faithful⟩
    obtain ⟨⟨host,exe,dir,user⟩,events,parsed,rfl⟩ := readTrace_eq_some.mp read
    have sameHost : content h.host = h.host := Option.some.inj faithful.host
    have sameDir : h.workingDir.map content = h.workingDir := faithful.workingDir
    have sameUser : content h.effectiveUser.1 = h.effectiveUser.1 := Option.some.inj faithful.user
    simp only [Header.stored,sameHost,sameDir,sameUser] at host dir user parsed
    exact ⟨⟨⟨host,sameHost⟩,⟨exe,faithful.executable⟩,⟨dir,sameDir⟩,⟨user,sameUser⟩⟩,events,parsed,faithful.events⟩
  · rintro ⟨⟨⟨host,sameHost⟩,⟨exe,sameExe⟩,⟨dir,sameDir⟩,⟨user,sameUser⟩⟩,events,parsed,carried⟩
    refine ⟨readBack (h.stored content) events,readTrace_eq_some.mpr ⟨?_,events,?_,rfl⟩,?_⟩
    · simp only [HeadPresent,Header.stored,sameHost,sameDir,sameUser]
      exact ⟨host,exe,dir,user⟩
    · simp only [Header.stored,sameHost]
      exact parsed
    · exact ⟨congrArg some sameHost,rfl,sameExe,sameDir,congrArg some sameUser,carried⟩

/-- A process that does nothing, with everything about it known. -/
def quietHeader : Header :=
  ⟨2,"/bin/sh".toList,some "/tmp".toList,"a".toList,1,"/sbin/init".toList,("root".toList,0),("root".toList,0),
    ("root".toList,0),("root".toList,0)⟩

theorem quiet_orphaned : ¬∀ (h : Header) (calls : Recorded), RoundTrip id h calls := by
  intro every
  obtain ⟨t,read,faithful⟩ := every quietHeader []
  have parent : t.ppid = none := by
    obtain ⟨_,events,_,rfl⟩ := readTrace_eq_some.mp read
    rfl
  rw [faithful.parent] at parent
  cases parent

end SelfPropelled.Fpva
