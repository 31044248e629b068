import SelfPropelled.Library.Xml

/-! The trace documents of the tool: what the checkers record of a call and the tree that
`TraceMgr` builds of it. -/

namespace SelfPropelled.Fpva
open Library Xml

abbrev Str := List Char

structure CallTrace where
  functionName : Str
  timeStamp : Str
  parameters : List (Str × Str)

/-- `insert` of a map: the keys are kept in order, and a key that is there keeps its value. -/
def insertParameter (k v : Str) : List (Str × Str) → List (Str × Str)
  | [] => [(k,v)]
  | (k',v') :: m =>
    if k = k' then (k',v') :: m
    else if k < k' then (k,v) :: (k',v') :: m
    else (k',v') :: insertParameter k v m

def parameters (inserts : List (String × Str)) : List (Str × Str) :=
  inserts.foldl (fun m p => insertParameter p.1.toList p.2 m) []

/-- `std::to_string` -/
def toStr (n : Int) : Str := (toString n).toList

/-- A call that a checker records, with the values it finds. Of `argvs` there is none where
the pointer is null. A call of `execle` is not recorded: the loop over its arguments ends
the process. -/
inductive Call
  | connect (host service : Str)
  | accept (host service : Str)
  | execve (vpe : Bool) (path : Str) (argvs : Option (List Str)) (envs : List Str)
  | fexecve (file : Int) (argvs : Option (List Str)) (envs : List Str)
  | execveat (dirfd : Int) (path : Str) (argvs : Option (List Str)) (envs : List Str) (flags : Int)
  | execl (path : Str)
  | execlp (path : Str)
  | execv (path : Str)
  | execvp (path : Str)
  | fork (ret : Int)
  | clone (ret : Int)
  | open (fname : Str)
  | chmod (fname : Str) (mode : Nat)
  | fopen (fname : Str) (mode : Nat)
  | fdopen (fd : Int) (mode : Nat)
  | freopen (fname : Str) (mode : Nat)
  | openat (dirfd : Int) (fname : Str) (flags : Int)
  | chown (pathname : Str) (owner group : Nat)
  | fchown (fd : Int) (owner group : Nat)
  | lchown (pathname : Str) (owner group : Nat)
  | fchownat (dirfd : Int) (pathname : Str) (owner group : Nat) (flags : Int)
  | seteuid (name : Str) (uid : Nat)
  | setuid (name : Str) (uid : Nat)
  | chroot (pathname : Str)
  | chdir (pathname : Str)

namespace Call

def functionName : Call → String
  | connect .. => "connect"
  | accept .. => "accept"
  | execve vpe .. => if vpe then "execvpe" else "execve"
  | fexecve .. => "fexecve"
  | execveat .. => "execveat"
  | execl _ => "execl"
  | execlp _ => "execlp"
  | execv _ => "execv"
  | execvp _ => "execvp"
  | fork _ => "fork"
  | clone _ => "clone"
  | «open» _ => "open"
  | chmod .. => "chmod"
  | fopen .. => "fopen"
  | fdopen .. => "fdopen"
  | freopen .. => "freopen"
  | openat .. => "openat"
  | chown .. => "chown"
  | fchown .. => "fchown"
  | lchown .. => "lchown"
  | fchownat .. => "fchownat"
  | seteuid .. => "seteuid"
  | setuid .. => "setuid"
  | chroot _ => "chroot"
  | chdir _ => "chdir"

def arguments (argvs : Option (List Str)) (envs : List Str) : List (String × Str) :=
  ((argvs.getD []).map fun a => ("argvs",a)) ++ envs.map fun e => ("envs",e)

def ownership (owner group : Nat) : List (String × Str) := [("owner",toStr owner),("group",toStr group)]

/-- The pairs a checker inserts, in its order. -/
def inserts : Call → List (String × Str)
  | connect host service => [("host",host),("port",service)]
  | accept host service => [("host",host),("port",service)]
  | execve _ path argvs envs => ("path",path) :: arguments argvs envs
  | fexecve file argvs envs => ("path",toStr file) :: arguments argvs envs
  | execveat dirfd path argvs envs flags =>
    ("directory_fd",toStr dirfd) :: ("path",path) :: (arguments argvs envs ++ [("flags",toStr flags)])
  | execl path => [("path",path)]
  | execlp path => [("path",path)]
  | execv path => [("path",path)]
  | execvp path => [("path",path)]
  | fork ret => [("pid",toStr ret)]
  | clone ret => [("pid",toStr ret)]
  | «open» fname => [("file",fname)]
  | chmod fname mode => [("file",fname),("mode",toStr mode)]
  | fopen fname mode => [("file",fname),("mode",toStr mode)]
  | fdopen fd mode => [("file",toStr fd),("mode",toStr mode)]
  | freopen fname mode => [("file",fname),("mode",toStr mode)]
  | openat dirfd fname flags => [("directory_fd",toStr dirfd),("file",fname),("flags",toStr flags)]
  | chown pathname owner group => ("file",pathname) :: ownership owner group
  | fchown fd owner group => ("file",toStr fd) :: ownership owner group
  | lchown pathname owner group => ("file",pathname) :: ownership owner group
  | fchownat dirfd pathname owner group flags =>
    ("directory_fd",toStr dirfd) :: ("file",pathname) :: (ownership owner group ++ [("flags",toStr flags)])
  | seteuid name uid => [("name",name),("uid",toStr uid)]
  | setuid name uid => [("name",name),("uid",toStr uid)]
  | chroot pathname => [("directory",pathname)]
  | chdir pathname => [("directory",pathname)]

/-- What the checker hands to `AddTrace`; the time is in microseconds. -/
def record (c : Call) (usec : Nat) : CallTrace := ⟨c.functionName.toList,toStr usec,parameters c.inserts⟩

end Call

/-- The fields that are printed to the head of a document. -/
structure Header where
  pid : Int
  exeName : Str
  /-- none where `getcwd` fails -/
  workingDir : Option Str
  host : Str
  parentPid : Int
  parentExe : Str
  realUser : Str × Nat
  effectiveUser : Str × Nat
  realGroup : Str × Nat
  effectiveGroup : Str × Nat

/-- The texts of the head go through `xmlNewChild`, which takes `&` in them for the begin of a
reference; `content` is the text it makes of one. -/
def Header.stored (content : Str → Str) (h : Header) : Header :=
  {h with
    exeName := content h.exeName
    workingDir := h.workingDir.map content
    host := content h.host
    parentExe := content h.parentExe
    realUser := (content h.realUser.1,h.realUser.2)
    effectiveUser := (content h.effectiveUser.1,h.effectiveUser.2)
    realGroup := (content h.realGroup.1,h.realGroup.2)
    effectiveGroup := (content h.effectiveGroup.1,h.effectiveGroup.2)}

def leaf (name : String) (content : Str) : Tree := .leaf name.toList [] content

def branch (name : String) (children : List Tree) : Tree := .branch name.toList [] children

def account (name : String) (user : Str × Nat) : Tree := branch name [leaf "name" user.1,leaf "id" (toStr user.2)]

def printCurrentProc (h : Header) : List Tree :=
  [leaf "pid" (toStr h.pid),leaf "exe_name" h.exeName] ++ (h.workingDir.map (leaf "working_dir")).toList ++
    [leaf "host" h.host]

def printParentProc (h : Header) : List Tree :=
  [branch "parent" [leaf "parent_pid" (toStr h.parentPid),leaf "parent_exe" h.parentExe]]

def printUserInfo (h : Header) : List Tree :=
  [account "real_user" h.realUser,account "effective_user" h.effectiveUser,
    account "real_group" h.realGroup,account "effective_group" h.effectiveGroup]

def addTrace (t : CallTrace) : Tree :=
  .branch "trace".toList [("type".toList,t.functionName),("time".toList,t.timeStamp)]
    (t.parameters.map fun p => .leaf p.1 [] p.2)

/-- The document of a process: `NewDoc`, the head by `ProcInitChecker` and the traces added since. -/
def traceDocument (h : Header) (traces : List CallTrace) : Tree :=
  branch "program" [branch "head" (printCurrentProc h ++ printParentProc h ++ printUserInfo h),
    branch "traces" (traces.map addTrace)]

/-- The keys of parameters are names of elements. -/
theorem mem_insertParameter {k v : Str} {m : List (Str × Str)} {p : Str × Str}
    (member : p ∈ insertParameter k v m) : p = (k,v) ∨ p ∈ m := by
  induction m with
  | nil => exact .inl (List.mem_singleton.mp member)
  | cons q m ih =>
    obtain ⟨k',v'⟩ := q
    rw [insertParameter] at member
    split_ifs at member with same before
    · exact .inr member
    · exact (List.mem_cons.mp member)
    · rcases List.mem_cons.mp member with here | later
      · exact .inr (here ▸ List.mem_cons_self)
      · exact (ih later).imp_right (List.mem_cons_of_mem _)

theorem mem_parameters {inserts : List (String × Str)} {p : Str × Str} (member : p ∈ parameters inserts) :
    ∃ q ∈ inserts, q.1.toList = p.1 ∧ q.2 = p.2 := by
  have all : ∀ (rest : List (String × Str)) m, p ∈ rest.foldl (fun m p => insertParameter p.1.toList p.2 m) m →
      p ∈ m ∨ ∃ q ∈ rest, q.1.toList = p.1 ∧ q.2 = p.2 := by
    intro rest
    induction rest with
    | nil => exact fun m here => .inl here
    | cons q rest ih =>
      intro m here
      rcases ih _ here with first | ⟨q',later,same⟩
      · rcases mem_insertParameter first with rfl | before
        · exact .inr ⟨q,List.mem_cons_self,rfl,rfl⟩
        · exact .inl before
      · exact .inr ⟨q',List.mem_cons_of_mem _ later,same⟩
  rcases all inserts [] member with none | found
  · cases none
  · exact found

/-- A map keeps its keys in order. -/
abbrev Sorted (m : List (Str × Str)) : Prop := m.Pairwise fun p q => p.1 < q.1

theorem insertParameter_sorted {k v : Str} {m : List (Str × Str)} (sorted : Sorted m) :
    Sorted (insertParameter k v m) := by
  induction m with
  | nil => exact List.pairwise_singleton _ _
  | cons q m ih =>
    obtain ⟨k',v'⟩ := q
    obtain ⟨first,later⟩ := List.pairwise_cons.mp sorted
    rw [insertParameter]
    by_cases same : k = k'
    · rw [if_pos same]
      exact sorted
    rw [if_neg same]
    by_cases before : k < k'
    · rw [if_pos before]
      refine List.pairwise_cons.mpr ⟨List.forall_mem_cons.mpr ⟨before,?_⟩,sorted⟩
      exact fun p member => lt_trans before (first p member)
    · rw [if_neg before]
      refine List.pairwise_cons.mpr ⟨fun p member => ?_,ih later⟩
      rcases mem_insertParameter member with rfl | there
      · exact lt_of_le_of_ne (not_lt.mp before) (Ne.symm same)
      · exact first p there

/-- A key that is there keeps its value. -/
theorem find_insertParameter (k v key : Str) {m : List (Str × Str)} (sorted : Sorted m) :
    ((insertParameter k v m).find? fun p => p.1 = key) =
      ((m.find? fun p => p.1 = key).or (if k = key then some (k,v) else none)) := by
  induction m with
  | nil => by_cases here : k = key <;> simp [insertParameter,here]
  | cons q m ih =>
    obtain ⟨k',v'⟩ := q
    obtain ⟨first,later⟩ := List.pairwise_cons.mp sorted
    rw [insertParameter]
    by_cases same : k = k'
    · subst same
      rw [if_pos rfl]
      by_cases here : k = key <;> simp [here]
    rw [if_neg same]
    by_cases before : k < k'
    · rw [if_pos before]
      by_cases here : k = key
      · subst here
        have absent : ∀ p ∈ (k',v') :: m, ¬p.1 = k :=
          List.forall_mem_cons.mpr ⟨Ne.symm same,fun p member => (lt_trans before (first p member)).ne'⟩
        have none : ((k',v') :: m).find? (fun p => p.1 = k) = none :=
          List.find?_eq_none.mpr fun p member => by simpa using absent p member
        simp [none]
      · simp [here]
    · rw [if_neg before,List.find?_cons,List.find?_cons,ih later]
      by_cases here : k' = key <;> simp [here]

/-- Of the pairs with a key the map keeps the first. -/
theorem find_parameters (inserts : List (String × Str)) (key : String) :
    ((parameters inserts).find? fun p => p.1 = key.toList).map Prod.snd =
      (inserts.find? fun p => p.1 = key).map Prod.snd := by
  have all : ∀ (rest : List (String × Str)) m, Sorted m →
      ((rest.foldl (fun m p => insertParameter p.1.toList p.2 m) m).find? fun p => p.1 = key.toList).map Prod.snd =
        ((m.find? fun p => p.1 = key.toList).map Prod.snd).or ((rest.find? fun p => p.1 = key).map Prod.snd) := by
    intro rest
    induction rest with
    | nil => intro m _; simp
    | cons q rest ih =>
      intro m sorted
      rw [List.foldl_cons,ih _ (insertParameter_sorted sorted),find_insertParameter _ _ _ sorted]
      by_cases here : q.1 = key
      · cases found : m.find? fun p => p.1 = key.toList <;> simp [here]
      · cases found : m.find? fun p => p.1 = key.toList <;> simp [here,String.toList_inj]
  rw [parameters,all inserts [] List.Pairwise.nil]
  rfl

/-- The names of the parameters. -/
def keys : List String :=
  ["host","port","path","argvs","envs","directory_fd","flags","pid","file","mode","owner","group","name","uid","directory"]

theorem arguments_keys (argvs : Option (List Str)) (envs : List Str) :
    ∀ p ∈ Call.arguments argvs envs, p.1 ∈ keys := by
  intro p member
  rcases List.mem_append.mp member with here | here
  · obtain ⟨a,_,rfl⟩ := List.mem_map.mp here
    exact (by decide : "argvs" ∈ keys)
  · obtain ⟨e,_,rfl⟩ := List.mem_map.mp here
    exact (by decide : "envs" ∈ keys)

theorem inserts_keys (c : Call) : ∀ p ∈ c.inserts, p.1 ∈ keys := by
  cases c with
  | execve vpe path argvs envs =>
    exact List.forall_mem_cons.mpr ⟨(by decide : "path" ∈ keys),arguments_keys argvs envs⟩
  | fexecve file argvs envs =>
    exact List.forall_mem_cons.mpr ⟨(by decide : "path" ∈ keys),arguments_keys argvs envs⟩
  | execveat dirfd path argvs envs flags =>
    refine List.forall_mem_cons.mpr ⟨(by decide : "directory_fd" ∈ keys),
      List.forall_mem_cons.mpr ⟨(by decide : "path" ∈ keys),List.forall_mem_append.mpr ⟨arguments_keys argvs envs,?_⟩⟩⟩
    exact List.forall_mem_singleton.mpr (by decide : "flags" ∈ keys)
  | _ => simp [Call.inserts,Call.ownership,keys]

end SelfPropelled.Fpva
