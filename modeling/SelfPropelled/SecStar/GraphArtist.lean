import SelfPropelled.SecStar.Dedup

/-! `GraphArtist`: the static drawing of the events, and the frames of the animation. Nodes are
found by `pid@host` or `file@host`, edges by their ends and their type; a drawing that raises
`KeyError` or `IndexError` is `none`. Dictionaries keep the order of insertion. -/

namespace SelfPropelled.SecStar
open Library

inductive Colour
  | red | deeppink1 | green | blue | white | black
deriving DecidableEq

/-- What the nodes get their letters and colours from. -/
structure Names where
  exeInitial : Dict Str Str
  initialExe : Dict Str Str
  colorCur : Fin 3
  uidColor : Dict (Option Str) Colour

def colorList : Fin 3 → Colour := ![.deeppink1,.green,.blue]

namespace Names

def start : Names := ⟨[],[],0,[(some "root".toList,.red)]⟩

/-- `initial in self.__initial_exe_map and self.__initial_exe_map[initial] != exe` -/
def taken (n : Names) (exe initial : Str) : Bool := (n.initialExe.get initial).any fun other => decide (other ≠ exe)

/-- The loop over the letters after the first; the last one is used even where it is taken. -/
def search (lower : Char → Str) (n : Names) (exe : Str) : Str → Str → Option Str
  | initial, [] => if n.taken exe initial then none else some initial
  | initial, [c] => if n.taken exe initial then some (lower c) else some initial
  | initial, c :: rest => if n.taken exe initial then search lower n exe (lower c) rest else some initial

/-- What is left of an executable's name without a prefix such as `condor_`. -/
def strippedExe (exe : Str) : Str := (exe.reverse.takeWhile (· ≠ '_')).reverse

def getExeInitial (lower : Char → Str) (n : Names) (exe : Str) : Option (Str × Names) :=
  match n.exeInitial.get exe with
  | some initial => some (initial,n)
  | none =>
    match strippedExe exe with
    | [] => none
    | c :: rest => (search lower n exe (lower c) rest).map fun initial =>
        (initial,{n with initialExe := n.initialExe.set initial exe, exeInitial := n.exeInitial.set exe initial})

def getColor (n : Names) (uid : Option Str) : Colour × Names :=
  match n.uidColor.get uid with
  | some color => (color,n)
  | none => (colorList n.colorCur,
      {n with uidColor := n.uidColor.set uid (colorList n.colorCur), colorCur := n.colorCur + 1})

end Names

/-- `cur_exe`, `cur_euid` and `cur_working_dir` of a trace. -/
@[ext] structure Attrs where
  exe : Str
  euid : Option Str
  workingDir : Option Str
deriving DecidableEq

/-- The arguments of `__get_node` that change a trace; the root directory changes nothing. -/
structure Change where
  exe : Option Str := none
  uid : Option Str := none
  workingDir : Option Str := none
deriving DecidableEq

def Change.on (c : Change) (cur : Attrs) : Attrs :=
  ⟨c.exe.getD cur.exe,c.uid.or cur.euid,c.workingDir.or cur.workingDir⟩

/-- What a tooltip tells: a process's pid, executable, user, parent and working directory, the
pids of a group in place of the pid and the directory, or a file's name. -/
inductive Tip
  | process (pid exe : Str) (user ppid : Option Str) (parentExe : Str) (workingDir : Option Str)
  | group (pids : List (Option Str)) (exe : Str) (user ppid : Option Str) (parentExe : Str)
  | file (name : Option Str)
deriving DecidableEq

namespace Tip

def described (exe : Str) (user ppid : Option Str) (parentExe : Str) : Str :=
  ", exe=".toList ++ exe ++ ", user=".toList ++ format user ++ ", ppid=".toList ++ format ppid ++
    ", parent_exe=".toList ++ parentExe

/-- The string that `set_tooltip` is given. -/
def text : Tip → Option Str
  | .process pid exe user ppid parentExe workingDir => some ("pid=".toList ++ pid ++
      described exe user ppid parentExe ++ ", working_directory=".toList ++ format workingDir)
  | .group pids exe user ppid parentExe => some ("pid=\x7b ".toList ++
      pids.flatMap (fun pid => format pid ++ [' ']) ++ "\x7d".toList ++ described exe user ppid parentExe)
  | .file name => name

end Tip

inductive Style
  | filled | invisible
deriving DecidableEq

inductive Shape
  | circle | doublecircle
deriving DecidableEq

@[ext] structure Face where
  label : Str
  fillcolor : Colour
deriving DecidableEq

structure DotNode extends Face where
  style : Style
  penwidth : Nat
  color : Colour
  shape : Shape
  tooltip : Tip
deriving DecidableEq

/-- The types of events that draw an edge. -/
inductive Link
  | fork | clone | connect | send | open | chown
deriving DecidableEq

structure Arc where
  src : Str
  trg : Str
  link : Link
deriving DecidableEq

def Arc.touches (arc : Arc) (key : Str) : Prop := arc.src = key ∨ arc.trg = key

instance (arc : Arc) (key : Str) : Decidable (arc.touches key) := inferInstanceAs (Decidable (_ ∨ _))

/-- `Edge.__eq__` of pydot compares the ends of edges, and `Edge.__hash__` is made of them. -/
def Arc.equal (arc arc' : Arc) : Bool := decide (arc.src = arc'.src ∧ arc.trg = arc'.trg)

inductive Line
  | unset | dotted | solid | dashed | invis
deriving DecidableEq

inductive Arrowhead
  | normal | empty
deriving DecidableEq

structure DotEdge where
  style : Line
  arrowhead : Arrowhead
  penwidth : Nat
  color : Colour
deriving DecidableEq

/-- What an artist changes while it draws, the traces among it. -/
structure Canvas where
  nodeMap : Dict Str DotNode
  edgeMap : Dict Arc DotEdge
  nodeEdgesMap : Dict Str (List Arc)
  names : Names
  cur : Str × Str → Attrs

def Trace.initial (t : Trace) : Attrs := ⟨t.initExe,t.initEuid,t.initWorkingDir⟩

/-- What an artist draws from. `lower` is what `str.lower` makes of a letter. -/
structure Artist where
  traceMap : TraceMap
  dedupDict : DedupDict
  lower : Char → Str

namespace Names
variable (lower : Char → Str)

/-- The label and the colour a process's node is created with. -/
def create (n : Names) (t : Trace) : Option (Face × Names) :=
  (n.getExeInitial lower t.initExe).map fun r =>
    (⟨r.1,(r.2.getColor t.initEuid).1⟩,(r.2.getColor t.initEuid).2)

def setLabel (n : Names) (exe : Option Str) (label : Str) : Option (Str × Names) :=
  match exe with
  | some exe => n.getExeInitial lower exe
  | none => some (label,n)

def setFillcolor (n : Names) (uid : Option Str) (color : Colour) : Colour × Names :=
  match uid with
  | some uid => n.getColor (some uid)
  | none => (color,n)

def repaint (n : Names) (c : Change) (f : Face) : Option (Face × Names) :=
  (n.setLabel lower c.exe f.label).map fun r =>
    (⟨r.1,(r.2.setFillcolor c.uid f.fillcolor).1⟩,(r.2.setFillcolor c.uid f.fillcolor).2)

end Names

namespace Canvas

def onNode (s : Canvas) (key : Str) (f : DotNode → DotNode) : Canvas :=
  match s.nodeMap.get key with
  | some node => {s with nodeMap := s.nodeMap.set key (f node)}
  | none => s

def onEdge (s : Canvas) (arc : Arc) (f : DotEdge → DotEdge) : Canvas :=
  match s.edgeMap.get arc with
  | some edge => {s with edgeMap := s.edgeMap.set arc (f edge)}
  | none => s

/-- The tooltip is the default until the animation gives the name. -/
def getFileNode (s : Canvas) (key : Str) (name : Option Str) : Canvas :=
  let old := s.nodeMap.get key
  let face := (old.map DotNode.toFace).getD ⟨['F'],.green⟩
  let style := (old.map DotNode.style).getD .filled
  let node : DotNode := ⟨face,style,1,.white,.circle,.file name⟩
  {s with nodeMap := s.nodeMap.set key node}

end Canvas

def DotEdge.show (link : Link) (e : DotEdge) : DotEdge :=
  match link with
  | .fork => {e with style := .dotted}
  | .clone => {e with style := .dotted, arrowhead := .empty}
  | .connect => {e with style := .solid}
  | .send => {e with style := .solid, arrowhead := .empty}
  | .open => {e with style := .dashed, arrowhead := .empty}
  | .chown => e

def DotEdge.highlight (e : DotEdge) : DotEdge := {e with color := .blue, penwidth := 3}

def DotEdge.create : DotEdge := ⟨.unset,.normal,1,.black⟩

def DotNode.show (n : DotNode) : DotNode := {n with style := .filled}

def DotNode.highlight (n : DotNode) : DotNode := {n with penwidth := 3, color := .blue}

def DotEdge.hide (e : DotEdge) : DotEdge := {e with style := .invis}

def DotNode.hide (n : DotNode) : DotNode := {n with style := .invisible}

namespace Canvas

/-- `__get_edge` and `__get_file_edge` -/
def getEdge (s : Canvas) (arc : Arc) : Canvas :=
  let edge := ((s.edgeMap.get arc).getD DotEdge.create).show arc.link
  {s with edgeMap := s.edgeMap.set arc {edge with penwidth := 1, color := .black}}

def makeAllInvisible (s : Canvas) : Canvas :=
  {s with
    nodeMap := s.nodeMap.map fun entry => (entry.1,entry.2.hide)
    edgeMap := s.edgeMap.map fun entry => (entry.1,entry.2.hide)}

/-- The edges of a node are a set: one that is equal to an element is not added. -/
def addEdge (d : Dict Str (List Arc)) (key : Str) (arc : Arc) : Dict Str (List Arc) :=
  let edges := (d.get key).getD []
  d.set key (if edges.any arc.equal then edges else edges ++ [arc])

def buildNodeEdgesMap (s : Canvas) : Canvas :=
  {s with nodeEdgesMap := (s.edgeMap.map Prod.fst).foldl (fun d arc => addEdge (addEdge d arc.src arc) arc.trg arc) []}

/-- A node without edges raises `KeyError`. -/
def hideNode (s : Canvas) (key : Str) : Option Canvas :=
  (s.nodeEdgesMap.get key).map fun edges =>
    edges.foldl (fun s arc => s.onEdge arc DotEdge.hide) (s.onNode key DotNode.hide)

end Canvas

/-- The calls that the branch of an event makes; `hide` is the branch of an exit. -/
inductive Action
  | node (key : Str) (change : Change)
  | fileNode (key : Str) (name : Option Str)
  | edge (arc : Arc)
  | hide (key : Str)

/-- `__draw_static` -/
def staticActions (e : Event) : List Action :=
  match e.kind with
  | .connect host _ pid => [.node e.pidhost {},.node (pidhostOf (some pid) host) {},
      .edge ⟨e.pidhost,pidhostOf (some pid) host,.connect⟩]
  | .send host pid => [.node e.pidhost {},.node (pidhostOf pid host) {},
      .edge ⟨e.pidhost,pidhostOf pid host,.send⟩]
  | .fork child => [.node e.pidhost {},.node (pidhostOf child e.host) {},
      .edge ⟨e.pidhost,pidhostOf child e.host,.fork⟩]
  | .clone child => [.node e.pidhost {},.node (pidhostOf child e.host) {},
      .edge ⟨e.pidhost,pidhostOf child e.host,.clone⟩]
  | .seteuid uid => [.node e.pidhost {uid := uid}]
  | .chroot _ => [.node e.pidhost {}]
  | .chdir directory => [.node e.pidhost {workingDir := directory}]
  | .exec exe .. => [.node e.pidhost {exe := some exe}]
  | .open file .. => [.node e.pidhost {},.fileNode (pidhostOf file e.host) (some "filename_not_found".toList),
      .edge ⟨e.pidhost,pidhostOf file e.host,.open⟩]
  | .chown file .. => [.node e.pidhost {},.fileNode (pidhostOf file e.host) (some "filename_not_found".toList),
      .edge ⟨e.pidhost,pidhostOf file e.host,.chown⟩]
  | .exit _ | .accept .. | .recv .. => []

namespace Artist
variable (a : Artist)

def trace (key : Str) : Option Trace := a.traceMap.get2 (partitionAt key).2 (partitionAt key).1

/-- A child of a fork or clone is given back its first executable and user. -/
def childActions (e : Event) (child : Option Str) (link : Link) : Option (List Action) :=
  (a.traceMap.trace? e.host child).map fun t => [.node e.pidhost {},
    .node (pidhostOf child e.host) {exe := some t.initExe, uid := t.initEuid},
    .edge ⟨e.pidhost,pidhostOf child e.host,link⟩]

/-- `__draw_animation` -/
def animationActions (e : Event) : Option (List Action) :=
  match e.kind with
  | .fork child => a.childActions e child .fork
  | .clone child => a.childActions e child .clone
  | .exit _ => some [.hide e.pidhost]
  | .open file .. => some [.node e.pidhost {},.fileNode (pidhostOf file e.host) file,
      .edge ⟨e.pidhost,pidhostOf file e.host,.open⟩]
  | .chown file .. => some [.node e.pidhost {},.fileNode (pidhostOf file e.host) file,
      .edge ⟨e.pidhost,pidhostOf file e.host,.chown⟩]
  | _ => some (staticActions e)

/-- The group that a process stands for, where it has others in it. -/
def group (t : Trace) : Option (List (Option Str)) :=
  (a.dedupDict.find (t.ppid,t.initExe,t.initEuid)).filter fun pids =>
    pids.any (fun pid => pid = t.pid) && decide (1 < pids.length)

def dress (t : Trace) (pid : Str) (cur : Attrs) (face : Face) (style : Style) : DotNode :=
  match a.group t with
  | some pids => ⟨face,style,1,.black,.doublecircle,.group pids cur.exe cur.euid t.ppid t.parentExe⟩
  | none => ⟨face,style,1,.white,.circle,.process pid cur.exe cur.euid t.ppid t.parentExe cur.workingDir⟩

/-- The node that is there, or what a new one is created with. -/
def base (t : Trace) (key : Str) (s : Canvas) : Option (Face × Style × Names) :=
  match s.nodeMap.get key with
  | some node => some (node.toFace,node.style,s.names)
  | none => (s.names.create a.lower t).map fun r => (r.1,.filled,r.2)

def getNode (key : Str) (c : Change) (s : Canvas) : Option Canvas := do
  let t ← a.trace key
  let (face,style,names) ← a.base t key s
  let (face,names) ← names.repaint a.lower c face
  let cur := c.on (s.cur (partitionAt key))
  let node := a.dress t (partitionAt key).1 cur face style
  return {s with nodeMap := s.nodeMap.set key node, names, cur := Function.update s.cur (partitionAt key) cur}

def perform (s : Canvas) : Action → Option Canvas
  | .node key c => a.getNode key c s
  | .fileNode key name => some (s.getFileNode key name)
  | .edge arc => some (s.getEdge arc)
  | .hide key => (a.getNode key {} s).bind fun s => s.hideNode key

end Artist

def DotNode.present (lit : Bool) (n : DotNode) : DotNode := if lit then n.show.highlight else n.show

def DotEdge.present (lit : Bool) (link : Link) (e : DotEdge) : DotEdge := if lit then (e.show link).highlight else e.show link

/-- A node or an edge is shown once it was got, and highlighted in the last event of a frame. -/
def Canvas.present (lit : Bool) (s : Canvas) : Action → Canvas
  | .node key _ | .fileNode key _ => s.onNode key (DotNode.present lit)
  | .edge arc => s.onEdge arc (DotEdge.present lit arc.link)
  | .hide _ => s

namespace Artist
variable (a : Artist)

def animate (lit : Bool) (s : Canvas) (act : Action) : Option Canvas :=
  (a.perform s act).map fun s => s.present lit act

/-- What the traces hold once they are parsed. -/
def initial (q : Str × Str) : Attrs := ((a.traceMap.get2 q.2 q.1).map Trace.initial).getD ⟨[],none,none⟩

def drawStatic (es : List Event) : Option Canvas :=
  (es.flatMap staticActions).foldlM a.perform ⟨[],[],[],Names.start,a.initial⟩

def replay (lit : Bool) (s : Canvas) (e : Event) : Option Canvas :=
  (a.animationActions e).bind fun acts => acts.foldlM (a.animate lit) s

/-- The replay for frame `i`: the events up to `i`, the last one highlighted. -/
def playFrame (es : List Event) (i : Nat) (s : Canvas) : Option Canvas := do
  let e ← es[i]?
  let s ← (es.take i).foldlM (a.replay false) s
  a.replay true s e

/-- What is drawn when frame `i` is written; each replay goes on from the one before it. -/
def drawAnimation (es : List Event) : Nat → Option Canvas
  | 0 => (a.drawStatic es).bind fun s => a.playFrame es 0 s.makeAllInvisible.buildNodeEdgesMap
  | i + 1 => (drawAnimation es i).bind (a.playFrame es (i + 1))

end Artist

/-- What is to be seen in a frame. -/
structure Picture where
  node : Str → Option DotNode
  edge : Arc → Option DotEdge

def Canvas.picture (s : Canvas) : Picture :=
  ⟨fun key => (s.nodeMap.get key).filter fun n => decide (n.style = .filled),
    fun arc => (s.edgeMap.get arc).filter fun e => decide (e.style ≠ .invis)⟩

def Artist.frame (a : Artist) (es : List Event) (i : Nat) : Option Picture :=
  (a.drawAnimation es i).map Canvas.picture

/-- Frame `i` of `draw`; without deduplication the dictionary is empty. -/
def draw (m : TraceMap) (lower : Char → Str) (dedupOn : Bool) (evs : List Event) (i : Nat) : Option Picture :=
  (if dedupOn then dedup m evs else some (evs,[])).bind fun r => (Artist.mk m r.2 lower).frame r.1 i

end SelfPropelled.SecStar
