import SelfPropelled.Library.Dict
import SelfPropelled.Library.Xml

/-! `TraceMgr` of the mist tool: an XML file that grows in front of its closing tags. A file
is a text that is written at a position, without a buffer. -/

namespace SelfPropelled.Mist
open Library

/-- A `Char` is a byte of a C string. -/
abbrev Str := List Char

structure Stream where
  text : Str
  pos : Nat

namespace Stream

/-- `fseek(fp, -back, SEEK_END)`, which fails where there is no such place. -/
def seekEnd (back : Nat) (f : Stream) : Stream :=
  if back ≤ f.text.length then {f with pos := f.text.length - back} else f

def fprintf (s : Str) (f : Stream) : Stream :=
  ⟨f.text.take f.pos ++ s ++ f.text.drop (f.pos + s.length),f.pos + s.length⟩

/-- Writing over the end of a file. -/
theorem fprintf_seekEnd (front tail s : Str) (pos : Nat) :
    (Stream.seekEnd tail.length ⟨front ++ tail,pos⟩).fprintf s =
      ⟨front ++ s ++ tail.drop s.length,front.length + s.length⟩ := by
  have place : (front ++ tail).length - tail.length = front.length := by simp
  rw [seekEnd,if_pos (by simp),fprintf]
  simp only [place,List.take_left,List.drop_append,List.drop_eq_nil_of_le (Nat.le_add_right _ _),List.nil_append,
    Nat.add_sub_cancel_left]

theorem fprintf_end (front tail s : Str) (covered : tail.length ≤ s.length) :
    Stream.fprintf s ⟨front ++ tail,front.length⟩ = ⟨front ++ s,front.length + s.length⟩ := by
  rw [fprintf]
  simp only [List.take_left,List.drop_append,List.drop_eq_nil_of_le (Nat.le_add_right _ _),Nat.add_sub_cancel_left,
    List.drop_eq_nil_of_le covered,List.append_nil]

end Stream

def closeHead : Str := "</head></process>".toList

def closeTraces : Str := "</traces></process>".toList

def declaration : Str := "?xml version=\"1.0\" encoding=\"UTF-8\" ?".toList

/-- What `OpenFile` writes. -/
def init : Str := '<' :: declaration ++ ['>'] ++ "<process><head>".toList ++ closeHead

/-- The files of a process by the time in their names; the one that is open is written at `pos`. -/
structure TraceMgr where
  files : Dict Nat Str
  filename : Nat
  pos : Nat

namespace TraceMgr

def stream (m : TraceMgr) : Stream := ⟨(Dict.get m.files m.filename).getD [],m.pos⟩

def put (m : TraceMgr) (f : Stream) : TraceMgr := {m with files := Dict.set m.files m.filename f.text,pos := f.pos}

def writeString (m : TraceMgr) (s : Str) : TraceMgr := m.put (m.stream.fprintf s)

/-- `WriteString` with a place before the end -/
def writeStringAt (m : TraceMgr) (back : Nat) (s : Str) : TraceMgr := m.put ((m.stream.seekEnd back).fprintf s)

def openFile (m : TraceMgr) (usec : Nat) : TraceMgr :=
  writeString ⟨Dict.set m.files usec [],usec,0⟩ init

def changeTraceFile (m : TraceMgr) (usec : Nat) : TraceMgr := m.openFile usec

def writeHeader (m : TraceMgr) (header : Str) : TraceMgr := (m.writeStringAt 17 header).writeString closeHead

def writeTrace (m : TraceMgr) (trace : Str) : TraceMgr := m.writeStringAt 19 (trace ++ closeTraces)

/-- `InitTraces` of the checker that writes the head. -/
def initTraces (m : TraceMgr) : TraceMgr := m.writeStringAt 10 "<traces></traces></process>".toList

/-- The open file has a text now, and the other files are as they were. -/
structure Wrote (m m' : TraceMgr) (text : Str) : Prop where
  filename : m'.filename = m.filename
  files : ∀ name, Dict.get m'.files name = if name = m.filename then some text else Dict.get m.files name

section
variable {m m' m'' : TraceMgr} {front text text' : Str}

theorem Wrote.now (wrote : Wrote m m' text) : Dict.get m'.files m'.filename = some text := by
  rw [wrote.files,if_pos wrote.filename]

theorem Wrote.trans (first : Wrote m m' text) (second : Wrote m' m'' text') : Wrote m m'' text' := by
  refine ⟨second.filename.trans first.filename,fun name => ?_⟩
  rw [second.files,first.files,first.filename]
  split_ifs <;> rfl

theorem wrote_put (m : TraceMgr) (f : Stream) : Wrote m (m.put f) f.text := by
  refine ⟨rfl,fun name => ?_⟩
  rw [put,Dict.get_set]
  simp only [eq_comm]

theorem stream_eq (open_ : Dict.get m.files m.filename = some text) : m.stream = ⟨text,m.pos⟩ := by
  rw [stream,open_]
  rfl

@[simp] theorem stream_put (m : TraceMgr) (f : Stream) : (m.put f).stream = f := by
  rw [stream,put,Dict.get_set,if_pos rfl]
  rfl

/-- The end of the file gives way to a longer text. -/
theorem wrote_writeStringAt {tail s : Str} (open_ : Dict.get m.files m.filename = some (front ++ tail))
    (covered : tail.length ≤ s.length) : Wrote m (m.writeStringAt tail.length s) (front ++ s) := by
  have written : (m.stream.seekEnd tail.length).fprintf s = ⟨front ++ s,front.length + s.length⟩ := by
    rw [stream_eq open_,Stream.fprintf_seekEnd,List.drop_eq_nil_of_le covered,List.append_nil]
  rw [writeStringAt,written]
  exact wrote_put m _

theorem wrote_writeHeader (header : Str) (open_ : Dict.get m.files m.filename = some (front ++ closeHead)) :
    Wrote m (m.writeHeader header) (front ++ header ++ closeHead) := by
  have first : m.writeStringAt 17 header =
      m.put ⟨front ++ header ++ closeHead.drop header.length,(front ++ header).length⟩ := by
    rw [writeStringAt,stream_eq open_,List.length_append]
    exact congrArg m.put (Stream.fprintf_seekEnd front closeHead header m.pos)
  have covered : (closeHead.drop header.length).length ≤ closeHead.length := by
    rw [List.length_drop]
    exact Nat.sub_le _ _
  have second := wrote_put (m.put ⟨front ++ header ++ closeHead.drop header.length,(front ++ header).length⟩)
    (Stream.fprintf closeHead ⟨front ++ header ++ closeHead.drop header.length,(front ++ header).length⟩)
  rw [Stream.fprintf_end _ _ _ covered] at second
  rw [writeHeader,first,writeString,stream_put,Stream.fprintf_end _ _ _ covered]
  exact (wrote_put m _).trans second

theorem Wrote.refl (open_ : Dict.get m.files m.filename = some text) : Wrote m m text := by
  refine ⟨rfl,fun name => ?_⟩
  split_ifs with here
  · rw [here,open_]
  · rfl

theorem wrote_headers (headers : List Str) (open_ : Dict.get m.files m.filename = some (front ++ closeHead)) :
    Wrote m (headers.foldl writeHeader m) (front ++ headers.flatten ++ closeHead) := by
  induction headers generalizing m front with
  | nil =>
    rw [List.flatten_nil,List.append_nil]
    exact .refl open_
  | cons header headers ih =>
    have first := wrote_writeHeader header open_
    have later := first.trans (ih first.now)
    rw [List.foldl_cons,List.flatten_cons,← List.append_assoc]
    exact later

theorem wrote_writeTrace (trace : Str) (open_ : Dict.get m.files m.filename = some (front ++ closeTraces)) :
    Wrote m (m.writeTrace trace) (front ++ trace ++ closeTraces) := by
  have wrote := wrote_writeStringAt (s := trace ++ closeTraces) open_ (by simp)
  rw [← List.append_assoc] at wrote
  exact wrote

theorem wrote_traces (pieces : List Str) (open_ : Dict.get m.files m.filename = some (front ++ closeTraces)) :
    Wrote m (pieces.foldl writeTrace m) (front ++ pieces.flatten ++ closeTraces) := by
  induction pieces generalizing m front with
  | nil =>
    rw [List.flatten_nil,List.append_nil]
    exact .refl open_
  | cons piece pieces ih =>
    have first := wrote_writeTrace piece open_
    have later := first.trans (ih first.now)
    rw [List.foldl_cons,List.flatten_cons,← List.append_assoc]
    exact later

theorem wrote_initTraces (open_ : Dict.get m.files m.filename = some (front ++ closeHead)) :
    Wrote m m.initTraces (front ++ "</head><traces>".toList ++ closeTraces) := by
  have shape : front ++ closeHead = front ++ "</head>".toList ++ "</process>".toList := by
    rw [List.append_assoc]
    rfl
  rw [shape] at open_
  have wrote := wrote_writeStringAt (s := "<traces></traces></process>".toList) open_ (by decide)
  have whole : front ++ "</head>".toList ++ "<traces></traces></process>".toList =
      front ++ "</head><traces>".toList ++ closeTraces := by
    rw [List.append_assoc,List.append_assoc]
    rfl
  rw [whole] at wrote
  exact wrote

theorem files_openFile (m : TraceMgr) (usec name : Nat) : Dict.get (m.openFile usec).files name =
    if name = usec then some init else Dict.get m.files name := by
  have fresh : (⟨Dict.set m.files usec [],usec,0⟩ : TraceMgr).stream = ⟨[],0⟩ := by
    rw [stream,Dict.get_set,if_pos rfl]
    rfl
  have whole : Stream.fprintf init ⟨[],0⟩ = ⟨init,init.length⟩ := by simp [Stream.fprintf]
  rw [openFile,writeString,fresh,whole,(wrote_put _ _).files,Dict.get_set]
  by_cases here : name = usec
  · rw [if_pos here,if_pos here]
  · rw [if_neg here,if_neg here,if_neg (Ne.symm here)]

end

end TraceMgr

end SelfPropelled.Mist
