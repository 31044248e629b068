import SelfPropelled.Library.Run
import SelfPropelled.Mist.Checkers

/-! Whether the trace files stay the documents that they should be. -/

namespace SelfPropelled.Mist
open Library Xml

/-- What was written to a file: its head, and the traces once they are begun. -/
structure Doc where
  head : List Tree
  traces : Option (List Tree)

namespace Doc

def tree (d : Doc) : Tree := branch "process" (branch "head" d.head :: (d.traces.map (branch "traces")).toList)

def addTrace (d : Doc) (t : Tree) : Doc := {d with traces := some (d.traces.getD [] ++ [t])}

def text (d : Doc) : Str := '<' :: declaration ++ ['>'] ++ d.tree.flat

end Doc

/-- What was written to the files, each under the time in its name. -/
structure Log where
  docs : Dict Nat Doc
  current : Nat

namespace Log

/-- A file that is there already does not lose its traces. -/
def opened (l : Log) (usec : Nat) : Log :=
  ⟨Dict.set l.docs usec ⟨[],(Dict.get l.docs usec).bind Doc.traces⟩,usec⟩

def modify (l : Log) (f : Doc → Doc) : Log :=
  {l with docs := Dict.set l.docs l.current (f ((Dict.get l.docs l.current).getD ⟨[],none⟩))}

def recordExec (l : Log) (e : Exec) : Log :=
  if e.opened then (l.modify (·.addTrace e.tree)).opened e.next
  else if e.callee = .execve then
    match e.fallback with
    | none => l.opened e.next
    | some usec => (((l.opened usec).modify (·.addTrace e.tree))).opened e.next
  else l

def record (l : Log) : Op → Log
  | .start usec p => (l.opened usec).modify fun d => ⟨p.head,some (d.traces.getD [])⟩
  | .trace t => l.modify (·.addTrace t.tree)
  | .exec e => l.recordExec e

end Log

/-- An agent together with what it has written. -/
abbrev Tracing := Agent × Log

def step (s : Tracing) (op : Op) : Tracing := if s.1.live then (s.1.perform op,s.2.record op) else s

def initial : Tracing := (⟨⟨[],0,0⟩,true⟩,⟨[],0⟩)

/-- Every file is a document with what was written to it and nothing else. -/
def WellFormed (s : Tracing) : Prop := ∀ usec,
  (Dict.get s.1.mgr.files usec).map Xml.parse = (Dict.get s.2.docs usec).map fun d => some d.tree.node

/-- The open file ends as a file with traces does. -/
def Begun (m : TraceMgr) : Prop := ∃ front, Dict.get m.files m.filename = some (front ++ closeTraces)

def Fresh (m : TraceMgr) (usec : Nat) : Prop := Dict.get m.files usec = none

instance (m : TraceMgr) (usec : Nat) : Decidable (Fresh m usec) := inferInstanceAs (Decidable (_ = none))

/-- No trace goes to a file without traces, no file is opened twice, and what is written
fits. -/
def Condition (s : Tracing) : Op → Prop
  | .start usec p => Fresh s.1.mgr usec ∧ p.Fits
  | .trace t => Begun s.1.mgr ∧ t.Fits
  | .exec e => Fresh s.1.mgr e.next ∧ e.Fits ∧ (e.opened = true → Begun s.1.mgr) ∧
      ∀ usec, e.opened = false → e.fallback = some usec → Fresh s.1.mgr usec ∧ usec ≠ e.next

theorem Doc.text_bare (head : List Tree) : (Doc.mk head none).text =
    '<' :: declaration ++ ['>'] ++ "<process><head>".toList ++ flatAll head ++ closeHead := by
  simp only [Doc.text,Doc.tree,branch,Tree.flat,flatAll,tagText,List.flatMap_nil,List.append_nil,List.append_assoc,
    List.cons_append,List.nil_append,Option.map_none,Option.toList_none]
  rfl

theorem Doc.text_begun (head traces : List Tree) : (Doc.mk head (some traces)).text =
    '<' :: declaration ++ ['>'] ++ "<process><head>".toList ++ flatAll head ++ "</head><traces>".toList ++
      flatAll traces ++ closeTraces := by
  simp only [Doc.text,Doc.tree,branch,Tree.flat,flatAll,tagText,List.flatMap_nil,List.append_nil,List.append_assoc,
    List.cons_append,List.nil_append,Option.map_some,Option.toList_some]
  rfl

/-- The files are the texts of clean documents. -/
structure Stored (files : Dict Nat Str) (docs : Dict Nat Doc) : Prop where
  files : ∀ usec, Dict.get files usec = (Dict.get docs usec).map Doc.text
  clean : ∀ usec d, Dict.get docs usec = some d → d.tree.Clean

def Inv (s : Tracing) : Prop := Stored s.1.mgr.files s.2.docs ∧ s.1.mgr.filename = s.2.current

theorem clean_branch_iff {name : String} {children : List Tree} (named : isName name.toList = true) :
    (branch name children).Clean ↔ AllClean children := and_iff_right (validTag_name named)

theorem Doc.clean_iff (d : Doc) : d.tree.Clean ↔ AllClean d.head ∧ ∀ traces, d.traces = some traces → AllClean traces := by
  obtain ⟨head,traces⟩ := d
  rw [Doc.tree,clean_branch_iff (by decide),AllClean,clean_branch_iff (by decide)]
  refine and_congr_right fun _ => ?_
  cases traces with
  | none => exact ⟨fun _ _ none => (by cases none),fun _ => trivial⟩
  | some traces =>
    constructor
    · rintro ⟨clean,_⟩ _ ⟨⟩
      exact (clean_branch_iff (by decide)).mp clean
    · exact fun clean => ⟨(clean_branch_iff (by decide)).mpr (clean traces rfl),trivial⟩

section
variable {files files' : Dict Nat Str} {docs : Dict Nat Doc} {usec : Nat} {d : Doc}

theorem Stored.set (stored : Stored files docs) (clean : d.tree.Clean)
    (written : ∀ name, Dict.get files' name = if name = usec then some d.text else Dict.get files name) :
    Stored files' (Dict.set docs usec d) := by
  refine ⟨fun name => ?_,fun name d' found => ?_⟩
  · rw [written,Dict.get_set]
    by_cases here : name = usec
    · rw [if_pos here,if_pos here.symm]
      rfl
    · rw [if_neg here,if_neg (Ne.symm here),stored.files]
  · rw [Dict.get_set] at found
    split_ifs at found with here
    · cases found
      exact clean
    · exact stored.clean name d' found

theorem Stored.fresh (stored : Stored files docs) (fresh : Dict.get files usec = none) : Dict.get docs usec = none := by
  rw [stored.files] at fresh
  exact Option.map_eq_none_iff.mp fresh

theorem Stored.wellFormed {s : Tracing} (stored : Stored s.1.mgr.files s.2.docs) : WellFormed s := by
  intro usec
  rw [stored.files,Option.map_map]
  cases found : Dict.get s.2.docs usec with
  | none => rfl
  | some d =>
    have parsed : Xml.parse d.text = some d.tree.node :=
      parse_flat (stored.clean usec d found) (by decide) (by decide) fun _ => rfl
    exact congrArg some parsed

end

section
variable {m : TraceMgr} {l : Log} {usec : Nat}

/-- A file without traces ends otherwise. -/
theorem bare_end (head : List Tree) (front : Str) : (Doc.mk head none).text ≠ front ++ closeTraces := by
  intro same
  have first : closeHead = "</hea".toList ++ "d></process>".toList := by decide
  have second : closeTraces = "</trace".toList ++ "s></process>".toList := by decide
  rw [Doc.text_bare,first,second,← List.append_assoc,← List.append_assoc] at same
  have tails : "d></process>".toList = "s></process>".toList := List.append_inj_right' same (by decide)
  exact absurd tails (by decide)

theorem Begun.doc (begun : Begun m) (stored : Stored m.files l.docs) (here : m.filename = l.current) :
    ∃ head traces, Dict.get l.docs l.current = some ⟨head,some traces⟩ := by
  obtain ⟨front,text⟩ := begun
  rw [stored.files,here] at text
  obtain ⟨⟨head,traces⟩,found,same⟩ := Option.map_eq_some_iff.mp text
  cases traces with
  | none => exact absurd same (bare_end head front)
  | some traces => exact ⟨head,traces,found⟩

theorem init_text : init = (Doc.mk [] none).text := by
  have bare := Doc.text_bare []
  have none : flatAll [] = [] := rfl
  rw [none,List.append_nil] at bare
  exact bare.symm

theorem opened_docs (fresh : Dict.get l.docs usec = none) : (l.opened usec).docs = Dict.set l.docs usec ⟨[],none⟩ := by
  rw [Log.opened,fresh]
  rfl

theorem stored_openFile (stored : Stored m.files l.docs) (fresh : Fresh m usec) :
    Stored (m.openFile usec).files (l.opened usec).docs := by
  rw [opened_docs (stored.fresh fresh)]
  refine stored.set ((Doc.clean_iff _).mpr ⟨trivial,fun _ none => by cases none⟩) fun name => ?_
  rw [TraceMgr.files_openFile,init_text]

theorem modify_eq {d : Doc} (found : Dict.get l.docs l.current = some d) (f : Doc → Doc) :
    l.modify f = ⟨Dict.set l.docs l.current (f d),l.current⟩ := by
  rw [Log.modify,found]
  rfl

/-- Traces at the end of a file that has some already. -/
theorem stored_addTrace {m' : TraceMgr} {head traces : List Tree} {t : Tree} {text : Str} (clean : t.Clean)
    (stored : Stored m.files l.docs) (here : m.filename = l.current)
    (found : Dict.get l.docs l.current = some ⟨head,some traces⟩)
    (wrote : ∀ front, Dict.get m.files m.filename = some (front ++ closeTraces) →
      TraceMgr.Wrote m m' (front ++ text ++ closeTraces)) (same : text = t.flat) :
    Stored m'.files (l.modify (·.addTrace t)).docs ∧ m'.filename = l.current := by
  have before := stored.files l.current
  rw [found,Option.map_some,Doc.text_begun,← here] at before
  have after := wrote _ before
  have clean' := (Doc.clean_iff _).mp (stored.clean _ _ found)
  rw [modify_eq found]
  refine ⟨stored.set ((Doc.clean_iff _).mpr ⟨clean'.1,fun ts known => ?_⟩) fun name => ?_,after.filename.trans here⟩
  · cases known
    exact allClean_iff.mpr (List.forall_mem_append.mpr
      ⟨allClean_iff.mp (clean'.2 traces rfl),List.forall_mem_singleton.mpr clean⟩)
  · rw [after.files,here,same]
    simp only [Doc.addTrace,Option.getD_some,Doc.text_begun,flatAll_append,flatAll,List.append_nil,List.append_assoc]

end

section
variable {s : Tracing}

theorem inv_start (inv : Inv s) {usec : Nat} {p : Process} (fresh : Fresh s.1.mgr usec) (fits : p.Fits) :
    Inv (s.1.perform (.start usec p),s.2.record (.start usec p)) := by
  have stored := stored_openFile inv.1 fresh
  have docs := opened_docs (inv.1.fresh fresh)
  have found : Dict.get (s.2.opened usec).docs (s.2.opened usec).current = some ⟨[],none⟩ := by
    rw [docs]
    exact (Dict.get_set _ _ _ _).trans (if_pos rfl)
  have there : Dict.get (s.1.mgr.openFile usec).files (s.1.mgr.openFile usec).filename =
      some ('<' :: declaration ++ ['>'] ++ "<process><head>".toList ++ closeHead) :=
    (TraceMgr.files_openFile _ _ _).trans (if_pos rfl)
  have headers := TraceMgr.wrote_headers p.headers there
  have traces := headers.trans (TraceMgr.wrote_initTraces headers.now)
  rw [Process.Fits.headers fits,Process.entries_flat] at traces
  have performed : s.1.perform (.start usec p) =
      ⟨(p.entries.foldl TraceMgr.writeHeader (s.1.mgr.openFile usec)).initTraces,s.1.live⟩ := by
    rw [Agent.perform,processInit,fits.headers]
  rw [performed,Log.record,modify_eq found]
  refine ⟨?_,traces.filename⟩
  refine stored.set ((Doc.clean_iff _).mpr ⟨fits.clean,fun ts known => ?_⟩) fun name => ?_
  · cases known
    exact trivial
  · rw [Doc.text_begun,Option.getD_none,flatAll,List.append_nil]
    exact traces.files name

theorem inv_trace (inv : Inv s) {t : Trace} (begun : Begun s.1.mgr) (fits : t.Fits) :
    Inv (s.1.perform (.trace t),s.2.record (.trace t)) := by
  obtain ⟨head,traces,found⟩ := begun.doc inv.1 inv.2
  exact stored_addTrace fits.clean inv.1 inv.2 found (fun front => TraceMgr.wrote_traces t.pieces) fits.pieces

theorem appendExec_end (e : Exec) (front : Str) :
    appendExec e (front ++ closeTraces) = front ++ (e.piece ++ closeTag) ++ closeTraces := by
  have longer : closeTraces.length ≤ (e.piece ++ closeTag ++ closeTraces).length := by
    rw [List.length_append]
    exact Nat.le_add_left _ _
  have wrote := Stream.fprintf_seekEnd front closeTraces (e.piece ++ closeTag ++ closeTraces) 0
  rw [List.drop_eq_nil_of_le longer,List.append_nil] at wrote
  exact (congrArg Stream.text wrote).trans (List.append_assoc _ _ _).symm

theorem inv_appendExec {m : TraceMgr} {l : Log} {e : Exec} (stored : Stored m.files l.docs) (here : m.filename = l.current)
    (begun : Begun m) (fits : e.Fits) (fresh : Fresh m e.next) :
    Stored (({m with files := Dict.set m.files m.filename (appendExec e m.stream.text)}).changeTraceFile e.next).files
      ((l.modify (·.addTrace e.tree)).opened e.next).docs := by
  obtain ⟨head,traces,found⟩ := begun.doc stored here
  have appended : ∀ front, Dict.get m.files m.filename = some (front ++ closeTraces) →
      TraceMgr.Wrote m {m with files := Dict.set m.files m.filename (appendExec e m.stream.text)}
        (front ++ (e.piece ++ closeTag) ++ closeTraces) := by
    intro front text
    refine ⟨rfl,fun name => ?_⟩
    rw [Dict.get_set,TraceMgr.stream_eq text,appendExec_end]
    simp only [eq_comm]
  have added := (stored_addTrace fits.clean stored here found appended fits.piece).1
  refine stored_openFile added ?_
  obtain ⟨front,text⟩ := begun
  have other : m.filename ≠ e.next := by
    intro same
    rw [same] at text
    cases fresh.symm.trans text
  exact (Dict.get_set _ _ _ _).trans ((if_neg other).trans fresh)

theorem fallbackText_eq {e : Exec} (fits : e.Fits) : fallbackText e = (Doc.mk [] (some [e.tree])).text := by
  have bare : flatAll [] = [] := rfl
  have one : flatAll [e.tree] = e.tree.flat := List.append_nil _
  have shape : "<process><head></head><traces>".toList = "<process><head>".toList ++ "</head><traces>".toList := by decide
  rw [Doc.text_begun,bare,one,← fits.piece,fallbackText,shape]
  simp only [List.append_assoc,List.append_nil]

theorem inv_fallback {m : TraceMgr} {l : Log} {e : Exec} {usec : Nat} (stored : Stored m.files l.docs) (fits : e.Fits)
    (fresh : Fresh m e.next) (unused : Fresh m usec) (other : usec ≠ e.next) :
    Stored (({m with files := Dict.set m.files usec (fallbackText e)}).changeTraceFile e.next).files
      (((l.opened usec).modify (·.addTrace e.tree)).opened e.next).docs := by
  have docs := opened_docs (stored.fresh unused)
  have found : Dict.get (l.opened usec).docs (l.opened usec).current = some ⟨[],none⟩ := by
    rw [docs]
    exact (Dict.get_set _ _ _ _).trans (if_pos rfl)
  have added : Stored (Dict.set m.files usec (fallbackText e)) ((l.opened usec).modify (·.addTrace e.tree)).docs := by
    rw [modify_eq found]
    refine (stored_openFile stored unused).set ((Doc.clean_iff _).mpr ⟨trivial,fun ts known => ?_⟩) fun name => ?_
    · cases known
      exact ⟨fits.clean,trivial⟩
    · rw [Dict.get_set,TraceMgr.files_openFile,fallbackText_eq fits]
      by_cases here : name = usec
      · rw [if_pos here.symm]
        exact (if_pos here).symm
      · rw [if_neg (Ne.symm here),if_neg here]
        exact (if_neg here).symm
  refine stored_openFile added ?_
  exact (Dict.get_set _ _ _ _).trans ((if_neg other).trans fresh)

theorem inv_exec (inv : Inv s) {e : Exec} (ok : Condition s (.exec e)) :
    Inv (s.1.perform (.exec e),s.2.record (.exec e)) := by
  obtain ⟨next,fits,begun,fallback⟩ := ok
  rw [Agent.perform,performExec,Log.record,Log.recordExec]
  cases opened : e.opened with
  | true =>
    rw [if_pos rfl,if_pos rfl]
    exact ⟨inv_appendExec inv.1 inv.2 (begun opened) fits next,rfl⟩
  | false =>
    rw [if_neg Bool.false_ne_true,if_neg Bool.false_ne_true]
    split_ifs with callee
    · cases known : e.fallback with
      | none => exact ⟨stored_openFile inv.1 next,rfl⟩
      | some usec =>
        obtain ⟨unused,other⟩ := fallback usec opened known
        exact ⟨inv_fallback inv.1 fits next unused other,rfl⟩
    · exact inv

theorem inv_step (s : Tracing) (op : Op) (inv : Inv s) (ok : Condition s op) : Inv (step s op) := by
  rw [step]
  split_ifs with live
  · cases op with
    | start usec p => exact inv_start inv ok.1 ok.2
    | trace t => exact inv_trace inv ok.1 ok.2
    | exec e => exact inv_exec inv ok
  · exact inv

end

/-- In a run whose steps all meet the condition every file is the document it should be. -/
theorem trace_files_well_formed (ops : List Op) (met : Meets step Condition initial ops) :
    ∀ first rest, ops = first ++ rest → WellFormed (run step initial first) := by
  intro first rest split
  subst split
  have start : Inv initial := ⟨⟨fun _ => rfl,fun _ _ none => by cases none⟩,rfl⟩
  exact (invariant_run step Condition inv_step start ((meets_append step Condition).mp met).1).1.wellFormed

theorem begun_of_suffix {m : TraceMgr}
    (suffix : (Dict.get m.files m.filename).any (fun text => closeTraces.isSuffixOf text) = true) : Begun m := by
  rw [Begun]
  cases found : Dict.get m.files m.filename with
  | none =>
    rw [found] at suffix
    cases suffix
  | some text =>
    rw [found] at suffix
    obtain ⟨front,whole⟩ := List.isSuffixOf_iff_suffix.mp suffix
    exact ⟨front,congrArg some whole.symm⟩

def someone : Process :=
  ⟨7,"/bin/sh".toList,some "/".toList,"a".toList,1,"/sbin/init".toList,("root".toList,0),("root".toList,0),
    ("root".toList,0),("root".toList,0)⟩

theorem someone_fits : someone.Fits := by
  have plain : ∀ s ∈ ["/bin/sh".toList,"/".toList,"a".toList,"/sbin/init".toList,"root".toList], Plain s := by
    simp only [List.forall_mem_cons]
    exact ⟨plain_of_easy (by decide),plain_of_easy (by decide),plain_of_easy (by decide),plain_of_easy (by decide),
      plain_of_easy (by decide),List.forall_mem_nil _⟩
  refine ⟨plain _ (by decide),fun dir known => ?_,plain _ (by decide),plain _ (by decide),?_,by decide⟩
  · cases known
    exact plain _ (by decide)
  · simp only [someone,List.forall_mem_cons]
    exact ⟨plain _ (by decide),plain _ (by decide),plain _ (by decide),plain _ (by decide),List.forall_mem_nil _⟩

/-- A process that forks and then loads a program. -/
def forking : List Op := [.start 1 someone,.trace (.number .fork 2 9),.exec ⟨.execve,3,"/bin/ls".toList,true,none,4⟩]

theorem trace_files_well_formed_forking : WellFormed (run step initial forking) := by
  refine trace_files_well_formed forking ⟨⟨rfl,someone_fits⟩,⟨begun_of_suffix (by decide +kernel),?_⟩,?_,trivial⟩
    forking [] (List.append_nil _).symm
  · exact ⟨List.forall_mem_nil _,by decide⟩
  · refine ⟨by decide +kernel,⟨plain_of_easy (by decide),by decide⟩,fun _ => begun_of_suffix (by decide +kernel),?_⟩
    intro usec closed
    cases closed

/-- A program that fails to load another one, and exits. -/
def failedExec : List Op :=
  [.start 1 someone,.exec ⟨.execve,2,"/bin/no".toList,true,none,3⟩,.trace (.number .exit 4 1)]

theorem failedExec_corrupts : ¬WellFormed (run step initial failedExec) := by
  intro each
  have broken : (Dict.get (run step initial failedExec).1.mgr.files 3).map (fun text => (Xml.parse text).isSome) =
      some false := by decide +kernel
  have whole := congrArg (Option.map Option.isSome) (each 3)
  rw [Option.map_map,Option.map_map] at whole
  have good := broken.symm.trans whole
  cases found : Dict.get (run step initial failedExec).2.docs 3 with
  | none =>
    rw [found] at good
    cases good
  | some d =>
    rw [found] at good
    cases good

end SelfPropelled.Mist
