import SelfPropelled.Fpva.TraceRoundTrip
import SelfPropelled.Library.ClosingTags
import SelfPropelled.SecStar.CombineWorker

/-! What the combine worker leaves of the trace files that the tool writes. -/

namespace SelfPropelled.Fpva
open Library Xml SecStar

/-- A trace file of a process. -/
structure TraceFile where
  pid : Nat
  seq : Nat
  header : Header
  calls : Recorded

/-- `%.14lu` -/
def paddedSeq (seq : Nat) : Str := List.replicate (14 - (toStr seq).length) '0' ++ toStr seq

namespace TraceFile

/-- The name that `NewDoc` gives it. -/
def name (f : TraceFile) : Str := toStr f.pid ++ '-' :: paddedSeq f.seq ++ ".xml".toList

def text (f : TraceFile) : Text := traceFile f.header f.calls

def nodes (f : TraceFile) : List Node := f.calls.map fun c => callNode c 2

end TraceFile

/-- The directory of a host has one file of a name. -/
structure HostDir where
  files : List TraceFile
  distinct : (files.map TraceFile.name).Nodup

namespace HostDir

def entry (d : HostDir) : Files := d.files.map fun f => (f.name,f.text)

/-- The files of a process by their sequence numbers. -/
def sequence (d : HostDir) (pid : Nat) : List TraceFile :=
  (d.files.filter fun f => f.pid = pid).mergeSort fun f g => decide (f.seq ≤ g.seq)

/-- The file comes first of its process by name. -/
def First (d : HostDir) (f : TraceFile) : Prop := ∀ g ∈ d.files, g.pid = f.pid → f.name ≤ g.name

end HostDir

def output (pid : Nat) : Str := toStr pid ++ ".xml".toList

def traceNodes (doc : Node) : List Node :=
  ((((byTag "traces".toList doc).map childNodes).getD []).filter (named "trace".toList))

/-- The file of a process is well formed, with traces of which something holds. -/
def Holds (files : Files) (pid : Nat) (P : List Node → Prop) : Prop :=
  ∃ text doc, Dict.get files (output pid) = some text ∧ Xml.parse text = some doc ∧ P (traceNodes doc)

/-- Nothing is lost while a host's directory goes through some states. -/
structure Combined (d : HostDir) (states : List Files) : Prop where
  single : ∀ name, (Dict.get (states.getLastD d.entry) name).isSome → ∃ f ∈ d.files, name = output f.pid
  complete : ∀ f ∈ d.files,
    Holds (states.getLastD d.entry) f.pid (· = (d.sequence f.pid).flatMap TraceFile.nodes)
  kept : ∀ files ∈ states, ∀ f ∈ d.files,
    Dict.get files f.name = some f.text ∨ Holds files f.pid (f.nodes <:+: ·)

/-- Nothing is lost of the traces of any host. -/
def Lossless (input : List (Str × HostDir)) : Prop :=
  List.Forall₂ (fun host out => out.1 = host.1 ∧ Combined host.2 out.2) input
    (SecStar.run (input.map fun host => (host.1,.dir host.2.entry)))

theorem toStr_digits (n : Nat) : toStr n = Nat.toDigits 10 n := Nat.toList_repr

theorem toStr_inj {m n : Nat} (same : toStr m = toStr n) : m = n := by
  rw [toStr_digits,toStr_digits] at same
  have back := congrArg (Nat.ofDigitChars 10 · 0) same
  simpa using back

theorem dash_not_mem_toStr (n : Nat) : '-' ∉ toStr n := by
  intro member
  rw [toStr_digits] at member
  exact absurd (Nat.isDigit_of_mem_toDigits (by decide) (by decide) member) (by decide)

theorem dash_mem_name (f : TraceFile) : '-' ∈ f.name := by
  simp [TraceFile.name]

theorem dash_not_mem_output (pid : Nat) : '-' ∉ output pid := by
  intro member
  rcases List.mem_append.mp member with digits | suffix
  · exact dash_not_mem_toStr pid digits
  · exact absurd suffix (by decide)

theorem output_ne_name (pid : Nat) (f : TraceFile) : output pid ≠ f.name :=
  fun same => dash_not_mem_output pid (same ▸ dash_mem_name f)

theorem output_inj {p q : Nat} (same : output p = output q) : p = q := toStr_inj (List.append_cancel_right same)

theorem newXml_name (f : TraceFile) : newXml f.name = output f.pid := by
  have front : ∀ c ∈ toStr f.pid, decide (c ≠ '-') = true := fun c member => by
    simpa using fun same : c = '-' => dash_not_mem_toStr f.pid (same ▸ member)
  rw [newXml,TraceFile.name,List.append_assoc,List.takeWhile_append_of_pos front]
  simp [output]

theorem mem_namesAll {ts : List Tree} {key : Text} : key ∈ namesAll ts ↔ ∃ t ∈ ts, key ∈ t.names := by
  induction ts with
  | nil => simp [namesAll]
  | cons t ts ih => simp [namesAll,ih]

theorem process_not_mem_head (h : Header) : "process".toList ∉ (headTree h).names := by
  have names : ∀ dir, (headTree {h with workingDir := dir}).names =
      "head".toList :: "pid".toList :: "exe_name".toList :: ((if dir.isSome then ["working_dir".toList] else []) ++
        (["host","parent","parent_pid","parent_exe","real_user","name","id","effective_user","name","id",
          "real_group","name","id","effective_group","name","id"].map String.toList)) := by
    intro dir
    cases dir <;> rfl
  rw [names h.workingDir]
  generalize h.workingDir.isSome = known
  cases known <;> decide

theorem process_not_mem_trace (c : Call × Nat) : "process".toList ∉ (addTrace (c.1.record c.2)).names := by
  intro member
  rcases List.mem_cons.mp member with same | inside
  · exact absurd same (by decide)
  · obtain ⟨t,listed,here⟩ := mem_namesAll.mp inside
    obtain ⟨p,parameter,rfl⟩ := List.mem_map.mp listed
    obtain ⟨q,inserted,key,_⟩ := mem_parameters parameter
    have others : ∀ key ∈ keys, key.toList ≠ "process".toList := by decide
    exact others q.1 (inserts_keys c.1 q inserted) (key.trans (List.mem_singleton.mp here).symm)

theorem process_not_mem_names (h : Header) (calls : Recorded) :
    "process".toList ∉ (traceDocument h (calls.map fun c => c.1.record c.2)).names := by
  intro member
  have whole : traceDocument h (calls.map fun c => c.1.record c.2) = branch "program" [headTree h,tracesTree calls] := rfl
  rw [whole] at member
  rcases List.mem_cons.mp member with same | inside
  · exact absurd same (by decide)
  obtain ⟨t,listed,here⟩ := mem_namesAll.mp inside
  rcases List.mem_cons.mp listed with rfl | listed
  · exact process_not_mem_head h here
  rw [List.mem_singleton.mp listed] at here
  rcases List.mem_cons.mp here with same | inside
  · exact absurd same (by decide)
  · obtain ⟨t,traced,there⟩ := mem_namesAll.mp inside
    rw [List.map_map] at traced
    obtain ⟨c,_,rfl⟩ := List.mem_map.mp traced
    exact process_not_mem_trace c there

/-- The document has no `process` in it, so the worker's expression matches nothing. -/
theorem searchTraces_text (f : TraceFile) : searchTraces f.text = none := by
  have valid := valid_traceDocument f.header f.calls
  have known : isName "process".toList = true := by decide
  have absent := closing_not_in_document known valid
    (process_not_mem_names f.header f.calls)
  cases found : searchTraces f.text with
  | none => rfl
  | some traces =>
    have suffix : closing "process".toList <:+ closeTraces := ⟨"</traces>".toList,by decide⟩
    exact absurd (suffix.isInfix.trans (searchTraces_shape found)) absent

theorem parse_text (f : TraceFile) : ∃ doc, Xml.parse f.text = some doc ∧ traceNodes doc = f.nodes := by
  refine ⟨_,parse_document (valid_traceDocument f.header f.calls),?_⟩
  have found : byTag "traces".toList ((traceDocument f.header (f.calls.map fun c => c.1.record c.2)).read 0) =
      some ((tracesTree f.calls).read 1) := byTag_traces f.header f.calls
  rw [traceNodes,found,Option.map_some,Option.getD_some,TraceFile.nodes]
  cases calls : f.calls with
  | nil => rfl
  | cons c rest =>
    have children : childNodes ((tracesTree (c :: rest)).read 1) =
        readAll 1 ((c :: rest).map fun c => addTrace (c.1.record c.2)) ++ [.text ('\n' :: indent 1)] := by
      rw [tracesTree,List.map_map]
      rfl
    have all : ∀ t ∈ (c :: rest).map fun c => addTrace (c.1.record c.2), decide (treeName t = "trace".toList) = true := by
      intro t member
      obtain ⟨c,_,rfl⟩ := List.mem_map.mp member
      rfl
    rw [children,List.filter_append,filter_readAll,List.filter_eq_self.mpr all,List.map_map]
    exact List.append_nil _

/-- What a directory holds when some files of it are combined and the others are waiting. -/
structure Stage (done rest : List TraceFile) (files : Files) : Prop where
  waiting : ∀ f ∈ rest, Dict.get files f.name = some f.text
  combined : ∀ pid, Dict.get files (output pid) = (done.find? fun f => f.pid = pid).map TraceFile.text
  only : ∀ name, (Dict.get files name).isSome → (∃ f ∈ rest, name = f.name) ∨ ∃ f ∈ done, name = output f.pid

theorem Stage.initial (d : HostDir) {fs : List TraceFile} (perm : fs.Perm d.files) : Stage [] fs d.entry := by
  have plain : Dict.Plain d.entry := by
    have names : d.entry.map Prod.fst = d.files.map TraceFile.name := List.map_map
    rw [Dict.Plain,names]
    exact d.distinct
  have only : ∀ name, (Dict.get d.entry name).isSome → ∃ f ∈ fs, name = f.name := by
    intro name found
    obtain ⟨entry,member,same⟩ := List.mem_map.mp (Dict.get_isSome.mp found)
    obtain ⟨f,listed,rfl⟩ := List.mem_map.mp member
    exact ⟨f,perm.mem_iff.mpr listed,same.symm⟩
  refine ⟨fun f member => ?_,fun pid => ?_,fun name found => .inl (only name found)⟩
  · exact plain.get_of_mem (List.mem_map.mpr ⟨f,perm.mem_iff.mp member,rfl⟩)
  · cases found : Dict.get d.entry (output pid) with
    | none => rfl
    | some text =>
      obtain ⟨f,_,same⟩ := only (output pid) (by rw [found]; rfl)
      exact absurd same (output_ne_name pid f)

theorem Stage.congr {done rest : List TraceFile} {files files' : Files} (stage : Stage done rest files)
    (same : ∀ name, Dict.get files' name = Dict.get files name) : Stage done rest files' := by
  refine ⟨fun f member => ?_,fun pid => ?_,fun name found => ?_⟩
  · rw [same,stage.waiting f member]
  · rw [same,stage.combined pid]
  · rw [same] at found
    exact stage.only name found

section
variable {done rest : List TraceFile} {f : TraceFile} {files : Files}

theorem find_done (pid : Nat) : (done ++ [f]).find? (fun h => h.pid = pid) =
    (done.find? fun h => h.pid = pid).or (if f.pid = pid then some f else none) := by
  rw [List.find?_append]
  by_cases same : f.pid = pid <;> simp [same]

/-- Where the output is there already, nothing but the file itself goes. -/
theorem Stage.removed (stage : Stage done (f :: rest) files) (distinct : ∀ g ∈ rest, g.name ≠ f.name)
    (there : (Dict.get files (output f.pid)).isSome) : Stage (done ++ [f]) rest (Dict.remove files f.name) := by
  have others : ∀ name, name ≠ f.name → Dict.get (Dict.remove files f.name) name = Dict.get files name :=
    fun name other => by rw [Dict.get_remove,if_neg other]
  refine ⟨fun g member => ?_,fun pid => ?_,fun name found => ?_⟩
  · rw [others _ (distinct g member)]
    exact stage.waiting g (List.mem_cons_of_mem _ member)
  · rw [others _ (output_ne_name pid f),stage.combined pid,find_done]
    rw [stage.combined f.pid,Option.isSome_map] at there
    by_cases same : f.pid = pid
    · obtain ⟨g,first⟩ := Option.isSome_iff_exists.mp there
      rw [← same,first]
      rfl
    · rw [if_neg same,Option.or_none]
  · by_cases gone : name = f.name
    · rw [gone,Dict.get_remove,if_pos rfl] at found
      cases found
    rw [others _ gone] at found
    rcases stage.only name found with ⟨g,member,same⟩ | ⟨g,member,same⟩
    · rcases List.mem_cons.mp member with rfl | later
      · exact absurd same gone
      · exact .inl ⟨g,later,same⟩
    · exact .inr ⟨g,List.mem_append_left _ member,same⟩

theorem Stage.renamed (stage : Stage done (f :: rest) files) (distinct : ∀ g ∈ rest, g.name ≠ f.name)
    (missing : Dict.get files (output f.pid) = none) :
    Stage (done ++ [f]) rest (Dict.set (Dict.remove files f.name) (output f.pid) f.text) := by
  have others : ∀ name, name ≠ output f.pid → name ≠ f.name →
      Dict.get (Dict.set (Dict.remove files f.name) (output f.pid) f.text) name = Dict.get files name :=
    fun name target other => by rw [Dict.get_set,if_neg (Ne.symm target),Dict.get_remove,if_neg other]
  refine ⟨fun g member => ?_,fun pid => ?_,fun name found => ?_⟩
  · rw [others _ (Ne.symm (output_ne_name f.pid g)) (distinct g member)]
    exact stage.waiting g (List.mem_cons_of_mem _ member)
  · rw [find_done]
    by_cases same : f.pid = pid
    · rw [stage.combined f.pid,Option.map_eq_none_iff] at missing
      rw [← same,missing,Dict.get_set,if_pos rfl,if_pos rfl]
      rfl
    · rw [others _ (fun here => same (output_inj here).symm) (output_ne_name pid f),stage.combined pid,if_neg same,
        Option.or_none]
  · by_cases target : name = output f.pid
    · exact .inr ⟨f,List.mem_append_right _ List.mem_cons_self,target⟩
    by_cases gone : name = f.name
    · rw [gone,Dict.get_set,if_neg (output_ne_name f.pid f),Dict.get_remove,if_pos rfl] at found
      cases found
    rw [others _ target gone] at found
    rcases stage.only name found with ⟨g,member,same⟩ | ⟨g,member,same⟩
    · rcases List.mem_cons.mp member with rfl | later
      · exact absurd same gone
      · exact .inl ⟨g,later,same⟩
    · exact .inr ⟨g,List.mem_append_left _ member,same⟩

/-- Combining a file: it goes, and its process's output is there if it was not. -/
theorem Stage.combineFile (stage : Stage done (f :: rest) files) (distinct : ∀ g ∈ rest, g.name ≠ f.name) :
    ∃ states, SecStar.combineFile files f.name = some states ∧ Stage (done ++ [f]) rest (states.getLastD files) ∧
      ∀ state ∈ states, Stage done (f :: rest) state ∨ Stage (done ++ [f]) rest state := by
  rw [SecStar.combineFile,if_pos (dash_mem_name f),stage.waiting f List.mem_cons_self,Option.bind_some,newXml_name]
  cases target : Dict.get files (output f.pid) with
  | some text =>
    have same : insertTracesFrom text f.text = some text := by rw [insertTracesFrom,searchTraces_text]
    have unchanged : ∀ name, Dict.get (Dict.set files (output f.pid) text) name = Dict.get files name := by
      intro name
      rw [Dict.get_set]
      split_ifs with here
      · rw [← here,target]
      · rfl
    have written := stage.congr unchanged
    have removed := written.removed distinct (by rw [unchanged,target]; rfl)
    simp only [same,Option.map_some]
    refine ⟨_,rfl,removed,?_⟩
    simp only [List.forall_mem_cons]
    exact ⟨.inl written,.inr removed,List.forall_mem_nil _⟩
  | none =>
    have renamed := stage.renamed distinct target
    exact ⟨_,rfl,renamed,List.forall_mem_singleton.mpr (.inr renamed)⟩

theorem Stage.combineFiles {fs : List TraceFile} (distinct : (rest.map TraceFile.name).Nodup)
    (whole : fs = done ++ rest) (stage : Stage done rest files) :
    (SecStar.combineFiles (rest.map TraceFile.name) files).2 = true ∧
      Stage fs [] ((SecStar.combineFiles (rest.map TraceFile.name) files).1.getLastD files) ∧
        ∀ state ∈ (SecStar.combineFiles (rest.map TraceFile.name) files).1,
          ∃ done rest, fs = done ++ rest ∧ Stage done rest state := by
  induction rest generalizing done files with
  | nil =>
    subst whole
    exact ⟨rfl,(List.append_nil done).symm ▸ stage,List.forall_mem_nil _⟩
  | cons f rest ih =>
    obtain ⟨fresh,later⟩ := List.nodup_cons.mp distinct
    have apart : ∀ g ∈ rest, g.name ≠ f.name := fun g member same => fresh (same ▸ List.mem_map_of_mem member)
    obtain ⟨states,ran,after,between⟩ := stage.combineFile apart
    obtain ⟨goes,last,each⟩ := ih later (whole.trans (List.append_cons done f rest)) after
    rw [List.map_cons,SecStar.combineFiles,ran]
    refine ⟨goes,?_,?_⟩
    · rw [List.getLastD_eq_getLast?,List.getLast?_append,Option.getD_or,← List.getLastD_eq_getLast?,
        ← List.getLastD_eq_getLast?]
      exact last
    · intro state member
      rcases List.mem_append.mp member with now | later
      · rcases between state now with before | added
        · exact ⟨done,f :: rest,whole,before⟩
        · exact ⟨done ++ [f],rest,whole.trans (List.append_cons done f rest),added⟩
      · exact each state later

end

namespace HostDir
variable {d : HostDir}

/-- The files in the order in which they are combined. -/
def sorted (d : HostDir) : List TraceFile := d.files.mergeSort fun f g => decide (f.name ≤ g.name)

theorem mem_sorted {f : TraceFile} : f ∈ d.sorted ↔ f ∈ d.files := List.mem_mergeSort

theorem sortedNames_entry (d : HostDir) : sortedNames d.entry = d.sorted.map TraceFile.name := by
  have names : d.entry.map Prod.fst = d.files.map TraceFile.name := List.map_map
  rw [sortedNames,names,sorted,List.map_mergeSort]
  exact fun _ _ _ _ => rfl

theorem sorted_distinct (d : HostDir) : (d.sorted.map TraceFile.name).Nodup :=
  ((List.mergeSort_perm d.files _).map TraceFile.name).nodup_iff.mpr d.distinct

theorem sorted_pairwise (d : HostDir) : d.sorted.Pairwise fun f g => f.name ≤ g.name := by
  have ordered : d.sorted.Pairwise fun f g => decide (f.name ≤ g.name) = true := by
    apply List.pairwise_mergeSort
    · exact fun f g h first second => decide_eq_true (le_trans (of_decide_eq_true first) (of_decide_eq_true second))
    · exact fun f g => by simpa using le_total f.name g.name
  exact ordered.imp of_decide_eq_true

theorem same_name {f g : TraceFile} (here : f ∈ d.files) (there : g ∈ d.files) (same : f.name = g.name) : f = g :=
  List.inj_on_of_nodup_map d.distinct here there same

theorem First.unique {f g : TraceFile} (here : f ∈ d.files) (there : g ∈ d.files) (same : g.pid = f.pid)
    (first : d.First f) (first' : d.First g) : f = g :=
  same_name here there (le_antisymm (first g there same) (first' f here same.symm))

/-- The first of a process by name is combined first. -/
theorem first_of_find {g : TraceFile} {pid : Nat} (found : (d.sorted.find? fun f => f.pid = pid) = some g) :
    g ∈ d.files ∧ g.pid = pid ∧ d.First g := by
  obtain ⟨pidOf,front,back,shape,absent⟩ := List.find?_eq_some_iff_append.mp found
  have same : g.pid = pid := by simpa using pidOf
  have ordered := d.sorted_pairwise
  rw [shape] at ordered
  refine ⟨mem_sorted.mp (shape ▸ List.mem_append_right _ List.mem_cons_self),same,fun h member other => ?_⟩
  have listed := mem_sorted.mpr member
  rw [shape] at listed
  rcases List.mem_append.mp listed with before | after
  · have differs := absent h before
    simp [other,same] at differs
  · rcases List.mem_cons.mp after with rfl | later
    · exact le_refl _
    · exact (List.pairwise_cons.mp (List.pairwise_append.mp ordered).2.1).1 h later

theorem exists_first {f : TraceFile} (member : f ∈ d.files) :
    ∃ g, (d.sorted.find? fun h => h.pid = f.pid) = some g := by
  have there : (d.sorted.find? fun h => h.pid = f.pid).isSome :=
    List.find?_isSome.mpr ⟨f,mem_sorted.mpr member,decide_eq_true rfl⟩
  exact Option.isSome_iff_exists.mp there

end HostDir

/-- A process's output is the file that was combined first. -/
theorem Stage.holds_iff {done rest : List TraceFile} {files : Files} (stage : Stage done rest files) {pid : Nat}
    {g : TraceFile} (found : (done.find? fun f => f.pid = pid) = some g) {P : List Node → Prop} :
    Holds files pid P ↔ P g.nodes := by
  have text := stage.combined pid
  rw [found,Option.map_some] at text
  obtain ⟨doc,parsed,nodes⟩ := parse_text g
  constructor
  · rintro ⟨text',doc',there,read,holds⟩
    cases text.symm.trans there
    cases parsed.symm.trans read
    exact nodes ▸ holds
  · exact fun holds => ⟨g.text,doc,text,parsed,nodes.symm ▸ holds⟩

section
variable {d : HostDir} {f g : TraceFile}

theorem mem_sequence {pid : Nat} : f ∈ d.sequence pid ↔ f ∈ d.files ∧ f.pid = pid := by
  rw [HostDir.sequence,List.mem_mergeSort,List.mem_filter,decide_eq_true_iff]

theorem sequence_nodup (pid : Nat) : (d.sequence pid).Nodup :=
  (List.mergeSort_perm _ _).nodup_iff.mpr ((List.Nodup.of_map _ d.distinct).filter _)

/-- All traces of a process are those of one file exactly where its other files have none. -/
theorem nodes_eq_iff {pid : Nat} (member : g ∈ d.sequence pid) : g.nodes = (d.sequence pid).flatMap TraceFile.nodes ↔
    ∀ f ∈ d.sequence pid, f.calls = [] ∨ f = g := by
  have distinct := sequence_nodup (d := d) pid
  obtain ⟨front,back,shape⟩ := List.append_of_mem member
  rw [shape] at distinct ⊢
  have empty : ∀ f : TraceFile, f.nodes = [] ↔ f.calls = [] := fun f => List.map_eq_nil_iff
  rw [List.flatMap_append,List.flatMap_cons]
  constructor
  · intro same f listed
    have lengths := congrArg List.length same
    simp only [List.length_append] at lengths
    have none_before : front.flatMap TraceFile.nodes = [] := List.length_eq_zero_iff.mp (by omega)
    have none_after : back.flatMap TraceFile.nodes = [] := List.length_eq_zero_iff.mp (by omega)
    rcases List.mem_append.mp listed with before | after
    · exact .inl ((empty f).mp (List.flatMap_eq_nil_iff.mp none_before f before))
    · rcases List.mem_cons.mp after with rfl | later
      · exact .inr rfl
      · exact .inl ((empty f).mp (List.flatMap_eq_nil_iff.mp none_after f later))
  · intro only
    obtain ⟨_,second,apart⟩ := List.nodup_append.mp distinct
    have none_before : front.flatMap TraceFile.nodes = [] := by
      refine List.flatMap_eq_nil_iff.mpr fun f before => ?_
      rcases only f (List.mem_append_left _ before) with none | rfl
      · exact (empty f).mpr none
      · exact absurd rfl (apart f before f List.mem_cons_self)
    have none_after : back.flatMap TraceFile.nodes = [] := by
      refine List.flatMap_eq_nil_iff.mpr fun f later => ?_
      rcases only f (List.mem_append_right _ (List.mem_cons_of_mem _ later)) with none | rfl
      · exact (empty f).mpr none
      · exact absurd later (List.nodup_cons.mp second).1
    rw [none_before,none_after,List.nil_append,List.append_nil]

end

theorem combined_iff (d : HostDir) : Combined d (combineFiles (sortedNames d.entry) d.entry).1 ↔
    ∀ f ∈ d.files, f.calls = [] ∨ d.First f := by
  have whole : d.sorted = [] ++ d.sorted := rfl
  obtain ⟨_,last,each⟩ := Stage.combineFiles d.sorted_distinct whole (Stage.initial d (List.mergeSort_perm d.files _))
  rw [d.sortedNames_entry]
  constructor
  · intro combined f member
    obtain ⟨g,found⟩ := HostDir.exists_first member
    obtain ⟨there,pid,first⟩ := HostDir.first_of_find found
    have complete := (last.holds_iff found).mp (combined.complete f member)
    rcases (nodes_eq_iff (mem_sequence.mpr ⟨there,pid⟩)).mp complete f (mem_sequence.mpr ⟨member,rfl⟩) with none | rfl
    · exact .inl none
    · exact .inr first
  · intro only
    refine ⟨fun name found => ?_,fun f member => ?_,fun state listed f member => ?_⟩
    · rcases last.only name found with ⟨f,none,_⟩ | ⟨f,listed,same⟩
      · cases none
      · exact ⟨f,HostDir.mem_sorted.mp listed,same⟩
    · obtain ⟨g,found⟩ := HostDir.exists_first member
      obtain ⟨there,pid,first⟩ := HostDir.first_of_find found
      refine (last.holds_iff found).mpr ((nodes_eq_iff (mem_sequence.mpr ⟨there,pid⟩)).mpr fun h listed => ?_)
      obtain ⟨here,same⟩ := mem_sequence.mp listed
      exact (only h here).imp_right fun first' => HostDir.First.unique here there (pid.trans same.symm) first' first
    · obtain ⟨done,rest,whole,stage⟩ := each state listed
      have placed : f ∈ done ++ rest := whole ▸ HostDir.mem_sorted.mpr member
      rcases List.mem_append.mp placed with combined | waiting
      · right
        obtain ⟨g,found⟩ : ∃ g, (done.find? fun h => h.pid = f.pid) = some g :=
          Option.isSome_iff_exists.mp (List.find?_isSome.mpr ⟨f,combined,decide_eq_true rfl⟩)
        have first : (d.sorted.find? fun h => h.pid = f.pid) = some g := by
          rw [whole,List.find?_append,found]
          rfl
        obtain ⟨there,pid,first⟩ := HostDir.first_of_find first
        refine (stage.holds_iff found).mpr ?_
        rcases only f member with none | first'
        · have empty : f.nodes = [] := List.map_eq_nil_iff.mpr none
          exact empty ▸ List.nil_infix
        · rw [HostDir.First.unique member there pid first' first]
      · exact .inl (stage.waiting f waiting)

/-- No host ends the worker. -/
theorem run_hosts (input : List (Str × HostDir)) :
    SecStar.run (input.map fun host => (host.1,.dir host.2.entry)) =
      input.map fun host => (host.1,(combineFiles (sortedNames host.2.entry) host.2.entry).1) := by
  induction input with
  | nil => rfl
  | cons host input ih =>
    have whole : host.2.sorted = [] ++ host.2.sorted := rfl
    obtain ⟨goes,_⟩ := Stage.combineFiles host.2.sorted_distinct whole
      (Stage.initial host.2 (List.mergeSort_perm host.2.files _))
    rw [← host.2.sortedNames_entry] at goes
    rw [List.map_cons,SecStar.run,ih,goes,if_pos rfl]
    rfl

/-- A process with a second file, in which it changes its directory. -/
def movingHost : HostDir :=
  ⟨[⟨7,1,quietHeader,[]⟩,⟨7,2,quietHeader,[(.chdir "/".toList,5)]⟩],by decide⟩

end SelfPropelled.Fpva
