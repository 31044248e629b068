import SelfPropelled.ParserCache

/-! Which libraries are instrumented: `CreatePatchobjs`, `ParseDlExit` and the lookups each
compare a part of a library's path with the excluded names. -/

namespace SelfPropelled.Parser

/-- The libraries `CreatePatchobjs` parses; two of the C library's are parsed even if they
are not to be instrumented. -/
def createPatchobjs (binariesNotToInst : List Name) (libs : List SpObject) : List SpObject :=
  libs.filter fun lib =>
    let noPath := spFilename lib.name
    canInstrumentLib binariesNotToInst noPath || decide ("libc.so".toList <:+: noPath) ||
      decide ("ld-linux-x86-64.so".toList <:+: noPath)

/-- A parser with these exclusions that has parsed nothing. -/
def unparsed (binariesNotToInst : List Name) : SpParser := ⟨[],binariesNotToInst,[],[],[],[],[],[]⟩

section
variable (binariesNotToInst : List Name) (libs : List SpObject)

/-- The libraries that `ParseDlExit` parses when they are the ones loaded. -/
def admittedAtDlExit : List SpObject :=
  libs.filter fun lib => ((unparsed binariesNotToInst).newLibrary none [(lib.name,some lib)]).isSome

def searchedByName : List SpObject := libs.filter (searched binariesNotToInst false)

def searchedByAddr : List SpObject := libs.filter fun lib => canInstrumentLib binariesNotToInst lib.name

end

/-- Of a library with this name only few functions are looked at by name, and the function
is none of them. -/
def LibcHides (lib func : Name) : Prop :=
  "libc-".toList <:+: lib ∧ func ≠ "recv".toList ∧ func ≠ "read".toList ∧ func ≠ "__libc_start_main".toList

/-- The same libraries are admitted at start and when they are loaded later; of those parsed
all are looked into by name and by address; their functions are found by name, except
in the C library itself. -/
structure Consistent (binariesNotToInst : List Name) (libs : List SpObject) : Prop where
  admitted : admittedAtDlExit binariesNotToInst libs = createPatchobjs binariesNotToInst libs
  byName : searchedByName binariesNotToInst (createPatchobjs binariesNotToInst libs) =
    createPatchobjs binariesNotToInst libs
  byAddr : searchedByAddr binariesNotToInst (createPatchobjs binariesNotToInst libs) =
    createPatchobjs binariesNotToInst libs
  visible : ∀ lib ∈ createPatchobjs binariesNotToInst libs, ∀ f, some f ∈ lib.funcs → f.name ≠ [] →
    f ∈ getFuncsByName lib f.name false ∨ LibcHides (spFilename lib.name) f.name

/-- Has the base name no excluded name in it, or is it one of the C library's? -/
def Started (binariesNotToInst : List Name) (lib : SpObject) : Prop :=
  canInstrumentLib binariesNotToInst (spFilename lib.name) = true ∨ "libc.so".toList <:+: spFilename lib.name ∨
    "ld-linux-x86-64.so".toList <:+: spFilename lib.name

theorem scanAddr_searched (bins : List Name) (addr : Machine.Word) (libs : List SpObject) :
    scanAddr bins addr libs = scanAddr [] addr (searchedByAddr bins libs) := by
  induction libs with
  | nil => rfl
  | cons lib libs ih =>
    have all : canInstrumentLib [] lib.name = true := rfl
    cases admits : canInstrumentLib bins lib.name with
    | false => simpa [searchedByAddr,scanAddr,admits] using ih
    | true =>
      simp only [searchedByAddr] at ih
      simp only [searchedByAddr,scanAddr,List.filter_cons,admits,all,ih,if_true]

theorem scanName_searched (bins : List Name) (name : Name) (libs : List SpObject) :
    scanName bins false libs name = scanName [] false (searchedByName bins libs) name := by
  have all : ∀ lib, searched [] false lib = true := fun _ => rfl
  have each : (libs.flatMap fun lib => if searched bins false lib then getFuncsByName lib name false else []) =
      (searchedByName bins libs).flatMap fun lib => getFuncsByName lib name false := by
    induction libs with
    | nil => rfl
    | cons lib libs ih =>
      rw [List.flatMap_cons,ih]
      cases looked : searched bins false lib <;> simp [searchedByName,looked]
  simp only [scanName,each,all,if_true]

theorem spFilename_suffix (path : Name) : spFilename path <:+ path := by
  have pre := List.reverse_suffix.mpr (List.takeWhile_prefix (l := path.reverse) (· ≠ '/'))
  rwa [List.reverse_reverse] at pre

theorem infix_path {name path : Name} (inside : name <:+: spFilename path) : name <:+: path :=
  inside.trans (spFilename_suffix path).isInfix

theorem canInstrumentLib_base {bins : List Name} {path : Name} (admits : canInstrumentLib bins path = true) :
    canInstrumentLib bins (spFilename path) = true := by
  simp only [canInstrumentLib,List.all_eq_true,Bool.not_eq_true',decide_eq_false_iff_not] at admits ⊢
  exact fun b listed inside => admits b listed (infix_path inside)

theorem mem_createPatchobjs {bins : List Name} {libs : List SpObject} {lib : SpObject} :
    lib ∈ createPatchobjs bins libs ↔ lib ∈ libs ∧ Started bins lib := by
  simp only [createPatchobjs,Started,List.mem_filter,Bool.or_eq_true,decide_eq_true_eq,or_assoc]

theorem admittedAtDlExit_eq (bins : List Name) (libs : List SpObject) :
    admittedAtDlExit bins libs = searchedByAddr bins libs := by
  refine List.filter_congr fun lib _ => ?_
  cases admits : canInstrumentLib bins lib.name <;> simp [SpParser.newLibrary,unparsed,admits]

theorem mem_admittedAtDlExit {bins : List Name} {libs : List SpObject} {lib : SpObject} :
    lib ∈ admittedAtDlExit bins libs ↔ lib ∈ libs ∧ canInstrumentLib bins lib.name = true := by
  rw [admittedAtDlExit_eq,searchedByAddr,List.mem_filter]

theorem admitted_iff (bins : List Name) (libs : List SpObject) :
    admittedAtDlExit bins libs = createPatchobjs bins libs ↔
      ∀ lib ∈ libs, Started bins lib → canInstrumentLib bins lib.name = true := by
  constructor
  · intro same lib member started
    have there := mem_createPatchobjs.mpr ⟨member,started⟩
    rw [← same] at there
    exact (mem_admittedAtDlExit.mp there).2
  · intro same
    rw [admittedAtDlExit_eq]
    refine List.filter_congr fun lib member => ?_
    have started : Started bins lib ↔ canInstrumentLib bins lib.name = true :=
      ⟨same lib member,fun admits => .inl (canInstrumentLib_base admits)⟩
    refine Bool.eq_iff_iff.mpr (started.symm.trans ?_)
    simp only [Started,Bool.or_eq_true,decide_eq_true_eq,or_assoc]

theorem mem_getFuncsByName {lib : SpObject} {f : SpFunction} (listed : some f ∈ lib.funcs) (named : f.name ≠ []) :
    f ∈ getFuncsByName lib f.name false ↔ ¬LibcHides lib.name f.name := by
  have found : f ∈ lib.funcs.filterMap id := List.mem_filterMap.mpr ⟨some f,listed,rfl⟩
  unfold getFuncsByName
  split
  next hides =>
    obtain ⟨recv,read,libc,main⟩ := hides
    have hidden : LibcHides lib.name f.name := ⟨libc,recv,read,main⟩
    exact iff_of_false List.not_mem_nil (not_not.mpr hidden)
  next shows =>
    refine iff_of_true (List.mem_filter.mpr ⟨found,by simpa using named⟩) fun hidden => shows ?_
    exact ⟨hidden.2.1,hidden.2.2.1,hidden.1,hidden.2.2.2⟩

/-- The lookups search the parsed libraries that pass their tests as if no library were
excluded. Instrumentability is decided consistently exactly if no directory name decides and
the C library is not excluded: a library whose base name contains no excluded name,
or that `CreatePatchobjs` parses for its own name, has no excluded name in its path, and
one whose path contains the name of the C library has it in its base name, or has no
function that is hidden for that. -/
theorem admission_consistent_iff (bins : List Name) (libs : List SpObject) :
    (∀ addr, scanAddr bins addr (createPatchobjs bins libs) =
      scanAddr [] addr (searchedByAddr bins (createPatchobjs bins libs))) ∧
    (∀ name, scanName bins false (createPatchobjs bins libs) name =
      scanName [] false (searchedByName bins (createPatchobjs bins libs)) name) ∧
    (Consistent bins libs ↔ ∀ lib ∈ libs, Started bins lib →
      canInstrumentLib bins lib.name = true ∧ ∀ f, some f ∈ lib.funcs → f.name ≠ [] →
        LibcHides lib.name f.name → "libc-".toList <:+: spFilename lib.name) := by
  refine ⟨fun addr => scanAddr_searched bins addr _,fun name => scanName_searched bins name _,?_⟩
  constructor
  · intro consistent lib member started
    refine ⟨(admitted_iff bins libs).mp consistent.admitted lib member started,fun f listed named hides => ?_⟩
    rcases consistent.visible lib (mem_createPatchobjs.mpr ⟨member,started⟩) f listed named with found | base
    · exact absurd hides ((mem_getFuncsByName listed named).mp found)
    · exact base.1
  · intro condition
    have same := (admitted_iff bins libs).mpr fun lib member started => (condition lib member started).1
    have admits : ∀ lib ∈ createPatchobjs bins libs, canInstrumentLib bins lib.name = true := by
      intro lib parsed
      obtain ⟨member,started⟩ := mem_createPatchobjs.mp parsed
      exact (condition lib member started).1
    refine ⟨same,List.filter_eq_self.mpr fun lib parsed => ?_,List.filter_eq_self.mpr admits,
      fun lib parsed f listed named => ?_⟩
    · simpa [searched] using canInstrumentLib_base (admits lib parsed)
    · obtain ⟨member,started⟩ := mem_createPatchobjs.mp parsed
      by_cases hides : LibcHides lib.name f.name
      · exact .inr ⟨(condition lib member started).2 f listed named hides,hides.2⟩
      · exact .inl ((mem_getFuncsByName listed named).mpr hides)

/-- The plugin in a directory that is named like the agent. -/
def agentPlugin : SpObject := {plugin with name := "/opt/libagent.so.d/plugin.so".toList}

/-- The plugin is admitted at start and looked into by name, but neither admitted when it
is loaded later nor looked into by address. -/
theorem agentPlugin_inconsistent : agentPlugin ∈ createPatchobjs ["libagent.so".toList] [agentPlugin] ∧
    agentPlugin ∈ searchedByName ["libagent.so".toList] [agentPlugin] ∧
    admittedAtDlExit ["libagent.so".toList] [agentPlugin] = [] ∧
    searchedByAddr ["libagent.so".toList] [agentPlugin] = [] ∧
    ¬Consistent ["libagent.so".toList] [agentPlugin] := by
  have base : canInstrumentLib ["libagent.so".toList] (spFilename agentPlugin.name) = true := by decide
  have path : canInstrumentLib ["libagent.so".toList] agentPlugin.name = false := by decide
  have admitted : agentPlugin ∈ createPatchobjs ["libagent.so".toList] [agentPlugin] :=
    mem_createPatchobjs.mpr ⟨List.mem_singleton.mpr rfl,.inl base⟩
  have byAddr : searchedByAddr ["libagent.so".toList] [agentPlugin] = [] := by
    simp only [searchedByAddr,List.filter_cons,List.filter_nil,path,Bool.false_eq_true,if_false]
  have later : admittedAtDlExit ["libagent.so".toList] [agentPlugin] = [] :=
    (admittedAtDlExit_eq _ _).trans byAddr
  refine ⟨admitted,?_,later,byAddr,fun consistent => ?_⟩
  · exact List.mem_filter.mpr ⟨List.mem_singleton.mpr rfl,by simpa [searched] using base⟩
  · rw [← consistent.admitted,later] at admitted
    exact absurd admitted List.not_mem_nil

/-- The C library with the default exclusions: parsed at start, looked into by no lookup. -/
example : createPatchobjs ["libc.so".toList] [{plugin with name := "/lib/libc.so.6".toList}] ≠ [] ∧
    searchedByName ["libc.so".toList] [{plugin with name := "/lib/libc.so.6".toList}] = [] ∧
    searchedByAddr ["libc.so".toList] [{plugin with name := "/lib/libc.so.6".toList}] = [] := by decide

end SelfPropelled.Parser
