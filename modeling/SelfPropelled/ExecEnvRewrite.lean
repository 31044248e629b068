import SelfPropelled.ExecEnv

/-! What `SetEnvs` makes of a caller's environment, and for which environments
and settings of the agent that is a sound environment with the agent in it. -/

namespace SelfPropelled.ExecEnv
open Environment

/-- The loader takes colons and spaces between preloaded libraries. -/
def preloadSep (c : Char) : Bool := c == ':' || c == ' '

/-- It takes colons and semicolons between library directories. -/
def librarySep (c : Char) : Bool := c == ':' || c == ';'

def settings : List String := ["PLATFORM","SP_AGENT_DIR","SP_DIR"]

/-- The array in front of its terminator is an environment that keeps what the
caller passes, with the agent in it. -/
structure Rewritten (p : Process) (env : List Str) (slots : List Slot) : Prop where
  initialised : ∀ s ∈ slots, s.value.isSome = true
  bounded : slots.length < 1024
  uncut : ∀ text, .buffer text ∈ slots → text.length < bufferSize
  kept : ∀ e ∈ env, ∃ v ∈ values slots, v = e ∨ ∃ w, v = e ++ ':' :: w
  preload : ∃ v dir, getenv (values slots) "LD_PRELOAD" = some v ∧ p.getenv "SP_AGENT_DIR" = some dir ∧
    dir ++ '/' :: p.agentName ∈ entries preloadSep v ∧
    ∀ u, getenv env "LD_PRELOAD" = some u → entries preloadSep u ⊆ entries preloadSep v
  libraryPath : ∃ v dir spDir platform dyninst, getenv (values slots) "LD_LIBRARY_PATH" = some v ∧
    p.getenv "SP_AGENT_DIR" = some dir ∧ p.getenv "SP_DIR" = some spDir ∧
    p.getenv "PLATFORM" = some platform ∧ p.getenv "SP_DYNINST_DIR" = some dyninst ∧
    [dir,spDir ++ '/' :: platform,dyninst] ⊆ entries librarySep v ∧
    ∀ u, getenv env "LD_LIBRARY_PATH" = some u → entries librarySep u ⊆ entries librarySep v
  present : ∀ name ∈ settings, ∃ v, getenv (values slots) name = some v ∧
    (getenv env name = some v ∨ p.getenv name = some v)

def EnvsRewritten (p : Process) (envs : Option (List Str)) : Prop :=
  ∃ slots, setEnvs p envs = slots ++ [.null] ∧ Rewritten p (envs.getD []) slots

/-- The variables that are added where the caller does not define them. -/
def agentVars (p : Process) : List (String × Str) :=
  [("LD_PRELOAD",p.agentPath),("LD_LIBRARY_PATH",p.agentDirs),("PLATFORM",p.printed "PLATFORM"),
    ("SP_AGENT_DIR",p.printed "SP_AGENT_DIR"),("SP_DIR",p.printed "SP_DIR")]

/-- The environments and settings that `SetEnvs` can serve: the agent's variables
are set, without separators in them; the caller defines none of the three that
the loop skips; the array and its buffers are large enough. -/
structure Fits (p : Process) (env : List Str) : Prop where
  set : ∀ name ∈ ["SP_AGENT_DIR","SP_DIR","PLATFORM","SP_DYNINST_DIR"], (p.getenv name).isSome = true
  fresh : ∀ name ∈ settings, ∀ e ∈ env, ¬Defines name e
  room : env.length + (agentVars p).countP (fun q => getenv env q.1 = none) +
    (if (p.getenv "SP_IPC").isSome then 1 else 0) +
    (if (p.getenv "SP_FDEBUG").isSome then 1 else 0) < 1024
  preload : ∀ e ∈ env, Defines "LD_PRELOAD" e → e.length + 1 + p.agentPath.length < bufferSize
  library : ∀ e ∈ env, Defines "LD_LIBRARY_PATH" e → e.length + 1 + p.agentDirs.length < bufferSize
  short : ∀ q ∈ agentVars p, getenv env q.1 = none → (key q.1).length + q.2.length < bufferSize
  plain : ∀ c ∈ p.agentPath, preloadSep c = false
  plainDirs : ∀ d ∈ [p.printed "SP_AGENT_DIR",p.printed "SP_DIR" ++ '/' :: p.printed "PLATFORM",
    p.printed "SP_DYNINST_DIR"], ∀ c ∈ d, librarySep c = false

def missing (env : List Str) (q : String × Str) : List Slot :=
  if getenv env q.1 = none then [.buffer (key q.1 ++ q.2)] else []

def flagSlots (p : Process) : List Slot :=
  (if (p.getenv "SP_IPC").isSome then [.buffer "SP_IPC=1".toList] else []) ++
  (if (p.getenv "SP_FDEBUG").isSome then [.buffer "SP_FDEBUG=1".toList] else [])

def added (p : Process) (env : List Str) : List Slot := (agentVars p).flatMap (missing env) ++ flagSlots p

private theorem any_defines (env : List Str) (name : String) :
    (env.any fun e => decide (Defines name e)) = true ↔ getenv env name ≠ none := by
  rw [Ne,getenv_eq_none]
  simp

private theorem missing_eq (env : List Str) (name : String) (v : Str) :
    (if (env.any fun e => decide (Defines name e)) then [] else [Slot.buffer (key name ++ v)]) =
      missing env (name,v) := by
  unfold missing
  by_cases none : getenv env name = none
  · rw [if_pos none,if_neg (by rw [any_defines]; simpa using none)]
  · rw [if_neg none,if_pos ((any_defines env name).mpr none)]

theorem setEnvs_eq (p : Process) (envs : Option (List Str)) :
    setEnvs p envs = (envs.getD []).map (slotOf p) ++ added p (envs.getD []) ++ [.null] := by
  simp only [setEnvs,foldl_scanEntry,Bool.false_or,missing_eq,List.nil_append,added,agentVars,flagSlots,
    List.flatMap_cons,List.flatMap_nil,List.append_nil,List.append_assoc]

def Slot.text : Slot → Str
  | .pointer s => s
  | .buffer text => text
  | _ => []

theorem values_eq_text {slots : List Slot} (initialised : ∀ s ∈ slots, s.value.isSome = true)
    (uncut : ∀ text, .buffer text ∈ slots → text.length < bufferSize) :
    values slots = slots.map Slot.text := by
  induction slots with
  | nil => rfl
  | cons s slots ih =>
    have rest := ih (fun x member => initialised x (by simp [member]))
      fun text member => uncut text (by simp [member])
    have here : s.value = some s.text := by
      cases s with
      | pointer s => rfl
      | buffer text =>
        have short := uncut text (by simp)
        rw [Slot.value,List.take_of_length_le (by omega),Slot.text]
      | hole => exact absurd (initialised .hole (by simp)) (by decide)
      | null => exact absurd (initialised .null (by simp)) (by decide)
    rw [values,List.filterMap_cons,here,List.map_cons,← rest]
    rfl

/-- What a slot hands over is the front of its text, all of it where the buffer holds it. -/
theorem cut_text {s : Slot} {x : Str} (filled : s.value = some x) :
    x <+: s.text ∧ (s.text.length < bufferSize → x = s.text) := by
  cases s with
  | pointer s =>
    cases filled
    exact ⟨List.prefix_refl _,fun _ => rfl⟩
  | buffer text =>
    cases filled
    refine ⟨List.take_prefix _ _,fun short => ?_⟩
    rw [Slot.text] at short ⊢
    exact List.take_of_length_le (by omega)
  | hole => cases filled
  | null => cases filled

/-- A variable that the cutting leaves whole is found, whatever becomes of the others. -/
theorem getenv_cut {slots : List Slot} {name : String} {v : Str}
    (initialised : ∀ s ∈ slots, s.value.isSome = true)
    (found : getenv (slots.map Slot.text) name = some v) (short : (key name).length + v.length < bufferSize) :
    getenv (values slots) name = some v := by
  induction slots with
  | nil => cases found
  | cons s slots ih =>
    have rest := ih fun x member => initialised x (List.mem_cons_of_mem s member)
    obtain ⟨x,filled⟩ := Option.isSome_iff_exists.mp (initialised s List.mem_cons_self)
    obtain ⟨front,whole⟩ := cut_text filled
    rw [values,List.filterMap_cons,filled]
    rw [List.map_cons] at found
    by_cases defined : Defines name s.text
    · obtain ⟨w,same⟩ := defined
      rw [← same,getenv_cons_defines,Option.some.injEq] at found
      have kept : s.text.length < bufferSize := by rwa [← same,found,List.length_append]
      rw [whole kept,← same,found]
      exact getenv_cons_defines name v _
    · rw [getenv_cons_other defined] at found
      exact (getenv_cons_other (fun cut => defined (cut.trans front)) _).trans (rest found)

theorem getenv_flatMap_missing {env : List Str} {vars : List (String × Str)} {name : String} {v : Str}
    (distinct : (vars.map Prod.fst).Nodup) (known : ∀ q ∈ vars, q.1 ∈ managed) (listed : (name,v) ∈ vars)
    (lacking : getenv env name = none) (rest : List Slot) :
    getenv ((vars.flatMap (missing env) ++ rest).map Slot.text) name = some v := by
  induction vars with
  | nil => cases listed
  | cons q vars ih =>
    obtain ⟨fresh,distinct⟩ := List.nodup_cons.mp distinct
    rw [List.flatMap_cons,List.append_assoc]
    rcases List.mem_cons.mp listed with rfl | later
    · rw [missing,if_pos lacking]
      exact getenv_cons_defines name v _
    · have other : q.1 ≠ name := fun same =>
        fresh (same ▸ List.mem_map_of_mem (f := Prod.fst) later)
      have more := ih distinct (fun x member => known x (by simp [member])) later
      unfold missing at more ⊢
      split
      · exact (getenv_cons_other (managed_unlike (known q (by simp)) (known (name,v) (by simp [later])) other q.2)
          _).trans more
      · exact more

theorem agentVars_distinct (p : Process) : ((agentVars p).map Prod.fst).Nodup := by
  simp [agentVars]

theorem agentVars_managed (p : Process) : ∀ q ∈ agentVars p, q.1 ∈ managed := by
  simp [agentVars,managed]

theorem slotOf_text (p : Process) (e : Str) : (slotOf p e).text =
    if Defines "LD_PRELOAD" e then e ++ ':' :: p.agentPath
    else if Defines "LD_LIBRARY_PATH" e then e ++ ':' :: p.agentDirs
    else if Defines "PLATFORM" e ∨ Defines "SP_AGENT_DIR" e ∨ Defines "SP_DIR" e then [] else e := by
  unfold slotOf
  split
  · rfl
  · split
    · rfl
    · split <;> rfl

section
variable {p : Process} {env : List Str}

/-- No hole is left where the caller defines none of the three variables. -/
theorem slotOf_filled (p : Process) {e : Str} (fresh : ∀ name ∈ settings, ¬Defines name e) :
    (slotOf p e).value.isSome = true := by
  unfold slotOf
  split
  · rfl
  · split
    · rfl
    · rw [if_neg]
      · rfl
      · rintro (skipped | skipped | skipped)
        · exact fresh "PLATFORM" (by decide) skipped
        · exact fresh "SP_AGENT_DIR" (by decide) skipped
        · exact fresh "SP_DIR" (by decide) skipped

theorem Fits.slotShort (fits : Fits p env) {e : Str} (listed : e ∈ env) {text : Str}
    (stored : slotOf p e = .buffer text) : text.length < bufferSize := by
  unfold slotOf at stored
  split at stored
  next preload =>
    cases stored
    have short := fits.preload e listed preload
    simp only [List.length_append,List.length_cons]
    omega
  next =>
    split at stored
    next library =>
      cases stored
      have short := fits.library e listed library
      simp only [List.length_append,List.length_cons]
      omega
    next =>
      split at stored
      next => cases stored
      next => cases stored

theorem mem_missing {q : String × Str} {s : Slot} (member : s ∈ missing env q) :
    getenv env q.1 = none ∧ s = .buffer (key q.1 ++ q.2) := by
  unfold missing at member
  split at member
  next lacking => exact ⟨lacking,List.mem_singleton.mp member⟩
  next => cases member

theorem mem_flagSlots {s : Slot} (member : s ∈ flagSlots p) :
    ∃ text, s = .buffer text ∧ text.length < bufferSize := by
  unfold flagSlots at member
  rcases List.mem_append.mp member with ipc | debug
  · split at ipc
    · exact ⟨_,List.mem_singleton.mp ipc,by decide⟩
    · cases ipc
  · split at debug
    · exact ⟨_,List.mem_singleton.mp debug,by decide⟩
    · cases debug

theorem Fits.addedShort (fits : Fits p env) {s : Slot} (member : s ∈ added p env) :
    ∃ text, s = .buffer text ∧ text.length < bufferSize := by
  rcases List.mem_append.mp member with var | flag
  · obtain ⟨q,listed,stored⟩ := List.mem_flatMap.mp var
    obtain ⟨lacking,rfl⟩ := mem_missing stored
    refine ⟨_,rfl,?_⟩
    rw [List.length_append]
    exact fits.short q listed lacking
  · exact mem_flagSlots flag

theorem filled_rewritten (p : Process) (fresh : ∀ name ∈ settings, ∀ e ∈ env, ¬Defines name e) :
    ∀ s ∈ env.map (slotOf p) ++ added p env, s.value.isSome = true := by
  intro s member
  rcases List.mem_append.mp member with loop | more
  · obtain ⟨e,listed,rfl⟩ := List.mem_map.mp loop
    exact slotOf_filled p fun name known => fresh name known e listed
  · rcases List.mem_append.mp more with var | flag
    · obtain ⟨_,_,stored⟩ := List.mem_flatMap.mp var
      obtain ⟨_,rfl⟩ := mem_missing stored
      rfl
    · obtain ⟨_,rfl,_⟩ := mem_flagSlots flag
      rfl

theorem length_added (p : Process) (env : List Str) : (added p env).length =
    (agentVars p).countP (fun q => getenv env q.1 = none) + (if (p.getenv "SP_IPC").isSome then 1 else 0) +
      (if (p.getenv "SP_FDEBUG").isSome then 1 else 0) := by
  have count : ∀ vars : List (String × Str), (vars.flatMap (missing env)).length =
      vars.countP (fun q => getenv env q.1 = none) := by
    intro vars
    induction vars with
    | nil => rfl
    | cons q vars ih =>
      rw [List.flatMap_cons,List.length_append,ih,List.countP_cons,missing]
      by_cases lacking : getenv env q.1 = none <;> simp [lacking,Nat.add_comm]
  rw [added,List.length_append,count,flagSlots,List.length_append]
  split <;> split <;> simp

theorem length_rewritten (p : Process) (env : List Str) : (env.map (slotOf p) ++ added p env).length =
    env.length + (agentVars p).countP (fun q => getenv env q.1 = none) +
      (if (p.getenv "SP_IPC").isSome then 1 else 0) + (if (p.getenv "SP_FDEBUG").isSome then 1 else 0) := by
  rw [List.length_append,List.length_map,length_added]
  omega

theorem slotOf_other (p : Process) {name : String} {e : Str} (known : name ∈ managed) (other : ¬Defines name e) :
    ¬Defines name (slotOf p e).text := by
  have extended : ∀ longer ∈ managed, Defines longer e → ∀ w, ¬Defines name (e ++ w) := by
    intro longer member defined w
    have different : longer ≠ name := fun same => other (same ▸ defined)
    obtain ⟨v,rfl⟩ := defined
    rw [List.append_assoc]
    exact managed_unlike member known different (v ++ w)
  rw [slotOf_text]
  split
  next preload => exact extended _ (by decide) preload _
  next =>
    split
    next library => exact extended _ (by decide) library _
    next =>
      split
      next => simp [Defines,key]
      next => exact other

theorem getenv_loop_preload (p : Process) (env : List Str) :
    getenv ((env.map (slotOf p)).map Slot.text) "LD_PRELOAD" =
      (getenv env "LD_PRELOAD").map (· ++ ':' :: p.agentPath) := by
  rw [List.map_map]
  refine getenv_map (fun v _ => ?_) fun e _ other => slotOf_other p (by decide) other
  rw [Function.comp_apply,slotOf_text,if_pos ⟨v,rfl⟩,List.append_assoc]

theorem getenv_loop_library (p : Process) (env : List Str) :
    getenv ((env.map (slotOf p)).map Slot.text) "LD_LIBRARY_PATH" =
      (getenv env "LD_LIBRARY_PATH").map (· ++ ':' :: p.agentDirs) := by
  rw [List.map_map]
  refine getenv_map (fun v _ => ?_) fun e _ other => slotOf_other p (by decide) other
  rw [Function.comp_apply,slotOf_text,if_neg (managed_unlike (by decide) (by decide) (by decide) v),
    if_pos ⟨v,rfl⟩,List.append_assoc]

theorem getenv_loop_fresh (p : Process) {env : List Str} {name : String} (known : name ∈ managed)
    (lacking : getenv env name = none) : getenv ((env.map (slotOf p)).map Slot.text) name = none := by
  rw [getenv_eq_none]
  intro e member
  obtain ⟨s,stored,rfl⟩ := List.mem_map.mp member
  obtain ⟨e,listed,rfl⟩ := List.mem_map.mp stored
  exact slotOf_other p known (getenv_eq_none.mp lacking e listed)

theorem getenv_added {name : String} {v : Str} (listed : (name,v) ∈ agentVars p)
    (lacking : getenv env name = none) : getenv ((added p env).map Slot.text) name = some v :=
  getenv_flatMap_missing (agentVars_distinct p) (agentVars_managed p) listed lacking (flagSlots p)

theorem getenv_rewritten {name : String} {mine : Str} (listed : (name,mine) ∈ agentVars p)
    (loop : getenv ((env.map (slotOf p)).map Slot.text) name = (getenv env name).map (· ++ ':' :: mine)) :
    getenv ((env.map (slotOf p) ++ added p env).map Slot.text) name =
      some (((getenv env name).map (· ++ ':' :: mine)).getD mine) := by
  rw [List.map_append,getenv_append,loop]
  cases given : getenv env name with
  | none => rw [getenv_added listed given]; rfl
  | some u => rfl

theorem entries_rewritten (sep : Char → Bool) (colon : sep ':' = true) (given : Option Str) (mine : Str) :
    entries sep mine ⊆ entries sep ((given.map (· ++ ':' :: mine)).getD mine) ∧
      ∀ u, given = some u → entries sep u ⊆ entries sep ((given.map (· ++ ':' :: mine)).getD mine) := by
  cases given with
  | none => exact ⟨List.Subset.refl _,by simp⟩
  | some u =>
    rw [Option.map_some,Option.getD_some,entries_append colon]
    refine ⟨List.subset_append_right _ _,fun w same => ?_⟩
    cases same
    exact List.subset_append_left _ _

theorem Fits.rewritten (fits : Fits p env) : Rewritten p env (env.map (slotOf p) ++ added p env) := by
  have initialised := filled_rewritten p fits.fresh
  have uncut : ∀ text, .buffer text ∈ env.map (slotOf p) ++ added p env → text.length < bufferSize := by
    intro text member
    rcases List.mem_append.mp member with loop | more
    · obtain ⟨e,listed,same⟩ := List.mem_map.mp loop
      exact fits.slotShort listed same
    · obtain ⟨_,same,short⟩ := fits.addedShort more
      cases same
      exact short
  have texts := values_eq_text initialised uncut
  have own (name : String) (listed : name ∈ ["SP_AGENT_DIR","SP_DIR","PLATFORM","SP_DYNINST_DIR"]) :
      p.getenv name = some (p.printed name) := by
    obtain ⟨v,set⟩ := Option.isSome_iff_exists.mp (fits.set name listed)
    rw [Process.printed,set,Option.getD_some]
  refine ⟨initialised,?_,uncut,fun e listed => ?_,?_,?_,fun name listed => ?_⟩
  · rw [length_rewritten]
    exact fits.room
  · rw [texts]
    refine ⟨(slotOf p e).text,List.mem_map_of_mem (List.mem_append_left _ (List.mem_map_of_mem listed)),?_⟩
    rw [slotOf_text]
    split
    · exact .inr ⟨_,rfl⟩
    · split
      · exact .inr ⟨_,rfl⟩
      · rw [if_neg]
        · exact .inl rfl
        · rintro (skipped | skipped | skipped)
          · exact fits.fresh "PLATFORM" (by decide) e listed skipped
          · exact fits.fresh "SP_AGENT_DIR" (by decide) e listed skipped
          · exact fits.fresh "SP_DIR" (by decide) e listed skipped
  · obtain ⟨mine,theirs⟩ := entries_rewritten preloadSep (by decide) (getenv env "LD_PRELOAD") p.agentPath
    refine ⟨_,p.printed "SP_AGENT_DIR",?_,own _ (by decide),mine ?_,theirs⟩
    · rw [texts]
      exact getenv_rewritten (by simp [agentVars]) (getenv_loop_preload p env)
    · rw [entries_single fits.plain]
      exact List.mem_singleton.mpr rfl
  · obtain ⟨mine,theirs⟩ :=
      entries_rewritten librarySep (by decide) (getenv env "LD_LIBRARY_PATH") p.agentDirs
    refine ⟨_,_,_,_,_,?_,own _ (by decide),own _ (by decide),own _ (by decide),own _ (by decide),
      List.Subset.trans ?_ mine,theirs⟩
    · rw [texts]
      exact getenv_rewritten (by simp [agentVars]) (getenv_loop_library p env)
    · have dirs := fits.plainDirs
      rw [Process.agentDirs,entries_append (by decide),entries_append (by decide),
        entries_single (dirs _ (by simp)),entries_single (dirs _ (by simp)),entries_single (dirs _ (by simp))]
      exact List.Subset.refl _
  · have lacking : getenv env name = none := getenv_eq_none.mpr (fits.fresh name listed)
    have known : name ∈ managed ∧ (name,p.printed name) ∈ agentVars p ∧
        name ∈ ["SP_AGENT_DIR","SP_DIR","PLATFORM","SP_DYNINST_DIR"] := by
      simp only [settings,List.mem_cons,List.not_mem_nil,or_false] at listed
      rcases listed with rfl | rfl | rfl <;> simp [managed,agentVars]
    refine ⟨p.printed name,?_,.inr (own name known.2.2)⟩
    rw [texts,List.map_append,getenv_append,getenv_loop_fresh p known.1 lacking,
      getenv_added known.2.1 lacking]
    rfl

theorem Rewritten.fits (good : Rewritten p env (env.map (slotOf p) ++ added p env)) : Fits p env := by
  obtain ⟨_,dir,_,dirSet,member,_⟩ := good.preload
  obtain ⟨_,dir',spDir,platform,dyninst,_,dirSet',spDirSet,platformSet,dyninstSet,members,_⟩ := good.libraryPath
  have dirText : p.printed "SP_AGENT_DIR" = dir := by rw [Process.printed,dirSet,Option.getD_some]
  have dirText' : p.printed "SP_AGENT_DIR" = dir' := by rw [Process.printed,dirSet',Option.getD_some]
  have spDirText : p.printed "SP_DIR" = spDir := by rw [Process.printed,spDirSet,Option.getD_some]
  have platformText : p.printed "PLATFORM" = platform := by rw [Process.printed,platformSet,Option.getD_some]
  have dyninstText : p.printed "SP_DYNINST_DIR" = dyninst := by rw [Process.printed,dyninstSet,Option.getD_some]
  have stored : ∀ e ∈ env, slotOf p e ∈ env.map (slotOf p) ++ added p env :=
    fun e listed => List.mem_append_left _ (List.mem_map_of_mem listed)
  refine ⟨?_,?_,?_,?_,?_,?_,?_,?_⟩
  · simp [dirSet,spDirSet,platformSet,dyninstSet]
  · intro name listed e there defined
    have known : name ∈ managed ∧ name ≠ "LD_PRELOAD" ∧ name ≠ "LD_LIBRARY_PATH" := by
      simp only [settings,List.mem_cons,List.not_mem_nil,or_false] at listed
      rcases listed with rfl | rfl | rfl <;> simp [managed]
    have skipped : Defines "PLATFORM" e ∨ Defines "SP_AGENT_DIR" e ∨ Defines "SP_DIR" e := by
      simp only [settings,List.mem_cons,List.not_mem_nil,or_false] at listed
      rcases listed with rfl | rfl | rfl
      · exact .inl defined
      · exact .inr (.inl defined)
      · exact .inr (.inr defined)
    have filled := good.initialised _ (stored e there)
    rw [slotOf,if_neg (others_undefined known.1 defined _ (by decide) known.2.1),
      if_neg (others_undefined known.1 defined _ (by decide) known.2.2),if_pos skipped] at filled
    cases filled
  · rw [← length_rewritten]
    exact good.bounded
  · intro e listed preload
    have short := good.uncut (e ++ ':' :: p.agentPath) (by
      have slot := stored e listed
      rwa [slotOf,if_pos preload] at slot)
    simp only [List.length_append,List.length_cons] at short
    omega
  · intro e listed library
    have short := good.uncut (e ++ ':' :: p.agentDirs) (by
      have slot := stored e listed
      rwa [slotOf,if_neg (others_undefined (by decide) library _ (by decide) (by decide)),if_pos library] at slot)
    simp only [List.length_append,List.length_cons] at short
    omega
  · intro q listed lacking
    rw [← List.length_append]
    refine good.uncut _ (List.mem_append_right _ (List.mem_append_left _ (List.mem_flatMap.mpr ⟨q,listed,?_⟩)))
    rw [missing,if_pos lacking]
    exact List.mem_singleton.mpr rfl
  · rw [Process.agentPath,dirText]
    exact plain_of_mem_entries member
  · intro d listed
    rw [dirText',spDirText,platformText,dyninstText] at listed
    exact plain_of_mem_entries (members listed)

end

/-- `SetEnvs` hands over a sound environment exactly for the environments and
settings that it can serve. -/
theorem setEnvs_rewrites_iff (p : Process) (envs : Option (List Str)) :
    EnvsRewritten p envs ↔ Fits p (envs.getD []) := by
  refine ⟨fun ⟨slots,made,good⟩ => ?_,fun fits => ⟨_,setEnvs_eq p envs,fits.rewritten⟩⟩
  rw [setEnvs_eq] at made
  obtain rfl := List.append_cancel_right made
  exact good.fits

def agentProcess : Process where
  getenv name :=
    if name ∈ ["SP_AGENT_DIR","SP_DIR","PLATFORM","SP_DYNINST_DIR"] then some "/spi".toList else none
  context := none

/-- A caller that passes its own `PLATFORM` on leaves a hole in the array. -/
theorem setEnvs_hole : .hole ∈ setEnvs agentProcess (some ["PLATFORM=x86_64".toList]) ∧
    ¬EnvsRewritten agentProcess (some ["PLATFORM=x86_64".toList]) := by
  refine ⟨by decide +kernel,fun good => ?_⟩
  have fits := (setEnvs_rewrites_iff _ _).mp good
  exact fits.fresh "PLATFORM" (by decide) "PLATFORM=x86_64".toList (by simp) ⟨"x86_64".toList,by decide⟩

end SelfPropelled.ExecEnv
