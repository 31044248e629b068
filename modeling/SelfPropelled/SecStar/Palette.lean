import SelfPropelled.Library.Fallible
import SelfPropelled.SecStar.Figures

/-! What the letters and colours of a figure tell apart: executables, unless one of them has no
letter of its own left, and the user root from all others. -/

namespace SelfPropelled.SecStar
open Library

namespace Names
variable {lower : Char → Str} {n n' : Names} {exe initial : Str}

/-- All letters of the executable are those of others. -/
def Exhausted (lower : Char → Str) (n : Names) (exe : Str) : Prop :=
  ∀ c ∈ strippedExe exe, ∃ other, other ≠ exe ∧ n.exeInitial.get other = some (lower c)

/-- The legend has a line for every letter that was given, each line is right, and two executables
have a letter in common only where one of them has none of its own. -/
structure Lettered (lower : Char → Str) (n : Names) : Prop where
  told : ∀ initial exe, n.initialExe.get initial = some exe → n.exeInitial.get exe = some initial
  listed : ∀ exe initial, n.exeInitial.get exe = some initial → (n.initialExe.get initial).isSome = true
  apart : ∀ exe other initial, n.exeInitial.get exe = some initial → n.exeInitial.get other = some initial →
    exe = other ∨ n.Exhausted lower exe ∨ n.Exhausted lower other

/-- The colour whose turn it is after so many users. -/
def turn (count : Nat) : Fin 3 := ⟨count % 3,Nat.mod_lt count (Nat.succ_pos 2)⟩

/-- The users other than root take the three colours in turn. -/
def Cycled (n : Names) : Prop :=
  ∃ users : List (Option Str), users.Nodup ∧ some "root".toList ∉ users ∧
    n.uidColor = (some "root".toList,.red) :: users.zipIdx.map (fun u => (u.1,colorList (turn u.2))) ∧
    n.colorCur = turn users.length

theorem Exhausted.mono (out : n.Exhausted lower exe) (le : n.Le n') : n'.Exhausted lower exe := by
  intro c its
  obtain ⟨other,differ,given⟩ := out c its
  exact ⟨other,differ,le.letters _ _ given⟩

theorem taken_told (lettered : n.Lettered lower) (busy : n.taken exe initial = true) :
    ∃ other, other ≠ exe ∧ n.exeInitial.get other = some initial := by
  unfold taken at busy
  cases found : n.initialExe.get initial with
  | none => simp [found] at busy
  | some other =>
    rw [found] at busy
    exact ⟨other,by simpa using busy,lettered.told initial other found⟩

/-- The letter that is found is free, or all are taken. -/
theorem search_spec {first : Str} {rest : Str} (found : search lower n exe first rest = some initial) :
    n.taken exe initial = false ∨ n.taken exe first = true ∧ ∀ c ∈ rest, n.taken exe (lower c) = true := by
  induction rest generalizing first with
  | nil =>
    unfold search at found
    split_ifs at found with taken
    cases found
    exact .inl (by simpa using taken)
  | cons c rest ih =>
    cases busy : n.taken exe first with
    | false =>
      cases rest <;> simp only [search,busy] at found <;> cases found <;> exact .inl busy
    | true =>
      cases rest with
      | nil =>
        simp only [search,busy,if_true,Option.some.injEq] at found
        subst found
        cases last : n.taken exe (lower c) with
        | false => exact .inl rfl
        | true => exact .inr ⟨rfl,by simpa using last⟩
      | cons c' rest =>
        simp only [search,busy,if_true] at found
        rcases ih found with free | ⟨here,later⟩
        · exact .inl free
        · refine .inr ⟨rfl,fun x member => ?_⟩
          rcases List.mem_cons.mp member with rfl | further
          · exact here
          · exact later x further

/-- The names with a new letter for an executable. -/
def lettering (n : Names) (exe initial : Str) : Names :=
  {n with initialExe := n.initialExe.set initial exe, exeInitial := n.exeInitial.set exe initial}

/-- A letter that another executable has was found after all others. -/
theorem Lettered.clash {c : Char} {rest other : Str} (lettered : n.Lettered lower) (known : n.exeInitial.get exe = none)
    (left : strippedExe exe = c :: rest) (found : search lower n exe (lower c) rest = some initial)
    (given : n.exeInitial.get other = some initial) : n.Exhausted lower exe := by
  obtain ⟨owner,there⟩ := Option.isSome_iff_exists.mp (lettered.listed other initial given)
  have differs : owner ≠ exe := by
    rintro rfl
    have told := lettered.told initial owner there
    rw [known] at told
    cases told
  have taken : n.taken exe initial = true := by
    rw [Names.taken,there]
    simpa using differs
  rcases search_spec found with free | ⟨first,later⟩
  · rw [taken] at free
    cases free
  · intro c' its
    rw [left] at its
    rcases List.mem_cons.mp its with rfl | further
    · exact taken_told lettered first
    · exact taken_told lettered (later c' further)

theorem Lettered.lettering (lettered : n.Lettered lower) (known : n.exeInitial.get exe = none)
    (le : n.Le (n.lettering exe initial))
    (clash : ∀ other, n.exeInitial.get other = some initial → n.Exhausted lower exe) :
    (n.lettering exe initial).Lettered lower where
  told := by
    intro initial' exe' there
    dsimp only [Names.lettering] at there ⊢
    rw [Dict.get_set] at there ⊢
    split_ifs at there with same
    · cases there
      rw [if_pos rfl,same]
    · have told := lettered.told initial' exe' there
      have other : exe ≠ exe' := by
        rintro rfl
        rw [known] at told
        cases told
      rw [if_neg other]
      exact told
  listed := by
    intro exe' initial' given
    dsimp only [Names.lettering] at given ⊢
    rw [Dict.get_set] at given ⊢
    split_ifs with same
    · rfl
    · split_ifs at given with here
      · cases given
        exact absurd rfl same
      · exact lettered.listed exe' initial' given
  apart := by
    intro exe₁ exe₂ initial' first second
    dsimp only [Names.lettering] at first second
    rw [Dict.get_set] at first second
    split_ifs at first with here
    · cases first
      subst here
      split_ifs at second with there
      · exact .inl there
      · exact .inr (.inl ((clash exe₂ second).mono le))
    · split_ifs at second with there
      · cases second
        subst there
        exact .inr (.inr ((clash exe₁ first).mono le))
      · rcases lettered.apart exe₁ exe₂ initial' first second with same | out | out
        · exact .inl same
        · exact .inr (.inl (out.mono le))
        · exact .inr (.inr (out.mono le))

theorem Lettered.getExeInitial (lettered : n.Lettered lower) (done : n.getExeInitial lower exe = some (initial,n')) :
    n'.Lettered lower := by
  have le := (getExeInitial_spec done).1
  unfold Names.getExeInitial at done
  cases known : n.exeInitial.get exe with
  | some letter =>
    rw [known] at done
    cases done
    exact lettered
  | none =>
    rw [known] at done
    cases left : strippedExe exe with
    | nil => simp [left] at done
    | cons c rest =>
      simp only [left,Option.map_eq_some_iff] at done
      obtain ⟨letter,found,made⟩ := done
      cases made
      exact lettered.lettering known le fun other given => lettered.clash known left found given

theorem Lettered.getColor (lettered : n.Lettered lower) (uid : Option Str) : (n.getColor uid).2.Lettered lower := by
  unfold Names.getColor
  cases n.uidColor.get uid with
  | some color => exact lettered
  | none => exact ⟨lettered.told,lettered.listed,lettered.apart⟩

theorem Cycled.getExeInitial (cycled : n.Cycled) (done : n.getExeInitial lower exe = some (initial,n')) : n'.Cycled := by
  unfold Names.getExeInitial at done
  cases known : n.exeInitial.get exe with
  | some letter =>
    rw [known] at done
    cases done
    exact cycled
  | none =>
    rw [known] at done
    cases left : strippedExe exe with
    | nil => simp [left] at done
    | cons c rest =>
      simp only [left,Option.map_eq_some_iff] at done
      obtain ⟨letter,_,made⟩ := done
      cases made
      exact cycled

theorem Cycled.getColor (cycled : n.Cycled) (uid : Option Str) : (n.getColor uid).2.Cycled := by
  unfold Names.getColor
  cases known : n.uidColor.get uid with
  | some color => exact cycled
  | none =>
    obtain ⟨users,nodup,root,colours,cur⟩ := cycled
    have keys : uid ∉ some "root".toList :: users := by
      have absent : (n.uidColor.get uid).isSome ≠ true := by simp [known]
      rw [Ne,Dict.get_isSome,colours] at absent
      simpa [List.map_map,Function.comp_def] using absent
    obtain ⟨not_root,fresh⟩ := not_or.mp (fun either => keys (List.mem_cons.mpr either))
    refine ⟨users ++ [uid],?_,?_,?_,?_⟩
    · exact List.nodup_append.mpr ⟨nodup,List.nodup_singleton uid,fun u member v last => by
        rw [List.mem_singleton.mp last]
        exact fun same => fresh (same ▸ member)⟩
    · rw [List.mem_append,List.mem_singleton]
      exact fun either => either.elim root fun same => not_root same.symm
    · dsimp only
      rw [Dict.set_fresh known,colours,List.zipIdx_append,List.map_append,List.cons_append,cur]
      simp
    · dsimp only
      rw [cur,List.length_append,List.length_singleton]
      apply Fin.ext
      simp [turn,Fin.add_def]

theorem Cycled.red (cycled : n.Cycled) {uid : Option Str} {color : Colour} (given : n.uidColor.get uid = some color) :
    color = .red ↔ uid = some "root".toList := by
  obtain ⟨users,nodup,root,colours,_⟩ := cycled
  rw [colours,Dict.get] at given
  split_ifs at given with same
  · cases given
    exact ⟨fun _ => same.symm,fun _ => rfl⟩
  · refine iff_of_false ?_ (Ne.symm same)
    obtain ⟨u,_,made⟩ := List.mem_map.mp (Dict.get_mem given)
    cases made
    generalize turn u.2 = k
    revert k
    decide

end Names

section
variable {a : Artist} {es : List Event} {s s' : Canvas} {P : Names → Prop}

/-- What each letter and each colour that is given keeps. -/
structure Steady (a : Artist) (P : Names → Prop) : Prop where
  letter : ∀ n exe initial n', P n → n.getExeInitial a.lower exe = some (initial,n') → P n'
  colour : ∀ n uid, P n → P (n.getColor uid).2

theorem Steady.create (steady : Steady a P) {n n' : Names} {t : Trace} {f : Face} (held : P n)
    (done : n.create a.lower t = some (f,n')) : P n' := by
  obtain ⟨⟨letter,n₁⟩,given,made⟩ := Option.map_eq_some_iff.mp done
  cases made
  exact steady.colour n₁ t.initEuid (steady.letter _ _ _ _ held given)

theorem Steady.repaint (steady : Steady a P) {n n' : Names} {c : Change} {f f' : Face} (held : P n)
    (done : n.repaint a.lower c f = some (f',n')) : P n' := by
  obtain ⟨⟨letter,n₁⟩,given,made⟩ := Option.map_eq_some_iff.mp done
  cases made
  have first : P n₁ := by
    unfold Names.setLabel at given
    cases exe : c.exe with
    | none =>
      rw [exe] at given
      cases given
      exact held
    | some exe =>
      rw [exe] at given
      exact steady.letter _ _ _ _ held given
  unfold Names.setFillcolor
  cases c.uid with
  | none => exact first
  | some uid => exact steady.colour n₁ (some uid) first

theorem Steady.getNode (steady : Steady a P) {key : Str} {c : Change} (held : P s.names)
    (done : a.getNode key c s = some s') : P s'.names := by
  obtain ⟨t,face,style,names,face',names',_,base,paint,rfl⟩ := getNode_eq done
  apply steady.repaint _ paint
  unfold Artist.base at base
  cases old : s.nodeMap.get key with
  | some node =>
    rw [old] at base
    cases base
    exact held
  | none =>
    rw [old] at base
    obtain ⟨⟨f,n⟩,created,made⟩ := Option.map_eq_some_iff.mp base
    cases made
    exact steady.create held created

theorem Steady.perform (steady : Steady a P) {act : Action} (held : P s.names) (done : a.perform s act = some s') :
    P s'.names := by
  cases act with
  | node key c => exact steady.getNode held done
  | fileNode key name =>
    cases done
    exact held
  | edge arc =>
    cases done
    exact held
  | hide key =>
    obtain ⟨s₁,got,hidden⟩ := Option.bind_eq_some_iff.mp done
    rw [(Canvas.hideNode_restyled hidden).names]
    exact steady.getNode held got

theorem Steady.replay (steady : Steady a P) {e : Event} {lit : Bool} (held : P s.names) (done : a.replay lit s e = some s') :
    P s'.names := by
  obtain ⟨acts,_,ran⟩ := Option.bind_eq_some_iff.mp done
  apply kept_foldlM (K := fun s => P s.names) (fun s act s' held done => ?_) held ran
  obtain ⟨s₁,performed,made⟩ := Option.map_eq_some_iff.mp done
  rw [← made,(Canvas.present_restyled lit act).names]
  exact steady.perform held performed

theorem Steady.playFrame (steady : Steady a P) {i : Nat} (held : P s.names) (done : a.playFrame es i s = some s') :
    P s'.names := by
  simp only [Artist.playFrame,Option.bind_eq_bind,Option.bind_eq_some_iff] at done
  obtain ⟨e,_,s₁,before,last⟩ := done
  apply steady.replay _ last
  exact kept_foldlM (K := fun s => P s.names) (fun _ _ _ held done => steady.replay held done) held before

theorem Steady.drawStatic (steady : Steady a P) (start : P Names.start) (done : a.drawStatic es = some s) : P s.names :=
  kept_foldlM (K := fun s => P s.names) (fun _ _ _ held done => steady.perform held done) start done

theorem Steady.drawAnimation (steady : Steady a P) (start : P Names.start) {i : Nat} (done : a.drawAnimation es i = some s) :
    P s.names := by
  induction i generalizing s with
  | zero =>
    obtain ⟨s₀,drawn,played⟩ := Option.bind_eq_some_iff.mp done
    have first : P s₀.names := steady.drawStatic start drawn
    exact steady.playFrame (s := s₀.makeAllInvisible.buildNodeEdgesMap) first played
  | succ i ih =>
    obtain ⟨s₁,before,played⟩ := Option.bind_eq_some_iff.mp done
    exact steady.playFrame (ih before) played

end

/-! The figures that are written. -/

def Tip.exe : Tip → Option Str
  | .process _ exe .. | .group _ exe .. => some exe
  | .file _ => none

def Tip.user : Tip → Option (Option Str)
  | .process _ _ user .. | .group _ _ user .. => some user
  | .file _ => none

/-- The static figure of some events, or a frame of their animation. -/
def Artist.Figure (a : Artist) (es : List Event) (s : Canvas) : Prop :=
  a.drawStatic es = some s ∨ ∃ i, a.drawAnimation es i = some s

section
variable {a : Artist} {es : List Event} {s : Canvas} {P : Names → Prop}

theorem dress_tells (a : Artist) (t : Trace) (pid : Str) (cur : Attrs) (face : Face) (style : Style) :
    (a.dress t pid cur face style).tooltip.exe = some cur.exe ∧ (a.dress t pid cur face style).tooltip.user = some cur.euid := by
  unfold Artist.dress
  cases a.group t <;> exact ⟨rfl,rfl⟩

theorem present_tells (lit : Bool) (n : DotNode) : (n.present lit).toFace = n.toFace ∧ (n.present lit).tooltip = n.tooltip := by
  cases lit <;> exact ⟨rfl,rfl⟩

/-- The letter and the colour of a process are those of what its tooltip tells. -/
theorem figure_tells (figure : a.Figure es s) {key : Str} {n : DotNode} (only : OnlyProcess es key)
    (seen : s.picture.node key = some n) :
    ∃ exe user, n.tooltip.exe = some exe ∧ n.tooltip.user = some user ∧
      s.names.exeInitial.get exe = some n.label ∧ s.names.uidColor.get user = some n.fillcolor := by
  rcases figure with drawn | ⟨i,done⟩
  · obtain ⟨sound,held,_,nodes,_⟩ := static_spec drawn
    rw [held.picture] at seen
    obtain ⟨e,of_es,its⟩ := (nodes key).mp (Option.isSome_of_eq_some seen)
    have is_key : '@' ∈ key := at_mem_processes (shown_process of_es only its)
    obtain ⟨t,face,_,rfl⟩ := held.process key n only is_key seen
    have shows := sound.process key _ is_key seen only
    obtain ⟨exe,user⟩ := dress_tells a t (partitionAt key).1 (s.cur (partitionAt key)) face .filled
    exact ⟨_,_,exe,user,shows.label,shows.fillcolor⟩
  · obtain ⟨s₀,_,showing,_⟩ := drawAnimation_showing done
    have nodes : ((a.finished es).run (leads (arcsOf es)) (a.script es i)).nodes =
        (a.blank.run everyEdge (a.script es i)).nodes := finished_nodes a es i
    cases mark : ((a.finished es).run (leads (arcsOf es)) (a.script es i)).nodes key with
    | none =>
      have holds := showing.depicts.node key
      rw [mark] at holds
      obtain ⟨there,filled⟩ := Option.filter_eq_some_iff.mp seen
      rw [holds n there] at filled
      cases filled
    | some mark' =>
      cases mark' with
      | process lit =>
        obtain ⟨t,face,style,_,_,shows,drawn⟩ := picture_process showing mark
        have shows := shows only
        rw [drawn] at seen
        obtain ⟨exe,user⟩ := dress_tells a t (partitionAt key).1
          (((a.finished es).run (leads (arcsOf es)) (a.script es i)).attrs (partitionAt key)) face style
        obtain ⟨same,tip⟩ := present_tells lit (a.dress t (partitionAt key).1
          (((a.finished es).run (leads (arcsOf es)) (a.script es i)).attrs (partitionAt key)) face style)
        rw [Option.some_inj.mp seen] at same tip
        rw [dress_face] at same
        rw [← tip] at exe user
        rw [← same] at shows
        exact ⟨_,_,exe,user,shows.label,shows.fillcolor⟩
      | file name lit =>
        rw [nodes] at mark
        obtain ⟨e,member,its⟩ := inView_file mark
        exact absurd its (only e member)

theorem figure_names (figure : a.Figure es s) (steady : Steady a P) (start : P Names.start) : P s.names := by
  rcases figure with drawn | ⟨i,done⟩
  · exact steady.drawStatic start drawn
  · exact steady.drawAnimation start done

end

theorem lettered_steady (a : Artist) : Steady a fun n => n.Lettered a.lower :=
  ⟨fun _ _ _ _ lettered done => lettered.getExeInitial done,fun _ uid lettered => lettered.getColor uid⟩

theorem cycled_steady (a : Artist) : Steady a Names.Cycled :=
  ⟨fun _ _ _ _ cycled done => cycled.getExeInitial done,fun _ uid cycled => cycled.getColor uid⟩

theorem lettered_start (lower : Char → Str) : Names.start.Lettered lower :=
  ⟨fun _ _ no => (by cases no),fun _ _ no => (by cases no),fun _ _ _ no => (by cases no)⟩

theorem cycled_start : Names.start.Cycled := ⟨[],List.nodup_nil,List.not_mem_nil,rfl,rfl⟩

/-- In every figure each line of the legend is right, and two processes with the same letter run
the same executable, unless all letters of one executable are those of others. -/
theorem figure_letters (a : Artist) (es : List Event) (s : Canvas) (figure : a.Figure es s) :
    (∀ initial exe, s.names.initialExe.get initial = some exe → s.names.exeInitial.get exe = some initial) ∧
    (∀ key n, OnlyProcess es key → s.picture.node key = some n → (s.names.initialExe.get n.label).isSome = true) ∧
    ∀ key key' n n', OnlyProcess es key → OnlyProcess es key' → s.picture.node key = some n →
      s.picture.node key' = some n' → n.label = n'.label → n.tooltip.exe = n'.tooltip.exe ∨
        ∃ exe, (n.tooltip.exe = some exe ∨ n'.tooltip.exe = some exe) ∧ s.names.Exhausted a.lower exe := by
  have lettered := figure_names figure (lettered_steady a) (lettered_start a.lower)
  refine ⟨lettered.told,fun key n only seen => ?_,fun key key' n n' only only' seen seen' same => ?_⟩
  · obtain ⟨exe,user,_,_,letter,_⟩ := figure_tells figure only seen
    exact lettered.listed exe n.label letter
  · obtain ⟨exe,user,tip,_,letter,_⟩ := figure_tells figure only seen
    obtain ⟨exe',user',tip',_,letter',_⟩ := figure_tells figure only' seen'
    rw [← same] at letter'
    rcases lettered.apart exe exe' n.label letter letter' with rfl | out | out
    · exact .inl (tip.trans tip'.symm)
    · exact .inr ⟨exe,.inl tip,out⟩
    · exact .inr ⟨exe',.inr tip',out⟩

/-- In every figure the processes of root are red and no others are, and the other users take
the three colours in turn. -/
theorem figure_colours (a : Artist) (es : List Event) (s : Canvas) (figure : a.Figure es s) :
    s.names.Cycled ∧ ∀ key n, OnlyProcess es key → s.picture.node key = some n →
      (n.fillcolor = .red ↔ n.tooltip.user = some (some "root".toList)) := by
  have cycled := figure_names figure (cycled_steady a) cycled_start
  refine ⟨cycled,fun key n only seen => ?_⟩
  obtain ⟨exe,user,_,tip,_,color⟩ := figure_tells figure only seen
  rw [cycled.red color,tip,Option.some_inj]

/-- The process 7 forks 8 and 9; 9 becomes bob and then runs an executable whose first letter is
taken. -/
def family : Artist :=
  ⟨[("h".toList,[("7".toList,shell),("8".toList,{shell with pid := some "8".toList}),
    ("9".toList,{shell with pid := some "9".toList})])],[],fun c => [c]⟩

def ofNine (kind : Kind) : Event := {shellEvent kind with pid := some "9".toList}

def becomes : List Event := [shellForks,shellEvent (.fork (some "9".toList)),ofNine (.seteuid (some "bob".toList)),
  ofNine (.exec "su".toList "execve".toList none none none none)]

def becomesDrawn : Canvas := (family.drawAnimation becomes 3).get (by decide)

theorem becomes_drawn : family.Figure becomes becomesDrawn := .inr ⟨3,(Option.some_get (by decide)).symm⟩

theorem becomes_only (key : Str) : OnlyProcess becomes key := by
  have files : ∀ e ∈ becomes, e.files = [] := by decide
  intro e member
  rw [files e member]
  exact List.not_mem_nil

theorem figure_letters_becomes :
    becomesDrawn.names.exeInitial.get "su".toList = some ['u'] ∧
    (becomesDrawn.picture.node "9@h".toList).map (fun n => (becomesDrawn.names.initialExe.get n.label).isSome) = some true ∧
    (becomesDrawn.picture.node "7@h".toList).map (fun n => n.tooltip.exe) =
      (becomesDrawn.picture.node "8@h".toList).map fun n => n.tooltip.exe := by
  obtain ⟨told,listed,apart⟩ := figure_letters family becomes becomesDrawn becomes_drawn
  have seven : (becomesDrawn.picture.node "7@h".toList).map (fun n => (n.label,n.tooltip.exe)) =
      some (['s'],some "sh".toList) := by decide
  have eight : (becomesDrawn.picture.node "8@h".toList).map (fun n => (n.label,n.tooltip.exe)) =
      some (['s'],some "sh".toList) := by decide
  obtain ⟨n,is_n,tells⟩ := Option.map_eq_some_iff.mp seven
  obtain ⟨n',is_n',tells'⟩ := Option.map_eq_some_iff.mp eight
  obtain ⟨m,is_m⟩ := Option.isSome_iff_exists.mp
    (by decide : (becomesDrawn.picture.node "9@h".toList).isSome = true)
  obtain ⟨letter,shell⟩ := Prod.mk.inj tells
  obtain ⟨letter',shell'⟩ := Prod.mk.inj tells'
  refine ⟨told _ _ (by decide),?_,?_⟩
  · rw [is_m,Option.map_some,listed _ _ (becomes_only _) is_m]
  · rw [is_n,is_n',Option.map_some,Option.map_some]
    rcases apart _ _ n n' (becomes_only _) (becomes_only _) is_n is_n' (letter.trans letter'.symm) with same | ⟨exe,either,out⟩
    · rw [same]
    · -- the first letter of the shell is no other executable's
      rw [shell,shell',or_self,Option.some_inj] at either
      obtain ⟨other,differ,given⟩ := out 's' (by rw [← either]; decide)
      have given' := Dict.get_mem given
      have names : becomesDrawn.names.exeInitial =
          [("sh".toList,['s']),("su".toList,['u'])] := by decide
      rw [names] at given'
      simp only [List.mem_cons,Prod.mk.injEq,List.not_mem_nil,or_false] at given'
      rcases given' with ⟨is_sh,_⟩ | ⟨_,no⟩
      · exact absurd (is_sh.trans either) differ
      · exact absurd no (by decide)

theorem figure_colours_becomes :
    becomesDrawn.names.Cycled ∧ (becomesDrawn.picture.node "7@h".toList).map (fun n => n.fillcolor) = some .red ∧
      (becomesDrawn.picture.node "9@h".toList).map (fun n => decide (n.fillcolor = .red)) = some false := by
  obtain ⟨cycled,red⟩ := figure_colours family becomes becomesDrawn becomes_drawn
  have users : (becomesDrawn.picture.node "7@h".toList).map (fun n => n.tooltip.user) =
      some (some (some "root".toList)) := by decide
  have users' : (becomesDrawn.picture.node "9@h".toList).map (fun n => n.tooltip.user) =
      some (some (some "bob".toList)) := by decide
  obtain ⟨n,is_n,root⟩ := Option.map_eq_some_iff.mp users
  obtain ⟨m,is_m,bob⟩ := Option.map_eq_some_iff.mp users'
  refine ⟨cycled,?_,?_⟩
  · rw [is_n,Option.map_some,(red _ n (becomes_only _) is_n).mpr root]
  · rw [is_m,Option.map_some]
    have other : m.fillcolor ≠ .red := by
      intro same
      have user := (red _ m (becomes_only _) is_m).mp same
      rw [bob] at user
      exact absurd user (by decide)
    rw [decide_eq_false other]

end SelfPropelled.SecStar
