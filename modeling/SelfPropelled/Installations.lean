import SelfPropelled.PatchRanges

/-! Runs of installations on different points: their patches are apart unless the start
of a call block is patched that is also the spring block of another point. -/

namespace SelfPropelled.Workers
open Machine

section
variable (c : Config)

def marked (w : World) (pt : Nat) (k : InstallMethod) : World := {w with
  instrumented := fun b => b == (c.point pt).block || w.instrumented b
  method := fun q => if q = pt then some k else w.method q}

section
variable (P : World → Nat → InstallMethod → Answers → Prop) (pt : Nat)

/-- Attempts on a point, each under a condition, with the patches they write and whether
one of them succeeded. -/
inductive Tries : World → List Patch → Bool → World → Prop
  | nil (w : World) : Tries w [] false w
  | skipped {w w₁ w' : World} {k : InstallMethod} {new : List Patch} {ok : Bool}
      (saves : save c w pt k = (false,w₁)) (later : Tries w₁ new ok w') : Tries w new ok w'
  | failed {w w₁ w₂ w' : World} {k : InstallMethod} {a : Answers} {ps new : List Patch} {ok : Bool}
      (saves : save c w pt k = (true,w₁)) (placed : Placed c w₁ pt k a) (meets : P w₁ pt k a)
      (fails : worker c w₁ pt a k = (.returns false,w₂)) (written : Written c w₁ pt a k ps)
      (later : Tries w₂ new ok w') : Tries w (ps ++ new) ok w'
  | done {w w₁ w₂ : World} {k : InstallMethod} {a : Answers} {ps : List Patch}
      (saves : save c w pt k = (true,w₁)) (placed : Placed c w₁ pt k a) (meets : P w₁ pt k a)
      (ends : worker c w₁ pt a k = (.returns true,w₂)) (written : Written c w₁ pt a k ps) :
      Tries w ps true (marked c w₂ pt k)

/-- Installations one after another, each on a point whose block is not instrumented, with
the patches of those that succeeded. -/
inductive Installs (w : World) : List Patch → World → Prop
  | start : Installs w [] w
  | next {w₁ w₂ : World} {log new : List Patch} {ok : Bool} {pt : Nat} (before : Installs w log w₁)
      (unmarked : w₁.instrumented (c.point pt).block = false) (tries : Tries c P pt w₁ new ok w₂) :
      Installs w (log ++ if ok then new else []) w₂

end

/-- The start of the point's block was patched, or may have been. -/
def AtStart (w : World) (pt : Nat) : Prop :=
  w.method pt = some .relocBlk ∨ w.method pt = some .springboard

/-- The attempt does not patch the start of another point's spring block, and takes no
block for its spring whose start was patched for another point. -/
def Clear (w : World) (pt : Nat) (k : InstallMethod) (_ : Answers) : Prop :=
  k = .relocBlk ∨ k = .springboard →
    (∀ q, q ≠ pt → (w.snippet q).springBlk ≠ some (c.point pt).block) ∧
      (k = .springboard → ∀ s, (w.snippet pt).springBlk = some s →
        ∀ q, q ≠ pt → AtStart w q → (c.point q).block ≠ s)

/-- Spring blocks that were found are marked, and no two points have the same. -/
structure Springs (w : World) : Prop where
  known : ∀ q s, (w.snippet q).springBlk = some s →
    SpringOk c (c.blockOf q).start s ∧ w.isSpring s = true
  distinct : ∀ q r s, (w.snippet q).springBlk = some s → (w.snippet r).springBlk = some s → q = r

structure Patch.Known (w : World) (p : Patch) : Prop where
  fits : p.Fits c
  start : p.place = .start → AtStart w p.pt
  spring : ∀ s, p.place = .spring s → (w.snippet p.pt).springBlk = some s

/-- What is known of a new patch of a point: the start it patches is no other point's
spring block, and the spring block it patches was not patched at its start. -/
structure Patch.New (w : World) (pt : Nat) (p : Patch) : Prop where
  own : p.pt = pt
  known : p.Known c w
  start : p.place = .start → ∀ q, q ≠ pt → (w.snippet q).springBlk ≠ some (c.point pt).block
  spring : ∀ s, p.place = .spring s → ∀ q, q ≠ pt → AtStart w q → (c.point q).block ≠ s

/-- The points with patches have been marked, and those of different points are apart. -/
structure Recorded (w : World) (log : List Patch) : Prop where
  known : ∀ p ∈ log, p.Known c w
  marked : ∀ p ∈ log, w.instrumented (c.point p.pt).block = true
  apart : ∀ p ∈ log, ∀ q ∈ log, p.pt ≠ q.pt → Apart (p.address c) p.length (q.address c) q.length

end

section
variable {c : Config} {pt : Nat} {w w' f : World} {a : Answers} {k : InstallMethod} {p q : Patch}

theorem Springs.springsOk (springs : Springs c w) (pt : Nat) : SpringsOk c pt w :=
  fun s cached => (springs.known pt s cached).1

theorem Springs.marks (springs : Springs c w) (marks : Marks c pt w w') : Springs c w' := by
  rcases marks.spring with ⟨same,flags⟩ | ⟨s,_,fits,found,flags⟩
  · have old : ∀ q, (w'.snippet q).springBlk = (w.snippet q).springBlk := by
      intro q
      by_cases own : q = pt
      · rw [own,same]
      · rw [marks.others q own]
    refine ⟨fun q s cached => ?_,fun q r s first second => ?_⟩
    · rw [old] at cached
      rw [flags]
      exact springs.known q s cached
    · rw [old] at first second
      exact springs.distinct q r s first second
  · obtain ⟨ok,_,unused⟩ := suitable_iff.mp fits
    have cases : ∀ q t, (w'.snippet q).springBlk = some t →
        q = pt ∧ t = s ∨ q ≠ pt ∧ (w.snippet q).springBlk = some t := by
      intro q t cached
      by_cases own : q = pt
      · rw [own,found] at cached
        exact .inl ⟨own,(Option.some.inj cached).symm⟩
      · rw [marks.others q own] at cached
        exact .inr ⟨own,cached⟩
    -- no other point has the block, as it was not marked
    have unseen : ∀ q, (w.snippet q).springBlk ≠ some s := by
      intro q old
      have spring := (springs.known q s old).2
      rw [unused] at spring
      cases spring
    refine ⟨fun q t cached => ?_,fun q r t first second => ?_⟩
    · rw [flags]
      rcases cases q t cached with ⟨rfl,rfl⟩ | ⟨_,old⟩
      · exact ⟨ok,by simp⟩
      · obtain ⟨near,spring⟩ := springs.known q t old
        exact ⟨near,by simp [spring]⟩
    · rcases cases q t first with ⟨here,rfl⟩ | ⟨_,old⟩
      · rcases cases r t second with ⟨there,_⟩ | ⟨_,old⟩
        · rw [here,there]
        · exact absurd old (unseen r)
      · rcases cases r t second with ⟨_,rfl⟩ | ⟨_,old'⟩
        · exact absurd old (unseen q)
        · exact springs.distinct q r t old old'

theorem marks_saved {ok : Bool} (saves : save c w pt k = (ok,f)) : Marks c pt w f := by
  have marks := @marks_save c pt w k
  rwa [saves] at marks

theorem marks_ended {r : Result} (ended : worker c w pt a k = (r,f)) : Marks c pt w f := by
  have marks := @marks_worker c pt w a k
  rwa [ended] at marks

theorem Marks.keeps (marks : Marks c pt w w') {q s : Nat} (cached : (w.snippet q).springBlk = some s) :
    (w'.snippet q).springBlk = some s := by
  by_cases own : q = pt
  · subst own
    rcases marks.spring with ⟨same,_⟩ | ⟨_,none,_⟩
    · rw [same,cached]
    · rw [cached] at none
      cases none
  · rw [marks.others q own,cached]

theorem Patch.Fits.inside (layout : Layout c) (fits : p.Fits c) {x : Word} (has : p.Has c x) :
    (∀ s, p.place ≠ .spring s) ∧ In (c.blockOf p.pt).start (c.blockOf p.pt).size x ∨
      ∃ s, p.place = .spring s ∧
        In (c.obj.block s).start ((c.obj.block s).last - (c.obj.block s).start).toNat x := by
  obtain ⟨pt,place,length⟩ := p
  cases place with
  | last => exact .inl ⟨by simp,layout.in_last _ fits.2 has⟩
  | start => exact .inl ⟨by simp,has.widen fits.2⟩
  | spring s =>
    obtain ⟨_,rfl,_,room⟩ := fits
    exact .inr ⟨s,rfl,has.widen room⟩

theorem Layout.front_apart (layout : Layout c) (b : Nat) :
    Apart (c.obj.block b).start ((c.obj.block b).last - (c.obj.block b).start).toNat
      (c.obj.block b).last (c.obj.block b).callSize := by
  intro x front back
  have split := layout.last b
  have bound : (c.obj.block b).size < 2 ^ 64 := BitVec.isLt _
  simp only [In] at front back
  bv_omega

theorem Patch.apart_own (layout : Layout c) (fits : p.Fits c) (fits' : q.Fits c) {s : Nat}
    (spring : p.place = .spring s) (own : ∀ t, q.place ≠ .spring t)
    (away : q.place = .start → (c.point q.pt).block ≠ s) :
    Apart (p.address c) p.length (q.address c) q.length := by
  intro x first second
  have front : In (c.obj.block s).start ((c.obj.block s).last - (c.obj.block s).start).toNat x := by
    rcases fits.inside layout first with ⟨none,_⟩ | ⟨t,other,inside⟩
    · exact absurd spring (none s)
    · rw [spring] at other
      cases other
      exact inside
  by_cases same : (c.point q.pt).block = s
  · obtain ⟨pt,place,length⟩ := q
    cases place with
    | last => exact layout.front_apart s x front (by subst same; exact In.widen second fits'.2)
    | start => exact away rfl same
    | spring t => exact own t rfl
  · have split := layout.last s
    rcases fits'.inside layout second with ⟨_,inside⟩ | ⟨t,other,_⟩
    · exact layout.apart _ _ same x inside (front.widen (by omega))
    · exact own t other

/-- Patches of points in different blocks are apart if neither is of a spring block that the
other patches at its start, and they are not of the same spring block. -/
theorem Patch.apart (layout : Layout c) (fits : p.Fits c) (fits' : q.Fits c)
    (blocks : (c.point p.pt).block ≠ (c.point q.pt).block)
    (away : ∀ s, p.place = .spring s → q.place = .start → (c.point q.pt).block ≠ s)
    (away' : ∀ s, q.place = .spring s → p.place = .start → (c.point p.pt).block ≠ s)
    (springs : ∀ s, p.place = .spring s → q.place ≠ .spring s) :
    Apart (p.address c) p.length (q.address c) q.length := by
  by_cases first : ∃ s, p.place = .spring s
  · obtain ⟨s,spring⟩ := first
    by_cases second : ∃ t, q.place = .spring t
    · obtain ⟨t,spring'⟩ := second
      have differ : s ≠ t := fun same => springs s spring (same ▸ spring')
      intro x here there
      have split := layout.last s
      have split' := layout.last t
      rcases fits.inside layout here with ⟨none,_⟩ | ⟨_,found,inside⟩
      · exact none s spring
      rcases fits'.inside layout there with ⟨none,_⟩ | ⟨_,found',inside'⟩
      · exact none t spring'
      rw [spring] at found
      rw [spring'] at found'
      cases found
      cases found'
      exact layout.apart s t differ x (inside.widen (by omega)) (inside'.widen (by omega))
    · exact Patch.apart_own layout fits fits' spring (fun t found => second ⟨t,found⟩) (away s spring)
  · by_cases second : ∃ t, q.place = .spring t
    · obtain ⟨t,spring'⟩ := second
      exact (Patch.apart_own layout fits' fits spring' (fun s found => first ⟨s,found⟩) (away' t spring')).symm
    · intro x here there
      rcases fits.inside layout here with ⟨_,inside⟩ | ⟨s,found,_⟩
      swap
      · exact first ⟨s,found⟩
      rcases fits'.inside layout there with ⟨_,inside'⟩ | ⟨t,found,_⟩
      swap
      · exact second ⟨t,found⟩
      exact layout.apart _ _ blocks x inside inside'

theorem place_of_listed (listed : p ∈ patches c w pt a k) : p.place = .last ∨
    p.place = .start ∧ (k = .relocBlk ∨ k = .springboard) ∨
    ∃ s, p.place = .spring s ∧ k = .springboard ∧ (findSpringboard c w pt).1 = some s := by
  cases k with
  | relocInsn | trap => exact .inl (by rw [List.mem_singleton.mp listed])
  | relocBlk =>
    simp only [patches] at listed
    split at listed
    · exact .inr (.inl ⟨by rw [List.mem_singleton.mp listed],.inl rfl⟩)
    · cases listed
  | springboard =>
    simp only [patches] at listed
    split at listed
    · cases listed
    next s chosen =>
      rcases List.mem_append.mp listed with first | second
      · split at first
        · exact .inr (.inr ⟨s,by rw [List.mem_singleton.mp first],rfl,chosen⟩)
        · cases first
      · split at second
        · exact .inr (.inl ⟨by rw [List.mem_singleton.mp second],.inr rfl⟩)
        · cases second

theorem last_of_failed (placed : Placed c w pt k a) (fails : worker c w pt a k = (.returns false,f))
    (reaches : Reaches c w pt a k) : k = .relocInsn := by
  have succeeds : ∀ {w'}, worker c w pt a k ≠ (.returns true,w') := by simp [fails]
  cases k with
  | relocInsn => rfl
  | relocBlk =>
    obtain ⟨_,_,_,run⟩ := (callBlock_cases placed).resolve_left fun either => either.1 reaches
    exact absurd run succeeds
  | springboard =>
    obtain ⟨_,_,_,_,_,_,_,run⟩ := (springboard_cases placed).resolve_left fun either => either.1 reaches
    exact absurd run succeeds
  | trap =>
    obtain ⟨_,_,_,run⟩ := (trap_cases placed).resolve_left fun either => either.1 reaches
    exact absurd run succeeds

/-- The springboard worker saves instructions only with a spring block at hand. -/
theorem saved_springBlk (saves : save c w pt .springboard = (true,f)) :
    ∃ s, (f.snippet pt).springBlk = some s := by
  simp only [save] at saves
  rcases findSpringboard_cases (c := c) w pt with ⟨s,cached,eq⟩ | ⟨_,eq | ⟨s,_,eq⟩⟩
  · rw [eq,Prod.mk.injEq] at saves
    exact ⟨s,by rw [← saves.2,cached]⟩
  · rw [eq] at saves
    cases saves
  · rw [eq,Prod.mk.injEq] at saves
    exact ⟨s,by rw [← saves.2]; simp [World.setSnippet]⟩

theorem Patch.New.of_last (own : p.pt = pt) (fits : p.Fits c) (last : p.place = .last) : p.New c f pt :=
  ⟨own,⟨fits,by simp [last],by simp [last]⟩,by simp [last],by simp [last]⟩

theorem Written.failed (layout : Layout c) (springs : SpringsOk c pt w) (placed : Placed c w pt k a)
    (fails : worker c w pt a k = (.returns false,f)) {ps : List Patch} (written : Written c w pt a k ps) :
    ∀ p ∈ ps, p.pt = pt ∧ p.Fits c ∧ p.place = .last := by
  intro p listed
  rcases written with ⟨reaches,rfl⟩ | ⟨_,rfl⟩
  · obtain ⟨own,fits⟩ := patches_fit layout springs reaches p listed
    obtain rfl := last_of_failed placed fails reaches
    exact ⟨own,fits,by rw [List.mem_singleton.mp listed]⟩
  · cases listed

/-- The patches of the attempt that succeeds, once the point is marked. -/
theorem Written.done (layout : Layout c) (springs : SpringsOk c pt w) (clear : Clear c w pt k a)
    (cached : k = .springboard → ∃ s, (w.snippet pt).springBlk = some s) (marks : Marks c pt w f)
    {ps : List Patch} (written : Written c w pt a k ps) : ∀ p ∈ ps, p.New c (marked c f pt k) pt := by
  intro p listed
  rcases written with ⟨reaches,rfl⟩ | ⟨_,rfl⟩
  swap
  · cases listed
  obtain ⟨rfl,fits⟩ := patches_fit layout springs reaches p listed
  have others : ∀ q, q ≠ p.pt → ((marked c f p.pt k).snippet q).springBlk = (w.snippet q).springBlk :=
    fun q other => congrArg SnippetState.springBlk (marks.others q other)
  rcases place_of_listed listed with last | ⟨start,mode⟩ | ⟨s,spring,rfl,chosen⟩
  · exact .of_last rfl fits last
  · refine ⟨rfl,⟨fits,fun _ => ?_,by simp [start]⟩,fun _ q other => ?_,by simp [start]⟩
    · rcases mode with rfl | rfl
      · exact .inl (if_pos rfl)
      · exact .inr (if_pos rfl)
    · rw [others q other]
      exact (clear mode).1 q other
  · obtain ⟨t,known⟩ := cached rfl
    obtain rfl : t = s := by simpa [findSpringboard,known] using chosen
    refine ⟨rfl,⟨fits,by simp [spring],fun s' found => ?_⟩,by simp [spring],fun s' found q other there => ?_⟩
    · rw [spring] at found
      cases found
      exact marks.keeps known
    · rw [spring] at found
      cases found
      refine (clear (.inr rfl)).2 rfl t known q other ?_
      simpa [AtStart,marked,other,marks.method] using there

section
variable {new : List Patch} {ok : Bool}

theorem Tries.result (layout : Layout c) (tries : Tries c (Clear c) pt w new ok w') (springs : Springs c w) :
    (∃ u, Marks c pt w u ∧ (ok = false ∧ w' = u ∨ ∃ k, ok = true ∧ w' = marked c u pt k)) ∧ ∀ n ∈ new, n.New c w' pt := by
  induction tries with
  | nil w => exact ⟨⟨w,.refl,.inl ⟨rfl,rfl⟩⟩,by simp⟩
  | skipped saves later ih =>
    have saved := marks_saved saves
    obtain ⟨⟨u,marks,ends⟩,news⟩ := ih (springs.marks saved)
    exact ⟨⟨u,saved.trans marks,ends⟩,news⟩
  | failed saves placed clear fails written later ih =>
    have saved := marks_saved saves
    have known := springs.marks saved
    have tried := marks_ended fails
    obtain ⟨⟨u,marks,ends⟩,news⟩ := ih (known.marks tried)
    refine ⟨⟨u,(saved.trans tried).trans marks,ends⟩,fun n listed => ?_⟩
    rcases List.mem_append.mp listed with here | there
    · obtain ⟨own,fits,last⟩ := written.failed layout (known.springsOk pt) placed fails n here
      exact .of_last own fits last
    · exact news n there
  | done saves placed clear ends written =>
    have saved := marks_saved saves
    have tried := marks_ended ends
    refine ⟨⟨_,saved.trans tried,.inr ⟨_,rfl,rfl⟩⟩,?_⟩
    refine written.done layout ((springs.marks saved).springsOk pt) clear (fun mode => ?_) tried
    subst mode
    exact saved_springBlk saves

theorem Tries.others (layout : Layout c) (tries : Tries c (Clear c) pt w new ok w') (springs : Springs c w) :
    ∀ q, q ≠ pt → w'.snippet q = w.snippet q ∧ w'.method q = w.method q := by
  intro q other
  obtain ⟨⟨u,marks,⟨_,rfl⟩ | ⟨k,_,rfl⟩⟩,_⟩ := tries.result layout springs
  · exact ⟨marks.others q other,by rw [marks.method]⟩
  · exact ⟨marks.others q other,(if_neg other).trans (by rw [marks.method])⟩

theorem Tries.code_kept {P : World → Nat → InstallMethod → Answers → Prop} (tries : Tries c P pt w new ok w')
    {x : Word} (code : HasCode c x) (away : ∀ n ∈ new, ¬n.Has c x) : w'.mem x = w.mem x := by
  induction tries with
  | nil w => rfl
  | skipped saves later ih => exact (ih away).trans ((quiet_saved saves).code x code)
  | failed saves placed _ fails written later ih =>
    have before := written.code_kept placed fails code fun n listed => away n (List.mem_append_left _ listed)
    have after := ih fun n listed => away n (List.mem_append_right _ listed)
    exact after.trans (before.trans ((quiet_saved saves).code x code))
  | done saves placed _ ends written =>
    exact (written.code_kept placed ends code away).trans ((quiet_saved saves).code x code)

end

theorem Recorded.other {log : List Patch} (recorded : Recorded c w log)
    (unmarked : w.instrumented (c.point pt).block = false) :
    ∀ p ∈ log, (c.point p.pt).block ≠ (c.point pt).block := by
  intro p old same
  have there := recorded.marked p old
  rw [same,unmarked] at there
  cases there

theorem Recorded.apart_new (layout : Layout c) {log new : List Patch} {ok : Bool} (recorded : Recorded c w log)
    (springs : Springs c w) (unmarked : w.instrumented (c.point pt).block = false)
    (tries : Tries c (Clear c) pt w new ok w') :
    ∀ p ∈ log, ∀ n ∈ new, Apart (p.address c) p.length (n.address c) n.length := by
  intro p old n listed
  have blocks := recorded.other unmarked p old
  have other : p.pt ≠ pt := fun same => blocks (same ▸ rfl)
  have unchanged := tries.others layout springs p.pt other
  obtain ⟨⟨u,marks,ends⟩,news⟩ := tries.result layout springs
  obtain ⟨own,known,start,spring⟩ := news n listed
  have was := recorded.known p old
  refine Patch.apart layout was.fits known.fits (by rwa [own]) (fun s found first => ?_) (fun s found first => ?_)
    fun s found found' => ?_
  · rw [own]
    intro same
    refine start first p.pt other ?_
    rw [unchanged.1,was.spring s found,same]
  · refine spring s found p.pt other ?_
    have there := was.start first
    rwa [AtStart,unchanged.2]
  · have springs' : Springs c u := springs.marks marks
    have mine : (u.snippet pt).springBlk = some s := by
      have cached := known.spring s found'
      rw [own] at cached
      rcases ends with ⟨_,rfl⟩ | ⟨k,_,rfl⟩ <;> exact cached
    have its : (u.snippet p.pt).springBlk = some s := by
      rw [marks.others _ other]
      exact was.spring s found
    exact other (springs'.distinct _ _ s its mine)

theorem Recorded.next (layout : Layout c) {log new : List Patch} {ok : Bool} (recorded : Recorded c w log)
    (springs : Springs c w) (unmarked : w.instrumented (c.point pt).block = false)
    (tries : Tries c (Clear c) pt w new ok w') : Recorded c w' (log ++ if ok then new else []) := by
  have across := recorded.apart_new layout springs unmarked tries
  have others := tries.others layout springs
  obtain ⟨⟨u,marks,ends⟩,news⟩ := tries.result layout springs
  have known : ∀ p ∈ log, p.Known c w' := by
    intro p old
    obtain ⟨fits,start,spring⟩ := recorded.known p old
    have other : p.pt ≠ pt := fun same => recorded.other unmarked p old (same ▸ rfl)
    obtain ⟨snippet,method⟩ := others p.pt other
    exact ⟨fits,by rwa [AtStart,method],by rwa [snippet]⟩
  have still : ∀ p ∈ log, w'.instrumented (c.point p.pt).block = true := by
    intro p old
    have there := recorded.marked p old
    rw [← marks.marked] at there
    rcases ends with ⟨_,rfl⟩ | ⟨k,_,rfl⟩
    · exact there
    · exact Bool.or_eq_true_iff.mpr (.inr there)
  cases ok with
  | false =>
    simp only [Bool.false_eq_true,if_false,List.append_nil]
    exact ⟨known,still,recorded.apart⟩
  | true =>
    simp only [if_true]
    refine ⟨fun p listed => ?_,fun p listed => ?_,fun p listed q listed' differ => ?_⟩
    · exact (List.mem_append.mp listed).elim (known p) fun here => (news p here).known
    · rcases List.mem_append.mp listed with old | here
      · exact still p old
      · obtain ⟨k,_,rfl⟩ := ends.resolve_left (by simp)
        rw [(news p here).own]
        exact Bool.or_eq_true_iff.mpr (.inl (beq_self_eq_true _))
    · rcases List.mem_append.mp listed with old | here <;> rcases List.mem_append.mp listed' with old' | here'
      · exact recorded.apart p old q old' differ
      · exact across p old q here'
      · exact (across q old' p here).symm
      · exact absurd ((news p here).own.trans (news q here').own.symm) differ

/-- What further installations keep: the record, and the bytes of the patches it has. -/
theorem Recorded.run (layout : Layout c) {log more : List Patch} (recorded : Recorded c w log)
    (springs : Springs c w) (later : Installs c (Clear c) w more w') :
    Recorded c w' (log ++ more) ∧ Springs c w' ∧ ∀ p ∈ log, ∀ x, p.Has c x → w'.mem x = w.mem x := by
  induction later with
  | start => exact ⟨by rwa [List.append_nil],springs,fun _ _ _ _ => rfl⟩
  | next before unmarked tries ih =>
    obtain ⟨recorded',springs',kept⟩ := ih
    have across := recorded'.apart_new layout springs' unmarked tries
    refine ⟨?_,?_,fun p old x has => ?_⟩
    · rw [← List.append_assoc]
      exact recorded'.next layout springs' unmarked tries
    · obtain ⟨⟨u,marks,ends⟩,_⟩ := tries.result layout springs'
      have found : Springs c u := springs'.marks marks
      rcases ends with ⟨_,rfl⟩ | ⟨k,_,rfl⟩
      · exact found
      · exact ⟨found.known,found.distinct⟩
    · have code : HasCode c x := by
        rcases (recorded.known p old).fits.inside layout has with ⟨_,inside⟩ | ⟨s,_,inside⟩
        · exact ⟨_,inside⟩
        · exact ⟨s,inside.widen (layout.last s ▸ Nat.le_add_right _ _)⟩
      exact (tries.code_kept code fun n new =>
        across p (List.mem_append_left _ old) n new x has).trans (kept p old x has)

/-- Patches never overlap. In every run of installations none of which patches the start of
a call block that is the spring block of another point, every patch is in its point's
call block or spring block, those of different points are apart, and later
installations change no byte of the patches before them. -/
theorem patches_apart (layout : Layout c) (w w₁ w₂ : World) (fresh : ∀ q, (w.snippet q).springBlk = none)
    (log more : List Patch) (first : Installs c (Clear c) w log w₁) (later : Installs c (Clear c) w₁ more w₂) :
    (∀ p ∈ log ++ more, ∃ b, (b = (c.point p.pt).block ∨ (w₂.snippet p.pt).springBlk = some b) ∧
      ∀ x, p.Has c x → In (c.obj.block b).start (c.obj.block b).size x) ∧
    (∀ p ∈ log ++ more, ∀ q ∈ log ++ more, p.pt ≠ q.pt →
      Apart (p.address c) p.length (q.address c) q.length) ∧
    ∀ p ∈ log, ∀ x, p.Has c x → w₂.mem x = w₁.mem x := by
  have start : Springs c w := ⟨by simp [fresh],by simp [fresh]⟩
  have none : Recorded c w [] := ⟨by simp,by simp,by simp⟩
  obtain ⟨recorded,springs,_⟩ := none.run layout start first
  obtain ⟨recorded',_,kept⟩ := recorded.run layout springs later
  refine ⟨fun p listed => ?_,recorded'.apart,kept⟩
  obtain ⟨fits,_,spring⟩ := recorded'.known p listed
  obtain ⟨pt,place,length⟩ := p
  cases place with
  | last | start =>
    refine ⟨_,.inl rfl,fun x has => ?_⟩
    exact (fits.inside layout has).elim And.right fun ⟨_,found,_⟩ => by cases found
  | spring s =>
    refine ⟨s,.inr (spring s rfl),fun x has => ?_⟩
    rcases fits.inside layout has with ⟨none,_⟩ | ⟨t,found,inside⟩
    · exact absurd rfl (none s)
    · cases found
      exact inside.widen (layout.last s ▸ Nat.le_add_right _ _)

end

def nop : Instruction := ⟨[0x90],false,false,[],[],[],[],[],none⟩

/-- A call block of one call instruction, and near it a block of 34 instructions before its
tail call; both are points. -/
def tailNear : Config := {nearCall with
  obj := {
    loadAddr := 0
    block := fun b =>
      if b = 0 then ⟨0x401000,0x401005,⟨[],0x401000,nop⟩,false,true,true⟩
      else if b = 1 then ⟨0x401010,0x401037,
        ⟨(List.range 34).map fun i => (0x401010 + BitVec.ofNat 64 i,nop),0x401032,nop⟩,true,false,true⟩
      else ⟨0,0,⟨[],0,nop⟩,false,false,false⟩
    regions := [(0x401000,0x401037)]
    findBlocks := fun _ a => if 0x401000 ≤ a ∧ a < 0x401005 then [0]
      else if 0x401010 ≤ a ∧ a < 0x401037 then [1] else [] }
  point := fun pt => ⟨if pt = 0 then 0 else if pt = 1 then 1 else 0,some 0x402000,0x10,0x20,0x30,0x600000,true⟩
  workers := [.springboard,.relocBlk] }

theorem tailNear_block {i : Nat} {x : Word} (inside : In (tailNear.obj.block i).start (tailNear.obj.block i).size x) :
    i = 0 ∧ In 0x401000 5 x ∨ i = 1 ∧ In 0x401010 39 x := by
  by_cases zero : i = 0
  · subst zero
    exact .inl ⟨rfl,inside⟩
  by_cases one : i = 1
  · subst one
    exact .inr ⟨rfl,inside⟩
  · simp [tailNear,zero,one,Block.size,In] at inside

theorem tailNear_layout : Layout tailNear where
  apart := by
    intro i j differ x first second
    rcases tailNear_block first with ⟨rfl,here⟩ | ⟨rfl,here⟩ <;>
      rcases tailNear_block second with ⟨rfl,there⟩ | ⟨rfl,there⟩
    · exact differ rfl
    · simp only [In] at here there
      bv_omega
    · simp only [In] at here there
      bv_omega
    · exact differ rfl
  last := by
    intro b
    by_cases zero : b = 0
    · subst zero
      decide
    by_cases one : b = 1
    · subst one
      decide
    · simp [tailNear,zero,one,Block.size,Block.callSize,Block.last]
  call := by
    intro pt
    by_cases one : pt = 1
    · subst one
      decide
    · simp only [Config.blockOf,tailNear,one,if_false,ite_self]
      decide

theorem tailNear_code {x : Word} (code : HasCode tailNear x) : (x - 0x401000).toNat < 0x37 := by
  obtain ⟨b,inside⟩ := code
  rcases tailNear_block inside with ⟨_,here⟩ | ⟨_,here⟩ <;> simp only [In] at here <;> bv_omega

def tailAnswers (blob : Word) : Answers := ⟨fun _ => blob,fun _ => 0x510000,true,true,true,true⟩

theorem tailNear_placed {w : World} {pt : Nat} {k : InstallMethod} (blob : Word)
    (buffer : blobBuffer tailNear w pt (tailAnswers blob) k = blob)
    (away : blob = 0x500000 ∨ blob = 0x520000)
    (made : ∀ reloc code, (tailNear.snippet pt).generate tailNear.lib reloc blob = some code → code.length ≤ 0x8000)
    (moved : k = .springboard → ∀ s code, springCode tailNear s 0x510000 = some code → code.length ≤ 0x8000) :
    Placed tailNear w pt k (tailAnswers blob) where
  blob := by
    intro reloc code generated x inside site
    rw [buffer] at generated inside
    have small := made reloc code generated
    have near := tailNear_code site
    simp only [In] at inside
    rcases away with rfl | rfl <;> bv_omega
  spring := by
    intro mode s code copied x inside
    have small := moved mode s code copied
    change In 0x510000 code.length x at inside
    refine ⟨fun site => ?_,fun reloc code' generated inside' => ?_⟩
    · have near := tailNear_code site
      simp only [In] at inside
      bv_omega
    · rw [buffer] at generated inside'
      have small' := made reloc code' generated
      simp only [In] at inside inside'
      rcases away with rfl | rfl <;> bv_omega

theorem tailNear_springCode (s : Nat) {code : List Byte} (copied : springCode tailNear s 0x510000 = some code) :
    code.length ≤ 0x8000 := by
  have lengths : (springCode tailNear s 0x510000).map List.length = some 5 ∨
      (springCode tailNear s 0x510000).map List.length = some 39 := by
    by_cases zero : s = 0
    · subst zero
      exact .inl (by decide +kernel)
    by_cases one : s = 1
    · subst one
      exact .inr (by decide +kernel)
    · have other : springCode tailNear s 0x510000 = springCode tailNear 2 0x510000 := by
        simp [springCode,tailNear,zero,one]
      rw [other]
      exact .inl (by decide +kernel)
  rw [copied] at lengths
  simp only [Option.map_some,Option.some.injEq] at lengths
  omega

theorem tailNear_first : Placed tailNear (save tailNear nearWorld 0 .springboard).2 0 .springboard (tailAnswers 0x500000) ∧
    Reaches tailNear (save tailNear nearWorld 0 .springboard).2 0 (tailAnswers 0x500000) .springboard := by
  have buffer : blobBuffer tailNear (save tailNear nearWorld 0 .springboard).2 0 (tailAnswers 0x500000) .springboard =
      0x500000 := by decide +kernel
  refine ⟨tailNear_placed _ buffer (.inl rfl) (fun reloc code generated => ?_)
    (fun _ s code copied => tailNear_springCode s copied),?_⟩
  · have length : ((tailNear.snippet 0).generate tailNear.lib reloc 0x500000).map List.length = some 386 := by
      cases reloc <;> decide +kernel
    rw [generated,Option.map_some,Option.some.injEq] at length
    omega
  · rw [Reaches,buffer]
    refine ⟨by decide,.inr (by decide +kernel),by decide,rfl,1,by decide +kernel,?_⟩
    exact ⟨by decide,by decide +kernel,by decide,rfl,by decide⟩

def springWorld : World := marked tailNear
  (worker tailNear (save tailNear nearWorld 0 .springboard).2 0 (tailAnswers 0x500000) .springboard).2 0 .springboard

theorem tailNear_springs {P : World → Nat → InstallMethod → Answers → Prop}
    (meets : P (save tailNear nearWorld 0 .springboard).2 0 .springboard (tailAnswers 0x500000)) :
    Installs tailNear P nearWorld [⟨0,.spring 1,34⟩,⟨0,.start,2⟩] springWorld := by
  obtain ⟨placed,reaches⟩ := tailNear_first
  have written : Written tailNear (save tailNear nearWorld 0 .springboard).2 0 (tailAnswers 0x500000) .springboard
      [⟨0,.spring 1,34⟩,⟨0,.start,2⟩] := .inl ⟨reaches,by decide +kernel⟩
  exact .next .start rfl (.done (Prod.ext (by decide +kernel) rfl) placed meets (Prod.ext (by decide +kernel) rfl) written)

theorem tailNear_second (reloc : Bool) (code : List Byte)
    (generated : (tailNear.snippet 1).generate tailNear.lib reloc 0x520000 = some code) : code.length ≤ 0x8000 := by
  have length : ((tailNear.snippet 1).generate tailNear.lib reloc 0x520000).map List.length =
      some (if reloc then 227 else 193) := by cases reloc <;> decide +kernel
  rw [generated,Option.map_some,Option.some.injEq] at length
  split at length <;> omega

/-- The tail-call block hosts the first point's spring; then its own point is patched at its
start, over the first long jump. -/
theorem tailNear_overlap : Layout tailNear ∧ (∀ q, (nearWorld.snippet q).springBlk = none) ∧ ∃ w',
    Installs tailNear (fun _ _ _ _ => True) nearWorld [⟨0,.spring 1,34⟩,⟨0,.start,2⟩] springWorld ∧
    Installs tailNear (fun _ _ _ _ => True) springWorld [⟨1,.start,5⟩] w' ∧
    ¬Apart (Patch.address tailNear ⟨0,.spring 1,34⟩) 34 (Patch.address tailNear ⟨1,.start,5⟩) 5 ∧
    w'.mem 0x401010 ≠ springWorld.mem 0x401010 := by
  have placed : Placed tailNear (save tailNear springWorld 1 .relocBlk).2 1 .relocBlk (tailAnswers 0x520000) :=
    tailNear_placed _ rfl (.inr rfl) tailNear_second (by simp)
  have reaches : Reaches tailNear (save tailNear springWorld 1 .relocBlk).2 1 (tailAnswers 0x520000) .relocBlk := by
    refine ⟨by change (0x520000 : Word) ≠ 0; decide,.inr (by decide +kernel),?_⟩
    exact ⟨by decide,.inl (by decide +kernel),by decide +kernel,rfl,by decide⟩
  have written : Written tailNear (save tailNear springWorld 1 .relocBlk).2 1 (tailAnswers 0x520000) .relocBlk
      [⟨1,.start,5⟩] := .inl ⟨reaches,by decide +kernel⟩
  have second : Installs tailNear (fun _ _ _ _ => True) springWorld [⟨1,.start,5⟩] _ :=
    .next .start (by decide +kernel)
      (.done (Prod.ext (by decide +kernel) rfl) placed trivial (Prod.ext (by decide +kernel) rfl) written)
  refine ⟨tailNear_layout,fun _ => rfl,_,tailNear_springs trivial,second,fun apart => ?_,by decide +kernel⟩
  have first : In (Patch.address tailNear ⟨0,.spring 1,34⟩) 34 0x401010 := by
    change In 0x401010 34 0x401010
    simp [In]
  refine apart _ first ?_
  change In 0x401010 5 0x401010
  simp [In]

/-- With a trap at its call, the tail-call block keeps the first point's spring. -/
theorem patches_apart_tailNear : ∃ w',
    Installs tailNear (Clear tailNear) springWorld [⟨1,.last,1⟩] w' ∧
    Apart (Patch.address tailNear ⟨0,.spring 1,34⟩) 34 (Patch.address tailNear ⟨1,.last,1⟩) 1 ∧
    w'.mem 0x401010 = springWorld.mem 0x401010 := by
  have placed : Placed tailNear (save tailNear springWorld 1 .trap).2 1 .trap (tailAnswers 0x520000) :=
    tailNear_placed _ (by decide +kernel) (.inr rfl) tailNear_second (by simp)
  have reaches : Reaches tailNear (save tailNear springWorld 1 .trap).2 1 (tailAnswers 0x520000) .trap := by
    have buffer : blobBuffer tailNear (save tailNear springWorld 1 .trap).2 1 (tailAnswers 0x520000) .trap =
        0x520000 := by decide +kernel
    rw [Reaches,buffer]
    exact ⟨by decide,.inr (by decide +kernel),by decide,rfl⟩
  have written : Written tailNear (save tailNear springWorld 1 .trap).2 1 (tailAnswers 0x520000) .trap
      [⟨1,.last,1⟩] := .inl ⟨reaches,by decide +kernel⟩
  have second : Installs tailNear (Clear tailNear) springWorld [⟨1,.last,1⟩] _ :=
    .next .start (by decide +kernel)
      (.done (Prod.ext (by decide +kernel) rfl) placed (by simp [Clear]) (Prod.ext (by decide +kernel) rfl) written)
  have clear : Clear tailNear (save tailNear nearWorld 0 .springboard).2 0 .springboard (tailAnswers 0x500000) := by
    have marks := @marks_save tailNear 0 nearWorld .springboard
    refine fun _ => ⟨fun q other => ?_,fun _ s _ q other there => ?_⟩
    · rw [marks.others q other]
      simp [nearWorld,SnippetState.fresh]
    · rw [AtStart,marks.method] at there
      simp [nearWorld] at there
  obtain ⟨_,apart,kept⟩ := patches_apart tailNear_layout nearWorld springWorld _ (fun _ => rfl) _ _
    (tailNear_springs clear) second
  refine ⟨_,second,?_,?_⟩
  · exact apart ⟨0,.spring 1,34⟩ (by simp) ⟨1,.last,1⟩ (by simp) (by decide)
  · refine kept ⟨0,.spring 1,34⟩ (by simp) 0x401010 ?_
    change In 0x401010 34 0x401010
    simp [In]

end SelfPropelled.Workers
