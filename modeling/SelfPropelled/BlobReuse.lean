import SelfPropelled.WorkerLoop

/-! The blob a point ends up with after several workers have tried: the code of the
worker that succeeded, for its mode and buffer, or code left over from another attempt. -/

namespace SelfPropelled.Workers
open Machine

section
variable (c : Config) (pt : Nat)

/-- Attempts on one point, each by any worker with its own answers, until one succeeds. -/
def tryAttempts (w : World) : List (InstallMethod × Answers) → Result × World
  | [] => (.returns false,w)
  | (k,a) :: rest =>
    match save c w pt k with
    | (false,w) => tryAttempts w rest
    | (true,w) =>
      match worker c w pt a k with
      | (.returns true,w) => (.returns true,{w with
          instrumented := fun b => b == (c.point pt).block || w.instrumented b
          method := fun q => if q = pt then some k else w.method q})
      | (.returns false,w) => tryAttempts w rest
      | stopped => stopped

theorem tryWorkers_eq (w : World) (answers : InstallMethod → Answers) (ks : List InstallMethod) :
    tryWorkers c w pt answers ks = tryAttempts c pt w (ks.map fun k => (k,answers k)) := by
  induction ks generalizing w with
  | nil => rfl
  | cons k rest ih =>
    rw [tryWorkers,List.map_cons,tryAttempts]
    obtain ⟨saved,w₁⟩ := save c w pt k
    cases saved with
    | false => exact ih w₁
    | true =>
      dsimp only
      obtain ⟨result,w₂⟩ := worker c w₁ pt (answers k) k
      cases result with
      | returns ok =>
        cases ok with
        | false => exact ih w₂
        | true => rfl
      | _ => rfl

/-- Attempts that were all given up: the instructions could not be saved, or the worker
returned false. The allocator keeps each attempt's buffers apart from the code. -/
inductive GivenUp : World → List (InstallMethod × Answers) → World → Prop
  | nil (w : World) : GivenUp w [] w
  | skipped {w w₁ w' : World} {k : InstallMethod} {a : Answers} {rest : List (InstallMethod × Answers)}
      (saves : save c w pt k = (false,w₁)) (later : GivenUp w₁ rest w') : GivenUp w ((k,a) :: rest) w'
  | failed {w w₁ w₂ w' : World} {k : InstallMethod} {a : Answers} {rest : List (InstallMethod × Answers)}
      (saves : save c w pt k = (true,w₁)) (placed : Placed c w₁ pt k a)
      (fails : worker c w₁ pt a k = (.returns false,w₂)) (later : GivenUp w₂ rest w') :
      GivenUp w ((k,a) :: rest) w'

def Current (w : World) (k : InstallMethod) : Prop :=
  ∃ code, (c.snippet pt).generate c.lib k.reloc (w.snippet pt).blob = some code ∧
    bytesAt w.mem (w.snippet pt).blob code.length = code

/-- The attempt finds nothing generated, or in the buffer it uses just its own code. -/
def Ready (w : World) (a : Answers) (k : InstallMethod) : Prop :=
  ∃ code, (c.snippet pt).generate c.lib k.reloc (blobBuffer c w pt a k) = some code ∧
    ((w.snippet pt).blobSize = 0 ∨ bytesAt w.mem (blobBuffer c w pt a k) code.length = code)

/-- What holds of every attempt made, in the world it is made in. -/
def EachAttempt (P : World → InstallMethod → Answers → Prop) : World → List (InstallMethod × Answers) → Prop
  | _, [] => True
  | w, (k,a) :: rest =>
    let saved := save c w pt k
    let run := worker c saved.2 pt a k
    (saved.1 = true → P saved.2 k a ∧ (run.1 = .returns false → EachAttempt P run.2 rest)) ∧
      (saved.1 = false → EachAttempt P saved.2 rest)

/-- A spring block found earlier was suitable. -/
def SpringsOk (w : World) : Prop :=
  ∀ s, (w.snippet pt).springBlk = some s → SpringOk c (c.blockOf pt).start s

end

section
variable {c : Config} {pt : Nat} {w f : World} {a : Answers} {k : InstallMethod}

theorem Quiet.springsOk {w' : World} (quiet : Quiet c pt w w') (springs : SpringsOk c pt w) :
    SpringsOk c pt w' :=
  fun s cached => (quiet.springs s cached).elim (springs s) id

theorem quiet_saved {ok : Bool} (saves : save c w pt k = (ok,f)) : Quiet c pt w f := by
  have quiet := @quiet_save c pt k w
  rwa [saves] at quiet

theorem SpringsOk.chosen {s : Nat} (springs : SpringsOk c pt w)
    (chosen : (findSpringboard c w pt).1 = some s) : SpringOk c (c.blockOf pt).start s := by
  rcases findSpringboard_cases (c := c) w pt with ⟨s',cached,eq⟩ | ⟨_,eq | ⟨s',fits,eq⟩⟩
  · rw [eq] at chosen
    exact springs s (Option.some.inj chosen ▸ cached)
  · simp [eq] at chosen
  · rw [eq] at chosen
    exact Option.some.inj chosen ▸ (suitable_iff.mp fits).1

/-- An attempt is given up before the code is changed; or it has patched the call and
could not make its blob executable. -/
theorem failed_cases (placed : Placed c w pt k a) (fails : worker c w pt a k = (.returns false,f)) :
    ¬Reaches c w pt a k ∧ Quiet c pt w f ∨
    k = .relocInsn ∧ Reaches c w pt a .relocInsn ∧
      ∃ w', Built c (getBlob w pt baseEstimateRelocInsnSize a.blob) pt false w' ∧
        let b := c.blockOf pt
        let blob := a.blob baseEstimateRelocInsnSize
        f = ({w' with rwx := (b.last,b.callSize) :: w'.rwx}.write b.last (callInsnJump b blob)).free blob := by
  have stopped : Stops c pt w (worker c w pt a k) → Quiet c pt w f := fun stops => by
    have quiet := stops.2
    rw [fails] at quiet
    exact quiet rfl
  have succeeds : ∀ {w'}, worker c w pt a k ≠ (.returns true,w') := by simp [fails]
  cases k with
  | trap =>
    rcases trap_cases placed with ⟨short,stops⟩ | ⟨_,w',_,run⟩
    · exact .inl ⟨short,stopped stops⟩
    · exact absurd run succeeds
  | relocInsn =>
    rcases callInsn_cases placed with ⟨short,stops⟩ | ⟨reaches,w',built,run⟩
    · exact .inl ⟨short,stopped stops⟩
    · dsimp only at run
      have run' : worker c w pt a .relocInsn = _ := run
      cases perm : a.blobPerm with
      | true =>
        rw [perm,if_pos rfl] at run'
        exact absurd run' succeeds
      | false =>
        rw [perm,if_neg (by simp),fails,Prod.mk.injEq] at run'
        exact .inr ⟨rfl,reaches,w',built,run'.2⟩
  | relocBlk =>
    rcases callBlock_cases placed with ⟨short,stops⟩ | ⟨_,w',_,run⟩
    · exact .inl ⟨short,stopped stops⟩
    · exact absurd run succeeds
  | springboard =>
    rcases springboard_cases placed with ⟨short,stops⟩ | ⟨_,s,code,w',_,_,_,run⟩
    · exact .inl ⟨short,stopped stops⟩
    · exact absurd run succeeds

theorem springsOk_failed (placed : Placed c w pt k a) (springs : SpringsOk c pt w)
    (fails : worker c w pt a k = (.returns false,f)) : SpringsOk c pt f := by
  rcases failed_cases placed fails with ⟨_,quiet⟩ | ⟨_,_,w',built,rfl⟩
  · exact quiet.springsOk springs
  · intro s cached
    have same := built.springBlk
    rw [getBlob_snippet] at same
    exact springs s (same ▸ cached)

theorem GivenUp.springsOk {w' : World} {attempts : List (InstallMethod × Answers)}
    (given : GivenUp c pt w attempts w') (springs : SpringsOk c pt w) : SpringsOk c pt w' := by
  induction given with
  | nil w => exact springs
  | skipped saves later ih => exact ih ((quiet_saved saves).springsOk springs)
  | failed saves placed fails later ih =>
    exact ih (springsOk_failed placed ((quiet_saved saves).springsOk springs) fails)

theorem holds_succeeded (layout : Layout c) (springs : SpringsOk c pt w) (placed : Placed c w pt k a)
    (done : worker c w pt a k = (.returns true,f)) :
    Reaches c w pt a k ∧ ∃ w₁ w', Holds c w pt a k w₁ w' f := by
  have stopped : ¬Stops c pt w (worker c w pt a k) := fun stops => stops.1 (by rw [done])
  cases k with
  | trap =>
    obtain ⟨reaches,w',built,run⟩ := (trap_cases placed).resolve_left fun either => stopped either.2
    obtain ⟨_,rfl⟩ := Prod.mk.inj (done.symm.trans run)
    exact ⟨reaches,_,w',holds_trap layout placed built rfl rfl⟩
  | relocInsn =>
    obtain ⟨reaches,w',built,run⟩ := (callInsn_cases placed).resolve_left fun either => stopped either.2
    have run' := done.symm.trans run
    cases perm : a.blobPerm with
    | false => simp [perm] at run'
    | true =>
      rw [perm,if_pos rfl] at run'
      obtain ⟨_,rfl⟩ := Prod.mk.inj run'
      exact ⟨reaches,_,w',holds_callInsn layout placed reaches.2.2.1 built rfl rfl⟩
  | relocBlk =>
    obtain ⟨reaches,w',built,run⟩ := (callBlock_cases placed).resolve_left fun either => stopped either.2
    obtain ⟨_,rfl⟩ := Prod.mk.inj (done.symm.trans run)
    have fits := length_callBlockJump reaches.2.2.2.1 reaches.2.2.1
    refine ⟨reaches,_,w',holds_callBlock placed fits built ?_ ?_⟩
    · cases a.codePerm <;> rfl
    · cases a.codePerm
      · exact .inl rfl
      · exact .inr rfl
  | springboard =>
    obtain ⟨reaches,s,moved,w',chosen,made,built,run⟩ :=
      (springboard_cases placed).resolve_left fun either => stopped either.2
    obtain ⟨_,rfl⟩ := Prod.mk.inj (done.symm.trans run)
    exact ⟨reaches,_,w',holds_springboard layout placed (springs.chosen chosen) made built⟩

theorem current_iff (layout : Layout c) (springs : SpringsOk c pt w) (placed : Placed c w pt k a)
    (done : worker c w pt a k = (.returns true,f)) : Current c pt f k ↔ Ready c pt w a k := by
  obtain ⟨_,w₁,w',holds⟩ := holds_succeeded layout springs placed done
  simp only [Current,Ready,holds.final]
  exact exists_congr fun code => and_congr_right fun generated => holds.complete layout placed generated

theorem ready_of_fresh (layout : Layout c) (springs : SpringsOk c pt w) (placed : Placed c w pt k a)
    (done : worker c w pt a k = (.returns true,f)) (none : (w.snippet pt).blobSize = 0) :
    Ready c pt w a k := by
  obtain ⟨⟨_,generates,_⟩,_⟩ := holds_succeeded layout springs placed done
  obtain ⟨code,generated⟩ := Option.isSome_iff_exists.mp (generates.resolve_left (by omega))
  exact ⟨code,generated,.inl none⟩

theorem tryAttempts_succeeds {attempts : List (InstallMethod × Answers)}
    (placed : EachAttempt c pt (fun w k a => Placed c w pt k a) w attempts)
    (done : tryAttempts c pt w attempts = (.returns true,f)) :
    ∃ before k a after w₀ w₁ f', attempts = before ++ (k,a) :: after ∧ GivenUp c pt w before w₀ ∧
      save c w₀ pt k = (true,w₁) ∧ Placed c w₁ pt k a ∧ worker c w₁ pt a k = (.returns true,f') ∧
      f.mem = f'.mem ∧ f.snippet = f'.snippet ∧ f.method pt = some k := by
  induction attempts generalizing w with
  | nil => cases done
  | cons attempt rest ih =>
    obtain ⟨k,a⟩ := attempt
    rw [EachAttempt] at placed
    rw [tryAttempts] at done
    cases saves : save c w pt k with
    | mk ok saved =>
    rw [saves] at placed done
    cases ok with
    | false =>
      obtain ⟨before,k',a',after,w₀,w₁,f',rfl,given,found⟩ := ih (placed.2 rfl) done
      exact ⟨(k,a) :: before,k',a',after,w₀,w₁,f',rfl,.skipped saves given,found⟩
    | true =>
      obtain ⟨here,next⟩ := placed.1 rfl
      dsimp only at here next done
      cases run : worker c saved pt a k with
      | mk result w' =>
      rw [run] at next done
      cases result with
      | returns ok =>
        cases ok with
        | true =>
          obtain ⟨_,rfl⟩ := Prod.mk.inj done
          exact ⟨[],k,a,rest,w,saved,w',rfl,.nil w,saves,here,run,rfl,rfl,by simp⟩
        | false =>
          obtain ⟨before,k',a',after,w₀,w₁,f',rfl,given,found⟩ := ih (next rfl) done
          exact ⟨(k,a) :: before,k',a',after,w₀,w₁,f',rfl,.failed saves here run given,found⟩
      | exits | aborts | faults => simp at done

end

end SelfPropelled.Workers
