import SelfPropelled.Propagation

/-! Each call block is patched at most once, where the threads keep out of each other's way. -/

namespace SelfPropelled.Propagation

section
variable (prog : Program)

/-- The step passes no check on a block that another thread has checked and not yet marked,
and commits no batch while another thread is in `run`, unless both are inside the lock; no
attempt writes and then fails, or makes a call block a spring. -/
def Clear (s : State Nat) (i : Input) : Prop :=
  (∀ g p rest commands, s.pc i.tid = .checking g (p :: rest) commands →
    s.shared.instrumented (prog.block p) = false → interesting prog g p = true →
      ∀ u, u ≠ i.tid → ∀ q ∈ (s.ahead.pc u).pending, prog.block q = prog.block p →
        g.locked = true ∧ (s.pc u).holds = true) ∧
  Solo s i.tid ∧
  ((i.outcome.wrote = true ∨ i.outcome.spring.isSome = true) → i.outcome.ok = true) ∧
  ∀ b, i.outcome.spring = some b → ∀ q, prog.block q ≠ b

/-- What the steps keep under the condition. -/
structure Inv (s : State (List Nat)) : Prop where
  alive : s.shared.aborted = false
  tidy : ∀ t, (((s.pc t).rest ++ (s.pc t).pending).map prog.block).Nodup
  apart : ∀ t u, t ≠ u → ∀ p ∈ (s.pc t).pending, ∀ q ∈ (s.pc u).pending, prog.block p ≠ prog.block q
  fresh : ∀ t, ∀ p ∈ (s.pc t).queued, s.shared.instrumented (prog.block p) = false ∧
    ∀ P ∈ s.shared.patches, prog.block P.pt ≠ prog.block p
  settled : ∀ P ∈ s.shared.patches, s.shared.instrumented (prog.block P.pt) = true ∨
    ∃ t, ∃ p ∈ (s.pc t).patched, prog.block p = prog.block P.pt
  home : ∀ P ∈ s.shared.patches, P.block = prog.block P.pt ∨ ∀ q, prog.block q ≠ P.block
  snip : ∀ P ∈ s.shared.patches, s.shared.snip P.pt = P.snip
  once : ∀ q, (s.shared.patches.filter fun P => P.block == prog.block q).length ≤ 1

end

section
variable {prog : Program} {s : State (List Nat)} {t : Nat} {sh : Shared} {pc : Pc (List Nat)}

theorem tidy_enter (g : Go) : (((enter prog g : Pc (List Nat)).rest ++ (enter prog g).pending).map prog.block).Nodup := by
  unfold enter
  split
  · simpa [Pc.rest,Pc.pending,Pc.patched,Pc.queued] using prog.distinct g.func
  · simp [Pc.rest,Pc.pending,Pc.patched,Pc.queued]

theorem Inv.same (inv : Inv prog s) (alive : sh.aborted = false)
    (instrumented : sh.instrumented = s.shared.instrumented) (patches : sh.patches = s.shared.patches)
    (snip : sh.snip = s.shared.snip) (none : (s.pc t).patched = [])
    (tidy : ((pc.rest ++ pc.pending).map prog.block).Nodup)
    (pending : ∀ p ∈ pc.pending, p ∈ (s.pc t).queued) : Inv prog (s.set t (sh,pc)) := by
  have queued : ∀ u, ∀ p ∈ ((s.set t (sh,pc)).pc u).pending, p ∈ (s.pc u).pending := by
    intro u p member
    by_cases own : u = t
    · subst own
      rw [State.set_self] at member
      exact List.mem_append_right _ (pending p member)
    · rwa [State.set_other s own] at member
  refine ⟨alive,fun u => ?_,fun u v differ p member q member' =>
    inv.apart u v differ p (queued u p member) q (queued v q member'),fun u p member => ?_,fun P listed => ?_,
    fun P listed => inv.home P (patches ▸ listed),fun P listed => ?_,fun q => ?_⟩
  · by_cases own : u = t
    · rw [own,State.set_self]
      exact tidy
    · rw [State.set_other s own]
      exact inv.tidy u
  · have old : p ∈ (s.pc u).queued := by
      by_cases own : u = t
      · subst own
        rw [State.set_self] at member
        exact pending p (List.mem_append_right _ member)
      · rwa [State.set_other s own] at member
    rw [State.set_shared,instrumented,patches]
    exact inv.fresh u p old
  · rw [State.set_shared,patches] at listed
    rw [State.set_shared,instrumented]
    refine (inv.settled P listed).imp_right fun ⟨u,p,member,same⟩ => ⟨u,p,?_,same⟩
    have other : u ≠ t := fun own => by rw [own,none] at member; cases member
    rwa [State.set_other s other]
  · rw [State.set_shared,patches] at listed
    rw [State.set_shared,snip]
    exact inv.snip P listed
  · rw [State.set_shared,patches]
    exact inv.once q

/-- A step after which the thread has no points. -/
theorem Inv.without (inv : Inv prog s) (alive : sh.aborted = false)
    (instrumented : sh.instrumented = s.shared.instrumented) (patches : sh.patches = s.shared.patches)
    (snip : sh.snip = s.shared.snip) (none : (s.pc t).patched = []) (rest : pc.rest = [])
    (pending : pc.pending = []) : Inv prog (s.set t (sh,pc)) := by
  refine inv.same alive instrumented patches snip none ?_ fun p member => ?_
  · rw [rest,pending]
    exact List.nodup_nil
  · rw [pending] at member
    cases member

theorem Inv.check (inv : Inv prog s) (mutex : Mutex s) {g : Go} {p : Nat} {rest commands : List Nat}
    (here : s.pc t = .checking g (p :: rest) commands)
    (unmarked : s.shared.instrumented (prog.block p) = false)
    (clear : ∀ u, u ≠ t → ∀ q ∈ (s.pc u).pending, prog.block q = prog.block p →
      g.locked = true ∧ (s.pc u).holds = true) : Inv prog (s.set t (s.shared,.setting g p rest commands)) := by
  have alone : ∀ u, u ≠ t → ∀ q ∈ (s.pc u).pending, prog.block q ≠ prog.block p := by
    intro u other q member same
    obtain ⟨locked,held⟩ := clear u other q member same
    exact other (mutex.one u t held (by rw [here]; exact locked))
  have tidy : ((p :: rest ++ commands).map prog.block).Nodup := by
    have old := inv.tidy t
    rwa [here] at old
  have pending : ∀ u, ∀ q ∈ ((s.set t (s.shared,.setting g p rest commands)).pc u).pending,
      u = t ∧ q = p ∨ q ∈ (s.pc u).pending := by
    intro u q member
    by_cases own : u = t
    · subst own
      rw [State.set_self] at member
      rw [here]
      exact (List.mem_cons.mp member).imp_left fun same => ⟨rfl,same⟩
    · rw [State.set_other s own] at member
      exact .inr member
  refine ⟨inv.alive,fun u => ?_,fun u v differ q member r member' => ?_,fun u q member => ?_,fun P listed => ?_,
    inv.home,inv.snip,inv.once⟩
  · by_cases own : u = t
    · rw [own,State.set_self]
      exact (List.perm_middle.map prog.block).nodup_iff.mpr tidy
    · rw [State.set_other s own]
      exact inv.tidy u
  · rcases pending u q member with ⟨rfl,rfl⟩ | old
    · rcases pending v r member' with ⟨rfl,_⟩ | old'
      · exact absurd rfl differ
      · exact (alone v differ.symm r old').symm
    · rcases pending v r member' with ⟨rfl,rfl⟩ | old'
      · exact alone u differ q old
      · exact inv.apart u v differ q old r old'
  · by_cases own : u = t
    swap
    · rw [State.set_other s own] at member
      exact inv.fresh u q member
    subst own
    rw [State.set_self] at member
    rcases List.mem_cons.mp member with rfl | old
    · refine ⟨unmarked,fun P listed same => ?_⟩
      rcases inv.settled P listed with marked | ⟨v,r,member',same'⟩
      · rw [same,unmarked] at marked
        cases marked
      · have other : v ≠ u := fun own => by
          rw [own,here] at member'
          cases member'
        exact alone v other r (List.mem_append_left _ member') (same'.trans same)
    · exact inv.fresh u q (by rw [here]; exact old)
  · refine (inv.settled P listed).imp_right fun ⟨u,q,member,same⟩ => ⟨u,q,?_,same⟩
    have other : u ≠ t := fun own => by
      rw [own,here] at member
      cases member
    rwa [State.set_other s other]

theorem Inv.setSnip (inv : Inv prog s) {g : Go} {p : Nat} {rest commands : List Nat}
    (here : s.pc t = .setting g p rest commands) (n : Nat) :
    Inv prog (s.set t ({s.shared with snip := fun q => if q = p then n else s.shared.snip q,created := n},
      .checking g rest (commands ++ [p]))) := by
  have moved : Inv prog (s.set t (s.shared,.checking g rest (commands ++ [p]))) := by
    have order : (commands ++ [p]).Perm (p :: commands) := List.perm_append_singleton p commands
    refine inv.same inv.alive rfl rfl rfl (by rw [here]; rfl) ?_ fun q member => ?_
    · have old := inv.tidy t
      rw [here] at old
      exact ((order.append_left rest).map prog.block).nodup_iff.mpr old
    · rw [here]
      exact order.mem_iff.mp member
  refine ⟨moved.alive,moved.tidy,moved.apart,moved.fresh,moved.settled,moved.home,fun P listed => ?_,moved.once⟩
  have unpatched := (inv.fresh t p (by rw [here]; exact List.mem_cons_self)).2 P listed
  have other : P.pt ≠ p := fun same => unpatched (same ▸ rfl)
  exact (if_neg other).trans (inv.snip P listed)

theorem Inv.mark (inv : Inv prog s) {g : Go} {p : Nat} {commands : List Nat}
    (here : s.pc t = .marking g p commands) :
    Inv prog (s.set t ({s.shared with instrumented := fun b => b == prog.block p || s.shared.instrumented b},
      .running g commands)) := by
  have tidy : ((p :: commands).map prog.block).Nodup := by
    have old := inv.tidy t
    rwa [here] at old
  have pending : ∀ u, ∀ q ∈ ((s.set t (s.shared,.running g commands)).pc u).pending, q ∈ (s.pc u).pending := by
    intro u q member
    by_cases own : u = t
    · subst own
      rw [State.set_self] at member
      rw [here]
      exact List.mem_cons_of_mem _ member
    · rwa [State.set_other s own] at member
  refine ⟨inv.alive,fun u => ?_,fun u v differ q member r member' =>
    inv.apart u v differ q (pending u q member) r (pending v r member'),fun u q member => ?_,fun P listed => ?_,
    inv.home,inv.snip,inv.once⟩
  · by_cases own : u = t
    · rw [own,State.set_self]
      exact (List.nodup_cons.mp tidy).2
    · rw [State.set_other s own]
      exact inv.tidy u
  · have mine : p ∈ (s.pc t).pending := by
      rw [here]
      exact List.mem_cons_self
    have old : q ∈ (s.pc u).queued ∧ prog.block q ≠ prog.block p := by
      by_cases own : u = t
      · subst own
        rw [State.set_self] at member
        refine ⟨by rw [here]; exact member,fun same => ?_⟩
        exact (List.nodup_cons.mp tidy).1 (same ▸ List.mem_map_of_mem member)
      · rw [State.set_other s own] at member
        exact ⟨member,inv.apart u t own q (List.mem_append_right _ member) p mine⟩
    obtain ⟨unmarked,unpatched⟩ := inv.fresh u q old.1
    exact ⟨by simp [old.2,unmarked],unpatched⟩
  · rcases inv.settled P listed with marked | ⟨u,q,member,same⟩
    · exact .inl (by simp [marked])
    · by_cases own : u = t
      · rw [own,here] at member
        rw [List.mem_singleton.mp member] at same
        exact .inl (by simp [same])
      · exact .inr ⟨u,q,by rwa [State.set_other s own],same⟩

theorem mem_patchesOf {o : Outcome} {p n : Nat} {P : Patch} (listed : P ∈ patchesOf prog o p n) :
    P.pt = p ∧ P.snip = n ∧ (o.wrote = true ∧ P.block = prog.block p ∨ o.spring = some P.block) := by
  rcases List.mem_append.mp listed with own | spring
  · split at own
    next wrote =>
      rw [List.mem_singleton.mp own]
      exact ⟨rfl,rfl,.inl ⟨wrote,rfl⟩⟩
    next => cases own
  · obtain ⟨b,found,rfl⟩ := Option.map_eq_some_iff.mp (Option.mem_toList.mp spring)
    exact ⟨rfl,rfl,.inr found⟩

theorem count_patchesOf {o : Outcome} (hosts : ∀ b, o.spring = some b → ∀ q, prog.block q ≠ b) (p n q : Nat) :
    ((patchesOf prog o p n).filter fun P => P.block == prog.block q).length ≤
      if prog.block q = prog.block p then 1 else 0 := by
  have spring : ((o.spring.map fun b => (⟨b,p,n⟩ : Patch)).toList.filter fun P => P.block == prog.block q) = [] := by
    refine List.filter_eq_nil_iff.mpr fun P listed => ?_
    obtain ⟨b,found,rfl⟩ := Option.map_eq_some_iff.mp (Option.mem_toList.mp listed)
    exact fun same => hosts b found q (beq_iff_eq.mp same).symm
  rw [patchesOf,List.filter_append,spring,List.append_nil]
  by_cases same : prog.block q = prog.block p
  · rw [if_pos same]
    exact (List.length_filter_le _ _).trans (by split <;> simp)
  · have none : ((if o.wrote then [(⟨prog.block p,p,n⟩ : Patch)] else []).filter
        fun P => P.block == prog.block q) = [] := by
      refine List.filter_eq_nil_iff.mpr fun P listed => ?_
      split at listed
      · rw [List.mem_singleton.mp listed]
        exact fun hit => same (beq_iff_eq.mp hit).symm
      · cases listed
    rw [none,if_neg same,List.length_nil]

/-- The patch of the point is the first to its block. -/
theorem Inv.once_patched (inv : Inv prog s) {p : Nat} (mine : p ∈ (s.pc t).queued) {o : Outcome}
    (hosts : ∀ b, o.spring = some b → ∀ q, prog.block q ≠ b) (n q : Nat) :
    ((s.shared.patches ++ patchesOf prog o p n).filter fun P => P.block == prog.block q).length ≤ 1 := by
  have added := count_patchesOf hosts p n q
  rw [List.filter_append,List.length_append]
  split at added
  next same =>
    have none : (s.shared.patches.filter fun P => P.block == prog.block q) = [] := by
      refine List.filter_eq_nil_iff.mpr fun P before hit => ?_
      have block : P.block = prog.block q := beq_iff_eq.mp hit
      rcases inv.home P before with own | host
      · exact (inv.fresh t p mine).2 P before (own.symm.trans (block.trans same))
      · exact host q block.symm
    simpa [none] using added
  next => exact (Nat.add_le_add (inv.once q) added).trans (by simp)

/-- An attempt that succeeds. -/
theorem Inv.patch (inv : Inv prog s) {g : Go} {p n : Nat} {commands : List Nat} {o : Outcome}
    (here : s.pc t = .trying g p commands (n + 1)) (hosts : ∀ b, o.spring = some b → ∀ q, prog.block q ≠ b) :
    Inv prog (s.set t ({s.shared with patches := s.shared.patches ++ patchesOf prog o p (s.shared.snip p)},
      .marking g p commands)) := by
  have tidy : ((p :: commands).map prog.block).Nodup := by
    have old := inv.tidy t
    rwa [here] at old
  have mine : p ∈ (s.pc t).queued := by
    rw [here]
    exact List.mem_cons_self
  have pending : ∀ u, ∀ q ∈ ((s.set t (s.shared,.marking g p commands)).pc u).pending, q ∈ (s.pc u).pending := by
    intro u q member
    by_cases own : u = t
    · subst own
      rw [State.set_self] at member
      rw [here]
      exact member
    · rwa [State.set_other s own] at member
  refine ⟨inv.alive,fun u => ?_,fun u v differ q member r member' =>
    inv.apart u v differ q (pending u q member) r (pending v r member'),fun u q member => ?_,fun P listed => ?_,
    fun P listed => ?_,fun P listed => ?_,inv.once_patched mine hosts _⟩
  · by_cases own : u = t
    · rw [own,State.set_self]
      exact tidy
    · rw [State.set_other s own]
      exact inv.tidy u
  · -- a queued point: of another thread, or behind this one
    have old : q ∈ (s.pc u).queued ∧ prog.block q ≠ prog.block p := by
      by_cases own : u = t
      · subst own
        rw [State.set_self] at member
        refine ⟨by rw [here]; exact List.mem_cons_of_mem _ member,fun same => ?_⟩
        exact (List.nodup_cons.mp tidy).1 (same ▸ List.mem_map_of_mem member)
      · rw [State.set_other s own] at member
        exact ⟨member,inv.apart u t own q (List.mem_append_right _ member) p (List.mem_append_right _ mine)⟩
    obtain ⟨unmarked,unpatched⟩ := inv.fresh u q old.1
    refine ⟨unmarked,fun P listed same => ?_⟩
    rcases List.mem_append.mp listed with before | new
    · exact unpatched P before same
    · rw [(mem_patchesOf new).1] at same
      exact old.2 same.symm
  · rcases List.mem_append.mp listed with before | new
    · refine (inv.settled P before).imp_right fun ⟨u,q,member,same⟩ => ⟨u,q,?_,same⟩
      have other : u ≠ t := fun own => by
        rw [own,here] at member
        cases member
      rwa [State.set_other s other]
    · refine .inr ⟨t,p,?_,by rw [(mem_patchesOf new).1]⟩
      rw [State.set_self]
      exact List.mem_cons_self
  · rcases List.mem_append.mp listed with before | new
    · exact inv.home P before
    · obtain ⟨pt,_,⟨_,own⟩ | spring⟩ := mem_patchesOf new
      · exact .inl (by rw [own,pt])
      · exact .inr (hosts _ spring)
  · rcases List.mem_append.mp listed with before | new
    · exact inv.snip P before
    · obtain ⟨pt,snip,_⟩ := mem_patchesOf new
      rw [snip,pt]
      rfl

theorem Inv.attempt (inv : Inv prog s) {g : Go} {p n : Nat} {commands : List Nat} {o : Outcome}
    (here : s.pc t = .trying g p commands (n + 1))
    (whole : o.wrote = true ∨ o.spring.isSome = true → o.ok = true)
    (hosts : ∀ b, o.spring = some b → ∀ q, prog.block q ≠ b) :
    Inv prog (s.set t ({s.shared with patches := s.shared.patches ++ patchesOf prog o p (s.shared.snip p)},
      if o.ok then .marking g p commands else .trying g p commands n)) := by
  cases done : o.ok with
  | true => exact inv.patch here hosts
  | false =>
    have nothing : patchesOf prog o p (s.shared.snip p) = [] := by
      cases o with
      | mk wrote spring ok =>
        cases done
        cases wrote with
        | true => exact absurd (whole (.inl rfl)) Bool.false_ne_true
        | false =>
          cases spring with
          | some b => exact absurd (whole (.inr rfl)) Bool.false_ne_true
          | none => rfl
    rw [nothing,List.append_nil]
    refine inv.same inv.alive rfl rfl rfl (by rw [here]; rfl) ?_ fun q member => ?_
    · have old := inv.tidy t
      rwa [here] at old
    · rw [here]
      exact member

end

section
variable {prog : Program} {s : State Nat} {t : Nat} {caller : Caller} {o : Outcome} {sh : Shared} {pc pc' : Pc Nat}

theorem Inv.moves (inv : Inv prog s.ahead) (mutex : Mutex s.ahead) {sh₀ : Shared} (shared : s.shared = sh₀) (own : s.pc t = pc)
    (moved : Moves prog caller o sh₀ pc sh pc') (fresh : ∀ g batch, pc = .checking g [] batch → sh₀.commands = [])
    (checks : ∀ g p rest commands, pc = .checking g (p :: rest) commands → sh₀.instrumented (prog.block p) = false →
      interesting prog g p = true → ∀ u, u ≠ t → ∀ q ∈ (s.ahead.pc u).pending, prog.block q = prog.block p →
        g.locked = true ∧ (s.ahead.pc u).holds = true)
    (whole : o.wrote = true ∨ o.spring.isSome = true → o.ok = true)
    (hosts : ∀ b, o.spring = some b → ∀ q, prog.block q ≠ b) :
    Inv prog (s.ahead.set t (sh,pc'.ahead sh.commands)) := by
  have here : s.ahead.pc t = pc.ahead sh₀.commands := by
    rw [← own,← shared]
    rfl
  subst shared
  have tidy := inv.tidy t
  rw [here] at tidy
  have none_patched : pc.patched = [] → (s.ahead.pc t).patched = [] := by
    rw [here,patched_ahead]
    exact id
  cases moved with
  | stay | call | nothing => exact inv.without inv.alive rfl rfl rfl (none_patched rfl) rfl rfl
  | acquire | unlock | propagated | registered | clear => exact inv.without inv.alive rfl rfl rfl (none_patched rfl) rfl rfl
  | event | walk =>
    rw [ahead_enter]
    refine inv.same inv.alive rfl rfl rfl (none_patched rfl) (tidy_enter _) fun p member => ?_
    rw [pending_enter] at member
    cases member
  | commit =>
    rename_i g batch
    have left : (Pc.running g 0).ahead (prog.commit s.shared.commands batch) = .running g batch := by
      rw [fresh g batch rfl,prog.commit_nil]
      rfl
    refine inv.same inv.alive rfl rfl rfl (none_patched rfl) ?_ fun p member => ?_
    · rw [left]
      exact tidy
    · rw [left] at member
      rw [here]
      exact member
  | skip out =>
    refine inv.same inv.alive rfl rfl rfl (none_patched rfl) (List.nodup_cons.mp tidy).2 fun q member => ?_
    rw [here]
    exact member
  | take unmarked taken =>
    exact inv.check mutex here unmarked (checks _ _ _ _ rfl unmarked taken)
  | queue => exact inv.setSnip here _
  | pass next =>
    rw [ahead_running next] at here tidy
    refine inv.same inv.alive rfl rfl rfl (by rw [here]; rfl) (List.nodup_cons.mp tidy).2 fun q member => ?_
    rw [here]
    exact List.mem_cons_of_mem _ member
  | fail next marked =>
    -- the assertion holds, as the point is queued
    rw [ahead_running next] at here
    have unmarked := (inv.fresh t _ (by rw [here]; exact List.mem_cons_self)).1
    exact absurd marked (by rw [← Bool.not_eq_true] at unmarked; exact unmarked)
  | tryWorkers next =>
    rw [ahead_running next] at here tidy
    refine inv.same inv.alive rfl rfl rfl (by rw [here]; rfl) tidy fun q member => ?_
    rw [here]
    exact member
  | giveUp =>
    refine inv.same inv.alive rfl rfl rfl (none_patched rfl) (List.nodup_cons.mp tidy).2 fun q member => ?_
    rw [here]
    exact List.mem_cons_of_mem _ member
  | attempt =>
    have moved := inv.attempt here whole hosts
    cases done : o.ok with
    | true | false =>
      rw [done] at moved
      exact moved
  | mark => exact inv.mark here

theorem Inv.step (inv : Inv prog s.ahead) (exclusive : Exclusive s) (i : Input) (clear : Clear prog s i) :
    Inv prog (step prog s i).ahead := by
  obtain ⟨checks,solo,whole,hosts⟩ := clear
  have moved := Propagation.moves prog s.shared i.caller i.outcome (s.pc i.tid)
  have mutex : Mutex s.ahead := ⟨fun t held => exclusive.mutex.lock t (by simpa [State.ahead] using held),
    fun t u held held' => exclusive.mutex.one t u (by simpa [State.ahead] using held) (by simpa [State.ahead] using held')⟩
  rw [step_eq inv.alive,moved.ahead exclusive solo]
  refine inv.moves mutex rfl rfl moved (fun g batch here => exclusive.fresh solo here) ?_ whole hosts
  intro g p rest commands here unmarked taken u other q member same
  obtain ⟨locked,held⟩ := checks g p rest commands here unmarked taken u other q member same
  exact ⟨locked,by simpa [State.ahead] using held⟩

theorem Inv.initial : Inv prog .initial where
  alive := rfl
  tidy _ := List.nodup_nil
  apart _ _ _ _ member := by cases member
  fresh _ _ member := by cases member
  settled _ listed := by cases listed
  home _ listed := by cases listed
  snip _ listed := by cases listed
  once _ := Nat.zero_le 1

/-- Each call block is patched at most once. In every run of steps of any number of threads
under the condition, no call block is written to twice, a patch leads to the snippet its
point still has, and the assertion never fails. -/
theorem patched_once (prog : Program) (inputs : List Input)
    (clear : Library.Meets (step prog) (Clear prog) .initial inputs) :
    let s := Library.run (step prog) .initial inputs
    (∀ q, (s.shared.patches.filter fun P => P.block == prog.block q).length ≤ 1) ∧
      (∀ P ∈ s.shared.patches, s.shared.snip P.pt = P.snip) ∧ s.shared.aborted = false := by
  have both : Inv prog (Library.run (step prog) .initial inputs).ahead ∧ Exclusive (Library.run (step prog) .initial inputs) :=
    @Library.invariant_run (State Nat) Input (step prog) (Clear prog) (fun s => Inv prog s.ahead ∧ Exclusive s)
      (fun _ i kept clear => ⟨kept.1.step kept.2 i clear,kept.2.step i clear.2.1⟩) _ _ ⟨.initial,.initial⟩ clear
  exact ⟨both.1.once,both.1.snip,both.1.alive⟩

/-- An attempt that writes succeeds, and makes no call block a spring. -/
def Outcome.Whole (prog : Program) (o : Outcome) : Prop :=
  (o.wrote = true ∨ o.spring.isSome = true → o.ok = true) ∧ ∀ b, o.spring = some b → ∀ q, prog.block q ≠ b

theorem started_of_pending {commands : List Nat} {q : Nat} (member : q ∈ (pc.ahead commands).pending) : pc.go.isSome = true := by
  cases pc with
  | idle | spinning | acquired | returned | unlocking => cases member
  | _ => rfl

/-- Callers that take the lock need no other condition. -/
theorem clear_of_within (all : ∀ t, (s.pc t).within = true) {i : Input} (whole : i.outcome.Whole prog) :
    Clear prog s i := by
  refine ⟨fun g p rest commands here _ _ u _ q member _ => ⟨?_,?_⟩,solo_of_within all i.tid,whole.1,whole.2⟩
  · have own := all i.tid
    rwa [here] at own
  · exact holds_of_within (all u) (started_of_pending member)

theorem meets_of_locks {inputs : List Input} (all : ∀ t, (s.pc t).within = true)
    (locks : ∀ i ∈ inputs, i.caller.locks = true ∧ i.outcome.Whole prog) :
    Library.Meets (step prog) (Clear prog) s inputs := by
  induction inputs generalizing s with
  | nil => trivial
  | cons i rest ih =>
    obtain ⟨lock,whole⟩ := locks i List.mem_cons_self
    exact ⟨clear_of_within all whole,ih (within_step all lock) fun j listed => locks j (List.mem_cons_of_mem _ listed)⟩

end

def oneCall : Program where
  block := fun p => p
  nextPoints := fun f => if f = 0 then [0] else []
  callee := fun _ => some 1
  getCallee := fun _ => true
  isBranch := fun _ => false
  canInstrument := fun _ => true
  directcallOnly := false
  noTailcall := false
  workers := 4
  appends := false
  distinct := by
    intro f
    split <;> simp

/-- Each function calls at the point of its number. -/
def twoCalls : Program := {oneCall with
  nextPoints := fun f => if f < 2 then [f] else []
  callee := fun _ => some 2
  distinct := by
    intro f
    split <;> simp}

/-- Steps of a thread that begins as this caller; every attempt patches the call block. -/
def steps (tid : Nat) (caller : Caller) (n : Nat) : List Input :=
  List.replicate n ⟨tid,caller,⟨true,none,true⟩⟩

/-- A call's payload propagates while an event is registered for the same function: the
mark is set after the event has checked it. -/
def racedMark : List Input :=
  steps 0 (.propel (some 0)) 8 ++ steps 1 (.registerEvent 0 none) 2 ++ steps 0 (.propel (some 0)) 2 ++
    steps 1 (.registerEvent 0 none) 3

/-- The same, where both have come to the workers. -/
def racedPatch : List Input :=
  steps 0 (.propel (some 0)) 7 ++ steps 1 (.registerEvent 0 none) 6 ++ steps 0 (.propel (some 0)) 1

/-- The event is for another function; its batch takes the place of the payload's. -/
def racedList : List Input :=
  steps 0 (.propel (some 0)) 6 ++ steps 1 (.registerEvent 1 none) 4 ++ steps 0 (.propel (some 0)) 2 ++
    steps 1 (.registerEvent 1 none) 2

/-- The snippet the patch leads to is replaced and the assertion fails; the block is
patched twice; both runs patch the event's block. -/
theorem raced_twice :
    (∃ P ∈ (Library.run (step oneCall) .initial racedMark).shared.patches,
      (Library.run (step oneCall) .initial racedMark).shared.snip P.pt ≠ P.snip) ∧
    (Library.run (step oneCall) .initial racedMark).shared.aborted = true ∧
    ((Library.run (step oneCall) .initial racedPatch).shared.patches.filter
      fun P => P.block == oneCall.block 0).length = 2 ∧
    ((Library.run (step twoCalls) .initial racedList).shared.patches.filter
      fun P => P.block == twoCalls.block 1).length = 2 := by
  refine ⟨⟨⟨0,0,1⟩,?_,?_⟩,?_,?_,?_⟩ <;> decide

/-- A payload and a new thread, both under the lock. -/
def taken : List Input :=
  steps 0 (.propel (some 0)) 5 ++ steps 1 (.beforeEntry (some 0)) 3 ++ steps 0 (.propel (some 0)) 7 ++
    steps 1 (.beforeEntry (some 0)) 6

theorem patched_once_taken :
    ((Library.run (step oneCall) .initial taken).shared.patches.filter
      fun P => P.block == oneCall.block 0).length ≤ 1 ∧
    (Library.run (step oneCall) .initial taken).shared.patches = [⟨0,0,1⟩] ∧
    (Library.run (step oneCall) .initial taken).shared.snip 0 = 1 := by
  have locks : ∀ i ∈ taken, i.caller.locks = true ∧ i.outcome.Whole oneCall := by
    intro i listed
    simp only [taken,steps,List.mem_append,List.mem_replicate] at listed
    rcases listed with ((⟨_,rfl⟩ | ⟨_,rfl⟩) | ⟨_,rfl⟩) | ⟨_,rfl⟩ <;> exact ⟨rfl,fun _ => rfl,by simp⟩
  obtain ⟨once,snip,_⟩ := patched_once oneCall taken (meets_of_locks (fun _ => rfl) locks)
  have one : (Library.run (step oneCall) .initial taken).shared.patches = [⟨0,0,1⟩] := by decide
  exact ⟨once 0,one,snip ⟨0,0,1⟩ (by rw [one]; exact List.mem_cons_self)⟩

end SelfPropelled.Propagation
