import SelfPropelled.Library.Overwrite

/-! What events bring and end: after a run a thing is there if one of the events brought it and
none ended it since. -/

namespace SelfPropelled.Library

section
variable {ε σ : Type*} {born kill : ε → Prop}

/-- Brought by one of the events, and ended by none after it. -/
def Lives (born kill : ε → Prop) (events : List ε) : Prop :=
  ∃ first e rest, events = first ++ e :: rest ∧ born e ∧ ∀ d ∈ rest, ¬kill d

theorem lives_nil : ¬Lives born kill [] := by
  rintro ⟨first,e,rest,split,_⟩
  simp at split

theorem lives_concat {events : List ε} {e : ε} :
    Lives born kill (events ++ [e]) ↔ born e ∨ Lives born kill events ∧ ¬kill e := by
  constructor
  · rintro ⟨first,d,rest,split,brought,stays⟩
    rcases List.eq_nil_or_concat rest with rfl | ⟨rest,last,rfl⟩
    · obtain ⟨_,same⟩ := List.append_inj' split rfl
      obtain rfl := List.singleton_inj.mp same
      exact .inl brought
    · rw [List.concat_eq_append,← List.cons_append,← List.append_assoc] at split
      obtain ⟨before,same⟩ := List.append_inj' split rfl
      obtain rfl := List.singleton_inj.mp same
      exact .inr ⟨⟨first,d,rest,before,brought,fun x member => stays x (by simp [member])⟩,stays e (by simp)⟩
  · rintro (brought | ⟨⟨first,d,rest,rfl,brought,stays⟩,kept⟩)
    · exact ⟨events,e,[],rfl,brought,by simp⟩
    · refine ⟨first,d,rest ++ [e],by simp,brought,fun x member => ?_⟩
      rcases List.mem_append.mp member with before | last
      · exact stays x before
      · rw [List.mem_singleton.mp last]
        exact kept

open Classical in
/-- A cell that each step of a run lights, clears or leaves. -/
theorem lives_read [DecidablePred born] [DecidablePred kill] {step : σ → ε → σ} {read : σ → Option Bool}
    {events : List ε} {s : σ} (start : read s = none)
    (one : ∀ e ∈ events, ∀ s, read (step s e) = if born e then some false else if kill e then none else read s) :
    read (events.foldl step s) = if Lives born kill events then some false else none := by
  induction events using List.reverseRecOn with
  | nil => rw [List.foldl_nil,if_neg lives_nil,start]
  | append_singleton events e ih =>
    rw [List.foldl_append,List.foldl_cons,List.foldl_nil,one e (by simp),lives_concat]
    rw [ih fun d member => one d (List.mem_append_left _ member)]
    by_cases brought : born e
    · simp [brought]
    · by_cases ended : kill e <;> simp [brought,ended]

/-- After a last step that lights what it brings brighter, a cell tells of that too. -/
theorem lives_lit (born kill : ε → Prop) [DecidablePred born] [DecidablePred kill] (step : Bool → σ → ε → σ)
    (read : σ → Option Bool) {events : List ε} {last : ε} {s : σ}
    (start : read s = none) (one : ∀ e ∈ events ++ [last], ∀ lit s, read (step lit s e) =
      if born e then some lit else if kill e then none else read s) :
    let seen := read (step true (events.foldl (step false) s) last)
    (seen.isSome = true ↔ Lives born kill (events ++ [last])) ∧ (seen = some true ↔ born last) := by
  classical
  have before : read (events.foldl (step false) s) = if Lives born kill events then some false else none :=
    lives_read start fun e member s => one e (List.mem_append_left _ member) false s
  intro seen
  have after : seen = if born last then some true else if kill last then none else
      if Lives born kill events then some false else none := by
    rw [← before]
    exact one last (by simp) true _
  rw [after,lives_concat]
  by_cases brought : born last
  · simp [brought]
  · by_cases ended : kill last
    · simp [brought,ended]
    · by_cases lives : Lives born kill events <;> simp [brought,ended,lives]

theorem Lives.mono {born' kill' : ε → Prop} {events : List ε} (lives : Lives born kill events)
    (brings : ∀ e, born e → born' e) (ends : ∀ e, kill' e → kill e) : Lives born' kill' events := by
  obtain ⟨first,e,rest,split,brought,stays⟩ := lives
  exact ⟨first,e,rest,split,brings e brought,fun d member ended => stays d member (ends d ended)⟩

theorem Lives.brought {events : List ε} (lives : Lives born kill events) : ∃ e ∈ events, born e := by
  obtain ⟨first,e,rest,rfl,brought,_⟩ := lives
  exact ⟨e,by simp,brought⟩

/-- What nothing ends lives from when it is brought. -/
theorem lives_endless {events : List ε} (endless : ∀ e, ¬kill e) : Lives born kill events ↔ ∃ e ∈ events, born e := by
  refine ⟨Lives.brought,fun ⟨e,member,brought⟩ => ?_⟩
  obtain ⟨first,rest,split⟩ := List.append_of_mem member
  exact ⟨first,e,rest,split,brought,fun d _ => endless d⟩

/-- Which events end a thing matters only if one brings it. -/
theorem Lives.congr {kill' : ε → Prop} {events : List ε}
    (same : (∃ e ∈ events, born e) → ∀ d, kill d ↔ kill' d) : Lives born kill events ↔ Lives born kill' events := by
  refine exists_congr fun first => exists_congr fun e => exists_congr fun rest =>
    and_congr_right fun split => and_congr_right fun brought => forall₂_congr fun d _ => not_congr ?_
  exact same ⟨e,by simp [split],brought⟩ d

end

section
variable {ε ε' ν : Type*}

theorem lastWrite_append (effect : ε → Option ν) (first later : List ε) :
    lastWrite effect (first ++ later) = (lastWrite effect later).or (lastWrite effect first) := by
  induction first with
  | nil => simp [lastWrite]
  | cons e first ih => rw [List.cons_append,lastWrite,ih,lastWrite,Option.or_assoc]

/-- The last write of events that are made of several is the last of theirs. -/
theorem lastWrite_flatMap (effect : ε → Option ν) (parts : ε' → List ε) (events : List ε') :
    lastWrite effect (events.flatMap parts) = lastWrite (fun e => lastWrite effect (parts e)) events := by
  induction events with
  | nil => rfl
  | cons e events ih => rw [List.flatMap_cons,lastWrite_append,ih,lastWrite]

theorem lastWrite_eq_getLast? (effect : ε → Option ν) (events : List ε) :
    lastWrite effect events = (events.filterMap effect).getLast? := by
  induction events with
  | nil => rfl
  | cons e events ih =>
    rw [lastWrite,ih,List.filterMap_cons]
    cases effect e with
    | none => simp
    | some v =>
      rw [List.getLast?_cons]
      cases (events.filterMap effect).getLast? <;> rfl

end

end SelfPropelled.Library
