import Mathlib
import RouteAtlas.Extraction

/-!
# Remembered paths in the course of an extraction

Most steps of an extraction end in the same way whatever was logged and remembered before them, and
remember nothing. Such work is settled. Only the path of a file is looked up among the remembered
ones, and from then on it is remembered itself. Work that looks up paths is described by the list of
its look-ups: what each would remember, and which routes it makes of the path that it gets.

A path that is remembered is never replaced. So a look-up gets the path that was remembered before all
the work, or else the one that the first look-up of its file derives.
-/

namespace RouteAtlas

open Files

namespace PathCache

section Lookups

theorem find?_insert
    (c : PathCache)
    (root file k : Path)
    (value : String) :
    (c.insert ⟨root, file, none, value⟩).find? root k none =
      if file = k then some value else c.find? root k none := by
  simp only [insert, find?, List.find?_append, List.find?_filter]
  by_cases hk : file = k
  · subst hk
    have hnone : c.entries.find? (fun e =>
        decide ((!isFor root file e) = true ∧ isFor root file e = true)) = none := by
      simp [List.find?_eq_none]
    rw [hnone]
    simp [isFor]
  · have hkept : (fun e => decide ((!isFor root file e) = true ∧ isFor root k e = true)) =
        isFor root k := by
      funext e
      by_cases he : e.file = k
      · simp [isFor, he, Ne.symm hk]
      · simp [isFor, he]
    have hnew : isFor root k ⟨root, file, none, value⟩ = false := by
      simp [isFor, hk]
    rw [hkept, List.find?_cons_of_neg (by simp [hnew]), List.find?_nil, Option.or_none, if_neg hk]

theorem getOrInsert_fst
    (c : PathCache)
    (root file : Path)
    (value : Unit → String) :
    (c.getOrInsert root file none value).1 = (c.find? root file none).getD (value ()) := by
  unfold getOrInsert
  cases c.find? root file none <;> rfl

/-- What is remembered stays; what was not remembered is what is derived. -/
theorem find?_getOrInsert
    (c : PathCache)
    (root file k : Path)
    (value : Unit → String) :
    (c.getOrInsert root file none value).2.find? root k none =
      (c.find? root k none).or (if file = k then some (value ()) else none) := by
  unfold getOrInsert
  cases hc : c.find? root file none with
  | some v =>
    by_cases hk : file = k
    · subst hk
      simp [hc]
    · simp [hk]
  | none =>
    simp only [find?_insert]
    by_cases hk : file = k
    · subst hk
      simp [hc]
    · simp [hk]

end Lookups

end PathCache

namespace Extraction

variable {α β : Type}

section Runs

/-- How some work ends that is started with some progress. -/
def ends
    (work : Extraction α)
    (p : Progress) :
    Except Fault α :=
  (work.run.run p).1

/-- The progress after some work. -/
def leaves
    (work : Extraction α)
    (p : Progress) :
    Progress :=
  (work.run.run p).2

theorem run_bind
    (work : Extraction α)
    (f : α → Extraction β)
    (p : Progress) :
    (work >>= f).run.run p =
      match ends work p with
      | .ok a => (f a).run.run (leaves work p)
      | .error e => (.error e, leaves work p) := by
  simp only [ends, leaves, ExceptT.run_bind, StateT.run_bind]
  rcases h : work.run.run p with ⟨out, q⟩
  cases out with
  | ok a => rfl
  | error e => rfl

theorem run_bind_of_ok
    {work : Extraction α}
    {p : Progress}
    {a : α}
    (h : ends work p = .ok a)
    (f : α → Extraction β) :
    (work >>= f).run.run p = (f a).run.run (leaves work p) := by
  rw [run_bind, h]

theorem run_bind_of_error
    {work : Extraction α}
    {p : Progress}
    {e : Fault}
    (h : ends work p = .error e)
    (f : α → Extraction β) :
    (work >>= f).run.run p = (.error e, leaves work p) := by
  rw [run_bind, h]

/-- Work that ends well has ended well with each of its two parts. -/
theorem exists_of_ends_bind
    {work : Extraction α}
    {f : α → Extraction β}
    {p : Progress}
    {b : β}
    (h : ends (work >>= f) p = .ok b) :
    ∃ a, ends work p = .ok a ∧ ends (f a) (leaves work p) = .ok b := by
  cases hends : ends work p with
  | error e =>
    have hrun := congrArg Prod.fst (run_bind_of_error hends f)
    cases h.symm.trans hrun
  | ok a => exact ⟨a, rfl, (congrArg Prod.fst (run_bind_of_ok hends f)).symm.trans h⟩

/-- What is found for a list is found for each of its elements at some time. -/
theorem exists_ends_of_ends_mapM
    {f : α → Extraction β}
    {as : List α}
    {p : Progress}
    {bs : List β}
    (h : ends (as.mapM f) p = .ok bs)
    {a : α}
    (ha : a ∈ as) :
    ∃ b q, ends (f a) q = .ok b ∧ b ∈ bs := by
  induction as generalizing p bs with
  | nil => cases ha
  | cons first rest ih =>
    rw [List.mapM_cons] at h
    obtain ⟨b, hb, h⟩ := exists_of_ends_bind h
    obtain ⟨later, hlater, h⟩ := exists_of_ends_bind h
    obtain rfl : b :: later = bs := Except.ok.inj h
    rcases List.mem_cons.1 ha with rfl | ha
    · exact ⟨b, p, hb, List.mem_cons_self ..⟩
    · obtain ⟨b', q, hb', hmem⟩ := ih hlater ha
      exact ⟨b', q, hb', List.mem_cons_of_mem _ hmem⟩

theorem run_orElseWith
    (work : Extraction α)
    (other : Fault → Extraction α)
    (p : Progress) :
    (orElseWith work other).run.run p =
      match ends work p with
      | .ok a => (.ok a, leaves work p)
      | .error e => (other e).run.run (leaves work p) := by
  simp only [ends, leaves, orElseWith, ExceptT.run_mk, StateT.run_bind]
  rcases h : work.run.run p with ⟨out, q⟩
  cases out with
  | ok a => rfl
  | error e => rfl

end Runs

section Ends

/-- Work that ends in a given way whatever was logged and remembered before it, and remembers
nothing. -/
def EndsIn
    (work : Extraction α)
    (e : Except Fault α) :
    Prop :=
  ∀ p, ends work p = e ∧ (leaves work p).cache = p.cache

theorem endsIn_pure (a : α) : EndsIn (pure a : Extraction α) (.ok a) :=
  fun _ => ⟨rfl, rfl⟩

theorem endsIn_throw (e : Fault) : EndsIn (throw e : Extraction α) (.error e) :=
  fun _ => ⟨rfl, rfl⟩

theorem endsIn_ofExcept (e : Except Fault α) : EndsIn (ofExcept e) e :=
  fun _ => ⟨rfl, rfl⟩

theorem endsIn_say
    (f : Framework)
    (level : Log.Level)
    (message : String) :
    EndsIn (say f level message) (.ok ()) :=
  fun _ => ⟨rfl, rfl⟩

theorem EndsIn.bind
    {work : Extraction α}
    {a : α}
    {f : α → Extraction β}
    {e : Except Fault β}
    (h : EndsIn work (.ok a))
    (hf : EndsIn (f a) e) :
    EndsIn (work >>= f) e := by
  intro p
  obtain ⟨hends, hcache⟩ := h p
  obtain ⟨hends', hcache'⟩ := hf (leaves work p)
  have hrun := run_bind_of_ok hends f
  exact ⟨(congrArg Prod.fst hrun).trans hends',
    ((congrArg (fun r => r.2.cache) hrun).trans hcache').trans hcache⟩

theorem EndsIn.bind_error
    {work : Extraction α}
    {e : Fault}
    (h : EndsIn work (.error e))
    (f : α → Extraction β) :
    EndsIn (work >>= f) (.error e) := by
  intro p
  obtain ⟨hends, hcache⟩ := h p
  have hrun := run_bind_of_error hends f
  exact ⟨congrArg Prod.fst hrun, (congrArg (fun r => r.2.cache) hrun).trans hcache⟩

theorem EndsIn.orElseWith
    {work : Extraction α}
    {a : α}
    (h : EndsIn work (.ok a))
    (other : Fault → Extraction α) :
    EndsIn (orElseWith work other) (.ok a) := by
  intro p
  obtain ⟨hends, hcache⟩ := h p
  have hrun := run_orElseWith work other p
  rw [hends] at hrun
  exact ⟨congrArg Prod.fst hrun, (congrArg (fun r => r.2.cache) hrun).trans hcache⟩

theorem EndsIn.orElseWith_error
    {work : Extraction α}
    {fault : Fault}
    {other : Fault → Extraction α}
    {e : Except Fault α}
    (h : EndsIn work (.error fault))
    (hother : EndsIn (other fault) e) :
    EndsIn (Extraction.orElseWith work other) e := by
  intro p
  obtain ⟨hends, hcache⟩ := h p
  obtain ⟨hends', hcache'⟩ := hother (leaves work p)
  have hrun := run_orElseWith work other p
  rw [hends] at hrun
  exact ⟨(congrArg Prod.fst hrun).trans hends',
    ((congrArg (fun r => r.2.cache) hrun).trans hcache').trans hcache⟩

/-- Settled work on each element of a list is settled work on the list. -/
theorem endsIn_mapM
    {f : α → Extraction β}
    {e : α → Except Fault β}
    (h : ∀ a, EndsIn (f a) (e a))
    (as : List α) :
    EndsIn (as.mapM f) (as.mapM e) := by
  induction as with
  | nil => exact endsIn_pure []
  | cons a rest ih =>
    rw [List.mapM_cons, List.mapM_cons]
    cases ha : e a with
    | error fault => exact (ha ▸ h a).bind_error _
    | ok b =>
      refine (ha ▸ h a).bind ?_
      cases hrest : rest.mapM e with
      | error fault => exact (hrest ▸ ih).bind_error _
      | ok bs => exact (hrest ▸ ih).bind (endsIn_pure _)

/-- A loop whose rounds all end well goes through the whole list. -/
theorem endsIn_foldlM
    {f : β → α → Extraction β}
    {g : β → α → β}
    (h : ∀ b a, EndsIn (f b a) (.ok (g b a)))
    (as : List α)
    (b : β) :
    EndsIn (as.foldlM f b) (.ok (as.foldl g b)) := by
  induction as generalizing b with
  | nil => exact endsIn_pure b
  | cons a rest ih =>
    rw [List.foldlM_cons, List.foldl_cons]
    exact (h b a).bind (ih _)

/-- A loop that is run for what its rounds log has no result. -/
theorem endsIn_forIn_say
    (as : List α)
    (f : Framework)
    (level : Log.Level)
    (message : α → String) :
    EndsIn (forIn as PUnit.unit fun a _ => do
      say f level (message a)
      return ForInStep.yield PUnit.unit) (.ok ()) := by
  induction as with
  | nil => exact endsIn_pure _
  | cons a rest ih =>
    rw [List.forIn_cons]
    refine EndsIn.bind (a := ForInStep.yield PUnit.unit) ?_ ih
    exact (endsIn_say f level (message a)).bind (endsIn_pure _)

end Ends

section Settled

/-- Work that ends in one way whatever was logged and remembered before it, remembers nothing, and
has a result of a given property if it has one. -/
def Settled
    (P : α → Prop)
    (work : Extraction α) :
    Prop :=
  ∃ e, EndsIn work e ∧ ∀ a, e = .ok a → P a

variable {P : α → Prop} {Q : β → Prop}

theorem Settled.mono
    {P' : α → Prop}
    {work : Extraction α}
    (h : Settled P work)
    (hP : ∀ a, P a → P' a) :
    Settled P' work := by
  obtain ⟨e, he, hresult⟩ := h
  exact ⟨e, he, fun a ha => hP a (hresult a ha)⟩

theorem settled_pure
    {a : α}
    (h : P a) :
    Settled P (pure a) := by
  refine ⟨.ok a, endsIn_pure a, ?_⟩
  rintro b ⟨⟩
  exact h

theorem settled_throw (e : Fault) : Settled P (throw e) := by
  refine ⟨.error e, endsIn_throw e, ?_⟩
  rintro b ⟨⟩

theorem settled_ofExcept (e : Except Fault α) : Settled (fun a => e = .ok a) (ofExcept e) :=
  ⟨e, endsIn_ofExcept e, fun _ h => h⟩

theorem settled_say
    (f : Framework)
    (level : Log.Level)
    (message : String) :
    Settled (fun _ => True) (say f level message) :=
  ⟨.ok (), endsIn_say f level message, fun _ _ => trivial⟩

theorem Settled.bind
    {work : Extraction α}
    {f : α → Extraction β}
    (h : Settled P work)
    (hf : ∀ a, P a → Settled Q (f a)) :
    Settled Q (work >>= f) := by
  obtain ⟨e, he, hP⟩ := h
  cases e with
  | error fault => exact ⟨.error fault, he.bind_error f, by rintro b ⟨⟩⟩
  | ok a =>
    obtain ⟨e', he', hQ⟩ := hf a (hP a rfl)
    exact ⟨e', he.bind he', hQ⟩

theorem Settled.orElseWith
    {work : Extraction α}
    {other : Fault → Extraction α}
    (h : Settled P work)
    (hother : ∀ e, Settled P (other e)) :
    Settled P (orElseWith work other) := by
  obtain ⟨e, he, hP⟩ := h
  cases e with
  | ok a => exact ⟨.ok a, he.orElseWith other, hP⟩
  | error fault =>
    obtain ⟨e', he', hP'⟩ := hother fault
    exact ⟨e', he.orElseWith_error he', hP'⟩

theorem settled_mapM
    {f : α → Extraction β}
    {as : List α}
    (h : ∀ a ∈ as, Settled Q (f a)) :
    Settled (fun bs => ∀ b ∈ bs, Q b) (as.mapM f) := by
  induction as with
  | nil => exact settled_pure (by simp)
  | cons a rest ih =>
    rw [List.mapM_cons]
    have hrest := ih fun a' ha' => h a' (List.mem_cons_of_mem a ha')
    refine (h a (List.mem_cons_self ..)).bind fun b hb => hrest.bind fun bs hbs => ?_
    refine settled_pure fun c hc => ?_
    rcases List.mem_cons.1 hc with rfl | hc
    · exact hb
    · exact hbs c hc

theorem settled_forIn
    {f : α → β → Extraction (ForInStep β)}
    (h : ∀ a b, Settled (fun _ => True) (f a b))
    (as : List α)
    (b : β) :
    Settled (fun _ => True) (forIn as b f) := by
  induction as generalizing b with
  | nil => exact settled_pure trivial
  | cons a rest ih =>
    rw [List.forIn_cons]
    refine (h a b).bind fun step _ => ?_
    cases step with
    | done b' => exact settled_pure trivial
    | yield b' => exact ih b'

end Settled

end Extraction

end RouteAtlas
