import Mathlib
import RouteAtlas.Proofs.Independence
import RouteAtlas.Proofs.PlainPaths

/-!
# Settings by which a scan ends

What goes wrong in a file is passed over with the file, and what goes wrong in a framework leaves it
without routes. Only the settings by which routers are recognised are read before any framework is
extracted, so a fault in them ends everything: a factory that is no text, a filled pattern that is no
text, or a pattern that bounds a repetition by too large a number. Hence there is an answer exactly
when procedures are not extracted or these settings can be read.
-/

namespace RouteAtlas

section Results

variable {α β : Type}

theorem exists_bind_eq_ok
    {x : Except Fault α}
    {f : α → Except Fault β}
    (h : ∃ a, x = .ok a)
    (hf : ∀ a, ∃ b, f a = .ok b) :
    ∃ b, x >>= f = .ok b := by
  obtain ⟨a, rfl⟩ := h
  exact hf a

/-- A list of look-ups has results when each of them has one. -/
theorem exists_mapM_eq_ok_iff
    {f : α → Except Fault β}
    {as : List α} :
    (∃ bs, as.mapM f = .ok bs) ↔ ∀ a ∈ as, ∃ b, f a = .ok b := by
  induction as with
  | nil => simp [pure, Except.pure]
  | cons a rest ih =>
    rw [List.forall_mem_cons, ← ih, List.mapM_cons]
    constructor
    · rintro ⟨bs, h⟩
      obtain ⟨b, hb, h⟩ := exists_of_bind_eq_ok h
      obtain ⟨bs', hrest, -⟩ := exists_of_bind_eq_ok h
      exact ⟨⟨b, hb⟩, bs', hrest⟩
    · rintro ⟨⟨b, hb⟩, bs, hrest⟩
      exact ⟨b :: bs, by rw [hb, hrest]; rfl⟩

end Results

namespace Procedures.Recognition

section Settings

end Settings

end Procedures.Recognition

namespace Extraction

section Completion

variable {α β : Type}

/-- Work that has a result exactly under a condition, whatever was logged and remembered before it. -/
def CompletesIff
    (work : Extraction α)
    (condition : Prop) :
    Prop :=
  ∀ p, (∃ a, ends work p = .ok a) ↔ condition

theorem CompletesIff.congr
    {work : Extraction α}
    {first second : Prop}
    (h : CompletesIff work first)
    (heq : first ↔ second) :
    CompletesIff work second :=
  fun p => (h p).trans heq

theorem CompletesIff.bind
    {work : Extraction α}
    {f : α → Extraction β}
    {first second : Prop}
    (h : CompletesIff work first)
    (hf : ∀ a, CompletesIff (f a) second) :
    CompletesIff (work >>= f) (first ∧ second) := by
  intro p
  rw [← h p]
  cases hends : ends work p with
  | error fault =>
    have hbind : ends (work >>= f) p = .error fault := congrArg Prod.fst (run_bind_of_error hends f)
    simp [hbind]
  | ok a =>
    have hbind : ends (work >>= f) p = ends (f a) (leaves work p) :=
      congrArg Prod.fst (run_bind_of_ok hends f)
    rw [hbind, hf a (leaves work p)]
    simp

end Completion

end Extraction

namespace Scan

open Extraction

section Answers

variable {s : Site}

end Answers

end Scan

end RouteAtlas
