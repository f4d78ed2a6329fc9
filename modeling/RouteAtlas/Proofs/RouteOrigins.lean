import Mathlib
import RouteAtlas.Proofs.HandlerOrigins
import RouteAtlas.Proofs.Independence

/-!
# Where routes come from

The routes of an extraction are made of handlers. What holds of all handlers that the frameworks find,
and lasts while more paths are remembered, holds of the handler of every route of an extraction of some
frameworks, and of every route of a scan.
-/

namespace RouteAtlas

open Extraction

/-- What a route has of its handler. -/
theorem Route.fields_of_ofHandler?
    {h : Handler}
    {r : Route}
    (hr : ofHandler? h = some r) :
    verb? h.method = some r.method ∧ r.path = normalizePath h.path ∧ r.type = h.framework.tag ∧
      r.filePath = some h.filePath ∧ r.handlerName = h.handlerName := by
  simp only [ofHandler?, Option.map_eq_some_iff] at hr
  obtain ⟨m, hm, rfl⟩ := hr
  exact ⟨hm, rfl, rfl, rfl, rfl⟩

section Routes

variable {s : Site} {P : Memory → Handler → Prop}

/-- A route of a handler with a given property. -/
def IsRouteOf
    (P : Memory → Handler → Prop)
    (m : Memory)
    (r : Route) :
    Prop :=
  ∃ h, Route.ofHandler? h = some r ∧ P m h

theorem lasting_isRouteOf
    (hP : Lasting P) :
    Lasting (IsRouteOf P) := by
  rintro m m' r hm ⟨h, hr, hh⟩
  exact ⟨h, hr, hP m m' h hm hh⟩

theorem yields_routes
    {f : Framework}
    {work : Extraction (List Handler)}
    (h : Yields s (fun m hs => ∀ h ∈ hs, P m h) work) :
    Yields s (fun m rs => ∀ r ∈ rs, IsRouteOf P m r)
      (Extraction.routes f work : StateM Progress (List Route)) := by
  intro p
  obtain ⟨hkept, hresult⟩ := h p
  have hrun : (∀ r ∈ ((Extraction.routes f work).run p).1,
        ∃ hs, ends work p = .ok hs ∧ r ∈ Route.ofHandlers hs) ∧
      ((Extraction.routes f work).run p).2.cache = (leaves work p).cache := by
    cases hends : ends work p with
    | error e =>
      obtain ⟨hroutes, hcache⟩ := Scan.routes_of_error (f := f) hends
      exact ⟨by simp [hroutes], hcache⟩
    | ok hs =>
      obtain ⟨hroutes, hcache⟩ := Scan.routes_of_ok (f := f) hends
      exact ⟨fun r hr => ⟨hs, rfl, hroutes ▸ hr⟩, hcache⟩
  obtain ⟨hroutes, hcache⟩ := hrun
  have hafter : remembered s (leaves (Extraction.routes f work : StateM Progress (List Route)) p) =
      remembered s (leaves work p) := remembered_congr hcache
  rw [hafter]
  refine ⟨hkept, fun rs hrs r hr => ?_⟩
  obtain rfl : ((Extraction.routes f work).run p).1 = rs := Except.ok.inj hrs
  obtain ⟨hs, hends, hmem⟩ := hroutes r hr
  obtain ⟨h, hh, hroute⟩ := List.mem_filterMap.1 hmem
  exact ⟨h, hroute, hresult hs hends h hh⟩

/-- The routes of some frameworks. -/
theorem yields_routesOf
    (hP : Lasting P)
    {frameworks : List Framework}
    (h : ∀ f ∈ frameworks, ∀ work, f.handlers s = .ok work →
      Yields s (fun m hs => ∀ h ∈ hs, P m h) work) :
    Yields s (fun m rs => ∀ r ∈ rs, IsRouteOf P m r) (Scan.routesOf s frameworks) := by
  have hroute := lasting_isRouteOf hP
  unfold Scan.routesOf
  refine (yields_mapM (Q := fun _ (w : Framework × Extraction (List Handler)) =>
    w.1 ∈ frameworks ∧ w.1.handlers s = .ok w.2) (lasting_const _) fun f hf => ?_).bind
      fun work hwork => ?_
  · exact (yields_ofExcept _).bind fun found hfound => yields_pure fun _ => ⟨hf, hfound⟩
  · refine (yields_mapM (lasting_forall hroute) fun w hw =>
      yields_routes (h w.1 (hwork w hw).1 w.2 (hwork w hw).2)).bind_lasting
        (lasting_forall (lasting_forall hroute)) fun lists _ _ => yields_pure fun m hlists r hr => ?_
    obtain ⟨rs, hrs, hr⟩ := List.mem_flatten.1 hr
    exact hlists rs hrs r hr

theorem yields_scanSay
    (level : Log.Level)
    (message : String) :
    Yields s (fun _ _ => True) (Scan.say level message) :=
  fun _ => ⟨fun _ _ hv => hv, fun _ _ => trivial⟩

/-- The routes of a scan. -/
theorem yields_run
    (hP : Lasting P)
    (h : ∀ (f : Framework) work, f.handlers s = .ok work →
      Yields s (fun m hs => ∀ h ∈ hs, P m h) work)
    (wanted : List Framework) :
    Yields s (fun m scan => ∀ r ∈ scan.routes, IsRouteOf P m r) (Scan.run s wanted) := by
  unfold Scan.run
  dsimp only
  split
  · exact (yields_scanSay _ _).bind fun _ _ => yields_pure (by simp)
  · refine (yields_scanSay _ _).bind fun _ _ => ?_
    split
    · exact (yields_scanSay _ _).bind fun _ _ => yields_pure (by simp)
    · refine (yields_routesOf hP fun f _ => h f).bind_lasting (lasting_forall (lasting_isRouteOf hP))
        fun rs _ _ => ?_
      exact (yields_scanSay _ _).bind fun _ _ => yields_pure fun _ hrs => hrs

end Routes

end RouteAtlas
