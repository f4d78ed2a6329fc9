import Mathlib
import RouteAtlas.Proofs.RouteIdentity

/-!
# Listings of routes

Routes are listed by path, then by method, then by file, and routes that agree in all three keep the order
in which they were found. So a listing does not depend on the order in which routes are found exactly if no
two different routes agree in all three.
-/

namespace RouteAtlas

open Extraction

namespace Route

section Order

/-- What routes are listed by: the path, then the place of the method among all methods, then the file. -/
def listingKey (r : Route) : String ×ₗ ℕ ×ₗ String :=
  toLex (r.path, toLex (verbs.idxOf r.method, r.filePath.getD ""))

/-- Two routes agree in all that routes are listed by. -/
def ListedAlike (a b : Route) : Prop :=
  a.path = b.path ∧ a.method = b.method ∧ a.filePath.getD "" = b.filePath.getD ""

theorem getD_verbRank? (m : String) : (verbRank? m).getD verbs.length = verbs.idxOf m :=
  List.findIdx_eq_getD_findIdx?.symm

theorem isSome_verbRank?_iff (m : String) : (verbRank? m).isSome ↔ m ∈ verbs := by
  simp [verbRank?]

theorem listedBefore_iff (a b : Route) : listedBefore a b ↔ a.listingKey ≤ b.listingKey := by
  unfold listedBefore listingKey
  simp only [getD_verbRank?, Prod.Lex.toLex_le_toLex]
  by_cases hpath : a.path = b.path
  · by_cases hplace : verbs.idxOf a.method = verbs.idxOf b.method
    · simp only [hpath, hplace, bne_self_eq_false, Bool.false_eq_true, if_false, lt_irrefl, false_or,
        true_and, Bool.not_eq_true', decide_eq_false_iff_not, not_lt]
    · simp [hpath, hplace]
  · simp [hpath]

theorem listingKey_eq_iff
    {a b : Route}
    (ha : a.method ∈ verbs) :
    a.listingKey = b.listingKey ↔ ListedAlike a b := by
  simp [listingKey, ListedAlike, List.idxOf_inj ha]

theorem sort_of_verbs
    {routes : List Route}
    (h : ∀ r ∈ routes, r.method ∈ verbs) :
    sort routes = .ok (routes.mergeSort listedBefore) := by
  have hall : routes.all fun r => (verbRank? r.method).isSome :=
    List.all_eq_true.2 fun r hr => (isSome_verbRank?_iff r.method).2 (h r hr)
  rw [sort, if_pos hall]

/-- Routes that are found in listing order are listed as they are found. -/
theorem sort_of_pairwise
    {routes : List Route}
    (h : ∀ r ∈ routes, r.method ∈ verbs)
    (hordered : routes.Pairwise fun a b => listedBefore a b) :
    sort routes = .ok routes := by
  rw [sort_of_verbs h, List.mergeSort_of_pairwise hordered]

theorem listedBefore_trans
    (a b c : Route)
    (hab : listedBefore a b)
    (hbc : listedBefore b c) :
    listedBefore a c :=
  (listedBefore_iff a c).2 (((listedBefore_iff a b).1 hab).trans ((listedBefore_iff b c).1 hbc))

theorem listedBefore_total (a b : Route) : (listedBefore a b || listedBefore b a) = true := by
  rw [Bool.or_eq_true, listedBefore_iff, listedBefore_iff]
  exact le_total _ _

theorem pairwise_listing (routes : List Route) :
    (routes.mergeSort listedBefore).Pairwise fun a b => a.listingKey ≤ b.listingKey :=
  (List.pairwise_mergeSort listedBefore_trans listedBefore_total routes).imp fun {a b} =>
    (listedBefore_iff a b).1

/-- Routes that are listed alike stay in the order in which they were found. -/
theorem filter_listing
    (key : String ×ₗ ℕ ×ₗ String)
    (routes : List Route) :
    (routes.mergeSort listedBefore).filter (·.listingKey = key) =
      routes.filter (·.listingKey = key) := by
  let alike := routes.filter (·.listingKey = key)
  have hordered : alike.Pairwise fun a b => listedBefore a b := by
    refine List.pairwise_of_forall_mem_list fun a ha b hb => (listedBefore_iff a b).2 ?_
    have hkey : ∀ r ∈ alike, r.listingKey = key := fun r hr => by simpa using (List.mem_filter.1 hr).2
    rw [hkey a ha, hkey b hb]
  have hkept : alike.Sublist (routes.mergeSort listedBefore) :=
    List.sublist_mergeSort listedBefore_trans listedBefore_total hordered List.filter_sublist
  have hsublist : alike.Sublist ((routes.mergeSort listedBefore).filter (·.listingKey = key)) := by
    have hfiltered := hkept.filter (·.listingKey = key)
    simpa only [alike, List.filter_filter, Bool.and_self] using hfiltered
  refine (hsublist.eq_of_length ?_).symm
  exact ((List.mergeSort_perm routes listedBefore).filter _).length_eq.symm

/-- A listing does not depend on the order in which routes are found exactly if no two different routes
are listed alike. -/
theorem listing_perm_iff (routes : List Route) :
    (∀ found : List Route, found.Perm routes →
        found.mergeSort listedBefore = routes.mergeSort listedBefore) ↔
      ∀ a ∈ routes, ∀ b ∈ routes, a.listingKey = b.listingKey → a = b := by
  constructor
  · intro h a ha b hb hkey
    by_contra hne
    -- the two are found first, in one order and in the other
    let rest := (routes.erase a).erase b
    have hb' : b ∈ routes.erase a := (List.mem_erase_of_ne (Ne.symm hne)).2 hb
    have hperm : (a :: b :: rest).Perm routes :=
      ((List.perm_cons_erase hb').symm.cons a).trans (List.perm_cons_erase ha).symm
    have hsame : (a :: b :: rest).mergeSort listedBefore = (b :: a :: rest).mergeSort listedBefore :=
      (h _ hperm).trans (h _ ((List.Perm.swap a b rest).trans hperm)).symm
    have hfirst := congrArg (List.filter (·.listingKey = a.listingKey)) hsame
    rw [filter_listing, filter_listing] at hfirst
    have hheads : a = b := by simpa [hkey] using congrArg List.head? hfirst
    exact hne hheads
  · intro h found hperm
    have hfound (r : Route) : r ∈ found.mergeSort listedBefore ↔ r ∈ routes :=
      List.mem_mergeSort.trans hperm.mem_iff
    have hperm' : (found.mergeSort listedBefore).Perm (routes.mergeSort listedBefore) :=
      (List.mergeSort_perm found _).trans (hperm.trans (List.mergeSort_perm routes _).symm)
    refine hperm'.eq_of_pairwise ?_ (pairwise_listing found) (pairwise_listing routes)
    intro a b ha hb hab hba
    exact h a ((hfound a).1 ha) b (List.mem_mergeSort.1 hb) (le_antisymm hab hba)

/-- Routes of supported methods are listed by path, then by method, then by file, in whatever order they
are found. This order does not matter for the listing exactly if no two different routes agree in all
three. -/
theorem sort_perm_iff
    {routes : List Route}
    (hverbs : ∀ r ∈ routes, r.method ∈ verbs) :
    (∀ found : List Route, found.Perm routes →
        ∃ listed, sort found = .ok listed ∧ listed.Perm routes ∧
          listed.Pairwise fun a b => a.listingKey ≤ b.listingKey) ∧
      ((∀ found : List Route, found.Perm routes → sort found = sort routes) ↔
        ∀ a ∈ routes, ∀ b ∈ routes, ListedAlike a b → a = b) := by
  have hsort (found : List Route) (hperm : found.Perm routes) :
      sort found = .ok (found.mergeSort listedBefore) :=
    sort_of_verbs fun r hr => hverbs r (hperm.mem_iff.1 hr)
  constructor
  · intro found hperm
    exact ⟨_, hsort found hperm, (List.mergeSort_perm found _).trans hperm, pairwise_listing found⟩
  · calc (∀ found : List Route, found.Perm routes → sort found = sort routes)
        ↔ ∀ found : List Route, found.Perm routes →
            found.mergeSort listedBefore = routes.mergeSort listedBefore := by
          refine forall₂_congr fun found hperm => ?_
          rw [hsort found hperm, hsort routes (.refl routes), Except.ok.injEq]
      _ ↔ ∀ a ∈ routes, ∀ b ∈ routes, a.listingKey = b.listingKey → a = b := listing_perm_iff routes
      _ ↔ ∀ a ∈ routes, ∀ b ∈ routes, ListedAlike a b → a = b := by
          refine forall₂_congr fun a ha => forall₂_congr fun b _ => ?_
          rw [listingKey_eq_iff (hverbs a ha)]

end Order

end Route

section Sites

theorem Route.sort_perm_listedPaths :
    (∀ r ∈ [listedRoute "/a/x" "C.n", listedRoute "/a" "C.m"], r.method ∈ Route.verbs) ∧
      Route.sort [listedRoute "/a" "C.m", listedRoute "/a/x" "C.n"] =
        Route.sort [listedRoute "/a/x" "C.n", listedRoute "/a" "C.m"] := by
  have hverbs : ∀ r ∈ [listedRoute "/a/x" "C.n", listedRoute "/a" "C.m"],
      r.method ∈ Route.verbs := by
    decide
  refine ⟨hverbs, (Route.sort_perm_iff hverbs).2.2 ?_ _ (.swap ..)⟩
  unfold Route.ListedAlike
  decide

/-- A project with one controller, two of whose methods answer under the same path. -/
def sharedPath : Site :=
  soleController "@Controller('a')class C\x7b@Get()m()\x7b\x7d@Get()n()\x7b\x7d\x7d"

theorem routes_sharedPath :
    (ends (Scan.run sharedPath []) .start).map Scan.routes =
      .ok [listedRoute "/a" "C.m", listedRoute "/a" "C.n"] := by
  simp only [sharedPath, Scan.run, Scan.routesOf, Framework.handlers, Controllers.handlers,
    structured_soleController]
  decide +kernel

/-- A listing may depend on the order in which routes are found: two methods of a controller that answer
under one path are listed in this order. -/
theorem Scan.not_sort_perm_sharedPath :
    ¬ ∀ (s : Site) (wanted : List Framework) (scan : Scan),
      ends (Scan.run s wanted) .start = .ok scan → (∀ r ∈ scan.routes, r.method ∈ Route.verbs) →
        ∀ found : List Route, found.Perm scan.routes → Route.sort found = Route.sort scan.routes := by
  intro h
  obtain ⟨scan, hscan, hroutes⟩ := exists_of_map_eq_ok routes_sharedPath
  have hsame := h sharedPath [] scan hscan (by rw [hroutes]; decide)
    [listedRoute "/a" "C.n", listedRoute "/a" "C.m"] (by rw [hroutes]; exact .swap ..)
  rw [hroutes, Route.sort_of_pairwise (by decide) (by decide),
    Route.sort_of_pairwise (by decide) (by decide)] at hsame
  revert hsame
  decide

end Sites

end RouteAtlas
