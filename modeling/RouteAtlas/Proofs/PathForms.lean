import Mathlib
import RouteAtlas.Controllers.Path
import RouteAtlas.Proofs.DynamicSegments
import RouteAtlas.Proofs.RouteLabels

/-!
# Forms of paths

What is left of a text without the characters of a class at its ends is told by how the text is cut. With
this, two forms of paths are told by what is written. The canonical form of a path is made once for the
label of a handler and once more for its route; the two agree unless slashes hide white space, which is
trimmed before slashes are dropped from the end. The path of a controller joins its pieces as far as they
are more than slashes, once for each version, and depends on no slash at the ends of a piece.
-/

namespace RouteAtlas

namespace Text

section Trimming

variable {p : Char → Bool}

theorem dropWhile_eq_self
    {cs : List Char}
    (h : ∀ c, cs.head? = some c → ¬p c) :
    cs.dropWhile p = cs := by
  cases cs with
  | nil => rfl
  | cons c rest => exact List.dropWhile_cons_of_neg (h c rfl)

theorem dropLastWhile_eq_self
    {cs : List Char}
    (h : ∀ c, cs.getLast? = some c → ¬p c) :
    dropLastWhile p cs = cs :=
  List.rdropWhile_eq_self_iff.2 fun hne => h _ (List.getLast?_eq_some_getLast hne)

theorem dropLastWhile_append
    {back : List Char}
    (hback : ∀ c ∈ back, p c)
    (cs : List Char) :
    dropLastWhile p (cs ++ back) = dropLastWhile p cs := by
  have hback' : ∀ c ∈ back.reverse, p c := fun c hc => hback c (List.mem_reverse.1 hc)
  rw [dropLastWhile, List.reverse_append, List.dropWhile_append_of_pos hback', dropLastWhile]

/-- What is left of a list is cut out of it so that all around is of the class, and its ends are not. -/
theorem dropEnds_eq_iff
    (p : Char → Bool)
    (cs core : List Char) :
    dropEnds p cs = core ↔
      (∃ front back, cs = front ++ core ++ back ∧ (∀ c ∈ front, p c) ∧ ∀ c ∈ back, p c) ∧
        (∀ c, core.head? = some c → ¬p c) ∧ ∀ c, core.getLast? = some c → ¬p c := by
  constructor
  · rintro rfl
    have hcut : dropEnds p cs ++ (cs.dropWhile p).rtakeWhile p = cs.dropWhile p :=
      List.rdropWhile_append_rtakeWhile
    refine ⟨⟨cs.takeWhile p, (cs.dropWhile p).rtakeWhile p, ?_, ?_, ?_⟩, fun c hhead => ?_, fun c => ?_⟩
    · rw [List.append_assoc, hcut, List.takeWhile_append_dropWhile]
    · exact fun c => List.mem_takeWhile_imp
    · exact fun c => List.mem_rtakeWhile_imp
    · have hhead' : (cs.dropWhile p).head? = some c := by
        rw [← hcut, List.head?_append_of_ne_nil _ (List.ne_nil_of_mem (List.mem_of_head? hhead))]
        exact hhead
      exact not_of_head?_dropWhile hhead'
    · exact not_of_getLast?_dropLastWhile
  · rintro ⟨⟨front, back, rfl, hfront, hback⟩, hhead, hlast⟩
    rw [dropEnds, List.append_assoc, List.dropWhile_append_of_pos hfront]
    rcases eq_or_ne core [] with rfl | hne
    · rw [List.nil_append, List.dropWhile_eq_nil_iff.2 hback]
      rfl
    · have hhead' : ∀ c, (core ++ back).head? = some c → ¬p c := by
        rwa [List.head?_append_of_ne_nil _ hne]
      rw [dropWhile_eq_self hhead', dropLastWhile_append hback, dropLastWhile_eq_self hlast]

/-- What is left of a list without the characters of a class at its end has the same last character as
all characters of the list that are not of the class. -/
theorem getLast?_dropLastWhile
    (p : Char → Bool)
    (cs : List Char) :
    (dropLastWhile p cs).getLast? = (cs.filter fun c => !p c).getLast? := by
  rw [dropLastWhile, List.getLast?_reverse, List.getLast?_eq_head?_reverse, ← List.filter_reverse]
  induction cs.reverse with
  | nil => rfl
  | cons c rest ih =>
    by_cases hc : p c
    · rw [List.dropWhile_cons_of_pos hc, List.filter_cons_of_neg (by simp [hc]), ih]
    · rw [List.dropWhile_cons_of_neg hc, List.filter_cons_of_pos (by simp [hc])]
      rfl

end Trimming

end Text

namespace Route

section RepeatedForms

/-- Only slashes are lost where every run of slashes becomes one slash. -/
theorem filter_singleSlashes (cs : List Char) :
    ((singleSlashes cs).filter fun c => !decide (c = '/')) = cs.filter fun c => !decide (c = '/') := by
  fun_induction singleSlashes cs with
  | case1 => rfl
  | case2 c => rfl
  | case3 c d rest h ih =>
    obtain ⟨rfl, rfl⟩ : c = '/' ∧ d = '/' := by simpa using h
    rw [ih]
    rfl
  | case4 c d rest h ih => rw [List.filter_cons, List.filter_cons, ih]

theorem filter_withLeadingSlash (cs : List Char) :
    ((withLeadingSlash cs).filter fun c => !decide (c = '/')) = cs.filter fun c => !decide (c = '/') := by
  unfold withLeadingSlash
  split <;> rfl

/-- A canonical form ends with white space exactly if the last character of the trimmed path that is no
slash is white space. -/
theorem endsBlank_normalizePath_iff_trimmed (path : String) :
    EndsBlank (normalizePath path) ↔
      ∃ c, (Text.dropLastWhile (· = '/') (Text.dropEnds Text.isBlank path.toList)).getLast? = some c ∧
        Text.isBlank c := by
  let trimmed := Text.dropEnds Text.isBlank path.toList
  let written := withLeadingSlash (singleSlashes trimmed)
  have hlast : (Text.dropLastWhile (· = '/') written).getLast? =
      (Text.dropLastWhile (· = '/') trimmed).getLast? := by
    rw [Text.getLast?_dropLastWhile, Text.getLast?_dropLastWhile, filter_withLeadingSlash,
      filter_singleSlashes]
  have hform : (normalizePath path).toList = withoutFinalSlash written := String.toList_ofList
  rw [EndsBlank, hform, ← hlast]
  unfold withoutFinalSlash
  split
  · next hnil => simp [hnil, show ¬Text.isBlank '/' by decide]
  · rfl

/-- A path ends with slashes after white space, further white space aside, and has more than white space
before that. -/
def HidesBlank (path : String) : Prop :=
  ∃ (front : List Char) (blank : Char) (slashes back : List Char),
    path.toList = front ++ blank :: slashes ++ back ∧
      (∃ c ∈ front, ¬Text.isBlank c) ∧ Text.isBlank blank ∧
      slashes ≠ [] ∧ (∀ c ∈ slashes, c = '/') ∧ ∀ c ∈ back, Text.isBlank c

/-- Trimming a path leaves the white space that slashes hide. -/
theorem HidesBlank.exists_trimmed
    {path : String}
    (h : HidesBlank path) :
    ∃ (front : List Char) (blank : Char) (slashes : List Char),
      Text.dropEnds Text.isBlank path.toList = front ++ [blank] ++ slashes ∧
        Text.isBlank blank ∧ ∀ c ∈ slashes, c = '/' := by
  obtain ⟨front, blank, slashes, back, hpath, ⟨c, hc, hfull⟩, hblank, hne, hslashes, hback⟩ := h
  refine ⟨front.dropWhile Text.isBlank, blank, slashes, ?_, hblank, hslashes⟩
  have hfront : front.dropWhile Text.isBlank ≠ [] := fun hnil =>
    hfull (List.dropWhile_eq_nil_iff.1 hnil c hc)
  refine (Text.dropEnds_eq_iff ..).2 ⟨⟨front.takeWhile Text.isBlank, back, ?_, ?_, hback⟩, ?_, ?_⟩
  · rw [hpath, ← List.append_assoc, ← List.append_assoc, List.takeWhile_append_dropWhile]
    simp
  · exact fun c => List.mem_takeWhile_imp
  · intro c hhead
    rw [List.append_assoc, List.head?_append_of_ne_nil _ hfront] at hhead
    exact not_of_head?_dropWhile hhead
  · intro c hlast
    rw [List.getLast?_append_of_ne_nil _ hne] at hlast
    rw [hslashes c (List.mem_of_getLast? hlast)]
    decide

/-- White space that slashes follow in a trimmed path is hidden in the path. -/
theorem hidesBlank_of_trimmed
    {path : String}
    {front slashes : List Char}
    {blank : Char}
    (htrimmed : Text.dropEnds Text.isBlank path.toList = front ++ [blank] ++ slashes)
    (hblank : Text.isBlank blank)
    (hslashes : ∀ c ∈ slashes, c = '/') :
    HidesBlank path := by
  obtain ⟨⟨before, back, hpath, -, hback⟩, hhead, hlast⟩ := (Text.dropEnds_eq_iff ..).1 htrimmed
  have hfront : front ≠ [] := by
    rintro rfl
    exact hhead blank rfl hblank
  have hne : slashes ≠ [] := by
    rintro rfl
    exact hlast blank (by simp) hblank
  have hfull : ¬Text.isBlank (front.head hfront) := hhead _ (by
    rw [List.append_assoc, List.head?_append_of_ne_nil _ hfront, List.head?_eq_some_head hfront])
  refine ⟨before ++ front, blank, slashes, back, ?_, ⟨front.head hfront, ?_, hfull⟩, hblank, hne,
    hslashes, hback⟩
  · rw [hpath]
    simp
  · exact List.mem_append_right _ (List.head_mem hfront)

theorem endsBlank_normalizePath_iff (path : String) :
    EndsBlank (normalizePath path) ↔ HidesBlank path := by
  rw [endsBlank_normalizePath_iff_trimmed]
  constructor
  · rintro ⟨blank, hlast, hblank⟩
    obtain ⟨front, hfront⟩ := List.getLast?_eq_some_iff.1 hlast
    let slashes := (Text.dropEnds Text.isBlank path.toList).rtakeWhile (· = '/')
    have htrimmed : Text.dropEnds Text.isBlank path.toList = front ++ [blank] ++ slashes := by
      rw [← hfront]
      exact List.rdropWhile_append_rtakeWhile.symm
    exact hidesBlank_of_trimmed htrimmed hblank fun c hc => by simpa using List.mem_rtakeWhile_imp hc
  · intro h
    obtain ⟨front, blank, slashes, htrimmed, hblank, hslashes⟩ := h.exists_trimmed
    have hne : blank ≠ '/' := by
      rintro rfl
      exact absurd hblank (by decide)
    refine ⟨blank, ?_, hblank⟩
    rw [htrimmed, Text.dropLastWhile_append (by simpa using hslashes),
      Text.dropLastWhile_eq_self (by simpa using hne)]
    simp

/-- The canonical form of a path is its own canonical form exactly if no slashes at the end of the path
hide white space. -/
theorem normalizePath_normalizePath_iff (path : String) :
    normalizePath (normalizePath path) = normalizePath path ↔ ¬HidesBlank path := by
  rw [normalizePath_eq_self_iff, endsBlank_normalizePath_iff]
  exact and_iff_right (isCanonical_normalizePath path)

/-- The canonical form of a path with a blank before its last slash is no canonical form of itself. -/
theorem not_normalizePath_normalizePath_blank :
    ¬ ∀ path, normalizePath (normalizePath path) = normalizePath path := by
  intro h
  exact absurd (h "/a /") (by decide)

end RepeatedForms

end Route

namespace Controllers

section Pieces

/-- A text is what is left of a piece without the slashes at its ends. -/
structure IsCore
    (piece core : String) :
    Prop where
  cut : ∃ k l, piece.toList = List.replicate k '/' ++ core.toList ++ List.replicate l '/'
  starts : core.toList.head? ≠ some '/'
  ends : core.toList.getLast? ≠ some '/'

/-- A piece with slashes added at its ends. -/
def padded
    (k l : Nat)
    (piece : String) :
    String :=
  String.ofList (List.replicate k '/' ++ piece.toList ++ List.replicate l '/')

theorem isCore_iff
    {piece core : String} :
    IsCore piece core ↔ Text.trimWith (· = '/') piece = core := by
  have hslash (o : Option Char) : o ≠ some '/' ↔ ∀ c, o = some c → ¬decide (c = '/') := by
    constructor
    · rintro h c rfl hc
      exact h (by rw [of_decide_eq_true hc])
    · rintro h rfl
      exact h '/' rfl (by decide)
  rw [Text.trimWith, String.ofList_eq, Text.dropEnds_eq_iff, ← hslash, ← hslash]
  constructor
  · rintro ⟨⟨k, l, hcut⟩, hstarts, hends⟩
    exact ⟨⟨_, _, hcut, fun c hc => by simpa using List.eq_of_mem_replicate hc,
      fun c hc => by simpa using List.eq_of_mem_replicate hc⟩, hstarts, hends⟩
  · rintro ⟨⟨front, back, hcut, hfront, hback⟩, hstarts, hends⟩
    refine ⟨⟨front.length, back.length, ?_⟩, hstarts, hends⟩
    rw [hcut, ← List.eq_replicate_length.2 fun c hc => of_decide_eq_true (hfront c hc),
      ← List.eq_replicate_length.2 fun c hc => of_decide_eq_true (hback c hc)]

/-- Slashes at the ends of a piece are no part of what is left of it. -/
theorem IsCore.padded
    {piece core : String}
    (h : IsCore piece core)
    (k l : Nat) :
    IsCore (padded k l piece) core where
  cut := by
    obtain ⟨k', l', hcut⟩ := h.cut
    refine ⟨k + k', l' + l, ?_⟩
    rw [Controllers.padded, String.toList_ofList, hcut, List.replicate_add, List.replicate_add]
    simp only [List.append_assoc]
  starts := h.starts
  ends := h.ends

theorem trimWith_padded
    (k l : Nat)
    (piece : String) :
    Text.trimWith (· = '/') (padded k l piece) = Text.trimWith (· = '/') piece :=
  isCore_iff.1 ((isCore_iff.2 rfl).padded k l)

theorem joinWith_eq_intercalate
    (sep : String)
    (pieces : List String) :
    Text.joinWith sep pieces = sep.intercalate pieces := by
  fun_induction Text.joinWith sep pieces with
  | case1 => rfl
  | case2 piece => exact String.intercalate_singleton.symm
  | case3 piece pieces hne ih => rw [ih, String.intercalate_cons_of_ne_nil (by simpa using hne)]

/-- A path is a slash and what is left of some pieces, as far as it is anything, with a slash between each
two. -/
def Joins
    (pieces : List String)
    (path : String) :
    Prop :=
  ∃ cores, List.Forall₂ IsCore pieces cores ∧
    path = "/" ++ "/".intercalate (cores.filter fun core => !core.isEmpty)

theorem joins_joinPieces (pieces : List String) : Joins pieces (joinPieces pieces) := by
  refine ⟨pieces.map (Text.trimWith (· = '/')), ?_, ?_⟩
  · exact List.forall₂_map_right_iff.2 (List.forall₂_same.2 fun _ _ => isCore_iff.2 rfl)
  · rw [joinPieces, joinWith_eq_intercalate]

/-- An empty piece leaves nothing. -/
theorem joinPieces_empty
    (front back : List String) :
    joinPieces (front ++ "" :: back) = joinPieces (front ++ back) := by
  have hempty : Text.trimWith (· = '/') "" = "" := rfl
  simp [joinPieces, hempty]

/-- A path starts with a single slash, and ends with a slash only if it is the root. -/
structure IsRooted (path : String) : Prop where
  starts : path.toList.head? = some '/'
  single : path.toList[1]? ≠ some '/'
  ends : path.toList.getLast? = some '/' → path = "/"

theorem isRooted_joinPieces (pieces : List String) : IsRooted (joinPieces pieces) := by
  have hpath : joinPieces pieces = "/" ++ Text.joinWith "/" (Spelling.kept pieces) := rfl
  have hcores (p : String) (hp : p ∈ Spelling.kept pieces) := ends_of_mem_kept hp
  cases hkept : Spelling.kept pieces with
  | nil =>
    rw [hpath, hkept]
    exact ⟨rfl, by decide, fun _ => rfl⟩
  | cons first rest =>
    have hchars : (joinPieces pieces).toList = (first :: rest).flatMap fun p => '/' :: p.toList := by
      rw [← slash_joinWith (List.cons_ne_nil first rest), hpath, hkept]
      simp
    obtain ⟨hfull, hhead, -⟩ := hcores first (by simp [hkept])
    refine ⟨by simp [hpath], ?_, fun hlast => ?_⟩
    · rw [hchars, List.flatMap_cons, List.cons_append, List.getElem?_cons_succ, ← List.head?_eq_getElem?,
        List.head?_append_of_ne_nil _ hfull]
      exact hhead
    · obtain ⟨before, last, hconcat⟩ := (List.eq_nil_or_concat (first :: rest)).resolve_left (by simp)
      obtain ⟨hfull', -, hlast'⟩ := hcores last (by simp [hkept, hconcat])
      rw [hchars, hconcat, List.concat_eq_append, List.flatMap_append, List.flatMap_singleton,
        List.getLast?_append_cons, List.getLast?_cons_of_ne_nil hfull'] at hlast
      exact absurd hlast hlast'

end Pieces

section Versions

/-- A version as a piece of a path: it starts with the letter v, which is put before it if it does not. -/
def IsVersionPiece (version piece : String) : Prop :=
  if version.toList.head? = some 'v' then piece = version else piece = "v" ++ version

/-- The versions for which a route has a path: those that are not empty, or else none at all. -/
def servedVersions (versions : List String) : List (Option String) :=
  match versions.filter fun version => !version.isEmpty with
  | [] => [none]
  | served => served.map some

/-- A path of a route is that for a version, or for none. -/
def IsPathFor
    (overall : Option String)
    (controllerPath methodPath : String) :
    Option String → String → Prop
  | none, path => Joins [overall.getD "", controllerPath, methodPath] path
  | some version, path => ∃ piece, IsVersionPiece version piece ∧
      Joins [overall.getD "", piece, controllerPath, methodPath] path

theorem startsWith_v_iff (version : String) :
    Text.startsWith version "v" ↔ version.toList.head? = some 'v' := by
  rw [Text.startsWith, Option.isSome_iff_exists, List.head?_eq_some_iff]
  exact exists_congr fun rest => Text.afterStart?_eq_some_iff

theorem forall₂_versionComponents (versions : List String) :
    List.Forall₂ IsVersionPiece (versions.filter fun version => !version.isEmpty)
      (versionComponents versions) := by
  refine List.forall₂_map_right_iff.2 (List.forall₂_same.2 fun version _ => ?_)
  simp only [IsVersionPiece, startsWith_v_iff]
  split <;> rfl

theorem forall₂_routePaths
    (overall : Option String)
    (versions : List String)
    (controllerPath methodPath : String) :
    List.Forall₂ (IsPathFor overall controllerPath methodPath) (servedVersions versions)
      (routePaths overall versions controllerPath methodPath) := by
  have hpieces := forall₂_versionComponents versions
  unfold servedVersions routePaths
  cases hserved : versions.filter fun version => !version.isEmpty with
  | nil =>
    rw [hserved, List.forall₂_nil_left_iff] at hpieces
    rw [hpieces]
    refine .cons ?_ .nil
    show Joins _ (joinPieces ([overall.getD ""] ++ "" :: [controllerPath, methodPath]))
    rw [joinPieces_empty]
    exact joins_joinPieces _
  | cons first rest =>
    rw [hserved] at hpieces
    cases hcomponents : versionComponents versions with
    | nil => simp [hcomponents] at hpieces
    | cons piece more =>
      rw [hcomponents] at hpieces
      refine List.forall₂_map_left_iff.2 (List.forall₂_map_right_iff.2 (hpieces.imp ?_))
      exact fun version piece hpiece => ⟨piece, hpiece, joins_joinPieces _⟩

theorem isRooted_of_mem_routePaths
    {overall : Option String}
    {versions : List String}
    {controllerPath methodPath path : String}
    (hpath : path ∈ routePaths overall versions controllerPath methodPath) :
    IsRooted path := by
  obtain ⟨version, rfl⟩ := exists_joinPieces_of_mem_routePaths hpath
  exact isRooted_joinPieces _

theorem routePaths_padded
    (overall : Option String)
    (versions : List String)
    (controllerPath methodPath : String)
    (k l k' l' k'' l'' : Nat) :
    routePaths (overall.map (padded k l)) versions (padded k' l' controllerPath)
        (padded k'' l'' methodPath) =
      routePaths overall versions controllerPath methodPath := by
  have hoverall : Text.trimWith (· = '/') ((overall.map (padded k l)).getD "") =
      Text.trimWith (· = '/') (overall.getD "") := by
    cases overall with
    | none => rfl
    | some piece => exact trimWith_padded k l piece
  have hjoined (version : String) :
      joinPieces [(overall.map (padded k l)).getD "", version, padded k' l' controllerPath,
          padded k'' l'' methodPath] =
        joinPieces [overall.getD "", version, controllerPath, methodPath] := by
    simp only [joinPieces, List.map_cons, trimWith_padded, hoverall]
  simp only [routePaths, hjoined]

/-- A route has one path for each version that is not empty, in their order, or one without a version if
there is none. Each path starts with a single slash and ends with none, the root path aside, and joins what
is left of the prefix, the version, the path of the controller and that of the method without the slashes
at their ends. So slashes that are added at the ends of these change no path. -/
theorem routePaths_join
    (overall : Option String)
    (versions : List String)
    (controllerPath methodPath : String) :
    List.Forall₂ (IsPathFor overall controllerPath methodPath) (servedVersions versions)
        (routePaths overall versions controllerPath methodPath) ∧
      (∀ path ∈ routePaths overall versions controllerPath methodPath, IsRooted path) ∧
      ∀ k l k' l' k'' l'',
        routePaths (overall.map (padded k l)) versions (padded k' l' controllerPath)
            (padded k'' l'' methodPath) =
          routePaths overall versions controllerPath methodPath :=
  ⟨forall₂_routePaths overall versions controllerPath methodPath,
    fun _ => isRooted_of_mem_routePaths,
    routePaths_padded overall versions controllerPath methodPath⟩

example : routePaths (some "/api/") ["1", "", "v2"] "//" ":id" = ["/api/v1/:id", "/api/v2/:id"] := by
  decide

end Versions

end Controllers

end RouteAtlas
