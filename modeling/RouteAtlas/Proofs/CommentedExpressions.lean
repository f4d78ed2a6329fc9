import Mathlib
import RouteAtlas.Controllers.Argument
import RouteAtlas.FileRoutes.Methods
import RouteAtlas.Proofs.LostComments
import RouteAtlas.Proofs.SchemaChains

/-!
# Expressions with comments

Paths, versions, listed methods, static values and schemas are read off expressions, and a comment in
an expression should change none of them. Versions and listed methods never change. The other three
are unaffected by comments at given places exactly when none of the places is one that is noticed: a
comment among the elements of an array, or one that comes first between the brackets of a computed key.
-/

namespace RouteAtlas

open Syntax Project

variable {places : Place → Prop} {e e' : Node}

namespace Controllers

section Texts

theorem textOf_eq
    (scope : Scope)
    (file : SourceFile)
    (h : LosesComments places e e') :
    textOf scope file e = textOf scope file e' := by
  have hunwrap := h.unwrap
  have hobject := hunwrap.child? .object
  simp only [textOf, hunwrap.stringValue?_eq, hunwrap.kind_eq, hunwrap.text_eq,
    hunwrap.propertyText_eq]
  generalize e.unwrap.child? .object = o at hobject
  generalize e'.unwrap.child? .object = o' at hobject
  cases hobject with
  | none => rfl
  | some hobject => simp only [Option.map_some, hobject.unwrap.kind_eq, hobject.unwrap.text_eq]

theorem textOf_comment
    (scope : Scope)
    (file : SourceFile)
    {c : Node}
    (hc : c.kind = .comment) :
    textOf scope file c = .ok none := by
  have hunwrap : c.unwrap = c := Node.unwrap_of_not_isWrapper (by simp [Node.isWrapper, hc])
  simp [textOf, hunwrap, Node.stringValue?, hc]
  rfl

end Texts

section Versions

theorem versionsUpTo_comment
    (scope : Scope)
    (file : SourceFile)
    (depth : Nat)
    {c : Node}
    (hc : c.kind = .comment) :
    versionsUpTo scope file depth c = .ok [] := by
  have hunwrap : c.unwrap = c := Node.unwrap_of_not_isWrapper (by simp [Node.isWrapper, hc])
  cases depth with
  | zero => rfl
  | succ depth =>
    simp [versionsUpTo, hunwrap, textOf_comment scope file hc, elementsOf, hc]
    rfl

theorem flatten_mapM_cons
    {α : Type}
    (f : Node → Except Fault (List α))
    (c : Node)
    (rest : List Node) :
    List.flatten <$> (c :: rest).mapM f = do
      let items ← f c
      let more ← List.flatten <$> rest.mapM f
      return items ++ more := by
  rw [List.mapM_cons, map_bind]
  simp

/-- Where comments give no items, the elements give the items that the parts give. -/
theorem flatten_mapM_namedChildren
    {α : Type}
    {f : Node → Except Fault (List α)}
    (hcomment : ∀ c, c.kind = .comment → f c = .ok [])
    (n : Node) :
    List.flatten <$> n.namedChildren.mapM f = List.flatten <$> n.parts.mapM f := by
  simp only [Node.parts]
  induction n.namedChildren with
  | nil => rfl
  | cons c rest ih =>
    by_cases hc : c.kind = .comment
    · rw [List.filter_cons_of_neg (by simp [Node.isComment, hc]), flatten_mapM_cons, hcomment c hc,
        ih]
      exact bind_pure (m := Except Fault) _
    · rw [List.filter_cons_of_pos (by simp [Node.isComment, hc]), flatten_mapM_cons,
        flatten_mapM_cons, ih]

/-- The versions that an expression lists never change. -/
theorem versionsUpTo_eq
    (scope : Scope)
    (file : SourceFile) :
    ∀ {depth depth' : Nat} {e e' : Node}, LosesComments places e e' →
      e.count < depth → e'.count < depth' →
      versionsUpTo scope file depth e = versionsUpTo scope file depth' e' := by
  intro depth
  induction depth with
  | zero => intro depth' e e' h hdepth; omega
  | succ depth ih =>
    intro depth' e e' h hdepth hdepth'
    obtain _ | depth' := depth'
    · omega
    have hunwrap := h.unwrap
    have hcount := Nat.le_trans e.count_unwrap_le (Nat.le_of_lt_succ hdepth)
    have hcount' := Nat.le_trans e'.count_unwrap_le (Nat.le_of_lt_succ hdepth')
    have helements : List.flatten <$> (elementsOf e.unwrap).mapM (versionsUpTo scope file depth) =
        List.flatten <$> (elementsOf e'.unwrap).mapM (versionsUpTo scope file depth') := by
      simp only [elementsOf, ← hunwrap.kind_eq]
      split
      · have hparts := (forall₂_and (fun c => Node.count_lt_of_mem_parts)
          (fun c => Node.count_lt_of_mem_parts) hunwrap.parts).imp fun c c' hc =>
            ih hc.2.2 (Nat.lt_of_lt_of_le hc.1 hcount) (Nat.lt_of_lt_of_le hc.2.1 hcount')
        rw [flatten_mapM_namedChildren fun c => versionsUpTo_comment scope file depth,
          flatten_mapM_namedChildren fun c => versionsUpTo_comment scope file depth',
          mapM_eq_mapM_of_forall₂ hparts]
      · rfl
    simp only [versionsUpTo, textOf_eq scope file hunwrap]
    refine bind_congr fun text => ?_
    cases text with
    | none => simpa using helements
    | some text => rfl

end Versions

section Paths

/-- The value of a named property has fewer nodes than the object. -/
theorem count_lt_of_propertyValue?
    {n v : Node}
    {name : String}
    (h : n.propertyValue? name = some v) :
    v.count < n.count := by
  obtain ⟨p, hp, rfl⟩ := Option.map_eq_some_iff.1 h
  exact Node.count_lt_of_mem_properties (List.mem_of_find?_eq_some hp)

/-- Listed paths are the same where neither elements of arrays nor keys in brackets lose comments. -/
theorem pathsUpTo_eq
    (scope : Scope)
    (file : SourceFile)
    (hplaces : ∀ p, places p → ¬ p.Noticed) :
    ∀ {depth depth' : Nat} {e e' : Node}, LosesComments places e e' →
      e.count < depth → e'.count < depth' →
      pathsUpTo scope file depth e = pathsUpTo scope file depth' e' := by
  intro depth
  induction depth with
  | zero => intro depth' e e' h hdepth; omega
  | succ depth ih =>
    intro depth' e e' h hdepth hdepth'
    obtain _ | depth' := depth'
    · omega
    have hunwrap := h.unwrap
    have hcount := Nat.le_trans e.count_unwrap_le (Nat.le_of_lt_succ hdepth)
    have hcount' := Nat.le_trans e'.count_unwrap_le (Nat.le_of_lt_succ hdepth')
    simp only [pathsUpTo, textOf_eq scope file hunwrap, ← hunwrap.kind_eq]
    refine bind_congr fun text => ?_
    cases text with
    | some text => rfl
    | none =>
      dsimp only
      split
      · next harray =>
        have hchildren := hunwrap.namedChildren fun late hlate => hplaces _ hlate (.inl harray)
        have hpaths := (forall₂_and (fun c => Node.count_lt_of_mem_namedChildren)
          (fun c => Node.count_lt_of_mem_namedChildren) hchildren).imp fun c c' hc =>
            ih hc.2.2 (Nat.lt_of_lt_of_le hc.1 hcount) (Nat.lt_of_lt_of_le hc.2.1 hcount')
        simp only [mapM_eq_mapM_of_forall₂ hpaths]
      · have hproperty := hunwrap.propertyValue? (fun hkey => hplaces _ hkey (.inr rfl)) "path"
        generalize hv : e.unwrap.propertyValue? "path" = v at hproperty
        generalize hv' : e'.unwrap.propertyValue? "path" = v' at hproperty
        cases hproperty with
        | none => rfl
        | some hvalue =>
          exact ih hvalue (Nat.lt_of_lt_of_le (count_lt_of_propertyValue? hv) hcount)
            (Nat.lt_of_lt_of_le (count_lt_of_propertyValue? hv') hcount')
      · rfl

end Paths

end Controllers

namespace FileRoutes

section Methods

theorem verbLiteral?_eq (h : LosesComments places e e') : verbLiteral? e = verbLiteral? e' := by
  rw [verbLiteral?, verbLiteral?, h.stringValue?_eq]

theorem verbsOfArray_eq (h : LosesComments places e e') : verbsOfArray e = verbsOfArray e' := by
  have hcomment : ∀ c : Node, c.kind = .comment → verbLiteral? c = none := by
    intro c hc
    have hunwrap : c.unwrap = c := Node.unwrap_of_not_isWrapper (by simp [Node.isWrapper, hc])
    simp [verbLiteral?, Node.stringValue?, hunwrap, hc]
  have hverbs : e.parts.map verbLiteral? = e'.parts.map verbLiteral? :=
    map_eq_map_of_forall₂ (h.parts.imp fun _ _ hc => verbLiteral?_eq hc)
  have hlisted : e.parts.filterMap verbLiteral? = e'.parts.filterMap verbLiteral? := by
    simpa only [List.filterMap_map, Function.id_comp] using congrArg (List.filterMap id) hverbs
  rw [verbsOfArray, verbsOfArray, Node.filterMap_namedChildren hcomment,
    Node.filterMap_namedChildren hcomment, hlisted]

/-- The methods that an expression lists never change. A name is followed to the same place in both
trees. -/
theorem verbsOf_eq
    (file : SourceFile)
    (h : LosesComments places e e') :
    verbsOf file (some e) = verbsOf file (some e') := by
  have hunwrap := h.unwrap
  by_cases hname : e.unwrap.kind = .identifier
  · have hfollow (n : Nat) : followNames file (n + 1) [] e = followNames file (n + 1) [] e' := by
      simp only [followNames, ← hunwrap.kind_eq, ← hunwrap.text_eq, hname, beq_self_eq_true, if_true]
    simp only [verbsOf, Option.bind_some, hfollow]
  · have hname' : e'.unwrap.kind ≠ .identifier := by rwa [← hunwrap.kind_eq]
    have hfollow (n : Nat) : followNames file (n + 1) [] e = some e.unwrap := by
      simp [followNames, hname]
    have hfollow' (n : Nat) : followNames file (n + 1) [] e' = some e'.unwrap := by
      simp [followNames, hname']
    simp only [verbsOf, Option.bind_some, hfollow, hfollow', ← hunwrap.kind_eq,
      verbsOfArray_eq hunwrap]

end Methods

end FileRoutes

namespace Schema

section Modifiers

theorem isLibrary_eq
    (file : SourceFile)
    (h : LosesComments places e e') :
    isLibrary file e = isLibrary file e' := by
  have hobject := h.child? .object
  simp only [isLibrary, ← h.kind_eq, h.text_eq, h.propertyText_eq]
  generalize e.child? .object = o at hobject
  generalize e'.child? .object = o' at hobject
  cases hobject with
  | none => rfl
  | some hobject => simp only [hobject.kind_eq, hobject.text_eq]

theorem map_isLibrary_eq
    (file : SourceFile)
    {o o' : Option Node}
    (h : Option.Rel (LosesComments places) o o') :
    o.map (isLibrary file) = o'.map (isLibrary file) := by
  cases h with
  | none => rfl
  | some h => rw [Option.map_some, Option.map_some, isLibrary_eq file h]

theorem unwrap_rel
    {o o' : Option Node}
    (h : Option.Rel (LosesComments places) o o') :
    Option.Rel (LosesComments places) (o.map Node.unwrap) (o'.map Node.unwrap) := by
  cases h with
  | none => exact .none
  | some h => exact .some h.unwrap

theorem listedOptions_eq
    (hplaces : ∀ p, places p → ¬ p.Noticed)
    {o o' : Option Node}
    (h : Option.Rel (LosesComments places) o o') :
    listedOptions o = listedOptions o' := by
  cases h with
  | none => rfl
  | some h => simp only [listedOptions, Option.bind_some, h.staticValue?_eq hplaces]

theorem modified_eq
    (hplaces : ∀ p, places p → ¬ p.Noticed)
    (s : Schema)
    (method : String)
    {args args' : List Node}
    (h : List.Forall₂ (LosesComments places) args args') :
    modified s method args = modified s method args' := by
  have hdefault : args.head?.bind Node.staticValue? = args'.head?.bind Node.staticValue? := by
    cases h with
    | nil => rfl
    | cons hfirst hrest => exact hfirst.staticValue?_eq hplaces
  simp only [modified, hdefault]

theorem enumerationValues_eq
    (scope : Scope)
    (file : SourceFile)
    {o o' : Option Node}
    (h : Option.Rel (LosesComments places) o o') :
    enumerationValues scope file o = enumerationValues scope file o' := by
  have hunwrap := unwrap_rel h
  simp only [enumerationValues]
  generalize o.map Node.unwrap = o at hunwrap
  generalize o'.map Node.unwrap = o' at hunwrap
  cases hunwrap with
  | none => rfl
  | some h => simp only [h.kind_eq, h.text_eq]

end Modifiers

section Chains

/-- Expressions are read alike whether or not they lose comments at the given places. -/
def ReadsAlike
    (places : Place → Prop)
    (read : Reading) :
    Prop :=
  ∀ file open_, Unaffected places fun e => read (some e) file open_

variable {read : Reading}

theorem ReadsAlike.rel
    (hread : ReadsAlike places read)
    {o o' : Option Node}
    (h : Option.Rel (LosesComments places) o o')
    (file : SourceFile)
    (open_ : List (Files.Path × String)) :
    read o file open_ = read o' file open_ := by
  cases h with
  | none => rfl
  | some h => exact hread file open_ _ _ h

theorem shape_eq
    (hplaces : ∀ p, places p → ¬ p.Noticed)
    (hread : ReadsAlike places read)
    (file : SourceFile)
    (open_ : List (Files.Path × String))
    {o o' : Option Node}
    (h : Option.Rel (LosesComments places) o o') :
    shape read file open_ o = shape read file open_ o' := by
  cases h with
  | none => rfl
  | some h =>
    have hproperties := h.properties fun hkey => hplaces _ hkey (.inr rfl)
    simp only [shape, Option.map_some, Option.getD_some]
    rw [mapM_eq_mapM_of_forall₂]
    refine hproperties.imp fun p p' hp => ?_
    have hvalue := hread file open_ _ _ hp.value
    simp only [hp.name_eq, hvalue]

/-- The first option of a choice is the same, or there is none in both trees. -/
theorem firstOption_eq
    (hplaces : ∀ p, places p → ¬ p.Noticed)
    (hread : ReadsAlike places read)
    (file : SourceFile)
    (open_ : List (Files.Path × String))
    (otherwise : Except Fault Schema)
    (o o' : Option Node) :
    Option.Rel (LosesComments places) o o' →
    (match o with
      | some e =>
        match e.kind, e.namedChildren with
        | .array, first :: _ => read (some first) file open_
        | _, _ => otherwise
      | none => otherwise) =
    (match o' with
      | some e =>
        match e.kind, e.namedChildren with
        | .array, first :: _ => read (some first) file open_
        | _, _ => otherwise
      | none => otherwise) := by
  have hother (k : Kind) (cs : List Node) : k ≠ .array →
      (match k, cs with
        | .array, first :: _ => read (some first) file open_
        | _, _ => otherwise) = otherwise := by
    intro hk
    split
    · contradiction
    · rfl
  intro h
  cases h with
  | none => rfl
  | @some e e' h =>
    simp only [← h.kind_eq]
    by_cases harray : e.kind = .array
    · have hchildren := h.namedChildren fun late hlate => hplaces _ hlate (.inl harray)
      rw [harray]
      generalize e.namedChildren = cs at hchildren
      generalize e'.namedChildren = cs' at hchildren
      cases hchildren with
      | nil => rfl
      | cons hfirst hrest => exact hread file open_ _ _ hfirst
    · rw [hother _ _ harray, hother _ _ harray]

theorem constructed_eq
    (hplaces : ∀ p, places p → ¬ p.Noticed)
    (hread : ReadsAlike places read)
    (scope : Scope)
    (file : SourceFile)
    (open_ : List (Files.Path × String))
    (name : String)
    {args args' : List Node}
    (h : List.Forall₂ (LosesComments places) args args') :
    constructed read scope file open_ name args = constructed read scope file open_ name args' := by
  have hhead := rel_head? h
  have hlast := unwrap_rel (rel_getLast? h)
  have hliteral : args.head?.bind Node.literalValue? = args'.head?.bind Node.literalValue? := by
    cases h with
    | nil => rfl
    | cons hfirst hrest => exact hfirst.literalValue?_eq
  simp only [constructed, shape_eq hplaces hread file open_ hhead, listedOptions_eq hplaces hhead,
    enumerationValues_eq scope file hhead, hliteral]
  split
  · rfl
  · split
    case h_1 =>
      cases h with
      | nil => rfl
      | cons hfirst hrest => simp only [hread file open_ _ _ hfirst]
    case h_8 => exact firstOption_eq hplaces hread file open_ _ _ _ hlast
    case h_9 => exact firstOption_eq hplaces hread file open_ _ _ _ hlast
    case h_12 =>
      cases h with
      | nil => rfl
      | @cons a b as bs hfirst hrest =>
        have hsame : read (some a) file open_ = read (some b) file open_ := hread file open_ _ _ hfirst
        split <;> simp_all
    all_goals rfl

theorem reshaped_eq
    (hplaces : ∀ p, places p → ¬ p.Noticed)
    (hread : ReadsAlike places read)
    (file : SourceFile)
    (open_ : List (Files.Path × String))
    (s : Schema)
    (method : String)
    {args args' : List Node}
    (h : List.Forall₂ (LosesComments places) args args') :
    reshaped read file open_ s method args = reshaped read file open_ s method args' := by
  cases h with
  | nil => rfl
  | @cons a b as bs hfirst hrest =>
    have hshape := shape_eq hplaces hread file open_ (.some hfirst)
    have hmerged : read (some a) file open_ = read (some b) file open_ := hread file open_ _ _ hfirst
    have hnames := hfirst.map_name_properties fun hkey => hplaces _ hkey (.inr rfl)
    unfold reshaped
    dsimp only
    split
    case h_3 hargs => cases hargs; simp only [hshape]
    case h_4 hargs => cases hargs; simp only [hmerged]
    case h_5 hargs => cases hargs; simp only [hnames]
    case h_6 hargs => cases hargs; simp only [hnames]
    case h_7 => split <;> simp_all
    all_goals rfl

theorem applied_eq
    (hplaces : ∀ p, places p → ¬ p.Noticed)
    (hread : ReadsAlike places read)
    (file : SourceFile)
    (open_ : List (Files.Path × String))
    (s : Schema)
    (method : String)
    {args args' : List Node}
    (h : List.Forall₂ (LosesComments places) args args') :
    applied read file open_ s method args = applied read file open_ s method args' := by
  simp only [applied, modified_eq hplaces s method h, reshaped_eq hplaces hread file open_ s method h]

/-- What a call makes is the same: its callee, the expression that its method is called on, and its
arguments are. -/
theorem called_eq
    (hplaces : ∀ p, places p → ¬ p.Noticed)
    (hread : ReadsAlike places read)
    (scope : Scope)
    (file : SourceFile)
    (open_ : List (Files.Path × String))
    (h : LosesComments places e e') :
    called read scope file open_ e = called read scope file open_ e' := by
  have hfunction := unwrap_rel (h.child? .function)
  simp only [called]
  generalize (e.child? .function).map Node.unwrap = f at hfunction
  generalize (e'.child? .function).map Node.unwrap = f' at hfunction
  cases hfunction with
  | none => rfl
  | @some f f' hfunction =>
    have hbase := unwrap_rel (hfunction.child? .object)
    simp only [← hfunction.kind_eq, ← hfunction.text_eq, ← hfunction.propertyText_eq,
      map_isLibrary_eq file hbase,
      constructed_eq hplaces hread scope file open_ _ h.callArguments, hread.rel hbase,
      applied_eq hplaces hread file open_ _ _ h.callArguments]

/-- Schemas are the same where neither elements of arrays nor keys in brackets lose comments. -/
theorem readsAlike_readUpTo
    (hplaces : ∀ p, places p → ¬ p.Noticed)
    (scope : Scope)
    (levels : Nat) :
    ReadsAlike places (readUpTo scope levels) := by
  induction levels with
  | zero => exact fun file open_ e e' h => rfl
  | succ levels ih =>
    intro file open_ e e' h
    have hunwrap := h.unwrap
    simp only [readUpTo, Option.map_some, ← hunwrap.kind_eq, ← hunwrap.text_eq,
      called_eq hplaces ih scope file open_ hunwrap]

end Chains

section Defaults

theorem readUpTo_numberCall_anywhere
    (scope : Scope)
    (file : SourceFile)
    (levels : Nat) :
    readUpTo scope (levels + 1) (some numberCall) file [] = .ok (ofKind .number) := by
  cbv

/-- The schema of `z.number().default(e)` keeps the static value of `e`. -/
theorem ofExpression_defaultCall
    (scope : Scope)
    (file : SourceFile)
    {e : Node}
    (hnamed : e.isNamed)
    (hcomment : e.isComment = false) :
    ofExpression scope file (some (methodCall none numberCall "default" [e])) =
      .ok { ofKind .number with default := e.staticValue? } := by
  let call := methodCall none numberCall "default" [e]
  let function := leading .memberExpression (some .function) "" [
    numberCall, leading .propertyIdentifier (some .property) "default" []]
  have hcall : call.unwrap = call := Node.unwrap_of_not_isWrapper rfl
  have hargs : call.callArguments = [e] := by
    simp [call, methodCall, leading, Node.callArguments, Node.child?, Node.children, Node.role,
      Node.kind, Node.parts, Node.namedChildren, hnamed, hcomment]
  have hstart : numberCall.unwrap = numberCall := Node.unwrap_of_not_isWrapper rfl
  have hread := @readUpTo_call scope file call function numberCall 16 []
    (by rw [hcall]; rfl) (by rw [hcall]; exact congrArg some (Node.unwrap_of_not_isWrapper rfl)) rfl rfl
    (isLibrary_of_call (by rw [hstart]; rfl))
  rw [hcall, hargs, readUpTo_numberCall_anywhere scope file 15] at hread
  refine hread.trans ?_
  have hmethod : function.propertyText = "default" := rfl
  rw [hmethod]
  cases hvalue : e.staticValue? with
  | none => simp [Except.bind, applied, modifiers, modified, hvalue, ofKind]
  | some v => simp [Except.bind, applied, modifiers, modified, hvalue, ofKind]

end Defaults

end Schema

namespace Syntax

open Schema (leading methodCall numberCall)

section Noticed

/-- A comment. -/
def remark : Node :=
  leading .comment none "/* c */" []

/-- A string literal in a part of its parent. -/
def quoted
    (role : Option Role)
    (content : String) :
    Node :=
  leading .string role "" [leading .stringFragment none content []]

/-- An array literal. -/
def listing (elements : List Node) : Node :=
  leading .array none "" elements

/-- An object literal with one property, the key of which stands in brackets. -/
def keyed (key : List Node) : Node :=
  leading .object none "" [leading .pair none "" [
    leading .computedPropertyName (some .key) "" key, quoted (some .value) "a"]]

/-- An expression with a comment at a place that is noticed. -/
def Place.noticedIn (p : Place) : Node :=
  if p.parent = .array then
    listing (if p.afterPart then [quoted none "a", remark] else [remark, quoted none "a"])
  else keyed [remark, quoted none "path"]

/-- The same expression without the comment. -/
def Place.noticedOutside (p : Place) : Node :=
  if p.parent = .array then listing [quoted none "a"] else keyed [quoted none "path"]

theorem losesComments_noticed
    {p : Place}
    (hp : p.Noticed)
    (hplace : places p) :
    LosesComments places p.noticedIn p.noticedOutside := by
  have hrefl (cs : List Node) (q : Place) : Thinned (LosesComments places) places q cs cs :=
    Thinned.of_forall_mem (fun c _ => LosesComments.refl c) q
  obtain ⟨kind, afterPart⟩ := p
  obtain rfl | hkey := hp
  · cases afterPart with
    | false => exact .mk (.drop rfl rfl hplace (hrefl _ _))
    | true => exact .mk (.keep (.refl _) (.drop rfl rfl hplace .nil))
  · cases hkey
    exact .mk (.keep (.mk (.keep (.mk (.drop rfl rfl hplace (hrefl _ _))) (hrefl _ _))) .nil)

/-- An element that is a comment has no static value, and a comment is no key that an object has. -/
theorem staticValue?_noticed
    {p : Place}
    (hp : p.Noticed) :
    p.noticedIn.staticValue? ≠ p.noticedOutside.staticValue? := by
  intro heq
  obtain ⟨kind, afterPart⟩ := p
  obtain rfl | hkey := hp
  · have hwithout : (listing [quoted none "a"]).staticValue? = some (.list [.str "a"]) := by cbv
    cases afterPart with
    | false =>
      have hwith : (listing [remark, quoted none "a"]).staticValue? = none := by cbv
      have hsame := hwith.symm.trans (heq.trans hwithout)
      simp at hsame
    | true =>
      have hwith : (listing [quoted none "a", remark]).staticValue? = none := by cbv
      have hsame := hwith.symm.trans (heq.trans hwithout)
      simp at hsame
  · cases hkey
    have hwith : (keyed [remark, quoted none "path"]).staticValue? =
        some (.map [("/* c */", .str "a")]) := by cbv
    have hwithout : (keyed [quoted none "path"]).staticValue? =
        some (.map [("path", .str "a")]) := by cbv
    have hsame := hwith.symm.trans (heq.trans hwithout)
    simp at hsame

/-- A comment is an element that gives the empty path, and hides the path under a key. -/
theorem pathsOf_noticed
    (scope : Scope)
    (file : SourceFile)
    {p : Place}
    (hp : p.Noticed) :
    Controllers.pathsOf scope file p.noticedIn ≠ Controllers.pathsOf scope file p.noticedOutside := by
  intro heq
  obtain ⟨kind, afterPart⟩ := p
  obtain rfl | hkey := hp
  · have hwithout : Controllers.pathsOf scope file (listing [quoted none "a"]) = .ok ["a"] := by cbv
    cases afterPart with
    | false =>
      have hwith : Controllers.pathsOf scope file (listing [remark, quoted none "a"]) =
          .ok ["", "a"] := by cbv
      have hsame := hwith.symm.trans (heq.trans hwithout)
      simp at hsame
    | true =>
      have hwith : Controllers.pathsOf scope file (listing [quoted none "a", remark]) =
          .ok ["a", ""] := by cbv
      have hsame := hwith.symm.trans (heq.trans hwithout)
      simp at hsame
  · cases hkey
    have hwith : Controllers.pathsOf scope file (keyed [remark, quoted none "path"]) =
        .ok [""] := by cbv
    have hwithout : Controllers.pathsOf scope file (keyed [quoted none "path"]) = .ok ["a"] := by cbv
    have hsame := hwith.symm.trans (heq.trans hwithout)
    simp at hsame

end Noticed

section Unaffected

/-- The argument of a call may lose what it may lose by itself. -/
theorem losesComments_defaultCall (h : LosesComments places e e') :
    LosesComments places (methodCall none numberCall "default" [e])
      (methodCall none numberCall "default" [e']) :=
  .mk (.keep (.refl _) (.keep (.mk (.keep h .nil)) .nil))

/-- A default keeps what a comment does to its value. -/
theorem ofExpression_noticed
    (scope : Scope)
    (file : SourceFile)
    {p : Place}
    (hp : p.Noticed) :
    Schema.ofExpression scope file (some (methodCall none numberCall "default" [p.noticedIn])) ≠
      Schema.ofExpression scope file
        (some (methodCall none numberCall "default" [p.noticedOutside])) := by
  have hin : p.noticedIn.isNamed ∧ p.noticedIn.isComment = false := by
    unfold Place.noticedIn
    split <;> exact ⟨rfl, rfl⟩
  have hout : p.noticedOutside.isNamed ∧ p.noticedOutside.isComment = false := by
    unfold Place.noticedOutside
    split <;> exact ⟨rfl, rfl⟩
  rw [Schema.ofExpression_defaultCall scope file hin.1 hin.2,
    Schema.ofExpression_defaultCall scope file hout.1 hout.2]
  intro heq
  exact staticValue?_noticed hp (congrArg Schema.default (Except.ok.inj heq))

/-- Readers of expressions and comments at given places. Versions and listed methods pay no attention to
any comment; static values, paths and schemas to none exactly when no place is one that is noticed. -/
theorem unaffected_iff
    (places : Place → Prop)
    (scope : Scope)
    (file : SourceFile) :
    (Unaffected places Node.staticValue? ↔ ∀ p, places p → ¬ p.Noticed) ∧
    (Unaffected places (Controllers.pathsOf scope file) ↔ ∀ p, places p → ¬ p.Noticed) ∧
    (Unaffected places (fun e => Schema.ofExpression scope file (some e)) ↔
      ∀ p, places p → ¬ p.Noticed) ∧
    Unaffected places (Controllers.versionsOf scope file) ∧
    Unaffected places (fun e => FileRoutes.verbsOf file (some e)) := by
  refine ⟨⟨?_, ?_⟩, ⟨?_, ?_⟩, ⟨?_, ?_⟩, ?_, ?_⟩
  · intro h p hplace hp
    exact staticValue?_noticed hp (h _ _ (losesComments_noticed hp hplace))
  · exact fun hplaces e e' h => h.staticValue?_eq hplaces
  · intro h p hplace hp
    exact pathsOf_noticed scope file hp (h _ _ (losesComments_noticed hp hplace))
  · exact fun hplaces e e' h =>
      Controllers.pathsUpTo_eq scope file hplaces h (Nat.lt_succ_self _) (Nat.lt_succ_self _)
  · intro h p hplace hp
    have hcall := losesComments_defaultCall (losesComments_noticed hp hplace)
    exact ofExpression_noticed scope file hp (h _ _ hcall)
  · exact fun hplaces => Schema.readsAlike_readUpTo hplaces scope Schema.maxNesting file []
  · exact fun e e' h =>
      Controllers.versionsUpTo_eq scope file h (Nat.lt_succ_self _) (Nat.lt_succ_self _)
  · exact fun e e' h => FileRoutes.verbsOf_eq file h

/-- Not every comment is insignificant: the list `["a" /* c */]` has no static value. -/
theorem not_unaffected_listing :
    ¬∀ (scope : Scope) (file : SourceFile),
      Unaffected (fun _ => True) Node.staticValue? ∧
      Unaffected (fun _ => True) (Controllers.pathsOf scope file) ∧
      Unaffected (fun _ => True) (fun e => Schema.ofExpression scope file (some e)) ∧
      Unaffected (fun _ => True) (Controllers.versionsOf scope file) ∧
      Unaffected (fun _ => True) (fun e => FileRoutes.verbsOf file (some e)) := by
  intro h
  have hlost : LosesComments (fun _ => True)
      (listing [quoted none "a", remark]) (listing [quoted none "a"]) :=
    losesComments_noticed (p := ⟨.array, true⟩) (.inl rfl) trivial
  have heq := (h ⟨none⟩ Schema.bareFile).1 _ _ hlost
  exact staticValue?_noticed (p := ⟨.array, true⟩) (.inl rfl) heq

end Unaffected

end Syntax

end RouteAtlas
