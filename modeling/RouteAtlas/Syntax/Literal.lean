import RouteAtlas.Number.Numeral
import RouteAtlas.Syntax.Node
import RouteAtlas.Value

/-!
# Literals and small expressions

What can be read off an expression without running anything: the expression inside casts and
parentheses, the value of a literal, the properties of an object, the callee and the arguments of a
call, the parameters of a function.
-/

namespace RouteAtlas.Syntax

namespace Node

section Sizes

theorem count_pos (n : Node) : 0 < n.count := by
  cases n
  simp only [count]
  omega

theorem count_le_countForest
    {n : Node}
    {ns : List Node}
    (h : n ∈ ns) :
    n.count ≤ countForest ns := by
  induction ns with
  | nil => simp at h
  | cons m rest ih =>
    rcases List.mem_cons.1 h with rfl | h
    · simp [countForest]
    · have := ih h
      simp [countForest]
      omega

/-- A child has fewer nodes than its parent. -/
theorem count_lt_of_mem
    {n c : Node}
    (h : c ∈ n.children) :
    c.count < n.count := by
  cases n with
  | mk k r s t cs =>
    have := count_le_countForest h
    simp [children, count] at *
    omega

theorem countForest_append (as bs : List Node) :
    countForest (as ++ bs) = countForest as + countForest bs := by
  induction as with
  | nil => simp [countForest]
  | cons a rest ih => simp [countForest, ih]; omega

theorem countForest_filter_le
    (p : Node → Bool)
    (ns : List Node) :
    countForest (ns.filter p) ≤ countForest ns := by
  induction ns with
  | nil => simp
  | cons n rest ih =>
    by_cases h : p n <;> simp [List.filter, h, countForest] <;> omega

theorem countForest_children (n : Node) : countForest n.children + 1 = n.count := by
  cases n; simp [children, count]; omega

theorem countForest_namedChildren_lt (n : Node) : countForest n.namedChildren < n.count := by
  have h₁ := countForest_filter_le isNamed n.children
  have h₂ := countForest_children n
  unfold namedChildren
  omega

theorem countForest_parts_lt (n : Node) : countForest n.parts < n.count := by
  have h₁ := countForest_filter_le (fun c => !c.isComment) n.namedChildren
  have h₂ := countForest_namedChildren_lt n
  unfold parts
  omega

theorem mem_children_of_mem_parts
    {n c : Node}
    (h : c ∈ n.parts) :
    c ∈ n.children :=
  (List.mem_filter.1 (List.mem_filter.1 h).1).1

end Sizes

section Wrappers

/-- Casts and parentheses have the value of the expression that they hold. -/
def isWrapper (n : Node) : Bool :=
  match n.kind with
  | .parenthesizedExpression | .asExpression | .satisfiesExpression | .nonNullExpression
  | .typeAssertion => true
  | _ => false

/-- The expression that a wrapper holds: the last part of an assertion in angle brackets, the first
part of any other. -/
def held? (n : Node) : Option Node :=
  if n.kind == .typeAssertion then n.parts.getLast? else n.parts.head?

theorem mem_parts_of_held?
    {n c : Node}
    (h : n.held? = some c) :
    c ∈ n.parts := by
  unfold held? at h
  split at h
  · exact List.mem_of_getLast? h
  · exact List.mem_of_head? h

/-- What a wrapper holds has fewer nodes than the wrapper. -/
theorem count_lt_of_held?
    {n c : Node}
    (h : n.held? = some c) :
    c.count < n.count :=
  count_lt_of_mem (mem_children_of_mem_parts (mem_parts_of_held? h))

/-- The expression inside all casts and parentheses. -/
def unwrap (n : Node) : Node :=
  if n.isWrapper then
    match _h : n.held? with
    | some c => unwrap c
    | none => n
  else n
  termination_by n.count
  decreasing_by exact count_lt_of_held? _h

theorem unwrap_of_not_isWrapper
    {n : Node}
    (h : n.isWrapper = false) :
    n.unwrap = n := by
  rw [unwrap, if_neg (by simp [h])]

theorem unwrap_of_held?
    {n c : Node}
    (hwrapper : n.isWrapper)
    (hheld : n.held? = some c) :
    n.unwrap = c.unwrap := by
  rw [unwrap.eq_def n, if_pos hwrapper]
  split
  · next d hd => rw [Option.some.inj (hheld.symm.trans hd)]
  · next hd => simp [hheld] at hd

theorem unwrap_of_held?_eq_none
    {n : Node}
    (hheld : n.held? = none) :
    n.unwrap = n := by
  rw [unwrap.eq_def n]
  split
  · split
    · next d hd => simp [hheld] at hd
    · rfl
  · rfl

/-- What holds of expressions that are no casts or parentheses, or hold nothing, holds of all if it goes on
from what is held to the whole. -/
theorem unwrap_induction
    {motive : Node → Prop}
    (held : ∀ n c, n.isWrapper = true → n.held? = some c → motive c → motive n)
    (empty : ∀ n, n.isWrapper = true → n.held? = none → motive n)
    (bare : ∀ n, n.isWrapper = false → motive n)
    (n : Node) :
    motive n := by
  cases hwrapper : n.isWrapper with
  | false => exact bare n hwrapper
  | true =>
    cases hheld : n.held? with
    | none => exact empty n hwrapper hheld
    | some c => exact held n c hwrapper hheld (unwrap_induction held empty bare c)
  termination_by n.count
  decreasing_by exact count_lt_of_held? hheld

/-- The expression inside casts and parentheses has no more nodes than the whole. -/
theorem count_unwrap_le (n : Node) : n.unwrap.count ≤ n.count := by
  induction n using unwrap_induction with
  | held n c hwrapper hheld ih =>
    rw [unwrap_of_held? hwrapper hheld]
    exact Nat.le_trans ih (Nat.le_of_lt (count_lt_of_held? hheld))
  | empty n _ hheld => exact Nat.le_of_eq (congrArg count (unwrap_of_held?_eq_none hheld))
  | bare n hbare => exact Nat.le_of_eq (congrArg count (unwrap_of_not_isWrapper hbare))

/-- A child in a given part has fewer nodes than its parent. -/
theorem count_lt_of_child?
    {n c : Node}
    {r : Role}
    (h : n.child? r = some c) :
    c.count < n.count :=
  count_lt_of_mem (List.mem_of_find?_eq_some h)

end Wrappers

section Values

/-- The character that an escape of one letter stands for. -/
def simpleEscape? (escaped : List Char) : Option Char :=
  match escaped with
  | ['n'] => some '\n'
  | ['t'] => some '\t'
  | ['r'] => some '\r'
  | ['b'] => some (Char.ofNat 8)
  | ['f'] => some (Char.ofNat 12)
  | ['v'] => some (Char.ofNat 11)
  | ['0'] => some (Char.ofNat 0)
  | _ => none

/-- The text of a part of a string: a fragment stands for itself, and an escape sequence for a
control character or for what follows its backslash. -/
def fragmentText (n : Node) : String :=
  match n.kind with
  | .stringFragment => n.text
  | .escapeSequence =>
    let escaped := n.text.toList.drop 1
    match simpleEscape? escaped with
    | some c => String.singleton c
    | none => String.ofList escaped
  | _ => ""

/-- The text of the fragments of a string. -/
def joinFragments (n : Node) : String :=
  String.join (n.namedChildren.map fragmentText)

/-- The value of a string literal, or of a template without substitutions. -/
def stringValue? (n : Node) : Option String :=
  let n := n.unwrap
  match n.kind with
  | .string => some n.joinFragments
  | .templateString =>
    if n.namedChildren.any fun c => c.kind == .templateSubstitution then none
    else some n.joinFragments
  | _ => none

end Values

end Node

/-- The number that a numeral of the source stands for: hexadecimal with its mark, whole when it has
digits alone, floating-point otherwise. Underscores do not count. -/
def numberValue? (text : String) : Option Value :=
  let cs := text.toList.filter (· != '_')
  let hex? :=
    match cs with
    | '0' :: x :: digits => if x == 'x' || x == 'X' then Numeral.readBase? 16 digits else none
    | _ => none
  match hex? with
  | some n => some (.int n)
  | none =>
    if !cs.isEmpty && cs.all Char.isDigit then (Numeral.readInt? (String.ofList cs)).map .int
    else (Numeral.readFloat? (String.ofList cs)).map .float

/-- The number with the other sign. -/
def negated : Value → Value
  | .int i => .int (-i)
  | .float x => .float x.negate
  | v => v

theorem isScalar_of_numberValue?
    {text : String}
    {v : Value}
    (h : numberValue? text = some v) :
    v.isScalar := by
  unfold numberValue? at h
  dsimp only at h
  split at h
  · obtain rfl := Option.some.inj h
    rfl
  · split at h
    · obtain ⟨i, -, rfl⟩ := Option.map_eq_some_iff.1 h
      rfl
    · obtain ⟨x, -, rfl⟩ := Option.map_eq_some_iff.1 h
      rfl

theorem isScalar_negated
    {v : Value}
    (h : v.isScalar) :
    (negated v).isScalar := by
  unfold negated
  split
  · rfl
  · rfl
  · exact h

namespace Node

section Literals

/-- The value of a literal: a string, a number with or without a minus, a truth value, or one of the
two words for nothing. -/
def literalValue? (n : Node) : Option Value :=
  let n := n.unwrap
  match n.stringValue? with
  | some s => some (.str s)
  | none =>
    match n.kind with
    | .number => numberValue? n.text
    | .trueWord => some (.bool true)
    | .falseWord => some (.bool false)
    | .nullWord | .undefinedWord => some .null
    | .unaryExpression =>
      match n.child? .operator, n.child? .argument with
      | some op, some a =>
        if op.text == "-" && a.kind == .number then (numberValue? a.text).map negated else none
      | _, _ => none
    | _ => none

/-- A literal stands for a value without parts. -/
theorem isScalar_of_literalValue?
    {n : Node}
    {v : Value}
    (h : n.literalValue? = some v) :
    v.isScalar := by
  unfold literalValue? at h
  dsimp only at h
  split at h
  · obtain rfl := Option.some.inj h
    rfl
  · split at h
    · exact isScalar_of_numberValue? h
    · obtain rfl := Option.some.inj h
      rfl
    · obtain rfl := Option.some.inj h
      rfl
    · obtain rfl := Option.some.inj h
      rfl
    · obtain rfl := Option.some.inj h
      rfl
    · split at h
      · split at h
        · obtain ⟨w, hw, rfl⟩ := Option.map_eq_some_iff.1 h
          exact isScalar_negated (isScalar_of_numberValue? hw)
        · cases h
      · cases h
    · cases h

/-- The name of a key of an object, interface or enumeration. -/
def keyName? (n : Node) : Option String :=
  match n.kind with
  | .string | .templateString => n.stringValue?
  | .computedPropertyName =>
    match n.namedChildren with
    | [] => some ""
    | inner :: _ => some (inner.stringValue?.getD inner.text)
  | _ => some n.text

/-- A property of an object: its name, its value, and the entry that it is written as. -/
structure Property where
  name : String
  value : Node
  entry : Node

/-- The property that an entry of an object gives, if it gives one. -/
def property? (n : Node) : Option Property :=
  match n.kind with
  | .pair =>
    match (n.child? .key).bind keyName?, n.child? .value with
    | some name, some value => some ⟨name, value, n⟩
    | _, _ => none
  | .shorthandPropertyIdentifier => some ⟨n.text, n, n⟩
  | _ => none

/-- The properties of an object; spread objects and methods are left out. -/
def properties (n : Node) : List Property :=
  let n := n.unwrap
  if n.kind == .object then n.namedChildren.filterMap property? else []

/-- The value of the first property of a name. -/
def propertyValue?
    (n : Node)
    (name : String) :
    Option Node :=
  (n.properties.find? fun p => p.name == name).map Property.value

end Literals

section Calls

/-- The arguments of a call. -/
def callArguments (n : Node) : List Node :=
  match n.child? .arguments with
  | some args => if args.kind == .arguments then args.parts else []
  | none => []

/-- The text of the property of a member access. -/
def propertyText (n : Node) : String :=
  ((n.child? .property).map text).getD ""

/-- The name that is called: an identifier, or the property of a member access. -/
def calleeName? (n : Node) : Option String :=
  match (n.child? .function).map unwrap with
  | none => none
  | some f =>
    match f.kind with
    | .identifier => some f.text
    | .memberExpression => (f.child? .property).map text
    | _ => none

end Calls

section Functions

/-- Whether the node is a function or a method. -/
def isFunction (n : Node) : Bool :=
  match n.kind with
  | .functionDeclaration | .generatorFunctionDeclaration | .functionExpression | .arrowFunction
  | .generatorFunction | .methodDefinition => true
  | _ => false

/-- The parameters of a function. -/
def parameters (n : Node) : List Node :=
  match n.child? .parameter with
  | some p => [p]
  | none => ((n.child? .parameters).map parts).getD []

/-- The name that a parameter binds, when it is no pattern. -/
def parameterName? (n : Node) : Option String :=
  if n.kind == .identifier then some n.text
  else
    match n.child? .pattern with
    | some p => if p.kind == .identifier then some p.text else none
    | none => none

/-- The names that a pattern binds. The first argument bounds its nesting. -/
def boundNames : Nat → Node → List String
  | 0, _ => []
  | depth + 1, n =>
    match n.kind with
    | .identifier | .shorthandPropertyIdentifierPattern => [n.text]
    | _ =>
      n.namedChildren.flatMap fun c =>
        match c.kind with
        | .identifier | .shorthandPropertyIdentifierPattern => [c.text]
        | .pairPattern => ((c.child? .value).map (boundNames depth)).getD []
        | .objectAssignmentPattern => ((c.child? .left).map (boundNames depth)).getD []
        | .objectPattern | .arrayPattern | .assignmentPattern => boundNames depth c
        | _ => []

/-- The names that a pattern binds, in source order. -/
def patternNames (n : Node) : List String :=
  boundNames n.count n

end Functions

section Decorators

/-- The decorators that are parts of a node. -/
def ownDecorators (n : Node) : List Node :=
  n.children.filter fun c => c.kind == .decorator

/-- The expression of a decorator. -/
def decoratorBody? (n : Node) : Option Node :=
  n.parts.head?

/-- The name of a decorator, with or without a call. -/
def decoratorName? (n : Node) : Option String :=
  match n.decoratorBody? with
  | none => none
  | some e =>
    match e.kind with
    | .callExpression => e.calleeName?
    | .identifier => some e.text
    | .memberExpression => (e.child? .property).map text
    | _ => none

/-- The arguments of a decorator. -/
def decoratorArguments (n : Node) : List Node :=
  match n.decoratorBody? with
  | some e => if e.kind == .callExpression then e.callArguments else []
  | none => []

end Decorators

end Node

end RouteAtlas.Syntax
