import RouteAtlas.Syntax.Grammar.Literals

/-!
# Markup

Rules for the elements of the markup dialect: tags with attributes, text, and expressions in braces.
-/

namespace RouteAtlas.Syntax.Rule

section Names

/-- A name in markup, which may hold dashes. -/
def markupWord : Rule Node :=
  leaf .identifier fun s i =>
    match s.nameEnd? i with
    | some _ => some (s.skipWhile (fun c => Source.isNamePart c || c == '-') i)
    | none => none

/-- The name of an element or attribute: a word, or words with points or a colon between them. -/
def markupName (isAttribute : Bool) : Rule Node := do
  let first ← markupWord
  let simple := if isAttribute then first.withKind .propertyIdentifier else first
  orElse
    (do
      let colon ← token ":"
      let local_ ← markupWord
      build .jsxNamespaceName [first, colon, local_])
    (do
      let more ← if isAttribute then pure [] else many (do
        let dot ← token "."
        let p ← name .propertyIdentifier
        return (dot, p))
      let rec nest : Node → List (Node × Node) → Rule Node
        | acc, [] => return acc
        | acc, (dot, p) :: rest => do
          let next ← build .memberExpression [acc.withRole .object, dot, p.withRole .property]
          nest next rest
      nest simple more)

end Names

section Inside

/-- An expression in braces, which may be left out or spread. -/
def markupExpression (self : Reader) : Rule Node := do
  let l ← token "\x7b"
  let e ← opt (orElse
    (do
      let dots ← token "..."
      let e ← self (.expression true)
      build .spreadElement [dots, e])
    (self (.expressions true)))
  let r ← token "\x7d"
  build .jsxExpression (l :: e ++ [r])

/-- A string in markup, without escape sequences. -/
def markupString : Rule Node := do
  let c ← peek
  guard (c == '"' || c.toNat == 39)
  let q := String.singleton c
  let l ← token q
  let inside ← opt (run .stringFragment fun d => d != c)
  let r ← exactToken q
  build .string (l :: inside ++ [r])

/-- An attribute of an element. -/
def markupAttribute (self : Reader) : Rule Node :=
  orElse (markupExpression self) (do
    let n ← markupName true
    let v ← opt (do
      let e ← token "="
      let v ← oneOf [markupString, markupExpression self, self .element]
      return [e, v])
    build .jsxAttribute (n :: v.flatten))

/-- Text between tags. -/
def markupText : Rule Node :=
  run .jsxText fun c => c != '<' && c != '>' && c != '\x7b' && c != '\x7d'

end Inside

section Elements

/-- The name, type arguments and attributes of an opening tag. -/
def tagInside (self : Reader) : Rule (List Node) := do
  let n ← markupName false
  let tas ← opt (as_ .typeArguments (self .typeArguments))
  let attrs ← many (as_ .attribute (markupAttribute self))
  return n.withRole .name :: tas ++ attrs

/-- An element with what is between its tags. -/
def pairedElement (self : Reader) : Rule Node := do
  let l ← token "<"
  let inside ← opt (tagInside self)
  let r ← token ">"
  let open_ ← build .jsxOpeningElement (l :: inside.flatten ++ [r])
  let children ← many (oneOf [markupText, markupExpression self, do
    refuses (do
      let _ ← token "<"
      token "/")
    self .element])
  let l ← token "<"
  let slash ← token "/"
  let n ← opt (as_ .name (markupName false))
  let r ← token ">"
  let close ← build .jsxClosingElement ([l, slash] ++ n ++ [r])
  build .jsxElement ([open_.withRole .openTag] ++ children ++ [close.withRole .closeTag])

/-- An element. -/
def element (self : Reader) : Rule Node := do
  let (s, _) ← here
  guard (s.dialect == .markup)
  orElse
    (do
      let l ← token "<"
      let inside ← tagInside self
      let slash ← token "/"
      let r ← token ">"
      build .jsxSelfClosingElement (l :: inside ++ [slash, r]))
    (pairedElement self)

end Elements

end RouteAtlas.Syntax.Rule
